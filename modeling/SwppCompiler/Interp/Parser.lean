import SwppCompiler.Interp.Execution
import SwppCompiler.Interp.Grammar

/-!
# The parser

Model of `interpreter/src/parser.cpp`: the parsers of registers, constants and sizes (lines 88–142),
of statements (183–552), and the line machine of `parse` (554–689). A token stream is the list of
tokens it still yields.
-/

namespace SwppCompiler.Interp

open Lib Lib.Regex

/-- How a parse fails: `invoke_syntax_error`, an exception that nothing catches, or a cast to a `Reg`
    that the enumeration lacks. -/
inductive ParseError
  | syntaxError (msg : String)
  | uncaught
  | undefined
deriving DecidableEq, Repr

/-- `invoke_syntax_error`. -/
def syntaxError {α : Type} (msg : String) : Except ParseError α := .error (.syntaxError msg)

/-- The token stream of a line. -/
def stream (instr : Text) : List Text := tokens (replaceAssign instr)

/-- The cast `(Reg)num`. -/
def castReg (num : ℤ) : Except ParseError Reg :=
  if num < 0 then .error .undefined
  else
    match Reg.ofIndex num.toNat with
    | some reg => .ok reg
    | none => .error .undefined

/-- `parser.cpp`, lines 88–104. -/
def parseReg (reg : Text) : Except ParseError Reg :=
  if (seqs [keyword "r", star anyChar]).isMatch reg then
    match stoi (reg.drop 1) with
    | some num => castReg (num - 1)
    | none => .error .uncaught
  else if (seqs [keyword "arg", star anyChar]).isMatch reg then
    match stoi (reg.drop 3) with
    | some num => castReg (15 + num)
    | none => .error .uncaught
  else if reg = "sp".toList then .ok .sp
  else .ok .none

/-- `parser.cpp`, lines 106–114. -/
def parseConst (val : Text) : Except ParseError Word :=
  match stoull val with
  | some ret => .ok ret
  | none => syntaxError "constant out of range"

/-- `parser.cpp`, lines 116–121. -/
def parseValue (val : Text) : Except ParseError Value :=
  if tReg.isMatch val then (parseReg val).map .reg else (parseConst val).map .literal

/-- `parser.cpp`, lines 123–131. -/
def parseMSize (msize : Text) : Except ParseError MSize :=
  if msize = "1".toList then .ok .size1
  else if msize = "2".toList then .ok .size2
  else if msize = "4".toList then .ok .size4
  else if msize = "8".toList then .ok .size8
  else syntaxError "invalid size for memory operations"

/-- `parser.cpp`, lines 133–142. -/
def parseSize (size : Text) : Except ParseError Size :=
  if size = "1".toList then .ok .size1
  else if size = "8".toList then .ok .size8
  else if size = "16".toList then .ok .size16
  else if size = "32".toList then .ok .size32
  else if size = "64".toList then .ok .size64
  else syntaxError "invalid bit width for arithmetic operations"

/-- The names of the binary operations and of the comparisons (`parser.cpp`, lines 338–351,
    376–385). -/
def bopNames : List (String × BopKind) :=
  [("udiv", .udiv), ("sdiv", .sdiv), ("urem", .urem), ("srem", .srem), ("mul", .mul), ("shl", .shl),
    ("lshr", .lshr), ("ashr", .ashr), ("and", .and), ("or", .or), ("xor", .xor), ("add", .add),
    ("sub", .sub)]
@[inherit_doc bopNames] def condNames : List (String × BopKind) :=
  [("eq", .eq), ("ne", .ne), ("ugt", .ugt), ("uge", .uge), ("ult", .ult), ("ule", .ule),
    ("sgt", .sgt), ("sge", .sge), ("slt", .slt), ("sle", .sle)]

/-- The kind of that name. -/
def parseKind (names : List (String × BopKind)) (msg : String) (token : Text) :
    Except ParseError BopKind :=
  match names.find? fun p => p.1.toList = token with
  | some (_, kind) => .ok kind
  | none => syntaxError msg

/-! ## Statements -/

/-- `parser.cpp`, lines 183–196. -/
def parseMalloc (instr : Text) : Except ParseError Stmt := do
  let (token, ss) := nextToken (stream instr) []
  let lhs ← parseReg token
  let (token, ss) := nextToken ss token
  let (token, _) := nextToken ss token
  let val ← parseValue token
  return .malloc lhs val

/-- `parser.cpp`, lines 198–209. -/
def parseFree (instr : Text) : Except ParseError Stmt := do
  let (token, ss) := nextToken (stream instr) []
  let (token, _) := nextToken ss token
  let ptr ← parseValue token
  return .free ptr

/-- `parser.cpp`, lines 211–228. -/
def parseLoad (instr : Text) : Except ParseError Stmt := do
  let (token, ss) := nextToken (stream instr) []
  let lhs ← parseReg token
  let (token, ss) := nextToken ss token
  let (token, ss) := nextToken ss token
  let msize ← parseMSize token
  let (token, ss) := nextToken ss token
  let ptr ← parseValue token
  let (token, _) := nextToken ss token
  let ofs ← parseConst token
  return .load lhs msize ptr ofs

/-- `parser.cpp`, lines 230–247. -/
def parseStore (instr : Text) : Except ParseError Stmt := do
  let (token, ss) := nextToken (stream instr) []
  let (token, ss) := nextToken ss token
  let msize ← parseMSize token
  let (token, ss) := nextToken ss token
  let val ← parseValue token
  let (token, ss) := nextToken ss token
  let ptr ← parseValue token
  let (token, _) := nextToken ss token
  let ofs ← parseConst token
  return .store msize val ptr ofs

/-- `parser.cpp`, lines 249–263. -/
def parseRet (instr : Text) : Except ParseError Stmt :=
  let (_, ss) := nextToken (stream instr) []
  match ss with
  | token :: _ => do
    let val ← parseValue token
    return .ret val
  | [] => .ok (.ret (.literal 0))

/-- `parser.cpp`, lines 265–276. -/
def parseBrUncond (instr : Text) : Except ParseError Stmt :=
  let (token, ss) := nextToken (stream instr) []
  let (bbname, _) := nextToken ss token
  .ok (.brUncond bbname)

/-- `parser.cpp`, lines 278–293. -/
def parseBrCond (instr : Text) : Except ParseError Stmt := do
  let (token, ss) := nextToken (stream instr) []
  let (token, ss) := nextToken ss token
  let cond ← parseValue token
  let (trueBB, ss) := nextToken ss token
  let (falseBB, _) := nextToken ss trueBB
  return .brCond cond trueBB falseBB

/-- The loop of `parse_switch` (`parser.cpp`, lines 306–322). -/
def parseCases (cond : Value) (bbMap : List (Word × Text)) : List Text → Except ParseError Stmt
  | token1 :: token2 :: ss =>
    match parseConst token1 with
    | .error e => .error e
    | .ok val =>
      if (bbMap.lookup val).isSome then syntaxError "duplicated case in switch statement"
      else parseCases cond (bbMap ++ [(val, token2)]) ss
  | [token1] => .ok (.switch cond bbMap token1)
  | [] => .ok (.switch cond bbMap [])

/-- `parser.cpp`, lines 295–325. -/
def parseSwitch (instr : Text) : Except ParseError Stmt := do
  let (token, ss) := nextToken (stream instr) []
  let (token, ss) := nextToken ss token
  let cond ← parseValue token
  parseCases cond [] ss

/-- `parser.cpp`, lines 327–364. -/
def parseBop (instr : Text) : Except ParseError Stmt := do
  let (token, ss) := nextToken (stream instr) []
  let lhs ← parseReg token
  let (token, ss) := nextToken ss token
  let kind ← parseKind bopNames "invalid binary operation" token
  let (token, ss) := nextToken ss token
  let val1 ← parseValue token
  let (token, ss) := nextToken ss token
  let val2 ← parseValue token
  let (token, _) := nextToken ss token
  let size ← parseSize token
  return .bop lhs kind val1 val2 size

/-- `parser.cpp`, lines 366–401. -/
def parseIcmp (instr : Text) : Except ParseError Stmt := do
  let (token, ss) := nextToken (stream instr) []
  let lhs ← parseReg token
  let (token, ss) := nextToken ss token
  let (token, ss) := nextToken ss token
  let kind ← parseKind condNames "invalid comparison" token
  let (token, ss) := nextToken ss token
  let val1 ← parseValue token
  let (token, ss) := nextToken ss token
  let val2 ← parseValue token
  let (token, _) := nextToken ss token
  let size ← parseSize token
  return .bop lhs kind val1 val2 size

/-- `parser.cpp`, lines 403–420. -/
def parseSelect (instr : Text) : Except ParseError Stmt := do
  let (token, ss) := nextToken (stream instr) []
  let lhs ← parseReg token
  let (token, ss) := nextToken ss token
  let (token, ss) := nextToken ss token
  let valCond ← parseValue token
  let (token, ss) := nextToken ss token
  let valTrue ← parseValue token
  let (token, _) := nextToken ss token
  let valFalse ← parseValue token
  return .select lhs valCond valTrue valFalse

/-- The register that a call assigns to, if it begins with one, and what follows `call`. -/
def parseAssign (instr : Text) : Except ParseError (Reg × Text × List Text) :=
  let (token, ss) := nextToken (stream instr) []
  if tReg.isMatch token then do
    let lhs ← parseReg token
    return (lhs, nextToken ss token)
  else .ok (.none, token, ss)

/-- `parser.cpp`, lines 422–445. -/
def parseCall (instr : Text) : Except ParseError Stmt := do
  let (lhs, token, ss) ← parseAssign instr
  let (fname, ss) := nextToken ss token
  let args ← ss.mapM parseValue
  return .call lhs fname args

/-- `parser.cpp`, lines 447–460. -/
def parseAssert (instr : Text) : Except ParseError Stmt := do
  let (token, ss) := nextToken (stream instr) []
  let (token, ss) := nextToken ss token
  let val1 ← parseValue token
  let (token, _) := nextToken ss token
  let val2 ← parseValue token
  return .assert val1 val2

/-- `parser.cpp`, lines 462–480. -/
def parseRead (instr : Text) : Except ParseError Stmt := do
  let (lhs, token, ss) ← parseAssign instr
  let (token, _) := nextToken ss token
  if token = "read".toList then return .read lhs
  else syntaxError "call to read function expected"

/-- `parser.cpp`, lines 482–503. -/
def parseWrite (instr : Text) : Except ParseError Stmt := do
  let (lhs, token, ss) ← parseAssign instr
  let (token, ss) := nextToken ss token
  if token = "write".toList then
    let (token, _) := nextToken ss token
    let val ← parseValue token
    return .write lhs val
  else syntaxError "call to write function expected"

/-- The first parser whose form the line has; `none` is the null pointer. -/
def firstForm : List (Regex Char × (Text → Except ParseError Stmt)) → Text →
    Except ParseError (Option Stmt)
  | [], _ => .ok none
  | (r, f) :: forms, instr => if r.isMatch instr then (f instr).map some else firstForm forms instr

/-- The forms, in the order in which they are tried (`parser.cpp`, lines 505–537, 539–552). -/
def normalForms : List (Regex Char × (Text → Except ParseError Stmt)) :=
  [(rMalloc, parseMalloc), (rFree, parseFree), (rLoad, parseLoad), (rStore, parseStore),
    (rResetStack, fun _ => .ok .resetStack), (rResetHeap, fun _ => .ok .resetHeap),
    (rBop, parseBop), (rIcmp, parseIcmp), (rSelect, parseSelect),
    (rRead, parseRead), (rWrite, parseWrite), (rCall, parseCall), (rAssert, parseAssert)]
@[inherit_doc normalForms] def terminatorForms :
    List (Regex Char × (Text → Except ParseError Stmt)) :=
  [(rRet, parseRet), (rRetVal, parseRet), (rBrUncond, parseBrUncond), (rBrCond, parseBrCond),
    (rSwitch, parseSwitch)]

/-- `parser.cpp`, lines 505–537. -/
def parseNormalStmt (instr : Text) : Except ParseError (Option Stmt) := firstForm normalForms instr

/-- `parser.cpp`, lines 539–552. -/
def parseTerminator (instr : Text) : Except ParseError (Option Stmt) :=
  firstForm terminatorForms instr

/-! ## Programs -/

/-- `parser.cpp`, lines 144–159. -/
def parseStartFunction (instr : Text) : Except ParseError Function :=
  let (token, ss) := nextToken (stream instr) []
  let (fname, ss) := nextToken ss []
  let (token, _) := nextToken ss token
  match stoi token with
  | some nargs => .ok ⟨fname, nargs.toNat, [], []⟩
  | none => .error .uncaught

/-- `parser.cpp`, lines 161–171. -/
def parseEndFunction (instr fname : Text) : Bool :=
  let (token, ss) := nextToken (stream instr) []
  let (token, _) := nextToken ss token
  token = fname

/-- `parser.cpp`, lines 173–181. -/
def parseBBName (instr : Text) : Text :=
  let (token, _) := nextToken (stream instr) []
  token.dropLast

/-- `enum ParserState` (`parser.cpp`, lines 79–86). -/
inductive ParserState
  | psBegin | psStartFunction | psStartBB | psNormal | psEndBB | psEndFunction
deriving DecidableEq, Repr

/-- The variables of `parse`. `curr_function` is the first of `functions`, the one set last;
    `curr_bb` and `prev_stmt` are not read before they are set. -/
structure Parsing where
  state : ParserState
  nodes : List Node
  functions : List Function
  currBB : Text
  prevStmt : ℕ

/-- Before the first line. -/
def Parsing.init : Parsing := ⟨.psBegin, [], [], [], 0⟩

/-- `set_function` (`program.cpp`, lines 13–19); `none` stands for `false`. -/
def setFunction (functions : List Function) (f : Function) : Option (List Function) :=
  match functions.find? fun g => g.fname = f.fname with
  | some _ => none
  | none => some (f :: functions)

/-- A new statement; its place is the length of `nodes` before. -/
def Parsing.create (c : Parsing) (line : ℕ) (stmt : Stmt) : Parsing :=
  { c with nodes := c.nodes ++ [⟨line, stmt, none⟩] }

/-- `prev_stmt->set_next(curr_stmt)`, for the statement at `p`. -/
def Parsing.setNext (c : Parsing) (p : ℕ) : Parsing :=
  { c with nodes := c.nodes.modify c.prevStmt fun n => { n with next := some p } }

/-- A line in the states `PSBegin` and `PSEndFunction` (`parser.cpp`, lines 578–590, 661–671). In
    the former no function is set yet, and `set_function` succeeds. -/
def Parsing.startLine (c : Parsing) (instr : Text) : Except ParseError Parsing :=
  if rStartFunction.isMatch instr then do
    let f ← parseStartFunction instr
    if f.fname = "read".toList ∨ f.fname = "write".toList then syntaxError "duplicated function name"
    else
      match setFunction c.functions f with
      | some functions => .ok { c with functions := functions, state := .psStartFunction }
      | none => syntaxError "duplicated function name"
  else syntaxError "start of a function expected"

/-- A line in the state `PSStartFunction` (`parser.cpp`, lines 592–600). -/
def Parsing.headerLine (c : Parsing) (instr : Text) : Except ParseError Parsing :=
  if rBBStart.isMatch instr then
    let currBB := parseBBName instr
    match c.functions with
    | f :: fs =>
      .ok { c with currBB := currBB, functions := { f with firstBB := currBB } :: fs,
                   state := .psStartBB }
    | [] => .error .undefined
  else syntaxError "start of a basic block expected"

/-- A line in the state `PSStartBB` (`parser.cpp`, lines 602–621). A block that begins with a
    terminator is registered without a look at what `set_bb` returns. -/
def Parsing.firstLine (c : Parsing) (line : ℕ) (instr : Text) : Except ParseError Parsing := do
  let p := c.nodes.length
  match c.functions with
  | [] => .error .undefined
  | f :: fs =>
    match ← parseNormalStmt instr with
    | some stmt =>
      match f.setBB c.currBB p with
      | some f =>
        .ok { c.create line stmt with functions := f :: fs, prevStmt := p, state := .psNormal }
      | none => syntaxError "duplicated basic block"
    | none =>
      match ← parseTerminator instr with
      | some stmt =>
        .ok { c.create line stmt with functions := (f.setBB c.currBB p).getD f :: fs,
                                      state := .psEndBB }
      | none => syntaxError "instruction expected"

/-- A line in the state `PSNormal` (`parser.cpp`, lines 623–641). -/
def Parsing.nextLine (c : Parsing) (line : ℕ) (instr : Text) : Except ParseError Parsing := do
  let p := c.nodes.length
  match ← parseNormalStmt instr with
  | some stmt => .ok { (c.create line stmt).setNext p with prevStmt := p, state := .psNormal }
  | none =>
    match ← parseTerminator instr with
    | some stmt => .ok { (c.create line stmt).setNext p with state := .psEndBB }
    | none => syntaxError "instruction expected"

/-- A line in the state `PSEndBB` (`parser.cpp`, lines 643–659). -/
def Parsing.blockLine (c : Parsing) (instr : Text) : Except ParseError Parsing :=
  if rBBStart.isMatch instr then .ok { c with currBB := parseBBName instr, state := .psStartBB }
  else if rEndFunction.isMatch instr then
    match c.functions with
    | f :: _ =>
      if parseEndFunction instr f.fname then .ok { c with state := .psEndFunction }
      else syntaxError "unmatching function name"
    | [] => .error .undefined
  else syntaxError "bbname or end of function expected"

/-- One line that is neither blank nor a comment (`parser.cpp`, lines 576–672). -/
def Parsing.parseLine (c : Parsing) (line : ℕ × Text) : Except ParseError Parsing :=
  match c.state with
  | .psBegin | .psEndFunction => c.startLine line.2
  | .psStartFunction => c.headerLine line.2
  | .psStartBB => c.firstLine line.1 line.2
  | .psNormal => c.nextLine line.1 line.2
  | .psEndBB => c.blockLine line.2

/-- The lines with their numbers, without blank lines and comments (`parser.cpp`, lines 570–574). -/
def significant (input : Text) : List (ℕ × Text) :=
  ((getlines input).zipIdx 1).filterMap fun (instr, line) =>
    if (oneOf [tESpace, rComment]).isMatch instr then none else some (line, instr)

/-- `parse` of a file's contents (`parser.cpp`, lines 554–689). -/
def parse (input : Text) : Except ParseError Program := do
  let c ← (significant input).foldlM Parsing.parseLine .init
  if c.state ≠ .psEndFunction then syntaxError "function not ended"
  else
    let P : Program := ⟨c.nodes, c.functions⟩
    match P.getFunction "main".toList with
    | none => syntaxError "missing main function"
    | some f =>
      if f.nargs ≠ 0 then syntaxError "main function should take 0 arguments" else .ok P

end SwppCompiler.Interp
