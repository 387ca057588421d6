import SwppCompiler.Interp.Access
import SwppCompiler.Interp.Text

/-!
# Statements

Model of the interpreter's registers (`interpreter/src/reg.h`, `regfile.cpp`, `value.cpp`), of its
statements (`stmt.h`, `stmt.cpp`), and of what `exec` does to the state. An execution that stops early
leaves the state in which it stopped.
-/

namespace SwppCompiler.Interp

/-- `enum Reg`. -/
inductive Reg
  | r (i : Fin 16)
  | a (i : Fin 16)
  | sp
  | none
deriving DecidableEq, Repr

/-- The number of a register in the enumeration. -/
def Reg.index : Reg → ℕ
  | .r i => i
  | .a i => 16 + i
  | .sp => 32
  | .none => 33

/-- The cast `(Reg)n`; a number outside the enumeration is none of its values. -/
def Reg.ofIndex (n : ℕ) : Option Reg :=
  if h : n < 16 then some (.r ⟨n, h⟩)
  else if h : n - 16 < 16 then some (.a ⟨n - 16, h⟩)
  else if n = 32 then some .sp
  else if n = 33 then some .none
  else Option.none

/-- `RegFile`. -/
structure RegFile where
  regfile : Reg → Word
  nargs : ℕ

/-- The constructor (`regfile.cpp`, lines 10–14). -/
def RegFile.init : RegFile :=
  ⟨fun reg => if reg = .sp then BitVec.ofNat 64 stackMax else 0, 0⟩

/-- `set_nargs` (`regfile.cpp`, line 16). -/
def RegFile.setNargs (f : RegFile) (nargs : ℕ) : RegFile := { f with nargs := nargs }

/-- `set_value` (`regfile.cpp`, lines 18–22). -/
def RegFile.setValue (f : RegFile) (reg : Reg) (val : Word) : RegFile :=
  if reg = .none then f else { f with regfile := Function.update f.regfile reg val }

/-- `read_reg` (`regfile.cpp`, lines 24–30). -/
def RegFile.readReg (f : RegFile) (reg : Reg) : Except Stop Word :=
  if 16 + f.nargs ≤ reg.index ∧ reg.index ≤ 31 then
    .error (.runtimeError "reading out-of-range argument")
  else if reg = .none then .error (.runtimeError "reading an unknown register")
  else .ok (f.regfile reg)

/-- `write_reg` (`regfile.cpp`, lines 32–38). -/
def RegFile.writeReg (f : RegFile) (reg : Reg) (val : Word) : Except Stop RegFile :=
  if reg = .none then .ok f
  else if 16 ≤ reg.index ∧ reg.index ≤ 31 then
    .error (.runtimeError "writing to a read-only register")
  else .ok { f with regfile := Function.update f.regfile reg val }

/-- `Value`. -/
inductive Value
  | reg (r : Reg)
  | literal (w : Word)
deriving DecidableEq, Repr

/-- `get_value` (`value.cpp`, lines 8–13). -/
def Value.getValue (f : RegFile) : Value → Except Stop Word
  | .reg r => f.readReg r
  | .literal w => .ok w

/-- The statements. The cases of a `switch` are in the order of their insertion. -/
inductive Stmt
  | malloc (lhs : Reg) (val : Value)
  | free (ptr : Value)
  | load (lhs : Reg) (size : MSize) (ptr : Value) (ofs : Word)
  | store (size : MSize) (val ptr : Value) (ofs : Word)
  | resetStack
  | resetHeap
  | ret (val : Value)
  | brUncond (bb : Text)
  | brCond (cond : Value) (trueBB falseBB : Text)
  | switch (cond : Value) (bbMap : List (Word × Text)) (defaultBB : Text)
  | bop (lhs : Reg) (kind : BopKind) (val1 val2 : Value) (size : Size)
  | select (lhs : Reg) (cond valTrue valFalse : Value)
  | call (lhs : Reg) (fname : Text) (args : List Value)
  | assert (op1 op2 : Value)
  | read (lhs : Reg)
  | write (lhs : Reg) (val : Value)
deriving DecidableEq, Repr

/-- The statements that `parse_terminator` makes. -/
def Stmt.isTerminator : Stmt → Bool
  | .ret _ | .brUncond _ | .brCond _ _ _ | .switch _ _ _ => true
  | _ => false

/-- `State`, with the tokens that are left of the input and the numbers written. -/
structure State where
  regfile : RegFile
  memory : Memory
  cost : ℚ
  input : List Text
  output : List Word

/-- The state before `main`. -/
def State.init (input : List Text) : State := ⟨.init, .init, 0, input, []⟩

/-- Code that changes the state, and may end the execution. -/
abbrev Exec (α : Type) := ExceptT Stop (StateM State) α

/-- `get_value` and the other functions that only look. -/
def look {α : Type} (f : State → Except Stop α) : Exec α := do
  match f (← get) with
  | .ok v => pure v
  | .error e => throw e

theorem run_look {α : Type} (f : State → Except Stop α) (s : State) : (look f).run s = (f s, s) := by
  show (match f s with | .ok v => _ | .error e => _ : Exec α).run s = _
  cases f s <;> rfl

/-- `regfile.write_reg`. -/
def writeReg (reg : Reg) (val : Word) : Exec Unit := do
  let f ← look fun s => s.regfile.writeReg reg val
  modify fun s => { s with regfile := f }

/-- `get_value`. -/
def getValue (v : Value) : Exec Word := look fun s => v.getValue s.regfile

/-- The memory after an operation. -/
def setMemory (m : Memory) : Exec Unit := modify fun s => { s with memory := m }

/-- `cost += c`. -/
def addCost (c : ℚ) : Exec Unit := modify fun s => { s with cost := s.cost + c }

/-- `class Cost` (`opcode.h`, lines 81–99): the costs of the other statements. -/
def Cost.terminator : ℚ := 1
@[inherit_doc Cost.terminator] def Cost.ternary : ℚ := 12 / 10
@[inherit_doc Cost.terminator] def Cost.call : ℚ := 2
@[inherit_doc Cost.terminator] def Cost.perArg : ℚ := 1
@[inherit_doc Cost.terminator] def Cost.assert : ℚ := 0

/-- `cost_of` (`stmt.cpp`, lines 358–388). -/
def costOf : BopKind → ℚ
  | .udiv | .sdiv | .urem | .srem | .mul => 6 / 10
  | .shl | .lshr | .ashr | .and | .or | .xor => 8 / 10
  | .add | .sub => 12 / 10
  | _ => 1

/-- `compute`, whose division of two `int64_t` may overflow. -/
def computeStop (kind : BopKind) (size : Size) (op1 op2 : Word) : Except Stop Word :=
  match compute kind size op1 op2 with
  | .ok w => .ok w
  | .error .divisionByZero => .error (.runtimeError "division by zero")
  | .error .hostOverflow => .error .undefined

/-- `exec` of the statement (`stmt.cpp`), and `cost +=` what it returns (`state.cpp`, line 95). The
    terminators and `StmtCall` do nothing here. -/
def Stmt.exec (calloc : Heap → Word → Bool) : Stmt → Exec Unit
  | .malloc lhs val => do
    let size ← getValue val
    let (addr, cost, m) ← look fun s => s.memory.execMalloc calloc size
    setMemory m
    writeReg lhs addr
    addCost cost
  | .free ptr => do
    let addr ← getValue ptr
    let (cost, m) ← look fun s => s.memory.execFree addr
    setMemory m
    addCost cost
  | .load lhs size ptr ofs => do
    let addr := (← getValue ptr) + ofs
    let (result, cost, m) ← look fun s => s.memory.execLoad size addr
    setMemory m
    writeReg lhs result
    addCost cost
  | .store size val ptr ofs => do
    let addr := (← getValue ptr) + ofs
    let v ← getValue val
    let (cost, m) ← look fun s => s.memory.execStore size addr v
    setMemory m
    addCost cost
  | .resetStack => do
    let (cost, m) ← look fun s => .ok s.memory.execResetStack
    setMemory m
    addCost cost
  | .resetHeap => do
    let (cost, m) ← look fun s => .ok s.memory.execResetHeap
    setMemory m
    addCost cost
  | .bop lhs kind val1 val2 size => do
    let op1 ← getValue val1
    let op2 ← getValue val2
    let res ← look fun _ => computeStop kind size op1 op2
    writeReg lhs res
    addCost (costOf kind)
  | .select lhs cond valTrue valFalse => do
    let vCond ← getValue cond
    let vTrue ← getValue valTrue
    let vFalse ← getValue valFalse
    writeReg lhs (if vCond ≠ 0 then vTrue else vFalse)
    addCost Cost.ternary
  | .assert op1 op2 => do
    let val1 ← getValue op1
    let val2 ← getValue op2
    if val1 = val2 then addCost Cost.assert else throw .assertionFailed
  | .read lhs => do
    let (token, input) ← look fun s => .ok (nextToken s.input [])
    modify fun s => { s with input := input }
    match stoull token with
    | some result => do
      writeReg lhs result
      addCost Cost.call
    | none => throw (.runtimeError "invalid input")
  | .write lhs val => do
    let result ← getValue val
    modify fun s => { s with output := s.output ++ [result] }
    writeReg lhs 0
    addCost (Cost.call + Cost.perArg)
  | .ret _ | .brUncond _ | .brCond _ _ _ | .switch _ _ _ | .call _ _ _ => pure ()

end SwppCompiler.Interp
