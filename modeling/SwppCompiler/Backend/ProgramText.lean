import SwppCompiler.Backend.AllocaBytes
import SwppCompiler.Backend.Globals
import SwppCompiler.Backend.RoundTrip
import SwppCompiler.Interp.Reading

/-!
# The text of a program

Model of what `AssemblyEmitter::run` prints (`src/core/AssemblyEmitter.cpp`, lines 540–587) of the
`FnBody` that the visitors fill (lines 180–202, 258–271): a file of functions, each with its labels, its
prologue and its lines.

* `run_text`: each printed function has the lines that the interpreter expects of one.
* `parse_run`: the interpreter accepts a printed file, and its program has the functions of the module,
  with the statements of each block under the name of the block.
-/

namespace SwppCompiler.Backend.Printing

open Interp Interp.Reading Lib Lib.Regex AllocaBytes

/-! ## What the visitors leave in `FnBody` -/

/-- What a comment says. -/
abbrev CommentText := {s : Text // ∀ c ∈ s, c ≠ '\n' ∧ c ≠ '\r'}

/-- A line between two labels: `emitAssembly(";", {ops})`, an instruction, or a call of one of the
    two functions that the interpreter has. -/
inductive BodyLine
  | comment (ops : CommentText)
  | inst (i : AsmInst)
  | read (dest : Option AsmReg)
  | write (dest : Option AsmReg) (val : AsmOperand)

/-- The element of `FnBody`. -/
def BodyLine.print : BodyLine → Text
  | .comment ops => emitAssembly ";".toList [ops.val]
  | .inst i => i.emit
  | .read dest => emitLibraryCall dest "read" []
  | .write dest val => emitLibraryCall dest "write" [val]

/-- The statement that the line stands for. -/
def BodyLine.stmt? : BodyLine → Option Stmt
  | .comment _ => none
  | .inst i => some i.stmt
  | .read dest => some (.read ((dest.map Subtype.val).getD .none))
  | .write dest val => some (.write ((dest.map Subtype.val).getD .none) val.value)

/-- A block; the terminator is its last line. -/
structure AsmBlock where
  name : Name
  body : List BodyLine
  term : AsmInst
  normal : ∀ i, BodyLine.inst i ∈ body → i.stmt.isTerminator = false
  last : term.stmt.isTerminator = true

/-- What `visitBasicBlock` and the visitors of its instructions append. -/
def AsmBlock.lines (B : AsmBlock) : List Text :=
  (B.name.bb ++ ":".toList) :: (B.body.map BodyLine.print ++ [B.term.emit])

/-- A function of the depromoted module, after `Em.visit(F)`. There are 16 registers for arguments; no
    two blocks have the same name. -/
structure AsmFunction where
  name : Callee
  argSize : Fin 17
  blocks : List AsmBlock
  usedStackSize : BitVec 32
  names : (blocks.map AsmBlock.name).Nodup

/-- `FnBody`. -/
def AsmFunction.fnBody (f : AsmFunction) : List Text := f.blocks.flatMap AsmBlock.lines

/-- A function of the module. -/
inductive TgtFunction
  | declaration (name : Text)
  | definition (f : AsmFunction)

/-- The names of the declarations, in which the size of the global variables is handed over. -/
def TgtFunction.declared : TgtFunction → Option Text
  | .declaration name => some name
  | .definition _ => none

/-! ## What `run` prints -/

/-- A label begins a paragraph; the other lines are indented (`AssemblyEmitter.cpp`, lines 575–583). -/
def bodyLines (line : Text) : List Text :=
  if line.head? = some '.' then [[], "  ".toList ++ line] else ["    ".toList ++ line]

/-- The lines that set `sp` (`AssemblyEmitter.cpp`, lines 569–573). -/
def initSP (used : BitVec 32) : List Text :=
  if used ≠ 0 then
    ["    ; init sp!".toList,
      "    sp = sub sp ".toList ++ Interp.toString used.toNat ++ " 64".toList]
  else []

/-- The lines of a function (`AssemblyEmitter.cpp`, lines 554–557, 568–586). -/
def functionLines (f : AsmFunction) (used : BitVec 32) : List Text :=
  [[], "; Function ".toList ++ f.name.val.val,
    "start ".toList ++ f.name.val.val ++ " ".toList ++ Interp.toString f.argSize ++ ":".toList] ++
    (match f.fnBody with
      | [] => []
      | first :: rest => ["  ".toList ++ first] ++ initSP used ++ rest.flatMap bodyLines) ++
    ["end ".toList ++ f.name.val.val]

/-- The frame of `main` has the global variables in it (`AssemblyEmitter.cpp`, lines 559–560). -/
def frameSize (gvStackUsage : BitVec 32) (f : AsmFunction) : BitVec 32 :=
  if f.name.val.val = "main".toList then f.usedStackSize + gvStackUsage else f.usedStackSize

/-- The functions that are printed. -/
def isPrinted (f : AsmFunction) : Bool := f.name.val.val ≠ getSPName.toList

/-- The loop of `run` (`AssemblyEmitter.cpp`, lines 550–587); `none` is a failed assertion or an
    error. -/
def runFrom (gvStackUsage total : BitVec 32) : List TgtFunction → Option Text
  | [] => some []
  | .declaration _ :: fs => runFrom gvStackUsage total fs
  | .definition f :: fs =>
    if isPrinted f then
      let used := frameSize gvStackUsage f
      if f.fnBody = [] ∨ 10240 ≤ used ∨ 10240 ≤ total + used then none
      else (runFrom gvStackUsage (total + used) fs).map (unlines (functionLines f used) ++ ·)
    else runFrom gvStackUsage total fs

/-- `AssemblyEmitter::run`. -/
def run (M : List TgtFunction) : Option Text :=
  runFrom (gvStackUsage (M.filterMap TgtFunction.declared)) 0 M

/-! ## The program that is meant -/

/-- The statements of a block. -/
def AsmBlock.stmts (B : AsmBlock) : List Stmt :=
  (B.body.map BodyLine.stmt?).reduceOption ++ [B.term.stmt]

/-- The statement that sets `sp`. -/
def prologue (used : BitVec 32) : List Stmt :=
  if used ≠ 0 then [.bop .sp .sub (.reg .sp) (.literal (used.setWidth 64)) .size64] else []

/-- The function that is meant. -/
def AsmFunction.code (f : AsmFunction) (used : BitVec 32) : FuncCode where
  fname := f.name.val.val
  nargs := f.argSize
  blocks :=
    match f.blocks with
    | [] => []
    | B :: Bs =>
      (B.name.bb, prologue used ++ B.stmts) :: Bs.map fun B => (B.name.bb, B.stmts)

/-- The definition that is printed, if it is one. -/
def TgtFunction.printed? : TgtFunction → Option AsmFunction
  | .definition f => if isPrinted f then some f else none
  | .declaration _ => none

/-- The functions that are printed, in order. -/
def printed (M : List TgtFunction) : List AsmFunction := M.filterMap TgtFunction.printed?

/-- The program that is meant. -/
def code (M : List TgtFunction) : List FuncCode :=
  (printed M).map fun f =>
    f.code (frameSize (gvStackUsage (M.filterMap TgtFunction.declared)) f)

/-! ## Lines of instructions -/

/-- A character that no line of an instruction begins with is a blank, `;` or `.`. -/
def Begins (s : Text) : Prop := ∃ c t, s = c :: t ∧ isSpace c = false ∧ c ≠ ';' ∧ c ≠ '.'

theorem begins_append {s t : Text} (h : Begins s) : Begins (s ++ t) := by
  obtain ⟨c, u, rfl, hc⟩ := h
  exact ⟨c, u ++ t, rfl, hc⟩

theorem begins_printReg (reg : AsmReg) : Begins (printReg reg) := by
  obtain ⟨reg, hne⟩ := reg
  cases reg with
  | r i => exact ⟨'r', _, rfl, by decide⟩
  | a i => exact ⟨'a', _, rfl, by decide⟩
  | sp => exact ⟨'s', _, rfl, by decide⟩
  | none => exact absurd rfl hne

theorem begins_to (dest : AsmReg) (cmd : Text) (ops : List Text) :
    Begins (emitAssemblyTo (printReg dest) cmd ops) :=
  begins_append (begins_append (begins_printReg dest))

theorem begins_emit (i : AsmInst) : Begins i.emit := by
  cases i with
  | call dest fn args =>
    cases dest with
    | some dest => exact begins_to _ _ _
    | none => exact ⟨'c', _, rfl, by decide⟩
  | load _ _ _ _ | binary _ _ _ _ _ | icmp _ _ _ _ _ | select _ _ _ _ | malloc _ _ =>
    exact begins_to _ _ _
  | store _ _ _ _ => exact ⟨'s', _, rfl, by decide⟩
  | free _ => exact ⟨'f', _, rfl, by decide⟩
  | resetStack | resetHeap | ret _ => exact ⟨'r', _, rfl, by decide⟩
  | br _ | condBr _ _ _ => exact ⟨'b', _, rfl, by decide⟩
  | switch _ _ _ => exact ⟨'s', _, rfl, by decide⟩

theorem begins_libraryCall (dest : Option AsmReg) (fn : String) (args : List AsmOperand) :
    Begins (emitLibraryCall dest fn args) := by
  cases dest with
  | some dest => exact begins_to _ _ _
  | none => exact ⟨'c', _, rfl, by decide⟩

/-- The end of a line separates words. -/
theorem newline_not_mem_of_isWord {w : Text} (h : IsWord isSep w) : '\n' ∉ w := fun hmem => by
  have := h.2 _ hmem
  revert this
  decide

theorem newline_not_mem_emitAssembly {w : Text} {ws : List Text}
    (h : ∀ v ∈ w :: ws, IsWord isSep v) : '\n' ∉ emitAssembly w ws := by
  obtain ⟨hw, hws⟩ := List.forall_mem_cons.mp h
  intro hmem
  rcases List.mem_append.mp hmem with hmem | hmem
  · exact newline_not_mem_of_isWord hw hmem
  · obtain ⟨v, hv, hmem⟩ := List.mem_flatMap.mp hmem
    rcases List.mem_cons.mp hmem with heq | hmem
    · cases heq
    · exact newline_not_mem_of_isWord (hws v hv) hmem

theorem newline_not_mem_to {dest : AsmReg} {w : Text} {ws : List Text}
    (h : ∀ v ∈ w :: ws, IsWord isSep v) : '\n' ∉ emitAssemblyTo (printReg dest) w ws := by
  intro hmem
  rcases List.mem_append.mp hmem with hmem | hmem
  · rcases List.mem_append.mp hmem with hmem | hmem
    · exact newline_not_mem_of_isWord (wordRe_tReg _ (dest_mem dest)) hmem
    · revert hmem
      decide
  · exact newline_not_mem_emitAssembly h hmem

/-- The same for a line that begins with a fixed word. -/
theorem newline_not_mem_keyword {k : String} {ws : List Text} (hk : k ∈ keywords)
    (h : ∀ v ∈ ws, IsWord isSep v) : '\n' ∉ emitAssembly k.toList ws :=
  newline_not_mem_emitAssembly (List.forall_mem_cons.mpr ⟨isWord_keywords k hk, h⟩)

theorem newline_not_mem_keyword_to {dest : AsmReg} {k : String} {ws : List Text} (hk : k ∈ keywords)
    (h : ∀ v ∈ ws, IsWord isSep v) : '\n' ∉ emitAssemblyTo (printReg dest) k.toList ws :=
  newline_not_mem_to (List.forall_mem_cons.mpr ⟨isWord_keywords k hk, h⟩)

theorem newline_not_mem_emit (i : AsmInst) : '\n' ∉ i.emit := by
  cases i with
  | load dest sz ptr ofs =>
    apply newline_not_mem_keyword_to (by simp [keywords])
    simp [(token_msize sz).2, (token_print ptr).2, (token_constText ofs).2]
  | store sz val ptr ofs =>
    apply newline_not_mem_keyword (by simp [keywords])
    simp [(token_msize sz).2, (token_print val).2, (token_print ptr).2, (token_constText ofs).2]
  | binary dest op op1 op2 sz =>
    apply newline_not_mem_to
    simp [(token_cmd op).2, (token_print op1).2, (token_print op2).2, (token_size sz).2]
  | icmp dest pred op1 op2 sz =>
    apply newline_not_mem_keyword_to (by simp [keywords])
    simp [(token_predicate pred).2, (token_print op1).2, (token_print op2).2, (token_size sz).2]
  | select dest op1 op2 op3 =>
    apply newline_not_mem_keyword_to (by simp [keywords])
    simp [(token_print op1).2, (token_print op2).2, (token_print op3).2]
  | malloc dest size =>
    apply newline_not_mem_keyword_to (by simp [keywords])
    simp [(token_print size).2]
  | free ptr =>
    apply newline_not_mem_keyword (by simp [keywords])
    simp [(token_print ptr).2]
  | call dest fn args =>
    cases dest with
    | some dest => exact newline_not_mem_to (isWord_call fn args)
    | none => exact newline_not_mem_emitAssembly (isWord_call fn args)
  | resetStack | resetHeap => decide
  | ret val =>
    apply newline_not_mem_keyword (by simp [keywords])
    simp [(token_print val).2]
  | br succ =>
    apply newline_not_mem_keyword (by simp [keywords])
    simp [(token_bb succ).2]
  | condBr cond succ0 succ1 =>
    apply newline_not_mem_keyword (by simp [keywords])
    simp [(token_print cond).2, (token_bb succ0).2, (token_bb succ1).2]
  | switch cond cases default => exact newline_not_mem_emitAssembly (isWord_switch cond cases default)

theorem newline_not_mem_libraryCall (dest : Option AsmReg) {fn : String} (hfn : fn ∈ keywords)
    (args : List AsmOperand) : '\n' ∉ emitLibraryCall dest fn args := by
  cases dest with
  | some dest => exact newline_not_mem_to (isWord_libraryCall hfn)
  | none => exact newline_not_mem_emitAssembly (isWord_libraryCall hfn)

/-! ## Lines of the text -/

/-- A line that is not indented. -/
theorem noBlanks : ∀ c ∈ ([] : Text), isSpace c = true := by simp

/-- The blanks before a line. -/
theorem blanks (n : ℕ) : ∀ c ∈ List.replicate n ' ', isSpace c = true := fun c hc => by
  rw [List.eq_of_mem_replicate hc]
  decide

section

variable {i : AsmInst} {f : AsmFunction} {used : BitVec 32}

theorem not_skipped_of_begins {t : Text} (h : Begins t) : ¬Skipped ("    ".toList ++ t) := by
  obtain ⟨c, t, rfl, hc, hne, -⟩ := h
  exact not_skipped (blanks 4) hc hne

theorem denotes_inst (h : i.stmt.isTerminator = false) :
    Denotes ("    ".toList ++ i.emit) (some i.stmt) := by
  have hparse := parseNormalStmt_emit i (blanks 4)
  rw [h] at hparse
  exact ⟨not_skipped_of_begins (begins_emit i), hparse⟩

theorem lastLine_inst (h : i.stmt.isTerminator = true) :
    LastLine ("    ".toList ++ i.emit) i.stmt := by
  have hparse := parseNormalStmt_emit i (blanks 4)
  rw [h] at hparse
  exact ⟨not_skipped_of_begins (begins_emit i), hparse, parseTerminator_emit i (blanks 4) h⟩

theorem denotes_print {l : BodyLine} (h : ∀ i, l = .inst i → i.stmt.isTerminator = false) :
    Denotes ("    ".toList ++ l.print) l.stmt? := by
  cases l with
  | comment ops =>
    refine skipped_comment (blanks 4) fun c hc => ?_
    obtain ⟨w, hw, hc⟩ := List.mem_flatMap.mp hc
    rw [List.mem_singleton.mp hw] at hc
    rcases List.mem_cons.mp hc with rfl | hc
    · decide
    · exact ops.2 c hc
  | inst i => exact denotes_inst (h i rfl)
  | read dest =>
    exact ⟨not_skipped_of_begins (begins_libraryCall dest _ _), parse_readCall (blanks 4) dest⟩
  | write dest val =>
    exact ⟨not_skipped_of_begins (begins_libraryCall dest _ _),
      parse_writeCall (blanks 4) dest val⟩

/-- No line of a block but the label begins with a dot. -/
theorem bodyLines_print (l : BodyLine) : bodyLines l.print = ["    ".toList ++ l.print] := by
  have hdot : ∀ {t : Text}, Begins t → t.head? ≠ some '.' := by
    rintro t ⟨c, t, rfl, -, -, hne⟩ h
    exact hne (Option.some.inj h)
  refine if_neg fun h => ?_
  cases l with
  | comment ops => cases h
  | inst i => exact hdot (begins_emit i) h
  | read dest | write dest val => exact hdot (begins_libraryCall dest _ _) h

/-! ### Labels -/

theorem isWord_label (name : Name) : IsWord isSep (name.bb ++ ":".toList) := by
  refine ⟨List.append_ne_nil_of_right_ne_nil _ (List.cons_ne_nil _ _), fun c hc => ?_⟩
  rcases List.mem_append.mp hc with hc | hc
  · exact (token_bb name).2.2 c hc
  · rw [List.mem_singleton.mp hc]
    decide

theorem headerLine (name : Name) :
    HeaderLine ("  ".toList ++ (name.bb ++ ":".toList)) name.bb where
  notSkipped := not_skipped (blanks 2) (by decide) (by decide)
  mem := by
    refine mem_spaced.mpr ⟨_, name.bb ++ ":".toList, [], blanks 2, ?_, by simp, by simp⟩
    refine mem_seqs_cons.mpr ⟨_, (token_bb name).1, ":".toList, ?_, rfl⟩
    exact mem_seqs_cons.mpr ⟨[], mem_tESpace.mpr (by simp), ":".toList,
      mem_seqs_singleton.mpr (mem_keyword.mpr rfl), rfl⟩
  name := by
    have hwords : words isSep ("  ".toList ++ emitAssembly (name.bb ++ ":".toList) []) =
        [name.bb ++ ":".toList] :=
      line_words (blanks 2) (List.forall_mem_singleton.mpr (isWord_label name))
    rw [emitAssembly, List.flatMap_nil, List.append_nil] at hwords
    rw [parseBBName, stream_eq, hwords]
    exact List.dropLast_concat

/-! ### The lines around the body -/

/-- The words of the line that starts a function. -/
def startWords (f : AsmFunction) : List Text :=
  [f.name.val.val, Interp.toString f.argSize ++ ":".toList]

theorem start_eq (f : AsmFunction) :
    "start ".toList ++ f.name.val.val ++ " ".toList ++ Interp.toString f.argSize ++ ":".toList =
      emitAssembly "start".toList (startWords f) := by
  simp [emitAssembly, startWords]

theorem isWord_start (f : AsmFunction) : ∀ v ∈ "start".toList :: startWords f, IsWord isSep v := by
  refine List.forall_mem_cons.mpr ⟨isWord_keywords _ (by simp [keywords]), ?_⟩
  exact List.forall_mem_cons.mpr ⟨(token_name f.name.val).2,
    List.forall_mem_singleton.mpr (isWord_argN f.argSize).2⟩

theorem start_mem (f : AsmFunction) : emitAssembly "start".toList (startWords f) ∈ rStartFunction.lang := by
  refine mem_spaced.mpr ⟨[], _, [], by simp, ?_, by simp, List.append_nil _⟩
  refine mem_seqs_cons.mpr ⟨_, mem_keyword.mpr rfl, _, ?_, rfl⟩
  refine mem_seqs_cons.mpr ⟨[' '], blank_mem_tSpace, f.name.val.val ++ _, ?_, rfl⟩
  refine mem_seqs_cons.mpr ⟨_, (token_name f.name.val).1, _, ?_, rfl⟩
  refine mem_seqs_cons.mpr ⟨[' '], blank_mem_tSpace, _, ?_, rfl⟩
  refine mem_seqs_cons.mpr ⟨_, mem_tArgN.mpr ⟨f.argSize, rfl⟩, ":".toList, ?_, by simp⟩
  exact mem_seqs_cons.mpr ⟨[], mem_tESpace.mpr (by simp), ":".toList,
    mem_seqs_singleton.mpr (mem_keyword.mpr rfl), rfl⟩

theorem startLine (f : AsmFunction) : StartLine
    ("start ".toList ++ f.name.val.val ++ " ".toList ++ Interp.toString f.argSize ++ ":".toList)
    f.name.val.val f.argSize where
  notSkipped := by
    rw [start_eq]
    show ¬Skipped ([] ++ 's' :: ("tart".toList ++ (startWords f).flatMap (' ' :: ·)))
    exact not_skipped noBlanks (by decide) (by decide)
  mem := by
    rw [start_eq]
    exact start_mem f
  function := by
    have hwords := line_words noBlanks (isWord_start f)
    rw [List.nil_append] at hwords
    rw [start_eq, parseStartFunction, stream_eq, hwords]
    simp only [startWords, nextToken, (stoi_argN f.argSize).2]
    rfl

theorem end_eq (f : AsmFunction) :
    "end ".toList ++ f.name.val.val = emitAssembly "end".toList [f.name.val.val] := by
  simp [emitAssembly]

theorem end_tokens (f : AsmFunction) :
    List.Forall₂ Token ["end".toList, f.name.val.val] [keyword "end", tName] :=
  .cons (token_keyword (by simp [keywords])) (.cons (token_name f.name.val) .nil)

theorem endLine (f : AsmFunction) : EndLine ("end ".toList ++ f.name.val.val) f.name.val.val := by
  have hmem : "end ".toList ++ f.name.val.val ∈ rEndFunction.lang := by
    have h := line_mem noBlanks (wordsMatch_of_tokens (end_tokens f))
    rwa [List.nil_append, ← end_eq] at h
  have hwords : words isSep ("end ".toList ++ f.name.val.val) = ["end".toList, f.name.val.val] := by
    have h := line_words noBlanks (isWord_of_tokens (end_tokens f))
    rwa [List.nil_append, ← end_eq] at h
  have hnot : ¬Skipped ([] ++ 'e' :: ("nd ".toList ++ f.name.val.val)) :=
    not_skipped noBlanks (by decide) (by decide)
  refine ⟨hnot, not_header_of_end hmem, hmem, ?_⟩
  rw [parseEndFunction, stream_eq, hwords]
  exact decide_eq_true rfl

theorem isNameChar_ne {c : Char} (h : isNameChar c = true) : c ≠ '\n' ∧ c ≠ '\r' := by
  constructor
  all_goals
    rintro rfl
    revert h
    decide

theorem skipped_name (f : AsmFunction) : Skipped ("; Function ".toList ++ f.name.val.val) := by
  show Skipped ([] ++ ';' :: (" Function ".toList ++ f.name.val.val))
  refine skipped_comment (by simp) (List.forall_mem_append.mpr ⟨by simp, fun c hc => ?_⟩)
  exact isNameChar_ne (f.name.val.2.2 c hc)

/-- The line that sets `sp` is that of an instruction. -/
def setSP (used : BitVec 32) : AsmInst :=
  .binary ⟨.sp, Reg.noConfusion⟩ .sub (.reg ⟨.sp, Reg.noConfusion⟩) (.const (used.setWidth 64)) .size64

theorem setSP_eq (used : BitVec 32) :
    "    sp = sub sp ".toList ++ Interp.toString used.toNat ++ " 64".toList =
      "    ".toList ++ (setSP used).emit := by
  have hmod : used.toNat % 18446744073709551616 = used.toNat :=
    Nat.mod_eq_of_lt (used.isLt.trans (by decide))
  simp [setSP, AsmInst.emit, emitAssemblyTo, emitAssembly, AsmOperand.print, constText, printReg,
    BinaryOps.cmd, bwOf, hmod, show Interp.toString 64 = ['6', '4'] by decide]

theorem denotes_initSP (used : BitVec 32) :
    ∃ os, List.Forall₂ Denotes (initSP used) os ∧ os.reduceOption = prologue used := by
  unfold initSP prologue
  split_ifs
  · refine ⟨[none, some (setSP used).stmt], .cons ?_ (.cons ?_ .nil), rfl⟩
    · show Skipped ("    ".toList ++ ';' :: " init sp!".toList)
      exact skipped_comment (blanks 4) (by simp)
    · rw [setSP_eq]
      exact denotes_inst rfl
  · exact ⟨[], .nil, rfl⟩

/-! ## The text of a function -/

theorem denotes_body (B : AsmBlock) :
    List.Forall₂ Denotes (B.body.map fun l => "    ".toList ++ l.print) (B.body.map BodyLine.stmt?) := by
  have hnormal := B.normal
  generalize B.body = body at hnormal
  induction body with
  | nil => exact .nil
  | cons l body ih =>
    refine .cons (denotes_print ?_) (ih fun i hi => hnormal i (List.mem_cons_of_mem l hi))
    rintro i rfl
    exact hnormal i List.mem_cons_self

/-- The lines of a block after its label. -/
def bodyText (B : AsmBlock) : List Text :=
  (B.body.map fun l => "    ".toList ++ l.print) ++ ["    ".toList ++ B.term.emit]

theorem flatMap_bodyLines (B : AsmBlock) :
    (B.body.map BodyLine.print ++ [B.term.emit]).flatMap bodyLines = bodyText B := by
  have hmap : ∀ body : List BodyLine, (body.map BodyLine.print).flatMap bodyLines =
      body.map fun l => "    ".toList ++ l.print := by
    intro body
    induction body with
    | nil => rfl
    | cons l body ih => rw [List.map_cons, List.flatMap_cons, bodyLines_print, ih]; rfl
  rw [List.flatMap_append, hmap, List.flatMap_singleton]
  exact congrArg _ (bodyLines_print (.inst B.term))

/-- A label and its block, after the first. -/
def blockText (B : AsmBlock) : List Text :=
  [] :: ("  ".toList ++ (B.name.bb ++ ":".toList)) :: bodyText B

theorem flatMap_lines (Bs : List AsmBlock) :
    (Bs.flatMap AsmBlock.lines).flatMap bodyLines = (Bs.map blockText).flatten := by
  induction Bs with
  | nil => rfl
  | cons B Bs ih =>
    rw [List.flatMap_cons, List.flatMap_append, ih, List.map_cons, List.flatten_cons]
    rw [AsmBlock.lines, List.flatMap_cons, flatMap_bodyLines]
    rfl

theorem blockText_spec (B : AsmBlock) : BlockText (blockText B) (B.name.bb, B.stmts) :=
  have hgap : ∀ l ∈ ([[]] : List Text), Skipped l := List.forall_mem_singleton.mpr (by decide)
  .intro hgap (headerLine B.name) (denotes_body B) (lastLine_inst B.last)

/-- The first label and its block, with the prologue. -/
def firstText (B : AsmBlock) (used : BitVec 32) : List Text :=
  ("  ".toList ++ (B.name.bb ++ ":".toList)) :: (initSP used ++ bodyText B)

theorem firstText_spec (B : AsmBlock) (used : BitVec 32) :
    BlockText (firstText B used) (B.name.bb, prologue used ++ B.stmts) := by
  obtain ⟨os, hos, heq⟩ := denotes_initSP used
  have hbody := List.rel_append hos (denotes_body B)
  have hgap : ∀ l ∈ ([] : List Text), Skipped l := by simp
  have h := BlockText.intro hgap (headerLine B.name) hbody (lastLine_inst B.last)
  rw [List.reduceOption_append, heq, List.append_assoc, List.append_assoc] at h
  exact h

/-- The lines of a function, with its blocks apart. -/
theorem functionLines_eq (used : BitVec 32) (h : f.fnBody ≠ []) : ∃ B Bs, f.blocks = B :: Bs ∧
    functionLines f used =
      [[], "; Function ".toList ++ f.name.val.val] ++
        ("start ".toList ++ f.name.val.val ++ " ".toList ++ Interp.toString f.argSize ++ ":".toList) ::
          ((firstText B used :: Bs.map blockText).flatten ++ ["end ".toList ++ f.name.val.val]) := by
  have hne : f.blocks ≠ [] := by
    rintro heq
    exact h (by rw [AsmFunction.fnBody, heq]; rfl)
  obtain ⟨B, Bs, hB⟩ := List.exists_cons_of_ne_nil hne
  have hbody : f.fnBody = (B.name.bb ++ ":".toList) ::
      ((B.body.map BodyLine.print ++ [B.term.emit]) ++ Bs.flatMap AsmBlock.lines) := by
    rw [AsmFunction.fnBody, hB, List.flatMap_cons]
    rfl
  refine ⟨B, Bs, hB, ?_⟩
  rw [functionLines, hbody]
  dsimp only
  rw [List.flatMap_append, flatMap_bodyLines, flatMap_lines]
  simp only [firstText, List.flatten_cons, List.cons_append, List.nil_append, List.append_assoc]

/-- **A printed function has the lines that the interpreter expects.** -/
theorem functionText (h : f.fnBody ≠ []) : FunctionText (f.code used) (functionLines f used) := by
  obtain ⟨B, Bs, hB, heq⟩ := functionLines_eq used h
  have hcode : (f.code used).blocks =
      (B.name.bb, prologue used ++ B.stmts) :: Bs.map fun B => (B.name.bb, B.stmts) := by
    rw [AsmFunction.code, hB]
  have hblocks : List.Forall₂ BlockText (firstText B used :: Bs.map blockText) (f.code used).blocks := by
    rw [hcode]
    refine .cons (firstText_spec B used) ?_
    exact List.forall₂_map_left_iff.mpr (List.forall₂_map_right_iff.mpr
      (List.forall₂_same.mpr fun B _ => blockText_spec B))
  have hnames : ((f.code used).blocks.map Prod.fst).Nodup := by
    have hbb : (f.blocks.map fun B => B.name.bb).Nodup := by
      have hinj : Function.Injective Name.bb := fun a b hab => Subtype.ext (List.cons.inj hab).2
      have hmap := f.names.map hinj
      rwa [List.map_map] at hmap
    rw [hcode, List.map_cons, List.map_map]
    rwa [hB] at hbb
  rw [heq]
  refine .intro (List.forall_mem_cons.mpr ⟨by decide, List.forall_mem_singleton.mpr (skipped_name f)⟩)
    (startLine f) hblocks ?_ hnames (endLine f)
  rw [hcode]
  exact List.cons_ne_nil _ _

theorem newline_not_mem_append {s t : Text} (hs : '\n' ∉ s) (ht : '\n' ∉ t) : '\n' ∉ s ++ t :=
  fun h => (List.mem_append.mp h).elim hs ht

theorem newline_not_mem_name (name : Name) : '\n' ∉ name.val :=
  fun h => (isNameChar_ne (name.2.2 _ h)).1 rfl

theorem newline_not_mem_print (l : BodyLine) : '\n' ∉ l.print := by
  cases l with
  | comment ops =>
    refine newline_not_mem_append (by decide) ?_
    intro hmem
    obtain ⟨w, hw, hc⟩ := List.mem_flatMap.mp hmem
    rw [List.mem_singleton.mp hw] at hc
    rcases List.mem_cons.mp hc with heq | hc
    · revert heq
      decide
    · exact (ops.2 _ hc).1 rfl
  | inst i => exact newline_not_mem_emit i
  | read dest | write dest val => exact newline_not_mem_libraryCall dest (by simp [keywords]) _

theorem newline_not_mem_bodyText (B : AsmBlock) : ∀ l ∈ bodyText B, '\n' ∉ l := by
  refine List.forall_mem_append.mpr ⟨fun l hl => ?_, List.forall_mem_singleton.mpr ?_⟩
  · obtain ⟨b, -, rfl⟩ := List.mem_map.mp hl
    exact newline_not_mem_append (by decide) (newline_not_mem_print b)
  · exact newline_not_mem_append (by decide) (newline_not_mem_emit B.term)

theorem newline_not_mem_label (name : Name) :
    '\n' ∉ "  ".toList ++ (name.bb ++ ":".toList) :=
  newline_not_mem_append (by decide)
    (newline_not_mem_append (newline_not_mem_of_isWord (token_bb name).2) (by decide))

theorem newline_not_mem_initSP (used : BitVec 32) : ∀ l ∈ initSP used, '\n' ∉ l := by
  unfold initSP
  split_ifs
  · refine List.forall_mem_cons.mpr ⟨by decide, List.forall_mem_singleton.mpr ?_⟩
    rw [setSP_eq]
    exact newline_not_mem_append (by decide) (newline_not_mem_emit _)
  · simp

/-- No line has an end of line in it. -/
theorem newline_not_mem_functionLines (h : f.fnBody ≠ []) : ∀ l ∈ functionLines f used, '\n' ∉ l := by
  obtain ⟨B, Bs, -, heq⟩ := functionLines_eq used h
  have hname := newline_not_mem_name f.name.val
  rw [heq, List.flatten_cons]
  refine List.forall_mem_append.mpr ⟨?_, List.forall_mem_cons.mpr ⟨?_, ?_⟩⟩
  · refine List.forall_mem_cons.mpr ⟨by simp, List.forall_mem_singleton.mpr ?_⟩
    exact newline_not_mem_append (by decide) hname
  · rw [start_eq]
    exact newline_not_mem_emitAssembly (isWord_start f)
  · refine List.forall_mem_append.mpr ⟨List.forall_mem_append.mpr ⟨?_, fun l hl => ?_⟩, ?_⟩
    · refine List.forall_mem_cons.mpr ⟨newline_not_mem_label B.name, ?_⟩
      exact List.forall_mem_append.mpr ⟨newline_not_mem_initSP used, newline_not_mem_bodyText B⟩
    · obtain ⟨t, ht, hl⟩ := List.mem_flatten.mp hl
      obtain ⟨B, -, rfl⟩ := List.mem_map.mp ht
      rcases List.mem_cons.mp hl with rfl | hl
      · simp
      · rcases List.mem_cons.mp hl with rfl | hl
        · exact newline_not_mem_label B.name
        · exact newline_not_mem_bodyText B l hl
    · exact List.forall_mem_singleton.mpr (newline_not_mem_append (by decide) hname)

end

/-! ## The text of a module -/

/-- The printed functions, with their frames. -/
theorem run_takes {gv total : BitVec 32} {M : List TgtFunction} {text : Text}
    (h : runFrom gv total M = some text) :
    text = unlines ((printed M).map fun f => functionLines f (frameSize gv f)).flatten ∧
      ∀ f ∈ printed M, f.fnBody ≠ [] ∧ frameSize gv f < 10240 := by
  induction M generalizing total text with
  | nil => exact ⟨(Option.some.inj h).symm, by simp [printed]⟩
  | cons F M ih =>
    cases F with
    | declaration name => exact ih h
    | definition f =>
      rw [runFrom] at h
      by_cases hp : isPrinted f = true
      · rw [if_pos hp] at h
        dsimp only at h
        have hcons : printed (.definition f :: M) = f :: printed M := by
          simp [printed, TgtFunction.printed?, hp]
        split_ifs at h with hfail
        obtain ⟨rest, hrest, rfl⟩ := Option.map_eq_some_iff.mp h
        obtain ⟨heq, hall⟩ := ih hrest
        obtain ⟨hne, hfail⟩ := not_or.mp hfail
        rw [hcons]
        refine ⟨?_, List.forall_mem_cons.mpr ⟨⟨hne, BitVec.not_le.mp (not_or.mp hfail).1⟩, hall⟩⟩
        rw [heq, List.map_cons, List.flatten_cons, unlines, unlines, unlines, List.flatMap_append]
      · rw [if_neg hp] at h
        have hcons : printed (.definition f :: M) = printed M := by
          simp [printed, TgtFunction.printed?, hp]
        rw [hcons]
        exact ih h

/-- The text of a module is that of the functions that are meant. -/
theorem run_text {M : List TgtFunction} {text : Text} (h : run M = some text) :
    ∃ lss : List (List Text), text = unlines lss.flatten ∧ (∀ l ∈ lss.flatten, '\n' ∉ l) ∧
      List.Forall₂ (fun ls d => FunctionText d ls) lss (code M) ∧
      ∀ d ∈ code M, d.fname ≠ "read".toList ∧ d.fname ≠ "write".toList := by
  obtain ⟨rfl, hall⟩ := run_takes h
  refine ⟨_, rfl, fun l hl => ?_, ?_, fun d hd => ?_⟩
  · obtain ⟨ls, hls, hl⟩ := List.mem_flatten.mp hl
    obtain ⟨f, hf, rfl⟩ := List.mem_map.mp hls
    exact newline_not_mem_functionLines (hall f hf).1 l hl
  · exact List.forall₂_map_left_iff.mpr (List.forall₂_map_right_iff.mpr
      (List.forall₂_same.mpr fun f hf => functionText (hall f hf).1))
  · obtain ⟨f, -, rfl⟩ := List.mem_map.mp hd
    exact f.name.2

theorem code_nodup {M : List TgtFunction} (h : ((printed M).map AsmFunction.name).Nodup) :
    ((code M).map FuncCode.fname).Nodup := by
  have hinj : Function.Injective fun n : Callee => n.val.val :=
    fun a b hab => Subtype.ext (Subtype.ext hab)
  have hmap := h.map hinj
  rw [List.map_map] at hmap
  rw [code, List.map_map]
  exact hmap

/-- **The interpreter reads the program that the emitter prints.** -/
theorem parse_run {M : List TgtFunction} {text : Text} (h : run M = some text)
    (hnames : ((printed M).map AsmFunction.name).Nodup)
    (hmain : ∃ f ∈ printed M, f.name.val.val = "main".toList ∧ f.argSize = 0) :
    ∃ P, parse text = .ok P ∧
      P.functions.map Function.fname = ((code M).map FuncCode.fname).reverse ∧
      ∀ d ∈ code M, ∃ f, HasFunction P d f := by
  obtain ⟨lss, rfl, hlines, htexts, hlib⟩ := run_text h
  apply parse_functions htexts hlines hlib (code_nodup hnames)
  obtain ⟨f, hf, hname, hargs⟩ := hmain
  refine ⟨_, List.mem_map_of_mem hf, hname, ?_⟩
  show f.argSize.val = 0
  rw [hargs]
  rfl

/-- The name of a sample. -/
def sampleName (s : String) (h : s.toList ≠ [] ∧ s.toList.all isNameChar = true) : Name :=
  ⟨s.toList, h.1, List.all_eq_true.mp h.2⟩

/-- A register of a sample. -/
def sampleReg (k : ℕ) (h : k < 16 := by decide) : AsmReg := ⟨.r ⟨k, h⟩, Reg.noConfusion⟩

/-- The argument of a sample. -/
def sampleArg : AsmReg := ⟨.a ⟨0, by decide⟩, Reg.noConfusion⟩

/-- `double` returns twice its argument. -/
def sampleDouble : AsmFunction where
  name := ⟨sampleName "double" (by decide), by decide⟩
  argSize := 1
  blocks :=
    [⟨sampleName "entry" (by decide),
      [.inst (.binary (sampleReg 0) .add (.reg sampleArg) (.reg sampleArg) .size64)],
      .ret (.reg (sampleReg 0)), by simp [AsmInst.stmt, Stmt.isTerminator], rfl⟩]
  usedStackSize := 0
  names := by decide

/-- `main` writes the double of what it reads, if that is not zero; 8 bytes of the stack are for a
    global variable. -/
def sampleMain : AsmFunction where
  name := ⟨sampleName "main" (by decide), by decide⟩
  argSize := 0
  blocks :=
    [⟨sampleName "entry" (by decide), [.read (some (sampleReg 0))],
        .condBr (.reg (sampleReg 0)) (sampleName "more" (by decide))
          (sampleName "done" (by decide)), by simp, rfl⟩,
      ⟨sampleName "more" (by decide),
        [.inst (.call (some (sampleReg 1)) sampleDouble.name [.reg (sampleReg 0)]),
          .write none (.reg (sampleReg 1))],
        .br (sampleName "done" (by decide)), by simp [AsmInst.stmt, Stmt.isTerminator], rfl⟩,
      ⟨sampleName "done" (by decide), [], .ret (.const 0), by simp, rfl⟩]
  usedStackSize := 0
  names := by decide

@[inherit_doc sampleMain] def sample : List TgtFunction :=
  [.declaration "__set_global_stack_8".toList, .definition sampleDouble, .definition sampleMain]

theorem parse_run_sample : ∃ P,
    parse ("\n; Function double\nstart double 1:\n  .entry:\n    r1 = add arg1 arg1 64\n" ++
      "    ret r1\nend double\n" ++
      "\n; Function main\nstart main 0:\n  .entry:\n    ; init sp!\n    sp = sub sp 8 64\n" ++
      "    r1 = call read\n    br r1 .more .done\n\n  .more:\n    r2 = call double r1\n" ++
      "    call write r2\n    br .done\n\n  .done:\n    ret 0\nend main\n").toList = .ok P ∧
      P.functions.map Function.fname = ((code sample).map FuncCode.fname).reverse ∧
      ∀ d ∈ code sample, ∃ f, HasFunction P d f :=
  parse_run (by decide +kernel : run sample = some _) (by decide)
    ⟨sampleMain, List.mem_filterMap.mpr ⟨.definition sampleMain, by simp [sample], rfl⟩, rfl, rfl⟩

end SwppCompiler.Backend.Printing
