import SwppCompiler.Backend.AssemblyEmitter
import SwppCompiler.Interp.Lines

/-!
# The interpreter reads what the emitter prints

* `parse_emit`: the parser makes of the line of an instruction the statement that the instruction
  stands for.
-/

namespace SwppCompiler.Backend

open Interp Lib Lib.Regex

/-! ## Operands -/

theorem AsmOperand.print_mem (op : AsmOperand) : op.print ∈ tValue.lang := by
  cases op with
  | reg r => exact mem_tValue.mpr (Or.inl (mem_tReg.mpr ⟨r, r.2, rfl⟩))
  | const w =>
    refine mem_tValue.mpr (Or.inr (mem_tConst.mpr ⟨Nat.toDigits_ne_nil, fun c hc => ?_⟩))
    exact isDigit_of_mem_toString hc

theorem parseValue_print (op : AsmOperand) : parseValue op.print = .ok op.value := by
  cases op with
  | reg r => exact parseValue_printReg r.2
  | const w => exact parseValue_toString w

theorem parseConst_constText (w : Word) : parseConst (constText w) = .ok w := parseConst_toString w

theorem parseKind_cmd (op : BinaryOps) : parseKind bopNames "invalid binary operation" op.cmd.toList =
    .ok op.bopKind := by
  cases op <;> decide

theorem parseKind_name (pred : Predicate) : parseKind condNames "invalid comparison"
    pred.name.toList = .ok pred.bopKind := by
  cases pred <;> decide

/-! ## Tokens -/

/-- A word of the line that matches its place in the form. -/
def Token (w : Text) (r : Regex Char) : Prop := w ∈ r.lang ∧ IsWord isSep w

theorem token_of_mem {w : Text} {r : Regex Char} (hr : WordRe isSep r) (h : w ∈ r.lang) : Token w r :=
  ⟨h, hr w h⟩

theorem token_keyword {k : String} (hk : k ∈ keywords) : Token k.toList (keyword k) :=
  ⟨mem_keyword.mpr rfl, isWord_keywords k hk⟩

theorem token_print (op : AsmOperand) : Token op.print tValue := token_of_mem wordRe_tValue op.print_mem

theorem token_constText (w : Word) : Token (constText w) tConst :=
  token_of_mem wordRe_tConst
    (mem_tConst.mpr ⟨Nat.toDigits_ne_nil, fun _ hc => isDigit_of_mem_toString hc⟩)

theorem token_name (name : Name) : Token name.val tName :=
  token_of_mem wordRe_tName (mem_tName.mpr name.2)

theorem token_bb (name : Name) : Token name.bb tBBName :=
  token_of_mem wordRe_tBBName (mem_tBBName.mpr ⟨_, mem_tName.mpr name.2, rfl⟩)

theorem token_msize (sz : MSize) : Token (Interp.toString (msizeOf sz)) tMSize := by
  refine token_of_mem wordRe_tMSize ((isMatch_iff _ _).mp ?_)
  cases sz <;> decide

theorem token_size (sz : Size) : Token (Interp.toString (bwOf sz)) tSize := by
  refine token_of_mem wordRe_tSize ((isMatch_iff _ _).mp ?_)
  cases sz <;> decide

theorem token_cmd (op : BinaryOps) : Token op.cmd.toList tBop := by
  refine token_of_mem wordRe_tBop ((isMatch_iff _ _).mp ?_)
  cases op <;> decide

theorem token_predicate (pred : Predicate) : Token pred.name.toList tCond := by
  refine token_of_mem wordRe_tCond ((isMatch_iff _ _).mp ?_)
  cases pred <;> decide

theorem dest_mem (dest : AsmReg) : printReg dest ∈ tReg.lang := mem_tReg.mpr ⟨dest, dest.2, rfl⟩

section

variable {w : Text} {ws : List Text} {r : Regex Char} {rs : List (Regex Char)}

theorem wordsMatch_of_tokens (h : List.Forall₂ Token ws rs) : WordsMatch ws rs :=
  h.imp fun _ _ hw => hw.1

theorem isWord_of_tokens (h : List.Forall₂ Token ws rs) : ∀ v ∈ ws, IsWord isSep v := by
  induction h with
  | nil => simp
  | cons hw _ ih => exact List.forall_mem_cons.mpr ⟨hw.2, ih⟩

end

/-! ## Lines -/

section

variable {indent w : Text} {ws : List Text} {r : Regex Char} {rs : List (Regex Char)}

/-- A line without a destination has the words that are printed. -/
theorem line_words (hi : ∀ c ∈ indent, isSpace c = true) (h : ∀ v ∈ w :: ws, IsWord isSep v) :
    words isSep (indent ++ emitAssembly w ws) = w :: ws := by
  have hend : ClosedEnd isSep indent := fun c hc => isSep_of_isSpace (hi c (List.mem_of_mem_getLast? hc))
  rw [words_append (Or.inl hend), words_of_sep fun c hc => isSep_of_isSpace (hi c hc)]
  exact words_unwords (by decide) h

/-- A line with a destination has the words that are printed. -/
theorem line_words_to (dest : AsmReg) (hi : ∀ c ∈ indent, isSpace c = true)
    (h : ∀ v ∈ w :: ws, IsWord isSep v) :
    words isSep (indent ++ emitAssemblyTo (printReg dest) w ws) = printReg dest :: w :: ws := by
  have hend : ClosedEnd isSep indent := fun c hc => isSep_of_isSpace (hi c (List.mem_of_mem_getLast? hc))
  have hgap : IsGap isSep " = ".toList := by decide
  rw [words_append (Or.inl hend), words_of_sep fun c hc => isSep_of_isSpace (hi c hc),
    emitAssemblyTo, List.append_assoc, (wordRe_tReg _ (dest_mem dest)).words_append
      hgap.closedStart_append, hgap.words_append]
  have hline : words isSep (emitAssembly w ws) = w :: ws := words_unwords (by decide) h
  rw [hline]
  rfl

theorem spaced_mem {t : Text} (hi : ∀ c ∈ indent, isSpace c = true) (h : t ∈ r.lang) :
    indent ++ t ∈ (spaced r).lang :=
  mem_spaced.mpr ⟨indent, t, [], hi, h, by simp, by rw [List.append_nil]⟩

theorem blank_mem_tSpace : [' '] ∈ tSpace.lang :=
  mem_lang_plus_set.mpr ⟨List.cons_ne_nil _ _, List.all_eq_true.mp rfl⟩

/-- A line without a destination has the form of its words. -/
theorem line_mem (hi : ∀ c ∈ indent, isSpace c = true) (h : WordsMatch (w :: ws) (r :: rs)) :
    indent ++ emitAssembly w ws ∈ (spaced (seqs (r :: rs.flatMap fun r => [tSpace, r]))).lang :=
  spaced_mem hi (unwords_mem_seqs blank_mem_tSpace h)

theorem assign_mem {t : Text} (dest : AsmReg) (h : t ∈ (seqs rs).lang) :
    printReg dest ++ " = ".toList ++ t ∈ (seqs (tReg :: tAssign :: rs)).lang := by
  refine mem_seqs_cons.mpr ⟨_, dest_mem dest, " = ".toList ++ t, ?_, (List.append_assoc ..).symm⟩
  refine mem_seqs_cons.mpr ⟨" = ".toList, (isMatch_iff _ _).mp ?_, t, h, rfl⟩
  decide

/-- A line with a destination has the form of its words. -/
theorem line_mem_to (dest : AsmReg) (hi : ∀ c ∈ indent, isSpace c = true)
    (h : WordsMatch (w :: ws) (r :: rs)) : indent ++ emitAssemblyTo (printReg dest) w ws ∈
      (spaced (seqs (tReg :: tAssign :: r :: rs.flatMap fun r => [tSpace, r]))).lang :=
  spaced_mem hi (assign_mem dest (unwords_mem_seqs blank_mem_tSpace h))

/-- The forms before the `n`-th have other commands, and the `n`-th is the form of the line. -/
theorem firstForm_line {forms rest : List (Regex Char × (Text → Except ParseError Stmt))}
    {cmds : List (Regex Char)} {f : Text → Except ParseError Stmt}
    (hforms : List.Forall₂ HasCommand forms cmds) (hi : ∀ c ∈ indent, isSpace c = true) (n : ℕ)
    (hn : ∀ q ∈ cmds.take n, q.isMatch w = false) (hw : tReg.isMatch w = false)
    (h : forms.drop n = (spaced (seqs (r :: rs.flatMap fun r => [tSpace, r])), f) :: rest)
    (htokens : List.Forall₂ Token (w :: ws) (r :: rs)) :
    firstForm forms (indent ++ emitAssembly w ws) =
      (f (indent ++ emitAssembly w ws)).map some := by
  have hcmd : command (words isSep (indent ++ emitAssembly w ws)) = some w := by
    rw [line_words hi (isWord_of_tokens htokens)]
    exact if_neg (by rw [hw]; exact Bool.false_ne_true)
  rw [firstForm_drop hforms hcmd n hn, h]
  exact firstForm_cons_of_mem (line_mem hi (wordsMatch_of_tokens htokens))

/-- The same with a destination. -/
theorem firstForm_line_to {forms rest : List (Regex Char × (Text → Except ParseError Stmt))}
    {cmds : List (Regex Char)} {f : Text → Except ParseError Stmt} (dest : AsmReg)
    (hforms : List.Forall₂ HasCommand forms cmds) (hi : ∀ c ∈ indent, isSpace c = true) (n : ℕ)
    (hn : ∀ q ∈ cmds.take n, q.isMatch w = false)
    (h : forms.drop n =
      (spaced (seqs (tReg :: tAssign :: r :: rs.flatMap fun r => [tSpace, r])), f) :: rest)
    (htokens : List.Forall₂ Token (w :: ws) (r :: rs)) :
    firstForm forms (indent ++ emitAssemblyTo (printReg dest) w ws) =
      (f (indent ++ emitAssemblyTo (printReg dest) w ws)).map some := by
  have hcmd : command (words isSep (indent ++ emitAssemblyTo (printReg dest) w ws)) = some w := by
    rw [line_words_to dest hi (isWord_of_tokens htokens)]
    exact if_pos (isMatch_tReg_printReg dest.2)
  rw [firstForm_drop hforms hcmd n hn, h]
  exact firstForm_cons_of_mem (line_mem_to dest hi (wordsMatch_of_tokens htokens))

end

/-! ## Instructions -/

section

variable {indent : Text} (hi : ∀ c ∈ indent, isSpace c = true)

include hi

theorem parse_load (dest : AsmReg) (sz : MSize) (ptr : AsmOperand) (ofs : Word) :
    parseNormalStmt (indent ++ (AsmInst.load dest sz ptr ofs).emit) =
      .ok (some (AsmInst.load dest sz ptr ofs).stmt) := by
  have htokens : List.Forall₂ Token
      ["load".toList, Interp.toString (msizeOf sz), ptr.print, constText ofs]
      [keyword "load", tMSize, tValue, tConst] :=
    .cons (token_keyword (by simp [keywords])) (.cons (token_msize sz)
      (.cons (token_print ptr) (.cons (token_constText ofs) .nil)))
  unfold parseNormalStmt
  rw [AsmInst.emit, firstForm_line_to dest normalForms_hasCommand hi 2 (by decide) rfl htokens]
  simp only [parseLoad, stream_eq, line_words_to dest hi (isWord_of_tokens htokens), nextToken,
    parseReg_printReg dest.2, parseMSize_toString, parseValue_print, parseConst_constText]
  rfl

theorem parse_store (sz : MSize) (val ptr : AsmOperand) (ofs : Word) :
    parseNormalStmt (indent ++ (AsmInst.store sz val ptr ofs).emit) =
      .ok (some (AsmInst.store sz val ptr ofs).stmt) := by
  have htokens : List.Forall₂ Token
      ["store".toList, Interp.toString (msizeOf sz), val.print, ptr.print, constText ofs]
      [keyword "store", tMSize, tValue, tValue, tConst] :=
    .cons (token_keyword (by simp [keywords])) (.cons (token_msize sz)
      (.cons (token_print val) (.cons (token_print ptr) (.cons (token_constText ofs) .nil))))
  unfold parseNormalStmt
  rw [AsmInst.emit, firstForm_line normalForms_hasCommand hi 3 (by decide) (by decide) rfl htokens]
  simp only [parseStore, stream_eq, line_words hi (isWord_of_tokens htokens), nextToken,
    parseMSize_toString, parseValue_print, parseConst_constText]
  rfl

theorem parse_binary (dest : AsmReg) (op : BinaryOps) (op1 op2 : AsmOperand) (sz : Size) :
    parseNormalStmt (indent ++ (AsmInst.binary dest op op1 op2 sz).emit) =
      .ok (some (AsmInst.binary dest op op1 op2 sz).stmt) := by
  have htokens : List.Forall₂ Token
      [op.cmd.toList, op1.print, op2.print, Interp.toString (bwOf sz)]
      [tBop, tValue, tValue, tSize] :=
    .cons (token_cmd op) (.cons (token_print op1) (.cons (token_print op2)
      (.cons (token_size sz) .nil)))
  have hother : ∀ q ∈ normalCommands.take 6, q.isMatch op.cmd.toList = false := by
    cases op <;> decide
  unfold parseNormalStmt
  rw [AsmInst.emit, firstForm_line_to dest normalForms_hasCommand hi 6 hother rfl htokens]
  simp only [parseBop, stream_eq, line_words_to dest hi (isWord_of_tokens htokens), nextToken,
    parseReg_printReg dest.2, parseKind_cmd, parseValue_print, parseSize_toString]
  rfl

theorem parse_icmp (dest : AsmReg) (pred : Predicate) (op1 op2 : AsmOperand) (sz : Size) :
    parseNormalStmt (indent ++ (AsmInst.icmp dest pred op1 op2 sz).emit) =
      .ok (some (AsmInst.icmp dest pred op1 op2 sz).stmt) := by
  have htokens : List.Forall₂ Token
      ["icmp".toList, pred.name.toList, op1.print, op2.print, Interp.toString (bwOf sz)]
      [keyword "icmp", tCond, tValue, tValue, tSize] :=
    .cons (token_keyword (by simp [keywords])) (.cons (token_predicate pred)
      (.cons (token_print op1) (.cons (token_print op2) (.cons (token_size sz) .nil))))
  unfold parseNormalStmt
  rw [AsmInst.emit, firstForm_line_to dest normalForms_hasCommand hi 7 (by decide) rfl htokens]
  simp only [parseIcmp, stream_eq, line_words_to dest hi (isWord_of_tokens htokens), nextToken,
    parseReg_printReg dest.2, parseKind_name, parseValue_print, parseSize_toString]
  rfl

theorem parse_select (dest : AsmReg) (op1 op2 op3 : AsmOperand) :
    parseNormalStmt (indent ++ (AsmInst.select dest op1 op2 op3).emit) =
      .ok (some (AsmInst.select dest op1 op2 op3).stmt) := by
  have htokens : List.Forall₂ Token ["select".toList, op1.print, op2.print, op3.print]
      [keyword "select", tValue, tValue, tValue] :=
    .cons (token_keyword (by simp [keywords])) (.cons (token_print op1)
      (.cons (token_print op2) (.cons (token_print op3) .nil)))
  unfold parseNormalStmt
  rw [AsmInst.emit, firstForm_line_to dest normalForms_hasCommand hi 8 (by decide) rfl htokens]
  simp only [parseSelect, stream_eq, line_words_to dest hi (isWord_of_tokens htokens), nextToken,
    parseReg_printReg dest.2, parseValue_print]
  rfl

theorem parse_malloc (dest : AsmReg) (size : AsmOperand) :
    parseNormalStmt (indent ++ (AsmInst.malloc dest size).emit) =
      .ok (some (AsmInst.malloc dest size).stmt) := by
  have htokens : List.Forall₂ Token ["malloc".toList, size.print] [keyword "malloc", tValue] :=
    .cons (token_keyword (by simp [keywords])) (.cons (token_print size) .nil)
  unfold parseNormalStmt
  rw [AsmInst.emit, firstForm_line_to dest normalForms_hasCommand hi 0 (by decide) rfl htokens]
  simp only [parseMalloc, stream_eq, line_words_to dest hi (isWord_of_tokens htokens), nextToken,
    parseReg_printReg dest.2, parseValue_print]
  rfl

theorem parse_free (ptr : AsmOperand) :
    parseNormalStmt (indent ++ (AsmInst.free ptr).emit) = .ok (some (AsmInst.free ptr).stmt) := by
  have htokens : List.Forall₂ Token ["free".toList, ptr.print] [keyword "free", tValue] :=
    .cons (token_keyword (by simp [keywords])) (.cons (token_print ptr) .nil)
  unfold parseNormalStmt
  rw [AsmInst.emit, firstForm_line normalForms_hasCommand hi 1 (by decide) (by decide) rfl htokens]
  simp only [parseFree, stream_eq, line_words hi (isWord_of_tokens htokens), nextToken,
    parseValue_print]
  rfl

theorem parse_resetStack :
    parseNormalStmt (indent ++ AsmInst.resetStack.emit) = .ok (some .resetStack) := by
  have htokens : List.Forall₂ Token ["reset".toList, "stack".toList]
      [keyword "reset", keyword "stack"] :=
    .cons (token_keyword (by simp [keywords])) (.cons (token_keyword (by simp [keywords])) .nil)
  unfold parseNormalStmt
  rw [AsmInst.emit, firstForm_line normalForms_hasCommand hi 4 (by decide) (by decide) rfl htokens]
  rfl

theorem parse_resetHeap :
    parseNormalStmt (indent ++ AsmInst.resetHeap.emit) = .ok (some .resetHeap) := by
  have htokens : List.Forall₂ Token ["reset".toList, "heap".toList]
      [keyword "reset", keyword "heap"] :=
    .cons (token_keyword (by simp [keywords])) (.cons (token_keyword (by simp [keywords])) .nil)
  have hwords := line_words hi (isWord_of_tokens htokens)
  have hcmd : command (words isSep (indent ++ emitAssembly "reset".toList ["heap".toList])) =
      some "reset".toList := by
    rw [hwords]
    decide
  have hstack : indent ++ emitAssembly "reset".toList ["heap".toList] ∉ rResetStack.lang := by
    intro h
    have hshape := words_rResetStack h
    rw [hwords] at hshape
    have hheap := mem_keyword.mp (List.forall₂_cons.mp (List.forall₂_cons.mp hshape).2).1
    revert hheap
    decide
  have hheap := line_mem hi (wordsMatch_of_tokens htokens)
  unfold parseNormalStmt
  rw [AsmInst.emit, firstForm_drop normalForms_hasCommand hcmd 4 (by decide)]
  show firstForm ((rResetStack, _) :: (rResetHeap, _) :: _) _ = _
  rw [firstForm_cons_of_not_mem hstack]
  refine (firstForm_cons_of_mem hheap).trans ?_
  rfl

/-! ### Calls -/

omit hi in
theorem mapM_parseValue (args : List AsmOperand) :
    (args.map AsmOperand.print).mapM parseValue = .ok (args.map AsmOperand.value) := by
  induction args with
  | nil => rfl
  | cons op args ih =>
    rw [List.map_cons, List.mapM_cons, parseValue_print, ih]
    rfl

omit hi in
theorem isWord_args (args : List AsmOperand) : ∀ v ∈ args.map AsmOperand.print, IsWord isSep v := by
  intro v hv
  obtain ⟨op, -, rfl⟩ := List.mem_map.mp hv
  exact (token_print op).2

omit hi in
/-- The arguments have the form `rArgs`. -/
theorem args_mem (args : List AsmOperand) :
    (args.map AsmOperand.print).flatMap (' ' :: ·) ∈ rArgs.lang := by
  have h : (args.map fun op => [op.print]).flatten.flatMap (' ' :: ·) ∈
      (star (seqs ([tValue].flatMap fun r => [tSpace, r]))).lang := by
    refine flatMap_mem_star blank_mem_tSpace fun ws hws => ?_
    obtain ⟨op, -, rfl⟩ := List.mem_map.mp hws
    exact .cons op.print_mem .nil
  rwa [← List.flatMap_def, ← List.map_eq_flatMap] at h

omit hi in
/-- The words of the call, for either kind of line. -/
theorem isWord_call (fn : Callee) (args : List AsmOperand) :
    ∀ v ∈ "call".toList :: fn.val.val :: args.map AsmOperand.print, IsWord isSep v :=
  List.forall_mem_cons.mpr ⟨isWord_keywords _ (by simp [keywords]),
    List.forall_mem_cons.mpr ⟨(token_name fn.val).2, isWord_args args⟩⟩

omit hi in
theorem call_mem (fn : Callee) (args : List AsmOperand) :
    emitAssembly "call".toList (fn.val.val :: args.map AsmOperand.print) ∈
      (seqs [keyword "call", tSpace, tName, rArgs]).lang := by
  refine mem_seqs_cons.mpr ⟨_, mem_keyword.mpr rfl, _, ?_, rfl⟩
  refine mem_seqs_cons.mpr ⟨[' '], blank_mem_tSpace, fn.val.val ++ _, ?_, rfl⟩
  exact mem_seqs_cons.mpr ⟨_, (token_name fn.val).1, _, mem_seqs_singleton.mpr (args_mem args), rfl⟩

omit hi in
theorem call_not_mem_tReg : "call".toList ∉ tReg.lang := by
  rw [← isMatch_iff]
  decide

omit hi in
/-- A word before the callee that is `call` is no register, and the other way round. -/
theorem callee_of_wordsMatch {k : String} {ws : List Text} {rs : List (Regex Char)} {f : Text}
    (h : WordsMatch ("call".toList :: f :: ws) (keyword "call" :: keyword k :: rs) ∨
      WordsMatch ("call".toList :: f :: ws) (tReg :: keyword "call" :: keyword k :: rs)) :
    f = k.toList := by
  rcases h with h | h
  · exact mem_keyword.mp (List.forall₂_cons.mp (List.forall₂_cons.mp h).2).1
  · exact absurd (List.forall₂_cons.mp h).1 call_not_mem_tReg

omit hi in
theorem callee_of_wordsMatch_to {k : String} {ws : List Text} {rs : List (Regex Char)} {f : Text}
    {dest : AsmReg}
    (h : WordsMatch (printReg dest :: "call".toList :: f :: ws) (keyword "call" :: keyword k :: rs) ∨
      WordsMatch (printReg dest :: "call".toList :: f :: ws)
        (tReg :: keyword "call" :: keyword k :: rs)) :
    f = k.toList := by
  rcases h with h | h
  · have hcall := mem_keyword.mp (List.forall₂_cons.mp h).1
    exact absurd (hcall ▸ dest_mem dest) call_not_mem_tReg
  · have h' := (List.forall₂_cons.mp h).2
    exact mem_keyword.mp (List.forall₂_cons.mp (List.forall₂_cons.mp h').2).1

omit hi in
/-- A call of a function that is not `read` or `write` is read by `parse_call`. -/
theorem parseNormalStmt_call {line : Text} (hcmd : command (words isSep line) = some "call".toList)
    (hread : line ∉ rRead.lang) (hwrite : line ∉ rWrite.lang) (hcall : line ∈ rCall.lang) :
    parseNormalStmt line = (parseCall line).map some := by
  unfold parseNormalStmt
  rw [firstForm_drop normalForms_hasCommand hcmd 9 (by decide)]
  show firstForm ((rRead, _) :: (rWrite, _) :: (rCall, _) :: _) _ = _
  rw [firstForm_cons_of_not_mem hread, firstForm_cons_of_not_mem hwrite]
  exact firstForm_cons_of_mem hcall

omit hi in
theorem parseCall_of_assign {line : Text} {lhs : Reg} {fn : Callee} {args : List AsmOperand}
    (h : parseAssign line =
      .ok (lhs, "call".toList, fn.val.val :: args.map AsmOperand.print)) :
    parseCall line = .ok (.call lhs fn.val.val (args.map AsmOperand.value)) := by
  rw [parseCall, h]
  show (do let as ← (args.map AsmOperand.print).mapM parseValue; pure (Stmt.call lhs fn.val.val as)) = _
  rw [mapM_parseValue]
  rfl

theorem parse_call (dest : Option AsmReg) (fn : Callee) (args : List AsmOperand) :
    parseNormalStmt (indent ++ (AsmInst.call dest fn args).emit) =
      .ok (some (AsmInst.call dest fn args).stmt) := by
  have hmem := call_mem fn args
  cases dest with
  | none =>
    have hwords := line_words hi (isWord_call fn args)
    have hreg := isMatch_tReg_eq_false call_not_mem_tReg
    have hassign : parseAssign (indent ++ (AsmInst.call none fn args).emit) =
        .ok (.none, "call".toList, fn.val.val :: args.map AsmOperand.print) := by
      simp only [AsmInst.emit, parseAssign, stream_eq, hwords, nextToken, hreg]
      rfl
    rw [parseNormalStmt_call, parseCall_of_assign hassign]
    · rfl
    · rw [AsmInst.emit, hwords, command, hreg]
      rfl
    · intro h
      have hr := words_rRead h
      rw [AsmInst.emit, hwords] at hr
      exact fn.2.1 (callee_of_wordsMatch hr)
    · intro h
      have hr := words_rWrite h
      rw [AsmInst.emit, hwords] at hr
      exact fn.2.2 (callee_of_wordsMatch hr)
    · exact spaced_mem hi (mem_seqs_opt.mpr (Or.inl hmem))
  | some dest =>
    have hwords := line_words_to dest hi (isWord_call fn args)
    have hreg := isMatch_tReg_printReg dest.2
    have hassign : parseAssign (indent ++ (AsmInst.call (some dest) fn args).emit) =
        .ok (dest, "call".toList, fn.val.val :: args.map AsmOperand.print) := by
      simp only [AsmInst.emit, parseAssign, stream_eq, hwords, nextToken, hreg,
        parseReg_printReg dest.2]
      rfl
    rw [parseNormalStmt_call, parseCall_of_assign hassign]
    · rfl
    · rw [AsmInst.emit, hwords, command, hreg]
      rfl
    · intro h
      have hr := words_rRead h
      rw [AsmInst.emit, hwords] at hr
      exact fn.2.1 (callee_of_wordsMatch_to hr)
    · intro h
      have hr := words_rWrite h
      rw [AsmInst.emit, hwords] at hr
      exact fn.2.2 (callee_of_wordsMatch_to hr)
    · refine spaced_mem hi (mem_seqs_opt.mpr (Or.inr ?_))
      exact assign_mem dest hmem

/-! ### Calls of `read` and `write` -/

section

variable {fn : String} {args : List AsmOperand}

omit hi in
theorem isWord_libraryCall (hfn : fn ∈ keywords) :
    ∀ v ∈ "call".toList :: fn.toList :: args.map AsmOperand.print, IsWord isSep v :=
  List.forall_mem_cons.mpr ⟨isWord_keywords _ (by simp [keywords]),
    List.forall_mem_cons.mpr ⟨isWord_keywords fn hfn, isWord_args args⟩⟩

/-- The words of the line after the destination. -/
theorem parseAssign_libraryCall (dest : Option AsmReg) (hfn : fn ∈ keywords) :
    parseAssign (indent ++ emitLibraryCall dest fn args) =
      .ok ((dest.map Subtype.val).getD .none, "call".toList,
        fn.toList :: args.map AsmOperand.print) := by
  cases dest with
  | none =>
    have hreg := isMatch_tReg_eq_false call_not_mem_tReg
    simp only [emitLibraryCall, parseAssign, stream_eq, line_words hi (isWord_libraryCall hfn),
      nextToken, hreg]
    rfl
  | some dest =>
    simp only [emitLibraryCall, parseAssign, stream_eq,
      line_words_to dest hi (isWord_libraryCall hfn), nextToken, isMatch_tReg_printReg dest.2,
      parseReg_printReg dest.2]
    rfl

theorem command_libraryCall (dest : Option AsmReg) (hfn : fn ∈ keywords) :
    command (words isSep (indent ++ emitLibraryCall dest fn args)) = some "call".toList := by
  cases dest with
  | none =>
    rw [emitLibraryCall, line_words hi (isWord_libraryCall hfn), command,
      isMatch_tReg_eq_false call_not_mem_tReg]
    rfl
  | some dest =>
    rw [emitLibraryCall, line_words_to dest hi (isWord_libraryCall hfn), command,
      isMatch_tReg_printReg dest.2]
    rfl

/-- The line has the form of its words, with a destination or without. -/
theorem libraryCall_mem (dest : Option AsmReg) (rs : List (Regex Char))
    (h : WordsMatch ("call".toList :: fn.toList :: args.map AsmOperand.print)
      (keyword "call" :: rs)) :
    indent ++ emitLibraryCall dest fn args ∈
      (spaced (seqs (rAssign :: keyword "call" :: rs.flatMap fun r => [tSpace, r]))).lang := by
  have hmem := unwords_mem_seqs blank_mem_tSpace h
  cases dest with
  | none => exact spaced_mem hi (mem_seqs_opt.mpr (Or.inl hmem))
  | some dest => exact spaced_mem hi (mem_seqs_opt.mpr (Or.inr (assign_mem dest hmem)))

theorem parse_readCall (dest : Option AsmReg) :
    parseNormalStmt (indent ++ emitLibraryCall dest "read" []) =
      .ok (some (.read ((dest.map Subtype.val).getD .none))) := by
  have hmem : indent ++ emitLibraryCall dest "read" [] ∈ rRead.lang :=
    libraryCall_mem hi dest [keyword "read"]
      (wordsMatch_of_tokens (.cons (token_keyword (by simp [keywords])) (.cons
        (token_keyword (by simp [keywords])) .nil)))
  unfold parseNormalStmt
  rw [firstForm_drop normalForms_hasCommand (command_libraryCall hi dest (by simp [keywords])) 9
    (by decide)]
  show firstForm ((rRead, _) :: _) _ = _
  rw [firstForm_cons_of_mem hmem, parseRead, parseAssign_libraryCall hi dest (by simp [keywords])]
  rfl

theorem parse_writeCall (dest : Option AsmReg) (val : AsmOperand) :
    parseNormalStmt (indent ++ emitLibraryCall dest "write" [val]) =
      .ok (some (.write ((dest.map Subtype.val).getD .none) val.value)) := by
  have hkey : "write" ∈ keywords := by simp [keywords]
  have hmem : indent ++ emitLibraryCall dest "write" [val] ∈ rWrite.lang :=
    libraryCall_mem hi dest [keyword "write", tValue]
      (wordsMatch_of_tokens (.cons (token_keyword (by simp [keywords])) (.cons
        (token_keyword (by simp [keywords])) (.cons (token_print val) .nil))))
  have hread : indent ++ emitLibraryCall dest "write" [val] ∉ rRead.lang := by
    intro h
    have hr := words_rRead h
    cases dest with
    | none =>
      rw [emitLibraryCall, line_words hi (isWord_libraryCall hkey)] at hr
      exact absurd (callee_of_wordsMatch hr) (by decide)
    | some dest =>
      rw [emitLibraryCall, line_words_to dest hi (isWord_libraryCall hkey)] at hr
      exact absurd (callee_of_wordsMatch_to hr) (by decide)
  unfold parseNormalStmt
  rw [firstForm_drop normalForms_hasCommand (command_libraryCall hi dest hkey) 9 (by decide)]
  show firstForm ((rRead, _) :: (rWrite, _) :: _) _ = _
  rw [firstForm_cons_of_not_mem hread, firstForm_cons_of_mem hmem, parseWrite,
    parseAssign_libraryCall hi dest hkey]
  show (do let v ← parseValue val.print; pure (Stmt.write _ v)).map some = _
  rw [parseValue_print]
  rfl

end

/-! ### Terminators -/

omit hi in
/-- No form of the other statements has the command of a terminator. -/
theorem parseNormalStmt_terminator {line w : Text} (hcmd : command (words isSep line) = some w)
    (hw : ∀ q ∈ normalCommands, q.isMatch w = false) : parseNormalStmt line = .ok none :=
  firstForm_drop normalForms_hasCommand hcmd 13 hw

omit hi in
/-- A line that the first form has parses by it, or by the second. -/
theorem parseTerminator_ret {line : Text} (h : line ∈ rRetVal.lang) :
    parseTerminator line = (parseRet line).map some := by
  unfold parseTerminator
  show firstForm ((rRet, parseRet) :: (rRetVal, parseRet) :: _) line = _
  by_cases hr : line ∈ rRet.lang
  · exact firstForm_cons_of_mem hr
  · rw [firstForm_cons_of_not_mem hr, firstForm_cons_of_mem h]

theorem parse_ret (val : AsmOperand) :
    parseNormalStmt (indent ++ (AsmInst.ret val).emit) = .ok none ∧
      parseTerminator (indent ++ (AsmInst.ret val).emit) = .ok (some (AsmInst.ret val).stmt) := by
  have htokens : List.Forall₂ Token ["ret".toList, val.print] [keyword "ret", tValue] :=
    .cons (token_keyword (by simp [keywords])) (.cons (token_print val) .nil)
  have hwords := line_words hi (isWord_of_tokens htokens)
  have hmem := line_mem hi (wordsMatch_of_tokens htokens)
  constructor
  · refine parseNormalStmt_terminator (w := "ret".toList) ?_ (by decide)
    rw [AsmInst.emit, hwords]
    rfl
  · rw [AsmInst.emit]
    refine (parseTerminator_ret hmem).trans ?_
    simp only [parseRet, stream_eq, hwords, nextToken, parseValue_print]
    rfl

theorem parse_br (succ : Name) :
    parseNormalStmt (indent ++ (AsmInst.br succ).emit) = .ok none ∧
      parseTerminator (indent ++ (AsmInst.br succ).emit) = .ok (some (AsmInst.br succ).stmt) := by
  have htokens : List.Forall₂ Token ["br".toList, succ.bb] [keyword "br", tBBName] :=
    .cons (token_keyword (by simp [keywords])) (.cons (token_bb succ) .nil)
  have hwords := line_words hi (isWord_of_tokens htokens)
  constructor
  · refine parseNormalStmt_terminator (w := "br".toList) ?_ (by decide)
    rw [AsmInst.emit, hwords]
    rfl
  · unfold parseTerminator
    rw [AsmInst.emit, firstForm_line terminatorForms_hasCommand hi 2 (by decide) (by decide) rfl
      htokens]
    simp only [parseBrUncond, stream_eq, hwords, nextToken]
    rfl

theorem parse_condBr (cond : AsmOperand) (succ0 succ1 : Name) :
    parseNormalStmt (indent ++ (AsmInst.condBr cond succ0 succ1).emit) = .ok none ∧
      parseTerminator (indent ++ (AsmInst.condBr cond succ0 succ1).emit) =
        .ok (some (AsmInst.condBr cond succ0 succ1).stmt) := by
  have htokens : List.Forall₂ Token ["br".toList, cond.print, succ0.bb, succ1.bb]
      [keyword "br", tValue, tBBName, tBBName] :=
    .cons (token_keyword (by simp [keywords])) (.cons (token_print cond)
      (.cons (token_bb succ0) (.cons (token_bb succ1) .nil)))
  have hwords : words isSep (indent ++ (AsmInst.condBr cond succ0 succ1).emit) =
      ["br".toList, cond.print, succ0.bb, succ1.bb] := line_words hi (isWord_of_tokens htokens)
  have hmem := line_mem hi (wordsMatch_of_tokens htokens)
  have hcmd : command (words isSep (indent ++ (AsmInst.condBr cond succ0 succ1).emit)) =
      some "br".toList := by
    rw [hwords]
    rfl
  have huncond : indent ++ (AsmInst.condBr cond succ0 succ1).emit ∉ rBrUncond.lang := by
    intro h
    have hlen := (words_rBrUncond h).length_eq
    rw [hwords] at hlen
    cases hlen
  constructor
  · exact parseNormalStmt_terminator hcmd (by decide)
  · unfold parseTerminator
    rw [firstForm_drop terminatorForms_hasCommand hcmd 2 (by decide)]
    show firstForm ((rBrUncond, _) :: (rBrCond, _) :: _) _ = _
    rw [firstForm_cons_of_not_mem huncond]
    refine (firstForm_cons_of_mem hmem).trans ?_
    show (parseBrCond (indent ++ (AsmInst.condBr cond succ0 succ1).emit)).map some = _
    simp only [parseBrCond, stream_eq, hwords, nextToken, parseValue_print]
    rfl

omit hi in
/-- The cases are read one after the other, and none is there before. -/
theorem parseCases_emit (cond : Interp.Value) (default : Text) (cases : List (Word × Name))
    (bbMap : List (Word × Text)) (hnodup : (cases.map Prod.fst).Nodup)
    (hnew : ∀ c ∈ cases, bbMap.lookup c.1 = none) :
    parseCases cond bbMap
        (cases.flatMap (fun c : Word × Name => [constText c.1, c.2.bb]) ++ [default]) =
      .ok (.switch cond (bbMap ++ cases.map fun c : Word × Name => (c.1, c.2.bb)) default) := by
  induction cases generalizing bbMap with
  | nil =>
    rw [List.map_nil, List.append_nil]
    rfl
  | cons c cases ih =>
    rw [List.map_cons, List.nodup_cons] at hnodup
    obtain ⟨hc, hnew⟩ := List.forall_mem_cons.mp hnew
    have hnew' : ∀ d ∈ cases, (bbMap ++ [(c.1, c.2.bb)]).lookup d.1 = none := by
      intro d hd
      have hne : d.1 ≠ c.1 := fun heq => hnodup.1 (heq ▸ List.mem_map_of_mem hd)
      rw [List.lookup_append, hnew d hd]
      simp [hne]
    have hih := ih (bbMap ++ [(c.1, c.2.bb)]) hnodup.2 hnew'
    rw [List.append_assoc] at hih
    refine Eq.trans ?_ hih
    show parseCases cond bbMap (constText c.1 :: c.2.bb :: _) = _
    rw [parseCases, parseConst_constText]
    simp only [hc, Option.isSome_none, Bool.false_eq_true, if_false]
    rfl

omit hi in
theorem isWord_switch (cond : AsmOperand) (cases : Cases) (default : Name) :
    ∀ v ∈ "switch".toList :: cond.print ::
      (cases.val.flatMap (fun c : Word × Name => [constText c.1, c.2.bb]) ++ [default.bb]),
      IsWord isSep v := by
  refine List.forall_mem_cons.mpr ⟨isWord_keywords _ (by simp [keywords]), ?_⟩
  refine List.forall_mem_cons.mpr ⟨(token_print cond).2, fun v hv => ?_⟩
  rcases List.mem_append.mp hv with hv | hv
  · obtain ⟨c, -, hv⟩ := List.mem_flatMap.mp hv
    rcases List.mem_cons.mp hv with rfl | hv
    · exact (token_constText c.1).2
    · rw [List.mem_singleton.mp hv]
      exact (token_bb c.2).2
  · rw [List.mem_singleton.mp hv]
    exact (token_bb default).2

omit hi in
/-- The cases have the form `rTable`. -/
theorem cases_mem (cases : List (Word × Name)) :
    (cases.flatMap fun c : Word × Name => [constText c.1, c.2.bb]).flatMap (' ' :: ·) ∈
      rTable.lang := by
  have h : (cases.map fun c : Word × Name => [constText c.1, c.2.bb]).flatten.flatMap (' ' :: ·) ∈
      (star (seqs ([tConst, tBBName].flatMap fun r => [tSpace, r]))).lang := by
    refine flatMap_mem_star blank_mem_tSpace fun ws hws => ?_
    obtain ⟨c, -, rfl⟩ := List.mem_map.mp hws
    exact .cons (token_constText c.1).1 (.cons (token_bb c.2).1 .nil)
  rwa [← List.flatMap_def] at h

theorem parse_switch (cond : AsmOperand) (cases : Cases) (default : Name) :
    parseNormalStmt (indent ++ (AsmInst.switch cond cases default).emit) = .ok none ∧
      parseTerminator (indent ++ (AsmInst.switch cond cases default).emit) =
        .ok (some (AsmInst.switch cond cases default).stmt) := by
  have hwords : words isSep (indent ++ (AsmInst.switch cond cases default).emit) =
      "switch".toList :: cond.print ::
        (cases.val.flatMap (fun c : Word × Name => [constText c.1, c.2.bb]) ++ [default.bb]) :=
    line_words hi (isWord_switch cond cases default)
  have hcmd : command (words isSep (indent ++ (AsmInst.switch cond cases default).emit)) =
      some "switch".toList := by
    rw [hwords]
    rfl
  have hmem : indent ++ (AsmInst.switch cond cases default).emit ∈ rSwitch.lang := by
    refine spaced_mem hi (mem_seqs_cons.mpr ⟨_, mem_keyword.mpr rfl, _, ?_, rfl⟩)
    rw [List.flatMap_cons, List.flatMap_append, List.flatMap_singleton]
    refine mem_seqs_cons.mpr ⟨[' '], blank_mem_tSpace, cond.print ++ _, ?_, rfl⟩
    refine mem_seqs_cons.mpr ⟨_, cond.print_mem, _, ?_, rfl⟩
    refine mem_seqs_cons.mpr ⟨_, cases_mem cases.val, _, ?_, rfl⟩
    exact mem_seqs_cons.mpr ⟨[' '], blank_mem_tSpace, _, mem_seqs_singleton.mpr (token_bb default).1, rfl⟩
  constructor
  · exact parseNormalStmt_terminator hcmd (by decide)
  · unfold parseTerminator
    rw [firstForm_drop terminatorForms_hasCommand hcmd 4 (by decide)]
    refine (firstForm_cons_of_mem hmem).trans ?_
    simp only [parseSwitch, stream_eq, hwords, nextToken, parseValue_print]
    show (parseCases cond.value [] _).map some = _
    rw [parseCases_emit cond.value default.bb cases.val [] cases.2 fun _ _ => rfl]
    rfl

end

/-- What `parse_normal_stmt` makes of a printed line. -/
theorem parseNormalStmt_emit (i : AsmInst) {indent : Text} (hi : ∀ c ∈ indent, isSpace c = true) :
    parseNormalStmt (indent ++ i.emit) = .ok (if i.stmt.isTerminator then none else some i.stmt) := by
  cases i with
  | load dest sz ptr ofs => exact parse_load hi dest sz ptr ofs
  | store sz val ptr ofs => exact parse_store hi sz val ptr ofs
  | binary dest op op1 op2 sz => exact parse_binary hi dest op op1 op2 sz
  | icmp dest pred op1 op2 sz => exact parse_icmp hi dest pred op1 op2 sz
  | select dest op1 op2 op3 => exact parse_select hi dest op1 op2 op3
  | malloc dest size => exact parse_malloc hi dest size
  | free ptr => exact parse_free hi ptr
  | call dest fn args => exact parse_call hi dest fn args
  | resetStack => exact parse_resetStack hi
  | resetHeap => exact parse_resetHeap hi
  | ret val => exact (parse_ret hi val).1
  | br succ => exact (parse_br hi succ).1
  | condBr cond succ0 succ1 => exact (parse_condBr hi cond succ0 succ1).1
  | switch cond cases default => exact (parse_switch hi cond cases default).1

/-- What `parse_terminator` makes of a printed terminator. -/
theorem parseTerminator_emit (i : AsmInst) {indent : Text} (hi : ∀ c ∈ indent, isSpace c = true)
    (h : i.stmt.isTerminator = true) : parseTerminator (indent ++ i.emit) = .ok (some i.stmt) := by
  cases i with
  | ret val => exact (parse_ret hi val).2
  | br succ => exact (parse_br hi succ).2
  | condBr cond succ0 succ1 => exact (parse_condBr hi cond succ0 succ1).2
  | switch cond cases default => exact (parse_switch hi cond cases default).2
  | _ => cases h

/-- **The interpreter reads what the emitter prints.** -/
theorem parse_emit (i : AsmInst) {indent : Text} (hi : ∀ c ∈ indent, isSpace c = true) :
    parseNormalStmt (indent ++ i.emit) = .ok (if i.stmt.isTerminator then none else some i.stmt) ∧
      (i.stmt.isTerminator = true → parseTerminator (indent ++ i.emit) = .ok (some i.stmt)) :=
  ⟨parseNormalStmt_emit i hi, parseTerminator_emit i hi⟩

/-- A load of 8 bytes from the stack, indented by four blanks. -/
theorem parse_emit_load : parseNormalStmt ("    ".toList ++
      (AsmInst.load ⟨.r 0, nofun⟩ .size8 (.reg ⟨.sp, nofun⟩) 16).emit) =
    .ok (some (.load (.r 0) .size8 (.reg .sp) 16)) :=
  (parse_emit (.load ⟨.r 0, nofun⟩ .size8 (.reg ⟨.sp, nofun⟩) 16) (List.all_eq_true.mp rfl)).1

end SwppCompiler.Backend
