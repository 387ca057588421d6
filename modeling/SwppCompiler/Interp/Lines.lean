import SwppCompiler.Interp.Parser

/-!
# What lines parse to

* `parseReg_printReg`, `parseValue_toString`: the parsers read back what is printed.
* `command`: the word of a line that tells which form it has. `normalForms_hasCommand`,
  `terminatorForms_hasCommand`: each form has one.
* `firstForm_drop`: the forms with other commands do not match.
-/

namespace SwppCompiler.Interp

open Lib Lib.Regex

/-- The token stream of a line is the list of its words. -/
theorem stream_eq (instr : Text) : stream instr = words isSep instr := tokens_replaceAssign instr

/-! ## Tokens -/

theorem parseReg_printReg {reg : Reg} (h : reg ≠ .none) : parseReg (printReg reg) = .ok reg := by
  cases reg with
  | r i =>
    clear h
    revert i
    decide +kernel
  | a i =>
    clear h
    revert i
    decide +kernel
  | sp => decide
  | none => exact absurd rfl h

theorem isMatch_tReg_printReg {reg : Reg} (h : reg ≠ .none) : tReg.isMatch (printReg reg) = true :=
  (isMatch_iff _ _).mpr (mem_tReg.mpr ⟨reg, h, rfl⟩)

/-- A register begins with a letter. -/
theorem not_mem_tReg_of_isDigit {c : Char} {s : Text} (h : isDigit c = true) : c :: s ∉ tReg.lang := by
  intro hs
  obtain ⟨reg, hne, heq⟩ := mem_tReg.mp hs
  have hc : c = 'r' ∨ c = 'a' ∨ c = 's' := by
    cases reg with
    | r i => exact Or.inl (List.cons.inj heq).1
    | a i => exact Or.inr (Or.inl (List.cons.inj heq).1)
    | sp => exact Or.inr (Or.inr (List.cons.inj heq).1)
    | none => exact absurd rfl hne
  rcases hc with rfl | rfl | rfl <;> revert h <;> decide

theorem isMatch_tReg_eq_false {s : Text} (h : s ∉ tReg.lang) : tReg.isMatch s = false :=
  Bool.eq_false_iff.mpr fun h' => h ((isMatch_iff _ _).mp h')

theorem not_mem_tReg_toString (n : ℕ) : toString n ∉ tReg.lang := by
  have hne : toString n ≠ [] := Nat.toDigits_ne_nil
  obtain ⟨c, s, hs⟩ := List.exists_cons_of_ne_nil hne
  rw [hs]
  exact not_mem_tReg_of_isDigit (isDigit_of_mem_toString (by rw [hs]; exact List.mem_cons_self))

theorem parseValue_printReg {reg : Reg} (h : reg ≠ .none) :
    parseValue (printReg reg) = .ok (.reg reg) := by
  rw [parseValue, if_pos (isMatch_tReg_printReg h), parseReg_printReg h]
  rfl

theorem parseConst_toString (w : Word) : parseConst (toString w.toNat) = .ok w := by
  rw [parseConst, stoull_toString]

theorem parseValue_toString (w : Word) : parseValue (toString w.toNat) = .ok (.literal w) := by
  rw [parseValue, isMatch_tReg_eq_false (not_mem_tReg_toString _), parseConst_toString]
  rfl

theorem parseMSize_toString (size : MSize) : parseMSize (toString (msizeOf size)) = .ok size := by
  cases size <;> decide

theorem parseSize_toString (size : Size) : parseSize (toString (bwOf size)) = .ok size := by
  cases size <;> decide

/-! ## The form of a line -/

/-- The word that tells the form: the first one, but for the register that is assigned to. -/
def command : List Text → Option Text
  | [] => none
  | w :: ws => if tReg.isMatch w then ws.head? else some w

theorem command_assign {q : Regex Char} {ws : List (Regex Char)} {l : List Text} (t : List Text)
    (h : WordsMatch l (tReg :: q :: ws)) : ∃ w ∈ q.lang, command (l ++ t) = some w := by
  obtain ⟨v, l', hv, h', rfl⟩ := wordsMatch_cons.mp h
  obtain ⟨w, l'', hw, -, rfl⟩ := wordsMatch_cons.mp h'
  exact ⟨w, hw, if_pos ((isMatch_iff _ _).mpr hv)⟩

theorem command_keyword {k : String} {ws : List (Regex Char)} {l : List Text} (t : List Text)
    (hk : tReg.isMatch k.toList = false) (h : WordsMatch l (keyword k :: ws)) :
    ∃ w ∈ (keyword k).lang, command (l ++ t) = some w := by
  obtain ⟨v, l', hv, -, rfl⟩ := wordsMatch_cons.mp h
  refine ⟨v, hv, if_neg ?_⟩
  rw [mem_keyword.mp hv, hk]
  exact Bool.false_ne_true

/-- The commands of the forms. -/
def normalCommands : List (Regex Char) :=
  [keyword "malloc", keyword "free", keyword "load", keyword "store", keyword "reset",
    keyword "reset", tBop, keyword "icmp", keyword "select", keyword "call", keyword "call",
    keyword "call", keyword "assert_eq"]
@[inherit_doc normalCommands] def terminatorCommands : List (Regex Char) :=
  [keyword "ret", keyword "ret", keyword "br", keyword "br", keyword "switch"]

/-- A line of the form has one of the commands. -/
def HasCommand (form : Regex Char × (Text → Except ParseError Stmt)) (q : Regex Char) : Prop :=
  ∀ s ∈ form.1.lang, ∃ w ∈ q.lang, command (words isSep s) = some w

section

variable {r q : Regex Char} {f : Text → Except ParseError Stmt} {ws : List (Regex Char)}

theorem isMatch_tReg_keywords : ∀ k ∈ keywords, tReg.isMatch k.toList = false := by decide

/-- A form that assigns to a register. -/
theorem hasCommand_assign (h : ∀ s ∈ r.lang, WordsMatch (words isSep s) (tReg :: q :: ws)) :
    HasCommand (r, f) q := by
  intro s hs
  have hw := command_assign [] (h s hs)
  rwa [List.append_nil] at hw

/-- A form that begins with a keyword. -/
theorem hasCommand_keyword {k : String} (hk : k ∈ keywords)
    (h : ∀ s ∈ r.lang, WordsMatch (words isSep s) (keyword k :: ws)) :
    HasCommand (r, f) (keyword k) := by
  intro s hs
  have hw := command_keyword [] (isMatch_tReg_keywords k hk) (h s hs)
  rwa [List.append_nil] at hw

/-- A form that may assign the result of a call. -/
theorem hasCommand_call (h : ∀ s ∈ r.lang, ∃ l args, words isSep s = l ++ args ∧
    (WordsMatch l (keyword "call" :: ws) ∨ WordsMatch l (tReg :: keyword "call" :: ws))) :
    HasCommand (r, f) (keyword "call") := by
  intro s hs
  obtain ⟨l, args, heq, hl⟩ := h s hs
  rw [heq]
  rcases hl with hl | hl
  · exact command_keyword args (isMatch_tReg_keywords _ (by simp [keywords])) hl
  · exact command_assign args hl

theorem hasCommand_rCall : HasCommand (rCall, f) (keyword "call") :=
  hasCommand_call fun _ hs =>
    let ⟨l, args, heq, hl, _⟩ := words_rCall hs
    ⟨l, args, heq, hl⟩

theorem hasCommand_rSwitch : HasCommand (rSwitch, f) (keyword "switch") := by
  intro s hs
  obtain ⟨v, -, cases, d, -, heq, -⟩ := words_rSwitch hs
  rw [heq]
  exact ⟨_, mem_keyword.mpr rfl, rfl⟩

theorem normalForms_hasCommand : List.Forall₂ HasCommand normalForms normalCommands := by
  refine .cons (hasCommand_assign fun _ => words_rMalloc) ?_
  refine .cons (hasCommand_keyword (by simp [keywords]) fun _ => words_rFree) ?_
  refine .cons (hasCommand_assign fun _ => words_rLoad) ?_
  refine .cons (hasCommand_keyword (by simp [keywords]) fun _ => words_rStore) ?_
  refine .cons (hasCommand_keyword (by simp [keywords]) fun _ => words_rResetStack) ?_
  refine .cons (hasCommand_keyword (by simp [keywords]) fun _ => words_rResetHeap) ?_
  refine .cons (hasCommand_assign fun _ => words_rBop) ?_
  refine .cons (hasCommand_assign fun _ => words_rIcmp) ?_
  refine .cons (hasCommand_assign fun _ => words_rSelect) ?_
  refine .cons (hasCommand_call fun s hs => ⟨words isSep s, [], by simp, words_rRead hs⟩) ?_
  refine .cons (hasCommand_call fun s hs => ⟨words isSep s, [], by simp, words_rWrite hs⟩) ?_
  refine .cons hasCommand_rCall ?_
  exact .cons (hasCommand_keyword (by simp [keywords]) fun _ => words_rAssert) .nil

theorem terminatorForms_hasCommand :
    List.Forall₂ HasCommand terminatorForms terminatorCommands := by
  refine .cons (hasCommand_keyword (by simp [keywords]) fun _ => words_rRet) ?_
  refine .cons (hasCommand_keyword (by simp [keywords]) fun _ => words_rRetVal) ?_
  refine .cons (hasCommand_keyword (by simp [keywords]) fun _ => words_rBrUncond) ?_
  refine .cons (hasCommand_keyword (by simp [keywords]) fun _ => words_rBrCond) ?_
  exact .cons hasCommand_rSwitch .nil

end

section

variable {forms : List (Regex Char × (Text → Except ParseError Stmt))} {cmds : List (Regex Char)}
  {instr w : Text}

theorem firstForm_cons_of_mem {r : Regex Char} {f : Text → Except ParseError Stmt}
    (h : instr ∈ r.lang) : firstForm ((r, f) :: forms) instr = (f instr).map some :=
  if_pos ((isMatch_iff _ _).mpr h)

theorem firstForm_cons_of_not_mem {r : Regex Char} {f : Text → Except ParseError Stmt}
    (h : instr ∉ r.lang) : firstForm ((r, f) :: forms) instr = firstForm forms instr :=
  if_neg fun h' => h ((isMatch_iff _ _).mp h')

/-- The first forms, with other commands than the line has, do not match. -/
theorem firstForm_drop (h : List.Forall₂ HasCommand forms cmds)
    (hw : command (words isSep instr) = some w) (n : ℕ)
    (hn : ∀ q ∈ cmds.take n, q.isMatch w = false) :
    firstForm forms instr = firstForm (forms.drop n) instr := by
  induction n generalizing forms cmds with
  | zero => rfl
  | succ n ih =>
    cases h with
    | nil => rfl
    | @cons form q forms cmds hform h =>
      obtain ⟨hq, hn⟩ := List.forall_mem_cons.mp hn
      rw [List.drop_succ_cons, ← ih h hn]
      refine firstForm_cons_of_not_mem fun hmem => ?_
      obtain ⟨v, hv, hcmd⟩ := hform instr hmem
      rw [hw] at hcmd
      rw [← Option.some.inj hcmd, ← isMatch_iff, hq] at hv
      cases hv

end

end SwppCompiler.Interp
