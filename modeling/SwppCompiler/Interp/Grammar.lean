import SwppCompiler.Interp.Stmt

/-!
# The grammar of assembly lines

The regular expressions of the parser (`interpreter/src/parser.cpp`, lines 9–76), and the words of the
lines that match them. Words are taken between blanks and `=` signs, as the parser does.

* `words_rMalloc` … `words_rSwitch`: the words of a line of each form.
-/

namespace SwppCompiler.Interp

open Lib Lib.Regex Computability

/-- `\s`. -/
def anySpace : Regex Char := set isSpace

/-- `parser.cpp`, lines 12–13. -/
def tSpace : Regex Char := plus anySpace
@[inherit_doc tSpace] def tESpace : Regex Char := star anySpace

/-- `SPACED(X)` (`parser.cpp`, line 10). -/
def spaced (r : Regex Char) : Regex Char := seqs [tESpace, r, tESpace]

/-- A fixed word. -/
def keyword (s : String) : Regex Char := text s.toList

/-- `parser.cpp`, line 15. -/
def tAssign : Regex Char := spaced (keyword "=")

/-- `[1-9]|1[0-6]`. -/
def tRegNumber : Regex Char :=
  oneOf [set (· ∈ "123456789".toList), seqs [keyword "1", set (· ∈ "0123456".toList)]]

/-- `parser.cpp`, line 16. -/
def tReg : Regex Char :=
  oneOf [seqs [oneOf [keyword "r", keyword "arg"], tRegNumber], keyword "sp"]

/-- `parser.cpp`, line 17. -/
def tConst : Regex Char := plus (set isDigit)

/-- `parser.cpp`, line 18. -/
def tValue : Regex Char := oneOf [tReg, tConst]

/-- `[a-z]|[A-Z]|[0-9]|-|_|\.`. -/
def isNameChar (c : Char) : Bool :=
  ('a' ≤ c && c ≤ 'z') || ('A' ≤ c && c ≤ 'Z') || isDigit c || c = '-' || c = '_' || c = '.'

/-- `parser.cpp`, line 19. -/
def tName : Regex Char := plus (set isNameChar)

/-- `parser.cpp`, line 20. -/
def tBBName : Regex Char := seqs [keyword ".", tName]

/-- `parser.cpp`, lines 22–24. -/
def tArgN : Regex Char := oneOf [set isDigit, seqs [keyword "1", set (· ∈ "0123456".toList)]]
@[inherit_doc tArgN] def tMSize : Regex Char := oneOf (["1", "2", "4", "8"].map keyword)
@[inherit_doc tArgN] def tSize : Regex Char := oneOf (["1", "8", "16", "32", "64"].map keyword)

/-- Lines 37 and 39. -/
def tBop : Regex Char :=
  oneOf (["udiv", "sdiv", "urem", "srem", "mul", "shl", "lshr", "ashr", "and", "or", "xor", "add",
    "sub"].map keyword)
@[inherit_doc tBop] def tCond : Regex Char :=
  oneOf (["eq", "ne", "ugt", "uge", "ult", "ule", "sgt", "sge", "slt", "sle"].map keyword)

/-- `.`, anything but the end of a line. -/
def anyChar : Regex Char := set fun c => c ≠ '\n' && c ≠ '\r'

/-- `parser.cpp`, lines 48–51. -/
def rComment : Regex Char := spaced (seqs [keyword ";", star anyChar])
@[inherit_doc rComment] def rStartFunction : Regex Char :=
  spaced (seqs [keyword "start", tSpace, tName, tSpace, tArgN, tESpace, keyword ":"])
@[inherit_doc rComment] def rEndFunction : Regex Char := spaced (seqs [keyword "end", tSpace, tName])
@[inherit_doc rComment] def rBBStart : Regex Char := spaced (seqs [tBBName, tESpace, keyword ":"])

/-- `parser.cpp`, lines 53–58. -/
def rMalloc : Regex Char := spaced (seqs [tReg, tAssign, keyword "malloc", tSpace, tValue])
@[inherit_doc rMalloc] def rFree : Regex Char := spaced (seqs [keyword "free", tSpace, tValue])
@[inherit_doc rMalloc] def rLoad : Regex Char :=
  spaced (seqs [tReg, tAssign, keyword "load", tSpace, tMSize, tSpace, tValue, tSpace, tConst])
@[inherit_doc rMalloc] def rStore : Regex Char :=
  spaced (seqs [keyword "store", tSpace, tMSize, tSpace, tValue, tSpace, tValue, tSpace, tConst])
@[inherit_doc rMalloc] def rResetStack : Regex Char :=
  spaced (seqs [keyword "reset", tSpace, keyword "stack"])
@[inherit_doc rMalloc] def rResetHeap : Regex Char :=
  spaced (seqs [keyword "reset", tSpace, keyword "heap"])

/-- `parser.cpp`, lines 60–65. -/
def rRet : Regex Char := spaced (seqs [keyword "ret"])
@[inherit_doc rRet] def rRetVal : Regex Char := spaced (seqs [keyword "ret", tSpace, tValue])
@[inherit_doc rRet] def rBrUncond : Regex Char := spaced (seqs [keyword "br", tSpace, tBBName])
@[inherit_doc rRet] def rBrCond : Regex Char :=
  spaced (seqs [keyword "br", tSpace, tValue, tSpace, tBBName, tSpace, tBBName])
@[inherit_doc rRet] def rTable : Regex Char := star (seqs [tSpace, tConst, tSpace, tBBName])
@[inherit_doc rRet] def rSwitch : Regex Char :=
  spaced (seqs [keyword "switch", tSpace, tValue, rTable, tSpace, tBBName])

/-- `parser.cpp`, lines 67–69. -/
def rBop : Regex Char :=
  spaced (seqs [tReg, tAssign, tBop, tSpace, tValue, tSpace, tValue, tSpace, tSize])
@[inherit_doc rBop] def rIcmp : Regex Char :=
  spaced (seqs [tReg, tAssign, keyword "icmp", tSpace, tCond, tSpace, tValue, tSpace, tValue, tSpace,
    tSize])
@[inherit_doc rBop] def rSelect : Regex Char :=
  spaced (seqs [tReg, tAssign, keyword "select", tSpace, tValue, tSpace, tValue, tSpace, tValue])

/-- `parser.cpp`, lines 71–76. -/
def rAssign : Regex Char := opt (seqs [tReg, tAssign])
@[inherit_doc rAssign] def rArgs : Regex Char := star (seqs [tSpace, tValue])
@[inherit_doc rAssign] def rRead : Regex Char :=
  spaced (seqs [rAssign, keyword "call", tSpace, keyword "read"])
@[inherit_doc rAssign] def rWrite : Regex Char :=
  spaced (seqs [rAssign, keyword "call", tSpace, keyword "write", tSpace, tValue])
@[inherit_doc rAssign] def rCall : Regex Char :=
  spaced (seqs [rAssign, keyword "call", tSpace, tName, rArgs])
@[inherit_doc rAssign] def rAssert : Regex Char :=
  spaced (seqs [keyword "assert_eq", tSpace, tValue, tSpace, tValue])

/-! ## Blanks and words -/

theorem mem_tESpace {s : Text} : s ∈ tESpace.lang ↔ ∀ c ∈ s, isSpace c = true := mem_lang_star_set

theorem gapRe_tSpace : GapRe isSep tSpace := fun _ hs =>
  ⟨(mem_lang_plus_set.mp hs).1, fun c hc => isSep_of_isSpace ((mem_lang_plus_set.mp hs).2 c hc)⟩

theorem mem_spaced {r : Regex Char} {s : Text} : s ∈ (spaced r).lang ↔
    ∃ a u b, (∀ c ∈ a, isSpace c = true) ∧ u ∈ r.lang ∧ (∀ c ∈ b, isSpace c = true) ∧
      a ++ (u ++ b) = s := by
  unfold spaced
  constructor
  · intro h
    obtain ⟨a, ha, v, hv, rfl⟩ := mem_seqs_cons.mp h
    obtain ⟨u, hu, b, hb, rfl⟩ := mem_seqs_cons.mp hv
    exact ⟨a, u, b, mem_tESpace.mp ha, hu, mem_tESpace.mp (mem_seqs_singleton.mp hb), rfl⟩
  · rintro ⟨a, u, b, ha, hu, hb, rfl⟩
    refine mem_seqs_cons.mpr ⟨a, mem_tESpace.mpr ha, u ++ b, ?_, rfl⟩
    exact mem_seqs_cons.mpr ⟨u, hu, b, mem_seqs_singleton.mpr (mem_tESpace.mpr hb), rfl⟩

/-- The blanks around a line do not matter. -/
theorem words_of_mem_spaced {r : Regex Char} {s : Text} (h : s ∈ (spaced r).lang) :
    ∃ t ∈ r.lang, words isSep s = words isSep t := by
  obtain ⟨a, u, b, ha, hu, hb, rfl⟩ := mem_spaced.mp h
  exact ⟨u, hu, words_spaced (fun c hc => isSep_of_isSpace (ha c hc)) fun c hc =>
    isSep_of_isSpace (hb c hc)⟩

theorem gapRe_tAssign : GapRe isSep tAssign := by
  intro s hs
  obtain ⟨a, u, b, ha, hu, hb, rfl⟩ := mem_spaced.mp hs
  rw [keyword, mem_lang_text] at hu
  subst hu
  refine ⟨by simp, fun c hc => ?_⟩
  rcases List.mem_append.mp hc with hc | hc
  · exact isSep_of_isSpace (ha c hc)
  · rcases List.mem_append.mp hc with hc | hc
    · rw [List.mem_singleton.mp hc]
      decide
    · exact isSep_of_isSpace (hb c hc)

theorem wordRe_keyword {s : String} (h : IsWord isSep s.toList) : WordRe isSep (keyword s) := by
  intro t ht
  rw [keyword, mem_lang_text] at ht
  rw [ht]
  exact h

/-- The fixed words of a line. -/
def keywords : List String :=
  ["malloc", "free", "load", "store", "reset", "stack", "heap", "icmp", "select", "call", "read",
    "write", "assert_eq", "ret", "br", "switch", "start", "end"]

theorem isWord_keywords : ∀ k ∈ keywords, IsWord isSep k.toList := by decide

theorem wordRe_oneOf {rs : List (Regex Char)} (h : ∀ r ∈ rs, WordRe isSep r) :
    WordRe isSep (oneOf rs) := by
  intro s hs
  obtain ⟨r, hr, hs⟩ := mem_lang_oneOf.mp hs
  exact h r hr s hs

theorem mem_tConst {s : Text} : s ∈ tConst.lang ↔ s ≠ [] ∧ ∀ c ∈ s, isDigit c = true :=
  mem_lang_plus_set

theorem isSep_of_isNameChar {c : Char} (h : isNameChar c = true) : isSep c = false := by
  by_contra hc
  rw [Bool.not_eq_false] at hc
  simp only [isSep, isSpace, Bool.or_eq_true, decide_eq_true_eq] at hc
  rcases hc with (((((rfl | rfl) | rfl) | rfl) | rfl) | rfl) | rfl <;> revert h <;> decide

theorem isNameChar_of_isDigit {c : Char} (h : isDigit c = true) : isNameChar c = true := by
  simp only [isNameChar, h, Bool.or_true, Bool.true_or]

theorem mem_tName {s : Text} : s ∈ tName.lang ↔ s ≠ [] ∧ ∀ c ∈ s, isNameChar c = true :=
  mem_lang_plus_set

theorem isWord_of_name {s : Text} (hne : s ≠ []) (h : ∀ c ∈ s, isNameChar c = true) :
    IsWord isSep s := ⟨hne, fun c hc => isSep_of_isNameChar (h c hc)⟩

theorem wordRe_tName : WordRe isSep tName := fun _ hs =>
  isWord_of_name (mem_tName.mp hs).1 (mem_tName.mp hs).2

theorem wordRe_tConst : WordRe isSep tConst := fun _ hs =>
  isWord_of_name (mem_tConst.mp hs).1 fun c hc =>
    isNameChar_of_isDigit ((mem_tConst.mp hs).2 c hc)

theorem mem_tBBName {s : Text} : s ∈ tBBName.lang ↔ ∃ t ∈ tName.lang, s = '.' :: t := by
  unfold tBBName
  rw [mem_seqs_cons]
  simp only [keyword, mem_lang_text, mem_seqs_singleton]
  constructor
  · rintro ⟨a, rfl, t, ht, rfl⟩
    exact ⟨t, ht, rfl⟩
  · rintro ⟨t, ht, rfl⟩
    exact ⟨_, rfl, t, ht, rfl⟩

theorem wordRe_tBBName : WordRe isSep tBBName := by
  intro s hs
  obtain ⟨t, ht, rfl⟩ := mem_tBBName.mp hs
  refine isWord_of_name (List.cons_ne_nil _ _) fun c hc => ?_
  rcases List.mem_cons.mp hc with rfl | hc
  · decide
  · exact (mem_tName.mp ht).2 c hc

/-! ## Registers -/

/-- The name of a register, as the assembler prints it (`src/core/AssemblyEmitter.cpp`, lines 84, 136
    and `"sp"`). -/
def printReg : Reg → Text
  | .r i => "r".toList ++ toString (i.val + 1)
  | .a i => "arg".toList ++ toString (i.val + 1)
  | .sp => "sp".toList
  | .none => []

theorem mem_tRegNumber {s : Text} : s ∈ tRegNumber.lang ↔ ∃ i : Fin 16, s = toString (i.val + 1) := by
  constructor
  · intro h
    obtain ⟨r, hr, hs⟩ := mem_lang_oneOf.mp h
    rcases List.mem_cons.mp hr with rfl | hr
    · obtain ⟨c, hc, rfl⟩ := hs
      have hall : ("123456789".toList.all fun c => ∃ i : Fin 16, [c] = toString (i.val + 1)) = true := by
        decide
      exact of_decide_eq_true (List.all_eq_true.mp hall c (of_decide_eq_true hc))
    · rw [List.mem_singleton.mp hr] at hs
      obtain ⟨a, ha, t, ht, rfl⟩ := mem_seqs_cons.mp hs
      obtain ⟨c, hc, rfl⟩ := mem_seqs_singleton.mp ht
      rw [keyword, mem_lang_text] at ha
      subst ha
      have hall : ("0123456".toList.all fun c =>
          ∃ i : Fin 16, "1".toList ++ [c] = toString (i.val + 1)) = true := by
        decide
      exact of_decide_eq_true (List.all_eq_true.mp hall c (of_decide_eq_true hc))
  · rintro ⟨i, rfl⟩
    rw [← isMatch_iff]
    revert i
    decide +kernel

theorem mem_tReg {s : Text} : s ∈ tReg.lang ↔ ∃ reg, reg ≠ .none ∧ s = printReg reg := by
  unfold tReg
  constructor
  · intro h
    obtain ⟨r, hr, hs⟩ := mem_lang_oneOf.mp h
    rcases List.mem_cons.mp hr with rfl | hr
    · obtain ⟨a, ha, t, ht, rfl⟩ := mem_seqs_cons.mp hs
      obtain ⟨i, rfl⟩ := mem_tRegNumber.mp (mem_seqs_singleton.mp ht)
      obtain ⟨q, hq, ha⟩ := mem_lang_oneOf.mp ha
      rcases List.mem_cons.mp hq with rfl | hq
      · rw [keyword, mem_lang_text] at ha
        exact ⟨.r i, Reg.noConfusion, by rw [ha]; rfl⟩
      · rw [List.mem_singleton.mp hq, keyword, mem_lang_text] at ha
        exact ⟨.a i, Reg.noConfusion, by rw [ha]; rfl⟩
    · rw [List.mem_singleton.mp hr, keyword, mem_lang_text] at hs
      exact ⟨.sp, Reg.noConfusion, hs⟩
  · rintro ⟨reg, hne, rfl⟩
    have hnum : ∀ i : Fin 16, toString (i.val + 1) ∈ tRegNumber.lang := fun i =>
      mem_tRegNumber.mpr ⟨i, rfl⟩
    cases reg with
    | r i =>
      refine mem_lang_oneOf.mpr ⟨_, List.mem_cons_self, mem_seqs_cons.mpr ⟨_, ?_, _, ?_, rfl⟩⟩
      · exact mem_lang_oneOf.mpr ⟨_, List.mem_cons_self, mem_lang_text.mpr rfl⟩
      · exact mem_seqs_singleton.mpr (hnum i)
    | a i =>
      refine mem_lang_oneOf.mpr ⟨_, List.mem_cons_self, mem_seqs_cons.mpr ⟨_, ?_, _, ?_, rfl⟩⟩
      · exact mem_lang_oneOf.mpr ⟨_, List.mem_cons_of_mem _ List.mem_cons_self, mem_lang_text.mpr rfl⟩
      · exact mem_seqs_singleton.mpr (hnum i)
    | sp =>
      exact mem_lang_oneOf.mpr ⟨_, List.mem_cons_of_mem _ List.mem_cons_self, mem_lang_text.mpr rfl⟩
    | none => exact absurd rfl hne

theorem wordRe_tReg : WordRe isSep tReg := by
  intro s hs
  obtain ⟨reg, hne, rfl⟩ := mem_tReg.mp hs
  cases reg with
  | r i =>
    clear hs hne
    revert i
    decide
  | a i =>
    clear hs hne
    revert i
    decide
  | sp => decide
  | none => exact absurd rfl hne

theorem wordRe_tValue : WordRe isSep tValue := wordRe_oneOf fun r hr => by
  rcases List.mem_cons.mp hr with rfl | hr
  · exact wordRe_tReg
  · rw [List.mem_singleton.mp hr]
    exact wordRe_tConst

theorem mem_tValue {s : Text} : s ∈ tValue.lang ↔ s ∈ tReg.lang ∨ s ∈ tConst.lang := by
  unfold tValue
  rw [mem_lang_oneOf]
  simp

/-! ## The words of a line -/

theorem wordRe_keywords {l : List String} (h : ∀ s ∈ l, IsWord isSep s.toList) :
    WordRe isSep (oneOf (l.map keyword)) := wordRe_oneOf fun r hr => by
  obtain ⟨s, hs, rfl⟩ := List.mem_map.mp hr
  exact wordRe_keyword (h s hs)

theorem wordRe_tMSize : WordRe isSep tMSize := wordRe_keywords (by decide)

theorem wordRe_tSize : WordRe isSep tSize := wordRe_keywords (by decide)

theorem wordRe_tBop : WordRe isSep tBop := wordRe_keywords (by decide)

theorem wordRe_tCond : WordRe isSep tCond := wordRe_keywords (by decide)

theorem mem_keyword {s : String} {t : Text} : t ∈ (keyword s).lang ↔ t = s.toList := mem_lang_text

/-- The words of a line of words and gaps. -/
theorem words_line {rs ws : List (Regex Char)} {s : Text} (h : Alternates isSep rs ws)
    (hs : s ∈ (spaced (seqs rs)).lang) : WordsMatch (words isSep s) ws := by
  obtain ⟨t, ht, hwords⟩ := words_of_mem_spaced hs
  rw [hwords]
  exact h.words ht

/-- The words of a line that may begin with a register to assign to. -/
theorem words_assign {rs ws : List (Regex Char)} {s : Text} (h : Alternates isSep rs ws)
    (hs : s ∈ (spaced (seqs (rAssign :: rs))).lang) :
    WordsMatch (words isSep s) ws ∨ WordsMatch (words isSep s) (tReg :: ws) := by
  obtain ⟨t, ht, hwords⟩ := words_of_mem_spaced hs
  rw [hwords]
  rcases mem_seqs_opt.mp ht with ht | ht
  · exact Or.inl (h.words ht)
  · exact Or.inr ((Alternates.next wordRe_tReg gapRe_tAssign h).words ht)

section

variable {s : Text} {rs ws : List (Regex Char)}

/-- A keyword at the end. -/
theorem alternates_last {k : String} (hk : k ∈ keywords) :
    Alternates isSep [keyword k] [keyword k] := .last (wordRe_keyword (isWord_keywords k hk))

/-- A keyword before a blank. -/
theorem alternates_keyword {k : String} (hk : k ∈ keywords) (h : Alternates isSep rs ws) :
    Alternates isSep (keyword k :: tSpace :: rs) (keyword k :: ws) :=
  .next (wordRe_keyword (isWord_keywords k hk)) gapRe_tSpace h

/-- A value before a blank. -/
theorem alternates_value (h : Alternates isSep rs ws) :
    Alternates isSep (tValue :: tSpace :: rs) (tValue :: ws) := .next wordRe_tValue gapRe_tSpace h

/-- The register that is assigned to. -/
theorem alternates_assign (h : Alternates isSep rs ws) :
    Alternates isSep (tReg :: tAssign :: rs) (tReg :: ws) := .next wordRe_tReg gapRe_tAssign h

theorem words_rMalloc (h : s ∈ rMalloc.lang) :
    WordsMatch (words isSep s) [tReg, keyword "malloc", tValue] :=
  words_line (alternates_assign (alternates_keyword (by simp [keywords]) (.last wordRe_tValue))) h

theorem words_rFree (h : s ∈ rFree.lang) : WordsMatch (words isSep s) [keyword "free", tValue] :=
  words_line (alternates_keyword (by simp [keywords]) (.last wordRe_tValue)) h

theorem words_rLoad (h : s ∈ rLoad.lang) :
    WordsMatch (words isSep s) [tReg, keyword "load", tMSize, tValue, tConst] :=
  words_line (alternates_assign (alternates_keyword (by simp [keywords]) (.next wordRe_tMSize gapRe_tSpace
    (alternates_value (.last wordRe_tConst))))) h

theorem words_rStore (h : s ∈ rStore.lang) :
    WordsMatch (words isSep s) [keyword "store", tMSize, tValue, tValue, tConst] :=
  words_line (alternates_keyword (by simp [keywords]) (.next wordRe_tMSize gapRe_tSpace
    (alternates_value (alternates_value (.last wordRe_tConst))))) h

theorem words_rResetStack (h : s ∈ rResetStack.lang) :
    WordsMatch (words isSep s) [keyword "reset", keyword "stack"] :=
  words_line (alternates_keyword (by simp [keywords]) (alternates_last (by simp [keywords]))) h

theorem words_rResetHeap (h : s ∈ rResetHeap.lang) :
    WordsMatch (words isSep s) [keyword "reset", keyword "heap"] :=
  words_line (alternates_keyword (by simp [keywords]) (alternates_last (by simp [keywords]))) h

theorem words_rBop (h : s ∈ rBop.lang) :
    WordsMatch (words isSep s) [tReg, tBop, tValue, tValue, tSize] :=
  words_line (alternates_assign (.next wordRe_tBop gapRe_tSpace
    (alternates_value (alternates_value (.last wordRe_tSize))))) h

theorem words_rIcmp (h : s ∈ rIcmp.lang) :
    WordsMatch (words isSep s) [tReg, keyword "icmp", tCond, tValue, tValue, tSize] :=
  words_line (alternates_assign (alternates_keyword (by simp [keywords]) (.next wordRe_tCond gapRe_tSpace
    (alternates_value (alternates_value (.last wordRe_tSize)))))) h

theorem words_rSelect (h : s ∈ rSelect.lang) :
    WordsMatch (words isSep s) [tReg, keyword "select", tValue, tValue, tValue] :=
  words_line (alternates_assign (alternates_keyword (by simp [keywords])
    (alternates_value (alternates_value (.last wordRe_tValue))))) h

theorem words_rRead (h : s ∈ rRead.lang) :
    WordsMatch (words isSep s) [keyword "call", keyword "read"] ∨
      WordsMatch (words isSep s) [tReg, keyword "call", keyword "read"] :=
  words_assign (alternates_keyword (by simp [keywords]) (alternates_last (by simp [keywords]))) h

theorem words_rWrite (h : s ∈ rWrite.lang) :
    WordsMatch (words isSep s) [keyword "call", keyword "write", tValue] ∨
      WordsMatch (words isSep s) [tReg, keyword "call", keyword "write", tValue] :=
  words_assign (alternates_keyword (by simp [keywords])
    (alternates_keyword (by simp [keywords]) (.last wordRe_tValue))) h

theorem words_rAssert (h : s ∈ rAssert.lang) :
    WordsMatch (words isSep s) [keyword "assert_eq", tValue, tValue] :=
  words_line (alternates_keyword (by simp [keywords]) (alternates_value (.last wordRe_tValue))) h

theorem words_rRet (h : s ∈ rRet.lang) : WordsMatch (words isSep s) [keyword "ret"] :=
  words_line (alternates_last (by simp [keywords])) h

theorem words_rRetVal (h : s ∈ rRetVal.lang) :
    WordsMatch (words isSep s) [keyword "ret", tValue] :=
  words_line (alternates_keyword (by simp [keywords]) (.last wordRe_tValue)) h

theorem words_rBrUncond (h : s ∈ rBrUncond.lang) :
    WordsMatch (words isSep s) [keyword "br", tBBName] :=
  words_line (alternates_keyword (by simp [keywords]) (.last wordRe_tBBName)) h

theorem words_rBrCond (h : s ∈ rBrCond.lang) :
    WordsMatch (words isSep s) [keyword "br", tValue, tBBName, tBBName] :=
  words_line (alternates_keyword (by simp [keywords]) (alternates_value (.next wordRe_tBBName gapRe_tSpace
    (.last wordRe_tBBName)))) h

theorem closedStart_tSpace_cons {s : Text} (h : s ∈ (seqs (tSpace :: rs)).lang) :
    ClosedStart isSep s := by
  obtain ⟨a, ha, t, -, rfl⟩ := mem_seqs_cons.mp h
  exact (gapRe_tSpace a ha).closedStart_append

/-- The words of the arguments of a call. -/
theorem words_rArgs (h : s ∈ rArgs.lang) : ∀ w ∈ words isSep s, w ∈ tValue.lang := by
  obtain ⟨ls, hls, hwords⟩ := words_of_mem_star (fun t ht => closedStart_tSpace_cons ht) h
  rw [hwords]
  intro w hw
  obtain ⟨l, hl, hw⟩ := List.mem_flatten.mp hw
  obtain ⟨t, ht, rfl⟩ := List.mem_map.mp hl
  obtain ⟨a, ha, u, hu, rfl⟩ := mem_seqs_cons.mp (hls t ht)
  have hu := mem_seqs_singleton.mp hu
  rw [(gapRe_tSpace a ha).words_append, words_of_isWord (wordRe_tValue u hu)] at hw
  rw [List.mem_singleton.mp hw]
  exact hu

theorem closedStart_rArgs (h : s ∈ (seqs [rArgs]).lang) : ClosedStart isSep s :=
  closedStart_of_mem_star (fun _ ht => closedStart_tSpace_cons ht) (mem_seqs_singleton.mp h)

/-- A call: the callee, and words that are values. -/
theorem words_rCall (h : s ∈ rCall.lang) : ∃ l args, words isSep s = l ++ args ∧
    (WordsMatch l [keyword "call", tName] ∨ WordsMatch l [tReg, keyword "call", tName]) ∧
    ∀ w ∈ args, w ∈ tValue.lang := by
  obtain ⟨t, ht, hwords⟩ := words_of_mem_spaced h
  rw [hwords]
  have hcall : Alternates isSep [keyword "call", tSpace, tName] [keyword "call", tName] :=
    alternates_keyword (by simp [keywords]) (.last wordRe_tName)
  rcases mem_seqs_opt.mp ht with ht | ht
  · obtain ⟨l, u, hu, heq, hl⟩ :=
      hcall.words_tail (fun _ ht => closedStart_rArgs ht) ht
    exact ⟨l, _, heq, Or.inl hl, words_rArgs (mem_seqs_singleton.mp hu)⟩
  · obtain ⟨l, u, hu, heq, hl⟩ :=
      (alternates_assign hcall).words_tail (fun _ ht => closedStart_rArgs ht) ht
    exact ⟨l, _, heq, Or.inr hl, words_rArgs (mem_seqs_singleton.mp hu)⟩

/-- The words of the cases of a `switch`. -/
theorem words_rTable (h : s ∈ rTable.lang) : ∃ cases : List (Text × Text),
    words isSep s = cases.flatMap (fun c => [c.1, c.2]) ∧
      ∀ c ∈ cases, c.1 ∈ tConst.lang ∧ c.2 ∈ tBBName.lang := by
  obtain ⟨ls, hls, hwords⟩ := words_of_mem_star (fun t ht => closedStart_tSpace_cons ht) h
  rw [hwords]
  clear hwords h
  induction ls with
  | nil => exact ⟨[], rfl, by simp⟩
  | cons t ls ih =>
    obtain ⟨ht, hls⟩ := List.forall_mem_cons.mp hls
    obtain ⟨cases, heq, hcases⟩ := ih hls
    obtain ⟨a, ha, u, hu, rfl⟩ := mem_seqs_cons.mp ht
    have hu : WordsMatch (words isSep u) [tConst, tBBName] :=
      (Alternates.next wordRe_tConst gapRe_tSpace (.last wordRe_tBBName)).words hu
    obtain ⟨x, l, hx, hl, hu⟩ := wordsMatch_cons.mp hu
    obtain ⟨y, l', hy, hl', rfl⟩ := wordsMatch_cons.mp hl
    rw [wordsMatch_nil.mp hl'] at hu
    refine ⟨(x, y) :: cases, ?_, List.forall_mem_cons.mpr ⟨⟨hx, hy⟩, hcases⟩⟩
    rw [List.map_cons, List.flatten_cons, heq, (gapRe_tSpace a ha).words_append, hu]
    rfl

/-- A `switch`: the condition, the cases, and the block for all others. -/
theorem words_rSwitch (h : s ∈ rSwitch.lang) :
    ∃ v, v ∈ tValue.lang ∧ ∃ cases : List (Text × Text), ∃ d, d ∈ tBBName.lang ∧
      words isSep s = "switch".toList :: v :: (cases.flatMap (fun c => [c.1, c.2]) ++ [d]) ∧
      ∀ c ∈ cases, c.1 ∈ tConst.lang ∧ c.2 ∈ tBBName.lang := by
  obtain ⟨t, ht, hwords⟩ := words_of_mem_spaced h
  have hhead : Alternates isSep [keyword "switch", tSpace, tValue] [keyword "switch", tValue] :=
    alternates_keyword (by simp [keywords]) (.last wordRe_tValue)
  have hlast : ∀ u ∈ (seqs [tSpace, tBBName]).lang, ClosedStart isSep u := fun u hu =>
    closedStart_tSpace_cons hu
  have htable : ∀ u ∈ (seqs [rTable, tSpace, tBBName]).lang, ClosedStart isSep u := by
    intro u hu
    obtain ⟨a, ha, b, hb, rfl⟩ := mem_seqs_cons.mp hu
    exact closedStart_append (closedStart_of_mem_star (fun _ ht => closedStart_tSpace_cons ht) ha)
      fun _ => hlast b hb
  obtain ⟨l, u, hu, heq, hl⟩ := hhead.words_tail htable ht
  obtain ⟨a, ha, b, hb, rfl⟩ := mem_seqs_cons.mp hu
  obtain ⟨cases, hcases_eq, hcases⟩ := words_rTable ha
  obtain ⟨g, hg, d, hd, rfl⟩ := mem_seqs_cons.mp hb
  have hd := mem_seqs_singleton.mp hd
  obtain ⟨x, l', hx, hl', rfl⟩ := wordsMatch_cons.mp hl
  obtain ⟨v, l'', hv, hl'', rfl⟩ := wordsMatch_cons.mp hl'
  rw [wordsMatch_nil.mp hl''] at heq
  refine ⟨v, hv, cases, d, hd, ?_, hcases⟩
  have hwordsd : words isSep (g ++ d) = [d] := by
    rw [(gapRe_tSpace g hg).words_append, words_of_isWord (wordRe_tBBName d hd)]
  rw [hwords, heq, words_append (Or.inr (hlast _ hb)), hcases_eq, hwordsd, mem_keyword.mp hx]
  rfl

end

end SwppCompiler.Interp
