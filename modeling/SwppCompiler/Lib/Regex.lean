import Mathlib

/-!
# Regular expressions with character classes

Mathlib's regular expressions have single letters; here a letter may be any of a class. A regular
expression is matched against a whole text.

* `Regex.lang`: the texts that match, a `Language`.
* `Regex.isMatch_iff`: `Regex.isMatch`, which takes derivatives, decides the language.
-/

namespace SwppCompiler.Lib

open Computability

variable {α : Type}

/-- A regular expression over the alphabet `α`. -/
inductive Regex (α : Type)
  | empty
  | eps
  | set (p : α → Bool)
  | seq (r s : Regex α)
  | alt (r s : Regex α)
  | star (r : Regex α)

namespace Regex

/-- The texts that match. -/
def lang : Regex α → Language α
  | empty => 0
  | eps => 1
  | set p => {s | ∃ a, p a = true ∧ s = [a]}
  | seq r s => r.lang * s.lang
  | alt r s => r.lang + s.lang
  | star r => r.lang∗

/-- A letter. -/
def char [DecidableEq α] (a : α) : Regex α := set fun b => b = a

/-- A fixed text. -/
def text [DecidableEq α] : List α → Regex α
  | [] => eps
  | a :: s => seq (char a) (text s)

/-- `r+`. -/
def plus (r : Regex α) : Regex α := seq r (star r)

/-- `r?`. -/
def opt (r : Regex α) : Regex α := alt r eps

/-- One of several. -/
def oneOf : List (Regex α) → Regex α
  | [] => empty
  | r :: rs => alt r (oneOf rs)

/-- One after the other. -/
def seqs : List (Regex α) → Regex α
  | [] => eps
  | r :: rs => seq r (seqs rs)

/-! ## Matching -/

/-- The empty text matches. -/
def nullable : Regex α → Bool
  | empty | set _ => false
  | eps | star _ => true
  | seq r s => r.nullable && s.nullable
  | alt r s => r.nullable || s.nullable

/-- `seq`, simplified. -/
def mkSeq : Regex α → Regex α → Regex α
  | empty, _ => empty
  | eps, s => s
  | r, s => seq r s

/-- `alt`, simplified. -/
def mkAlt : Regex α → Regex α → Regex α
  | empty, s => s
  | r, empty => r
  | r, s => alt r s

/-- The texts that match after the letter `a`. -/
def deriv (a : α) : Regex α → Regex α
  | empty | eps => empty
  | set p => if p a then eps else empty
  | seq r s =>
    if r.nullable then mkAlt (mkSeq (r.deriv a) s) (s.deriv a) else mkSeq (r.deriv a) s
  | alt r s => mkAlt (r.deriv a) (s.deriv a)
  | star r => mkSeq (r.deriv a) (star r)

/-- The whole text matches. -/
def isMatch (r : Regex α) (s : List α) : Bool := (s.foldl (fun r a => r.deriv a) r).nullable

theorem nullable_iff (r : Regex α) : r.nullable = true ↔ [] ∈ r.lang := by
  induction r with
  | empty => simp [nullable, lang]
  | eps => simp [nullable, lang]
  | set p =>
    refine iff_of_false Bool.false_ne_true ?_
    rintro ⟨a, -, h⟩
    cases h
  | seq r s ihr ihs =>
    rw [nullable, Bool.and_eq_true, ihr, ihs, lang, Language.mem_mul]
    constructor
    · exact fun h => ⟨[], h.1, [], h.2, rfl⟩
    · rintro ⟨u, hu, v, hv, h⟩
      obtain ⟨rfl, rfl⟩ := List.append_eq_nil_iff.mp h
      exact ⟨hu, hv⟩
  | alt r s ihr ihs => rw [nullable, Bool.or_eq_true, ihr, ihs, lang, Language.mem_add]
  | star r => exact iff_of_true rfl (Language.nil_mem_kstar _)

theorem lang_mkSeq (r s : Regex α) : (mkSeq r s).lang = r.lang * s.lang := by
  cases r <;> simp [mkSeq, lang]

theorem lang_mkAlt (r s : Regex α) : (mkAlt r s).lang = r.lang + s.lang := by
  unfold mkAlt
  split
  · exact (zero_add _).symm
  · exact (add_zero _).symm
  · rfl

/-- A text of a product that begins with `a`. -/
theorem cons_mem_mul {l m : Language α} {a : α} {s : List α} :
    a :: s ∈ l * m ↔ (∃ u v, a :: u ∈ l ∧ v ∈ m ∧ u ++ v = s) ∨ [] ∈ l ∧ a :: s ∈ m := by
  rw [Language.mem_mul]
  constructor
  · rintro ⟨u, hu, v, hv, h⟩
    cases u with
    | nil => exact Or.inr ⟨hu, by rw [← h]; exact hv⟩
    | cons b u =>
      cases h
      exact Or.inl ⟨u, v, hu, hv, rfl⟩
  · rintro (⟨u, v, hu, hv, rfl⟩ | ⟨hnil, hs⟩)
    · exact ⟨a :: u, hu, v, hv, rfl⟩
    · exact ⟨[], hnil, a :: s, hs, rfl⟩

/-- A text of an iteration that begins with `a`. -/
theorem cons_mem_kstar {l : Language α} {a : α} {s : List α} :
    a :: s ∈ l∗ ↔ ∃ u v, a :: u ∈ l ∧ v ∈ l∗ ∧ u ++ v = s := by
  constructor
  · intro h
    obtain ⟨ls, hls, hmem⟩ := Language.mem_kstar_iff_exists_nonempty.mp h
    cases ls with
    | nil => cases hls
    | cons y ls =>
      obtain ⟨hy, hne⟩ := hmem y List.mem_cons_self
      cases y with
      | nil => exact absurd rfl hne
      | cons b u =>
        cases hls
        refine ⟨u, ls.flatten, hy, Language.join_mem_kstar fun z hz => ?_, rfl⟩
        exact (hmem z (List.mem_cons_of_mem _ hz)).1
  · rintro ⟨u, v, hu, hv, rfl⟩
    have h : a :: u ++ v ∈ 1 + l * l∗ := Or.inr (Language.append_mem_mul hu hv)
    rwa [Language.one_add_self_mul_kstar_eq_kstar] at h

theorem mem_lang_deriv (r : Regex α) (a : α) (s : List α) :
    s ∈ (r.deriv a).lang ↔ a :: s ∈ r.lang := by
  induction r generalizing s with
  | empty => simp [deriv, lang]
  | eps => simp [deriv, lang]
  | set p =>
    unfold deriv
    split_ifs with h
    · rw [lang, Language.mem_one]
      constructor
      · rintro rfl
        exact ⟨a, h, rfl⟩
      · rintro ⟨b, -, h⟩
        exact (List.cons.inj h).2
    · refine iff_of_false (Language.notMem_zero s) ?_
      rintro ⟨b, hb, heq⟩
      rw [(List.cons.inj heq).1] at h
      exact h hb
  | seq r t ihr iht =>
    have hseq : s ∈ (mkSeq (r.deriv a) t).lang ↔ ∃ u v, a :: u ∈ r.lang ∧ v ∈ t.lang ∧ u ++ v = s := by
      rw [lang_mkSeq, Language.mem_mul]
      constructor
      · rintro ⟨u, hu, v, hv, h⟩
        exact ⟨u, v, (ihr u).mp hu, hv, h⟩
      · rintro ⟨u, v, hu, hv, h⟩
        exact ⟨u, (ihr u).mpr hu, v, hv, h⟩
    rw [lang, cons_mem_mul, ← hseq, ← nullable_iff, deriv]
    split_ifs with h
    · rw [lang_mkAlt, Language.mem_add, iht]
      simp only [h, true_and]
    · simp only [h, false_and, or_false, Bool.false_eq_true]
  | alt r t ihr iht => rw [deriv, lang_mkAlt, lang, Language.mem_add, Language.mem_add, ihr, iht]
  | star r ih =>
    rw [deriv, lang_mkSeq, Language.mem_mul]
    show _ ↔ a :: s ∈ r.lang∗
    rw [cons_mem_kstar]
    constructor
    · rintro ⟨u, hu, v, hv, h⟩
      exact ⟨u, v, (ih u).mp hu, hv, h⟩
    · rintro ⟨u, v, hu, hv, h⟩
      exact ⟨u, (ih u).mpr hu, v, hv, h⟩

/-- `isMatch` decides the language. -/
theorem isMatch_iff (r : Regex α) (s : List α) : r.isMatch s = true ↔ s ∈ r.lang := by
  induction s generalizing r with
  | nil => exact nullable_iff r
  | cons a s ih =>
    show (r.deriv a).isMatch s = true ↔ _
    rw [ih, mem_lang_deriv]

/-! ## The language of a regular expression -/

theorem mem_lang_char [DecidableEq α] {a : α} {s : List α} : s ∈ (char a).lang ↔ s = [a] := by
  constructor
  · rintro ⟨b, hb, rfl⟩
    rw [of_decide_eq_true hb]
  · rintro rfl
    exact ⟨a, decide_eq_true rfl, rfl⟩

@[simp] theorem mem_lang_text [DecidableEq α] {t s : List α} : s ∈ (text t).lang ↔ s = t := by
  induction t generalizing s with
  | nil => exact Language.mem_one s
  | cons a t ih =>
    rw [text, lang, Language.mem_mul]
    constructor
    · rintro ⟨u, hu, v, hv, rfl⟩
      rw [mem_lang_char.mp hu, ih.mp hv]
      rfl
    · rintro rfl
      exact ⟨[a], mem_lang_char.mpr rfl, t, ih.mpr rfl, rfl⟩

@[simp] theorem mem_lang_oneOf {rs : List (Regex α)} {s : List α} :
    s ∈ (oneOf rs).lang ↔ ∃ r ∈ rs, s ∈ r.lang := by
  induction rs with
  | nil => simp [oneOf, lang]
  | cons r rs ih => rw [oneOf, lang, Language.mem_add, ih, List.exists_mem_cons_iff]

theorem mem_lang_star_set {p : α → Bool} {s : List α} :
    s ∈ (star (set p)).lang ↔ ∀ a ∈ s, p a = true := by
  show s ∈ (set p).lang∗ ↔ _
  induction s with
  | nil => simp [Language.nil_mem_kstar]
  | cons a s ih =>
    rw [cons_mem_kstar, List.forall_mem_cons, ← ih]
    constructor
    · rintro ⟨u, v, ⟨b, hb, heq⟩, hv, rfl⟩
      cases heq
      exact ⟨hb, hv⟩
    · rintro ⟨ha, hs⟩
      exact ⟨[], s, ⟨a, ha, rfl⟩, hs, rfl⟩

theorem mem_lang_plus_set {p : α → Bool} {s : List α} :
    s ∈ (plus (set p)).lang ↔ s ≠ [] ∧ ∀ a ∈ s, p a = true := by
  rw [plus, lang, Language.mem_mul]
  constructor
  · rintro ⟨u, ⟨a, ha, rfl⟩, v, hv, rfl⟩
    exact ⟨List.cons_ne_nil _ _, List.forall_mem_cons.mpr ⟨ha, mem_lang_star_set.mp hv⟩⟩
  · rintro ⟨hne, hs⟩
    obtain ⟨a, s, rfl⟩ := List.exists_cons_of_ne_nil hne
    obtain ⟨ha, hs⟩ := List.forall_mem_cons.mp hs
    exact ⟨[a], ⟨a, ha, rfl⟩, s, mem_lang_star_set.mpr hs, rfl⟩

end Regex

end SwppCompiler.Lib
