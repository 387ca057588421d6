import Mathlib
import SwppCompiler.Interp.Bop
import SwppCompiler.Lib.Words

/-!
# Text

What the interpreter uses of the C++ library to take lines apart: `getline`, `>>`, `stoi`, `stoull`,
and `regex_replace` with `tAssign` (`interpreter/src/parser.cpp`).

* `tokens_replaceAssign`: the tokens of a line after the replacement are its words between blanks and
  `=` signs.
* `stoull_toString`: `stoull` reads back what `to_string` prints.
-/

namespace SwppCompiler.Interp

open Lib

/-- A `string`. -/
abbrev Text := List Char

/-- `isspace`, in the C locale. -/
def isSpace (c : Char) : Bool :=
  c = ' ' || c = '\t' || c = '\n' || c = '\u000b' || c = '\u000c' || c = '\r'

/-- `[0-9]`. -/
def isDigit (c : Char) : Bool := '0' ≤ c && c ≤ '9'

/-- The lines that `getline` yields. -/
def getlines : Text → List Text
  | [] => []
  | c :: s =>
    if c = '\n' then [] :: getlines s
    else
      match getlines s with
      | [] => [[c]]
      | l :: ls => (c :: l) :: ls

/-- The tokens that `>>` yields. -/
def tokens (s : Text) : List Text := words isSpace s

/-- `ss >> token`: the next token, or the old one at the end. -/
def nextToken (ss : List Text) (token : Text) : Text × List Text :=
  match ss with
  | [] => (token, [])
  | t :: ss => (t, ss)

/-- The blank characters before an `=` sign wait in `pending`; those after it are dropped. -/
def replaceAssignFrom (pending : Text) (dropping : Bool) : Text → Text
  | [] => pending
  | c :: s =>
    if isSpace c then
      if dropping then replaceAssignFrom [] true s else replaceAssignFrom (pending ++ [c]) false s
    else if c = '=' then ' ' :: replaceAssignFrom [] true s
    else pending ++ c :: replaceAssignFrom [] false s

/-- `regex_replace(instr, regex(tAssign), " ")`: every `=` sign becomes a blank, with the blanks
    around it. -/
def replaceAssign (s : Text) : Text := replaceAssignFrom [] false s

/-- The sign and the digits that `stoi` and `stoull` read. -/
def scanInt (s : Text) : Option (Bool × ℕ) :=
  let s := s.dropWhile isSpace
  let negative := s.head? = some '-'
  let s := if s.head? = some '-' ∨ s.head? = some '+' then s.tail else s
  let digits := s.takeWhile isDigit
  if digits = [] then none else some (negative, Nat.ofDigitChars 10 digits 0)

/-- `stoull`; `none` is an exception. -/
def stoull (s : Text) : Option Word :=
  match scanInt s with
  | none => none
  | some (negative, n) =>
    if n < 2 ^ 64 then some (if negative then -BitVec.ofNat 64 n else BitVec.ofNat 64 n) else none

/-- `stoi`; `none` is an exception. -/
def stoi (s : Text) : Option ℤ :=
  match scanInt s with
  | none => none
  | some (negative, n) =>
    let z : ℤ := if negative then -n else n
    if -2 ^ 31 ≤ z ∧ z < 2 ^ 31 then some z else none

/-- `std::to_string` of an unsigned number. -/
def toString (n : ℕ) : Text := Nat.toDigits 10 n

/-! ## Tokens after the replacement -/

/-- What separates the words of a line. -/
def isSep (c : Char) : Bool := isSpace c || c = '='

theorem isSep_of_isSpace {c : Char} (h : isSpace c = true) : isSep c = true := by
  rw [isSep, h, Bool.true_or]

theorem isSep_of_ne {c : Char} (h : isSpace c = false) (hne : c ≠ '=') : isSep c = false := by
  rw [isSep, h, Bool.false_or, decide_eq_false hne]

theorem closedStart_nil {sep : Char → Bool} : ClosedStart sep [] := by simp [ClosedStart]

/-- After blanks, or at a separator, the replaced text begins with a blank. -/
theorem closedStart_replaceAssignFrom {pending s : Text} (hp : ∀ c ∈ pending, isSpace c = true) :
    ClosedStart isSpace (replaceAssignFrom pending false s) ↔ ClosedStart isSep (pending ++ s) := by
  have hblank : ∀ {p t : Text}, (∀ c ∈ p, isSpace c = true) → p ≠ [] →
      ClosedStart isSpace (p ++ t) ∧ ClosedStart isSep (p ++ t) := by
    intro p t hp hne
    obtain ⟨c, p, rfl⟩ := List.exists_cons_of_ne_nil hne
    have hc := hp c List.mem_cons_self
    exact ⟨closedStart_cons.mpr hc, closedStart_cons.mpr (isSep_of_isSpace hc)⟩
  induction s generalizing pending with
  | nil =>
    cases pending with
    | nil => exact iff_of_true closedStart_nil closedStart_nil
    | cons c p =>
      obtain ⟨h1, h2⟩ := hblank (t := []) hp (List.cons_ne_nil c p)
      rw [List.append_nil] at h1 h2
      rw [List.append_nil]
      exact iff_of_true h1 h2
  | cons c s ih =>
    unfold replaceAssignFrom
    simp only [Bool.false_eq_true, if_false]
    split_ifs with hc heq
    · have hp' : ∀ d ∈ pending ++ [c], isSpace d = true := fun d hd =>
        (List.mem_append.mp hd).elim (hp d) fun h => (List.mem_singleton.mp h) ▸ hc
      refine (ih hp').trans ?_
      rw [List.append_assoc]
      rfl
    · refine iff_of_true (closedStart_cons.mpr (by decide)) ?_
      cases pending with
      | nil => exact closedStart_cons.mpr (by rw [heq]; decide)
      | cons d p => exact (hblank hp (List.cons_ne_nil d p)).2
    · have hc' := Bool.not_eq_true _ ▸ hc
      cases pending with
      | nil =>
        rw [List.nil_append, List.nil_append, closedStart_cons, closedStart_cons, hc',
          isSep_of_ne hc' heq]
      | cons d p =>
        exact iff_of_true (hblank hp (List.cons_ne_nil d p)).1 (hblank hp (List.cons_ne_nil d p)).2

theorem words_replaceAssignFrom {pending s : Text} {dropping : Bool}
    (hp : ∀ c ∈ pending, isSpace c = true) :
    words isSpace (replaceAssignFrom pending dropping s) = words isSep s := by
  induction s generalizing pending dropping with
  | nil => exact words_of_sep hp
  | cons c s ih =>
    unfold replaceAssignFrom
    split_ifs with hc hd heq
    · rw [ih (by simp), words_cons_sep (isSep_of_isSpace hc)]
    · have hp' : ∀ d ∈ pending ++ [c], isSpace d = true := fun d hd =>
        (List.mem_append.mp hd).elim (hp d) fun h => (List.mem_singleton.mp h) ▸ hc
      rw [ih hp', words_cons_sep (isSep_of_isSpace hc)]
    · rw [words_cons_sep (by decide), ih (by simp), words_cons_sep (by rw [heq]; decide)]
    · have hc' : isSpace c = false := Bool.not_eq_true _ ▸ hc
      have hsep := isSep_of_ne hc' heq
      have hend : ClosedEnd isSpace pending := fun d hd => hp d (List.mem_of_mem_getLast? hd)
      have hih : words isSpace (replaceAssignFrom [] false s) = words isSep s := ih (by simp)
      have hstart : ClosedStart isSpace (replaceAssignFrom [] false s) ↔ ClosedStart isSep s :=
        closedStart_replaceAssignFrom (by simp)
      rw [words_append (Or.inl hend), words_of_sep hp, List.nil_append]
      by_cases hs : ClosedStart isSep s
      · rw [words_cons_closed hc' (hstart.mpr hs), words_cons_closed hsep hs, hih]
      · obtain ⟨w, ws, hw⟩ := words_of_open hs
        rw [words_cons_open hc' (fun h => hs (hstart.mp h)) (hih.trans hw),
          words_cons_open hsep hs hw]

/-- The tokens of a line are its words between blanks and `=` signs. -/
theorem tokens_replaceAssign (s : Text) : tokens (replaceAssign s) = words isSep s :=
  words_replaceAssignFrom (by simp)

/-! ## Numbers -/

theorem isDigit_iff {c : Char} : isDigit c = true ↔ c.isDigit = true := by
  unfold isDigit Char.isDigit
  rfl

theorem isDigit_of_mem_toString {n : ℕ} {c : Char} (h : c ∈ toString n) : isDigit c = true :=
  isDigit_iff.mpr (Nat.isDigit_of_mem_toDigits (by decide) (by decide) h)

theorem isSpace_of_isDigit {c : Char} (h : isDigit c = true) : isSpace c = false := by
  by_contra hc
  rw [Bool.not_eq_false] at hc
  simp only [isSpace, Bool.or_eq_true, decide_eq_true_eq] at hc
  rcases hc with ((((rfl | rfl) | rfl) | rfl) | rfl) | rfl <;> revert h <;> decide

/-- A text of digits is read as its number. -/
theorem scanInt_digits {s : Text} (hne : s ≠ []) (hs : ∀ c ∈ s, isDigit c = true) :
    scanInt s = some (false, Nat.ofDigitChars 10 s 0) := by
  obtain ⟨c, t, rfl⟩ := List.exists_cons_of_ne_nil hne
  have hc := hs c List.mem_cons_self
  have hminus : c ≠ '-' := by
    rintro rfl
    exact absurd hc (by decide)
  have hplus : c ≠ '+' := by
    rintro rfl
    exact absurd hc (by decide)
  have hdrop : (c :: t).dropWhile isSpace = c :: t := by
    rw [List.dropWhile_cons, if_neg (by rw [isSpace_of_isDigit hc]; exact Bool.false_ne_true)]
  have htake : (c :: t).takeWhile isDigit = c :: t := List.takeWhile_eq_self_iff.mpr hs
  simp [scanInt, hdrop, hminus, hplus, htake]

theorem scanInt_toString (n : ℕ) : scanInt (toString n) = some (false, n) := by
  have hdigits : ∀ c ∈ toString n, isDigit c = true := fun c hc => isDigit_of_mem_toString hc
  rw [scanInt_digits (show toString n ≠ [] from Nat.toDigits_ne_nil) hdigits, toString,
    Nat.ofDigitChars_ten_toDigits]

theorem stoull_toString (w : Word) : stoull (toString w.toNat) = some w := by
  rw [stoull, scanInt_toString]
  simp [w.isLt]

end SwppCompiler.Interp
