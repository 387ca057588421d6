import Mathlib

/-!
# The pass exclusion list

Model of `split` and `excepted` (`src/core/main.cpp`, lines 79–97), which read the `-except` option.
A string is a list of characters, and an `int` is an integer: an argument of the compiler is far
shorter than `2 ^ 31` characters. At a comma the name is pushed with one character too few (line 85).

* `split_joined`: every name but the last one is pushed without its last character.
* `excludes_iff`: the listed passes are the excepted ones exactly when one pass is listed.
-/

namespace SwppCompiler.Passes.Exclusion

/-- `s.substr(pos, count)`. A negative count becomes a huge `size_t`. -/
def substr (s : List Char) (pos : ℕ) (count : ℤ) : List Char :=
  if count < 0 then s.drop pos else (s.drop pos).take count.toNat

/-- The body of the loop (`main.cpp`, lines 84–87) at index `i`. The state is `prv` and `list`. -/
def splitStep (s : List Char) (st : ℕ × List (List Char)) (i : ℕ) : ℕ × List (List Char) :=
  if s[i]? = some ',' then (i + 1, st.2 ++ [substr s st.1 ((i : ℤ) - st.1 - 1)]) else st

/-- `split` (`main.cpp`, lines 80–90). -/
def split (s : List Char) (list : List (List Char)) : List (List Char) :=
  let n := s.length
  let (prv, list) := (List.range (n - 1)).foldl (splitStep s) (0, list)
  list ++ [substr s prv ((n : ℤ) - prv)]

/-- `excepted` (`main.cpp`, lines 92–97). -/
def excepted (noPass : Bool) (c : List Char) (list : List (List Char)) : Bool :=
  noPass || list.any fun e => e = c

/-- The names, joined with commas. -/
def joined (names : List (List Char)) : List Char := [','].intercalate names

/-- What `split` pushes: the names, each but the last one without its last character. -/
def shortened : List (List Char) → List (List Char)
  | [] => []
  | [x] => [x]
  | x :: names => x.dropLast :: shortened names

/-- A list of pass names: none is empty, and none has a comma. -/
def AreNames (names : List (List Char)) : Prop := ∀ x ∈ names, x ≠ [] ∧ ',' ∉ x

/-- The option that lists `names` excludes them and no other pass. -/
structure Excludes (names : List (List Char)) : Prop where
  split : split (joined names) [] = names
  excepted : ∀ c, excepted false c (Exclusion.split (joined names) []) = true ↔ c ∈ names

/-! ## What is pushed -/

section

variable {s x y : List Char} {names : List (List Char)}

theorem joined_cons_cons : joined (x :: y :: names) = x ++ ',' :: joined (y :: names) := by
  simp [joined, List.intercalate]

theorem joined_singleton : joined [x] = x := by
  simp [joined, List.intercalate]

theorem joined_ne_nil (h : AreNames (x :: names)) : joined (x :: names) ≠ [] := by
  have hx := (h x List.mem_cons_self).1
  cases names with
  | nil => rwa [joined_singleton]
  | cons y names =>
    rw [joined_cons_cons]
    exact List.append_ne_nil_of_left_ne_nil hx _

/-- Indices without a comma change nothing. -/
theorem foldl_splitStep_of_no_comma {is : List ℕ} (h : ∀ i ∈ is, s[i]? ≠ some ',')
    (st : ℕ × List (List Char)) : is.foldl (splitStep s) st = st := by
  induction is with
  | nil => rfl
  | cons i is ih =>
    rw [List.foldl_cons, splitStep, if_neg (h i List.mem_cons_self)]
    exact ih fun j hj => h j (List.mem_cons_of_mem i hj)

/-- The loop from the start of a name on: `p` is what comes before. -/
theorem foldl_splitStep_joined : ∀ {names : List (List Char)} {x p : List Char}
    {list : List (List Char)}, AreNames (x :: names) → s = p ++ joined (x :: names) →
    ∃ prv list', (List.range' p.length ((joined (x :: names)).length - 1)).foldl (splitStep s)
        (p.length, list) = (prv, list') ∧
      list' ++ [substr s prv ((s.length : ℤ) - prv)] = list ++ shortened (x :: names) := by
  intro names
  induction names with
  | nil =>
    intro x p list h hs
    rw [joined_singleton] at hs ⊢
    refine ⟨p.length, list, foldl_splitStep_of_no_comma (fun i hi => ?_) _, ?_⟩
    · obtain ⟨hle, hlt⟩ := List.mem_range'_1.mp hi
      rw [hs, List.getElem?_append_right hle]
      exact fun hcomma => (h x List.mem_cons_self).2 (List.mem_of_getElem? hcomma)
    · have hcount : (s.length : ℤ) - p.length = x.length := by
        rw [hs, List.length_append]
        push_cast
        ring
      rw [hcount, substr, if_neg (by omega), hs, List.drop_left, Int.toNat_natCast,
        List.take_length]
      rfl
  | cons y names ih =>
    intro x p list h hs
    obtain ⟨hx, hcomma⟩ := h x List.mem_cons_self
    have hnames : AreNames (y :: names) := fun z hz => h z (List.mem_cons_of_mem x hz)
    have hpos := List.length_pos_of_ne_nil (joined_ne_nil hnames)
    have hxpos := List.length_pos_of_ne_nil hx
    rw [joined_cons_cons] at hs ⊢
    have hs' : s = (p ++ x ++ [',']) ++ joined (y :: names) := by
      rw [hs]
      simp
    obtain ⟨prv, list', hfold, hlist⟩ := @ih y _ (list ++ [x.dropLast]) hnames hs'
    -- the loop passes the characters of `x`, then pushes at the comma
    have hpass : (List.range' p.length x.length).foldl (splitStep s) (p.length, list) =
        (p.length, list) := by
      refine foldl_splitStep_of_no_comma (fun i hi => ?_) _
      obtain ⟨hle, hlt⟩ := List.mem_range'_1.mp hi
      rw [hs, List.getElem?_append_right hle, List.getElem?_append_left (by omega)]
      exact fun h' => hcomma (List.mem_of_getElem? h')
    have hat : s[p.length + x.length]? = some ',' := by
      rw [hs, List.getElem?_append_right (Nat.le_add_right _ _), Nat.add_sub_cancel_left,
        List.getElem?_append_right le_rfl, Nat.sub_self]
      rfl
    have hpush : substr s p.length (((p.length + x.length : ℕ) : ℤ) - p.length - 1) =
        x.dropLast := by
      have hcount : ((p.length + x.length : ℕ) : ℤ) - p.length - 1 = ((x.length - 1 : ℕ) : ℤ) := by
        omega
      rw [hcount, substr, if_neg (by omega), hs, List.drop_left, Int.toNat_natCast,
        List.take_append_of_le_length (by omega), List.dropLast_eq_take]
    have hstep : splitStep s (p.length, list) (p.length + x.length) =
        (p.length + x.length + 1, list ++ [x.dropLast]) := by
      rw [splitStep, if_pos hat, hpush]
    have hlen : (x ++ ',' :: joined (y :: names)).length - 1 =
        x.length + ((joined (y :: names)).length - 1 + 1) := by
      rw [List.length_append, List.length_cons]
      omega
    have hlen' : (p ++ x ++ [',']).length = p.length + x.length + 1 := by
      rw [List.length_append, List.length_append]
      rfl
    rw [hlen'] at hfold
    refine ⟨prv, list', ?_, ?_⟩
    · rw [hlen, ← List.range'_append_1, List.range'_succ, List.foldl_append, List.foldl_cons, hpass,
        hstep, hfold]
    · rw [hlist, List.append_assoc]
      rfl

/-- **What `split` pushes.** -/
theorem split_joined (hne : names ≠ []) (h : AreNames names) :
    split (joined names) [] = shortened names := by
  obtain ⟨x, names, rfl⟩ := List.exists_cons_of_ne_nil hne
  obtain ⟨prv, list, hfold, hlist⟩ :=
    @foldl_splitStep_joined _ names x [] [] h (List.nil_append _).symm
  rw [List.length_nil, ← List.range_eq_range'] at hfold
  unfold split
  simp only [hfold]
  exact hlist

/-- What is pushed for two names or more: the shortened names, and the last one. -/
theorem mem_shortened {c z : List Char} :
    c ∈ shortened (names ++ [z]) ↔ (∃ x ∈ names, c = x.dropLast) ∨ c = z := by
  induction names with
  | nil => simp [shortened]
  | cons x names ih =>
    have hcons : shortened (x :: names ++ [z]) = x.dropLast :: shortened (names ++ [z]) := by
      cases names <;> rfl
    rw [hcons, List.mem_cons, ih]
    simp only [List.mem_cons, exists_eq_or_imp, or_assoc]

/-! ## What is excluded -/

theorem excepted_iff {c : List Char} {list : List (List Char)} :
    excepted false c list = true ↔ c ∈ list := by
  simp [excepted]

/-- The shortened names are other names, if there are two or more: the longest name would have to be
    the last one, and so would what is left of the shortest. -/
theorem shortened_other {z : List Char} (hne : names ≠ []) (h : AreNames names) :
    ¬∀ c, c ∈ shortened (names ++ [z]) ↔ c ∈ names ++ [z] := by
  intro hall
  have hnames : names.toFinset.Nonempty := by
    obtain ⟨x, hx⟩ := List.exists_mem_of_ne_nil names hne
    exact ⟨x, List.mem_toFinset.mpr hx⟩
  obtain ⟨long, hlong, hmax⟩ := names.toFinset.exists_max_image List.length hnames
  obtain ⟨short, hshort, hmin⟩ := names.toFinset.exists_min_image List.length hnames
  rw [List.mem_toFinset] at hlong hshort
  have hpos : ∀ x ∈ names, x.dropLast.length + 1 = x.length := by
    intro x hx
    have hxpos := List.length_pos_of_ne_nil (h x hx).1
    rw [List.length_dropLast]
    omega
  have hz : long = z := by
    obtain ⟨x, hx, hlx⟩ | hz :=
      mem_shortened.mp ((hall long).mpr (List.mem_append_left _ hlong))
    · have hle := hmax x (List.mem_toFinset.mpr hx)
      have hlen := hpos x hx
      rw [← hlx] at hlen
      omega
    · exact hz
  have hz' : short.dropLast = z := by
    have hmem := (hall short.dropLast).mp (mem_shortened.mpr (Or.inl ⟨short, hshort, rfl⟩))
    obtain hmem | hmem := List.mem_append.mp hmem
    · have hle := hmin _ (List.mem_toFinset.mpr hmem)
      have hlen := hpos short hshort
      omega
    · exact List.mem_singleton.mp hmem
  have hle := hmax short (List.mem_toFinset.mpr hshort)
  have hlen := hpos short hshort
  rw [hz', ← hz] at hlen
  omega

/-- Whatever is listed, the excepted passes are the listed ones exactly when one pass is listed. -/
theorem excepted_split_iff (hne : names ≠ []) (h : AreNames names) :
    (∀ c, excepted false c (split (joined names) []) = true ↔ c ∈ names) ↔ names.length = 1 := by
  rw [split_joined hne h]
  simp only [excepted_iff]
  constructor
  · intro hall
    by_contra hlen
    have hsplit := List.dropLast_append_getLast hne
    refine @shortened_other names.dropLast (names.getLast hne) (fun hnil => ?_)
      (fun x hx => h x (List.dropLast_subset names hx)) ?_
    · have hpos := List.length_pos_of_ne_nil hne
      have hdrop := congrArg List.length hnil
      rw [List.length_dropLast, List.length_nil] at hdrop
      omega
    · rw [hsplit]
      exact hall
  · intro hlen c
    obtain ⟨x, rfl⟩ := List.length_eq_one_iff.mp hlen
    exact Iff.rfl

/-- **Pass exclusion.** The option excludes the listed passes exactly when it lists one: of two or
    more names every one but the last loses its last character. -/
theorem excludes_iff (hne : names ≠ []) (h : AreNames names) :
    Excludes names ↔ names.length = 1 := by
  constructor
  · exact fun hexcludes => (excepted_split_iff hne h).mp hexcludes.excepted
  · intro hlen
    refine ⟨?_, (excepted_split_iff hne h).mpr hlen⟩
    rw [split_joined hne h]
    obtain ⟨x, rfl⟩ := List.length_eq_one_iff.mp hlen
    rfl

/-- One pass. -/
theorem excludes_iff_weirdArithmetic :
    Excludes ["WeirdArithmetic".toList] ↔ ["WeirdArithmetic".toList].length = 1 :=
  excludes_iff (List.cons_ne_nil _ _) (by unfold AreNames; decide)

/-- Two passes: the first one is run. -/
theorem not_excludes_two :
    split "WeirdArithmetic,ReorderMemAccess".toList [] =
      ["WeirdArithmeti".toList, "ReorderMemAccess".toList] ∧
    excepted false "WeirdArithmetic".toList (split "WeirdArithmetic,ReorderMemAccess".toList []) =
      false ∧
    ¬Excludes ["WeirdArithmetic".toList, "ReorderMemAccess".toList] := by
  refine ⟨by decide +kernel, by decide +kernel, fun h => ?_⟩
  have hlist := (h.excepted "WeirdArithmetic".toList).mpr List.mem_cons_self
  revert hlist
  decide +kernel

end

end SwppCompiler.Passes.Exclusion
