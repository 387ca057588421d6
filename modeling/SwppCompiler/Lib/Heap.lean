import Mathlib

/-!
# `std::make_heap` and `std::pop_heap`

The binary-heap algorithms of the C++ standard library on the first `len` elements of a list.
The library keeps a value out of the array and moves a hole; here the value stays in the hole,
so moving the hole is exchanging two elements and the resulting array is the same.

* `makeHeap_perm`, `popHeap_perm`: both only permute the array.
* `makeHeap_isHeap`, `popHeap_isHeap`, `getElem?_popHeap`: their specification.
* `IsHeap.root`: the first element of a heap is the largest.
* `makeHeap_map`: the arrangement depends on what is compared only.
-/

namespace SwppCompiler.Lib.Heap

variable {α : Type*} (lt : α → α → Bool)

/-- Exchange the elements at `i` and `j`. -/
def swap (l : List α) (i j : ℕ) : List α :=
  if h : i < l.length ∧ j < l.length then (l.set i l[j]).set j l[i] else l

/-- `comp(first + i, first + j)`. -/
def ltAt (l : List α) (i j : ℕ) : Bool :=
  match l[i]?, l[j]? with
  | some x, some y => lt x y
  | _, _ => false

/-- `__push_heap`: the value in `hole` rises while its parent is smaller, at most to `top`.
    Every step lowers `hole`, so `hole` steps are enough. -/
def pushHeap (top : ℕ) : (fuel : ℕ) → List α → (hole : ℕ) → List α
  | 0, l, _ => l
  | fuel + 1, l, hole =>
    let parent := (hole - 1) / 2
    if top < hole ∧ ltAt lt l parent hole then
      pushHeap top fuel (swap l hole parent) parent
    else l

/-- The loop of `__adjust_heap`: the hole sinks to a leaf, following the larger child. -/
def sinkHole (len : ℕ) : (fuel : ℕ) → List α → (hole : ℕ) → List α × ℕ
  | 0, l, hole => (l, hole)
  | fuel + 1, l, hole =>
    if hole < (len - 1) / 2 then
      let secondChild := 2 * (hole + 1)
      let child := if ltAt lt l secondChild (secondChild - 1) then secondChild - 1 else secondChild
      sinkHole len fuel (swap l hole child) child
    else if 2 ≤ len ∧ len % 2 = 0 ∧ hole = (len - 2) / 2 then
      -- the last parent of an even heap has one child
      (swap l hole (2 * (hole + 1) - 1), 2 * (hole + 1) - 1)
    else (l, hole)

/-- `__adjust_heap` on the first `len` elements. -/
def adjustHeap (len : ℕ) (l : List α) (hole : ℕ) : List α :=
  let r := sinkHole lt len len l hole
  pushHeap lt hole r.2 r.1 r.2

/-- `std::make_heap(l.begin(), l.end(), lt)`. -/
def makeHeap (l : List α) : List α :=
  if l.length < 2 then l
  else (List.range ((l.length - 2) / 2 + 1)).reverse.foldl (adjustHeap lt l.length) l

/-- `std::pop_heap(l.begin(), l.begin() + len, lt)`. -/
def popHeap (l : List α) (len : ℕ) : List α :=
  if 1 < len then adjustHeap lt (len - 1) (swap l 0 (len - 1)) 0 else l

/-! ## Permutations -/

theorem swap_perm (l : List α) (i j : ℕ) : (swap l i j).Perm l := by
  unfold swap
  split_ifs with h
  · exact List.set_set_perm h.1 h.2
  · exact List.Perm.refl l

theorem pushHeap_perm (top : ℕ) :
    ∀ fuel (l : List α) hole, (pushHeap lt top fuel l hole).Perm l := by
  intro fuel
  induction fuel with
  | zero => intro l hole; exact List.Perm.refl l
  | succ fuel ih =>
    intro l hole
    rw [pushHeap]
    split_ifs with h
    · exact (ih _ _).trans (swap_perm l _ _)
    · exact List.Perm.refl l

theorem sinkHole_perm (len : ℕ) :
    ∀ fuel (l : List α) hole, (sinkHole lt len fuel l hole).1.Perm l := by
  intro fuel
  induction fuel with
  | zero => intro l hole; exact List.Perm.refl l
  | succ fuel ih =>
    intro l hole
    rw [sinkHole]
    split_ifs with h1 h2
    · exact (ih _ _).trans (swap_perm l _ _)
    · exact swap_perm l _ _
    · exact List.Perm.refl l

theorem adjustHeap_perm (len : ℕ) (l : List α) (hole : ℕ) :
    (adjustHeap lt len l hole).Perm l :=
  (pushHeap_perm lt _ _ _ _).trans (sinkHole_perm lt _ _ _ _)

theorem makeHeap_perm (l : List α) : (makeHeap lt l).Perm l := by
  unfold makeHeap
  split_ifs with h
  · exact List.Perm.refl l
  · generalize (List.range ((l.length - 2) / 2 + 1)).reverse = parents
    have hfold : ∀ (ps : List ℕ) (m : List α),
        (ps.foldl (adjustHeap lt l.length) m).Perm m := by
      intro ps
      induction ps with
      | nil => intro m; exact List.Perm.refl m
      | cons p ps ih => intro m; exact (ih _).trans (adjustHeap_perm lt _ _ _)
    exact hfold parents l

theorem popHeap_perm (l : List α) (len : ℕ) : (popHeap lt l len).Perm l := by
  unfold popHeap
  split_ifs with h
  · exact (adjustHeap_perm lt _ _ _).trans (swap_perm l _ _)
  · exact List.Perm.refl l

/-! ## Order -/

/-- The comparison is a strict weak order, which is what `std::make_heap` and `std::pop_heap`
    require. -/
structure StrictWeak : Prop where
  asymm : ∀ {x y}, lt x y = true → lt y x = false
  trans : ∀ {x y z}, lt x y = false → lt y z = false → lt x z = false

/-- The parent of a position. -/
def parent (i : ℕ) : ℕ := (i - 1) / 2

/-- `hole` is `top`, or below it in the tree. -/
inductive Below (top : ℕ) : ℕ → Prop
  | refl : Below top top
  | child {c : ℕ} (hc : 0 < c) (h : Below top (parent c)) : Below top c

/-- Among the first `len` elements none is above its parent, as far as the parent is at `top` or
    after it. -/
def HeapFrom (len top : ℕ) (l : List α) : Prop :=
  ∀ i, 0 < i → i < len → top ≤ parent i → ltAt lt l (parent i) i = false

/-- `std::is_heap` of the first `len` elements. -/
def IsHeap (len : ℕ) (l : List α) : Prop := HeapFrom lt len 0 l

/-- While the hole sinks: the pairs off the hole are in order, and its children are not above its
    parent. -/
structure Sinking (len top hole : ℕ) (l : List α) : Prop where
  below : Below top hole
  off : ∀ i, 0 < i → i < len → top ≤ parent i → i ≠ hole → parent i ≠ hole →
    ltAt lt l (parent i) i = false
  grand : top < hole → ∀ i, 0 < i → i < len → parent i = hole → ltAt lt l (parent hole) i = false

/-- While the value rises: only the value in the hole may be above its parent. -/
structure Rising (len top hole : ℕ) (l : List α) : Prop extends Sinking lt len top hole l where
  under : ∀ i, 0 < i → i < len → parent i = hole → ltAt lt l hole i = false

variable {lt} {l : List α} {i j k len top hole c : ℕ}

theorem parent_lt (h : 0 < i) : parent i < i := by
  unfold parent
  omega

theorem Below.le (h : Below top hole) : top ≤ hole := by
  induction h with
  | refl => exact Nat.le_refl _
  | child hc _ ih => exact ih.trans (parent_lt hc).le

/-- A position below `top` other than `top` has its parent there. -/
theorem Below.up (h : Below top hole) (hne : top < hole) : Below top (parent hole) := by
  cases h with
  | refl => exact absurd hne (Nat.lt_irrefl _)
  | child _ h => exact h

theorem length_swap : (swap l i j).length = l.length := (swap_perm l i j).length_eq

theorem getElem?_swap (hi : i < l.length) (hj : j < l.length) :
    (swap l i j)[k]? = l[Equiv.swap i j k]? := by
  rw [swap, dif_pos ⟨hi, hj⟩, Equiv.swap_apply_def, List.getElem?_set, List.getElem?_set,
    List.length_set]
  by_cases hkj : j = k
  · subst hkj
    by_cases hki : j = i
    · subst hki
      simp [hi]
    · simp [hki, hi, hj]
  · by_cases hki : i = k
    · subst hki
      simp [hkj, hi, hj]
    · simp [hkj, hki, Ne.symm hkj, Ne.symm hki]

theorem ltAt_swap (hi : i < l.length) (hj : j < l.length) {a b : ℕ} :
    ltAt lt (swap l i j) a b = ltAt lt l (Equiv.swap i j a) (Equiv.swap i j b) := by
  unfold ltAt
  rw [getElem?_swap hi hj, getElem?_swap hi hj]

theorem ltAt_self (h : StrictWeak lt) : ltAt lt l i i = false := by
  unfold ltAt
  cases l[i]? with
  | none => rfl
  | some x =>
    by_contra hx
    have hx : lt x x = true := by simpa using hx
    exact Bool.false_ne_true ((h.asymm hx).symm.trans hx)

theorem ltAt_asymm (h : StrictWeak lt) (hij : ltAt lt l i j = true) : ltAt lt l j i = false := by
  unfold ltAt at hij ⊢
  cases hi : l[i]? <;> cases hj : l[j]? <;> simp only [hi, hj] at hij ⊢
  exact h.asymm hij

theorem ltAt_trans (h : StrictWeak lt) (hj : j < l.length) (hij : ltAt lt l i j = false)
    (hjk : ltAt lt l j k = false) : ltAt lt l i k = false := by
  unfold ltAt at hij hjk ⊢
  rw [List.getElem?_eq_getElem hj] at hij hjk
  cases hi : l[i]? <;> cases hk : l[k]? <;> simp only [hi, hk] at hij hjk ⊢
  exact h.trans hij hjk

/-- The larger child `c` takes the hole's place. -/
theorem Sinking.move (hs : Sinking lt len top hole l) (hlen : len ≤ l.length) (hc : 0 < c)
    (hcl : c < len) (hch : parent c = hole)
    (hmax : ∀ i, 0 < i → i < len → parent i = hole → ltAt lt l c i = false) :
    Sinking lt len top c (swap l hole c) := by
  have hlt : hole < c := hch ▸ parent_lt hc
  have htop := hs.below.le
  have hl : hole < l.length := by omega
  have hl' : c < l.length := by omega
  refine ⟨.child hc (hch.symm ▸ hs.below), fun i h0 hi hti hic hpi => ?_, fun _ i h0 hi hpi => ?_⟩
  · rw [ltAt_swap hl hl']
    by_cases hih : i = hole
    · subst hih
      have hp := parent_lt h0
      rw [Equiv.swap_apply_left, Equiv.swap_apply_of_ne_of_ne hp.ne hpi]
      exact hs.grand (by omega) c hc hcl hch
    · rw [Equiv.swap_apply_of_ne_of_ne hih hic]
      by_cases hph : parent i = hole
      · rw [hph, Equiv.swap_apply_left]
        exact hmax i h0 hi hph
      · rw [Equiv.swap_apply_of_ne_of_ne hph hpi]
        exact hs.off i h0 hi hti hih hph
  · have hp := parent_lt h0
    rw [ltAt_swap hl hl', hch, Equiv.swap_apply_left,
      Equiv.swap_apply_of_ne_of_ne (by omega) (by omega), ← hpi]
    exact hs.off i h0 hi (by omega) (by omega) (by omega)

/-- A hole without children has sunk. -/
theorem Sinking.leaf (hs : Sinking lt len top hole l) (h : len ≤ 2 * hole + 1) :
    Rising lt len top hole l := by
  refine ⟨hs, fun i h0 hi hp => ?_⟩
  unfold parent at hp
  omega

/-- The value that is above its parent takes the parent's place. -/
theorem Rising.move (hw : StrictWeak lt) (hs : Rising lt len top hole l) (hl : hole < l.length)
    (htop : top < hole) (hup : ltAt lt l (parent hole) hole = true) :
    Rising lt len top (parent hole) (swap l hole (parent hole)) := by
  have hbelow := hs.below.up htop
  have hle := hbelow.le
  have hlt : parent hole < hole := parent_lt (by omega)
  have hl' : parent hole < l.length := hlt.trans hl
  -- the children of the hole's parent are not above the value that rises there
  have hsib : ∀ i, 0 < i → i < len → i ≠ hole → parent i = parent hole →
      ltAt lt l (parent hole) i = false := fun i h0 hi hne hp => by
    have := hs.off i h0 hi (by omega) hne (by omega)
    rwa [hp] at this
  refine ⟨⟨hbelow, fun i h0 hi hti hip hpp => ?_, fun hgt i h0 hi hpi => ?_⟩,
    fun i h0 hi hpi => ?_⟩
  · rw [ltAt_swap hl hl']
    have hih : i ≠ hole := fun h => hpp (by rw [h])
    rw [Equiv.swap_apply_of_ne_of_ne hih hip]
    by_cases hph : parent i = hole
    · rw [hph, Equiv.swap_apply_left]
      exact hs.grand htop i h0 hi hph
    · rw [Equiv.swap_apply_of_ne_of_ne hph hpp]
      exact hs.off i h0 hi hti hih hph
  · have hp0 : 0 < parent hole := by omega
    have hpp := parent_lt hp0
    have hpar : parent hole < len → ltAt lt l (parent (parent hole)) (parent hole) = false :=
      fun hlen' => hs.off _ hp0 hlen' (hbelow.up hgt).le hlt.ne (by omega)
    rw [ltAt_swap hl hl', Equiv.swap_apply_of_ne_of_ne (by omega) hpp.ne]
    by_cases hih : i = hole
    · subst hih
      rw [Equiv.swap_apply_left]
      exact hpar (hlt.trans hi)
    · have hpi' := parent_lt h0
      rw [Equiv.swap_apply_of_ne_of_ne hih (by omega)]
      exact ltAt_trans hw hl' (hpar (by omega)) (hsib i h0 hi hih hpi)
  · rw [ltAt_swap hl hl', Equiv.swap_apply_right]
    by_cases hih : i = hole
    · subst hih
      rw [Equiv.swap_apply_left]
      exact ltAt_asymm hw hup
    · have hpi' := parent_lt h0
      rw [Equiv.swap_apply_of_ne_of_ne hih (by omega)]
      exact ltAt_trans hw hl' (ltAt_asymm hw hup) (hsib i h0 hi hih hpi)

/-- A value that is not above its parent has risen. -/
theorem Rising.finish (hs : Rising lt len top hole l)
    (h : top < hole → ltAt lt l (parent hole) hole = false) : HeapFrom lt len top l := by
  intro i h0 hi hti
  by_cases hih : i = hole
  · subst hih
    have := parent_lt h0
    exact h (by omega)
  · by_cases hp : parent i = hole
    · rw [hp]
      exact hs.under i h0 hi hp
    · exact hs.off i h0 hi hti hih hp

theorem pushHeap_heapFrom (hw : StrictWeak lt) : ∀ {fuel : ℕ} {l : List α} {hole : ℕ},
    hole ≤ fuel → hole < l.length → len ≤ l.length → Rising lt len top hole l →
      HeapFrom lt len top (pushHeap lt top fuel l hole) := by
  intro fuel
  induction fuel with
  | zero =>
    intro l hole hf _ _ hs
    exact hs.finish fun h => by omega
  | succ fuel ih =>
    intro l hole hf hl hlen hs
    rw [pushHeap]
    by_cases h : top < hole ∧ ltAt lt l ((hole - 1) / 2) hole = true
    · have hlt : parent hole < hole := parent_lt (by omega)
      rw [if_pos h]
      exact ih (by unfold parent at hlt; omega) (by rw [length_swap]; unfold parent at hlt; omega)
        (by rwa [length_swap]) (hs.move hw hl h.1 h.2)
    · rw [if_neg h]
      exact hs.finish fun ht => Bool.eq_false_iff.mpr fun hup => h ⟨ht, hup⟩

/-- The hole moves to its largest child `c`, and on from there if `c` can have children; or it has
    no children. -/
theorem sinkHole_succ (hw : StrictWeak lt) (len fuel : ℕ) (l : List α) (hole : ℕ) :
    (∃ c, 0 < c ∧ c < len ∧ parent c = hole ∧
      (∀ i, 0 < i → i < len → parent i = hole → ltAt lt l c i = false) ∧
      (sinkHole lt len (fuel + 1) l hole = sinkHole lt len fuel (swap l hole c) c ∨
        len ≤ 2 * c + 1 ∧ sinkHole lt len (fuel + 1) l hole = (swap l hole c, c))) ∨
    len ≤ 2 * hole + 1 ∧ sinkHole lt len (fuel + 1) l hole = (l, hole) := by
  have hchild : ∀ i, 0 < i → parent i = hole → i = 2 * (hole + 1) ∨ i = 2 * (hole + 1) - 1 := by
    intro i h0 hp
    unfold parent at hp
    omega
  have hsecond : parent (2 * (hole + 1)) = hole := by
    unfold parent
    omega
  have hfirst : parent (2 * (hole + 1) - 1) = hole := by
    unfold parent
    omega
  rw [sinkHole]
  by_cases h1 : hole < (len - 1) / 2
  · rw [if_pos h1]
    left
    by_cases hlt : ltAt lt l (2 * (hole + 1)) (2 * (hole + 1) - 1) = true
    · refine ⟨2 * (hole + 1) - 1, by omega, by omega, hfirst, fun i h0 _ hp => ?_, ?_⟩
      · rcases hchild i h0 hp with rfl | rfl
        · exact ltAt_asymm hw hlt
        · exact ltAt_self hw
      · simp only [if_pos hlt, true_or]
    · refine ⟨2 * (hole + 1), by omega, by omega, hsecond, fun i h0 _ hp => ?_, ?_⟩
      · rcases hchild i h0 hp with rfl | rfl
        · exact ltAt_self hw
        · exact Bool.eq_false_iff.mpr hlt
      · simp only [if_neg hlt, true_or]
  · rw [if_neg h1]
    by_cases h2 : 2 ≤ len ∧ len % 2 = 0 ∧ hole = (len - 2) / 2
    · rw [if_pos h2]
      refine Or.inl ⟨2 * (hole + 1) - 1, by omega, by omega, hfirst, fun i h0 hi hp => ?_,
        Or.inr ⟨by omega, rfl⟩⟩
      obtain rfl : i = 2 * (hole + 1) - 1 := by
        have := hchild i h0 hp
        omega
      exact ltAt_self hw
    · rw [if_neg h2]
      exact Or.inr ⟨by omega, rfl⟩

theorem sinkHole_rising (hw : StrictWeak lt) : ∀ {fuel : ℕ} {l : List α} {hole : ℕ},
    len ≤ hole + fuel → hole < l.length → len ≤ l.length → Sinking lt len top hole l →
      (sinkHole lt len fuel l hole).2 < (sinkHole lt len fuel l hole).1.length ∧
        Rising lt len top (sinkHole lt len fuel l hole).2 (sinkHole lt len fuel l hole).1 := by
  intro fuel
  induction fuel with
  | zero =>
    intro l hole hf hl _ hs
    exact ⟨hl, hs.leaf (by omega)⟩
  | succ fuel ih =>
    intro l hole hf hl hlen hs
    obtain ⟨c, h0, hcl, hch, hmax, hcase⟩ | ⟨hleaf, heq⟩ := sinkHole_succ hw len fuel l hole
    · have hmove := hs.move hlen h0 hcl hch hmax
      have hlt : hole < c := hch ▸ parent_lt h0
      have hc : c < (swap l hole c).length := by
        rw [length_swap]
        omega
      obtain heq | ⟨hleaf, heq⟩ := hcase
      · rw [heq]
        exact ih (by omega) hc (by rwa [length_swap]) hmove
      · rw [heq]
        exact ⟨hc, hmove.leaf hleaf⟩
    · rw [heq]
      exact ⟨hl, hs.leaf hleaf⟩

theorem adjustHeap_heapFrom (hw : StrictWeak lt) (hl : hole < l.length) (hlen : len ≤ l.length)
    (h : HeapFrom lt len (hole + 1) l) : HeapFrom lt len hole (adjustHeap lt len l hole) := by
  have hs : Sinking lt len hole hole l :=
    ⟨.refl, fun i h0 hi ht _ hp => h i h0 hi (by omega), fun ht => absurd ht (Nat.lt_irrefl _)⟩
  obtain ⟨hlt, hr⟩ := sinkHole_rising hw (Nat.le_add_left len hole) hl hlen hs
  have hlen' : len ≤ (sinkHole lt len len l hole).1.length := by
    rwa [(sinkHole_perm lt len len l hole).length_eq]
  exact pushHeap_heapFrom hw (Nat.le_refl _) hlt hlen' hr

/-- **`std::make_heap`.** -/
theorem makeHeap_isHeap (hw : StrictWeak lt) (l : List α) :
    IsHeap lt (makeHeap lt l).length (makeHeap lt l) := by
  rw [(makeHeap_perm lt l).length_eq]
  unfold makeHeap
  split_ifs with hlen
  · intro i h0 hi _
    omega
  -- `n` parents are left to adjust
  have hfold : ∀ (n : ℕ) (m : List α), n < l.length → m.length = l.length →
      HeapFrom lt l.length n m →
        IsHeap lt l.length ((List.range n).reverse.foldl (adjustHeap lt l.length) m) := by
    intro n
    induction n with
    | zero => exact fun m _ _ hm => hm
    | succ n ih =>
      intro m hn hml hm
      rw [List.range_succ, List.reverse_append, List.reverse_singleton, List.singleton_append,
        List.foldl_cons]
      refine ih _ (by omega) ?_ (adjustHeap_heapFrom hw (by omega) hml.ge hm)
      rw [(adjustHeap_perm lt l.length m n).length_eq, hml]
  refine hfold _ l (by omega) rfl fun i h0 hi ht => ?_
  unfold parent at ht
  omega

/-- The first element of a heap is the largest. -/
theorem IsHeap.root (hw : StrictWeak lt) (h : IsHeap lt len l) (hlen : len ≤ l.length) :
    ∀ {i : ℕ}, i < len → ltAt lt l 0 i = false := by
  intro i
  induction i using Nat.strong_induction_on with
  | _ i ih =>
    intro hi
    rcases Nat.eq_zero_or_pos i with rfl | h0
    · exact ltAt_self hw
    · have hp := parent_lt h0
      exact ltAt_trans hw (by omega) (ih _ hp (by omega)) (h i h0 hi (Nat.zero_le _))

/-! ## What stays in place -/

theorem getElem?_pushHeap : ∀ {fuel : ℕ} {l : List α} {hole : ℕ}, hole < k →
    (pushHeap lt top fuel l hole)[k]? = l[k]? := by
  intro fuel
  induction fuel with
  | zero => exact fun _ => rfl
  | succ fuel ih =>
    intro l hole hk
    rw [pushHeap]
    split_ifs with h
    · rw [ih (by omega)]
      by_cases hl : hole < l.length
      · rw [getElem?_swap hl (by omega), Equiv.swap_apply_of_ne_of_ne (by omega) (by omega)]
      · rw [swap, dif_neg fun h => hl h.1]
    · rfl

theorem getElem?_sinkHole (hw : StrictWeak lt) (hk : len ≤ k) : ∀ {fuel : ℕ} {l : List α} {hole : ℕ},
    len ≤ l.length → hole < len →
      (sinkHole lt len fuel l hole).1[k]? = l[k]? ∧ (sinkHole lt len fuel l hole).2 < len := by
  intro fuel
  induction fuel with
  | zero => exact fun _ h => ⟨rfl, h⟩
  | succ fuel ih =>
    intro l hole hl hh
    obtain ⟨c, -, hcl, -, -, hcase⟩ | ⟨-, heq⟩ := sinkHole_succ hw len fuel l hole
    · have hswap : (swap l hole c)[k]? = l[k]? := by
        rw [getElem?_swap (by omega) (by omega),
          Equiv.swap_apply_of_ne_of_ne (by omega) (by omega)]
      obtain heq | ⟨-, heq⟩ := hcase
      · rw [heq]
        obtain ⟨h1, h2⟩ := ih (l := swap l hole c) (by rwa [length_swap]) hcl
        exact ⟨h1.trans hswap, h2⟩
      · rw [heq]
        exact ⟨hswap, hcl⟩
    · rw [heq]
      exact ⟨rfl, hh⟩

theorem getElem?_adjustHeap (hw : StrictWeak lt) (hk : len ≤ k) (hlen : len ≤ l.length) (hl : hole < len) :
    (adjustHeap lt len l hole)[k]? = l[k]? := by
  refine (getElem?_pushHeap ?_).trans (getElem?_sinkHole hw hk hlen hl).1
  exact (getElem?_sinkHole hw hk hlen hl).2.trans_le hk

/-- **`std::pop_heap`.** The first element goes to the end of the heap; the others are a heap. -/
theorem popHeap_isHeap (hw : StrictWeak lt) (hlen : len < l.length) (h : IsHeap lt (len + 1) l) :
    IsHeap lt len (popHeap lt l (len + 1)) := by
  unfold popHeap
  split_ifs with h1
  · rw [Nat.add_sub_cancel]
    refine adjustHeap_heapFrom hw (by rw [length_swap]; omega) (by rw [length_swap]; omega) ?_
    intro i h0 hi ht
    have hp := parent_lt h0
    rw [ltAt_swap (by omega) (by omega), Equiv.swap_apply_of_ne_of_ne (by omega) (by omega),
      Equiv.swap_apply_of_ne_of_ne (by omega) (by omega)]
    exact h i h0 (by omega) (Nat.zero_le _)
  · intro i h0 hi
    omega

theorem getElem?_popHeap (hw : StrictWeak lt) (hlen : len < l.length) (hk : len ≤ k) :
    (popHeap lt l (len + 1))[k]? = if k = len then l[0]? else l[k]? := by
  unfold popHeap
  split_ifs with h1 h2 h2
  · rw [Nat.add_sub_cancel, getElem?_adjustHeap hw hk (by rw [length_swap]; omega) (by omega),
      getElem?_swap (by omega) hlen, h2, Equiv.swap_apply_right]
  · rw [Nat.add_sub_cancel, getElem?_adjustHeap hw hk (by rw [length_swap]; omega) (by omega),
      getElem?_swap (by omega) hlen, Equiv.swap_apply_of_ne_of_ne (by omega) h2]
  · rw [h2]
    congr 1
    omega
  · rfl

/-! ## Keys -/

section Map

variable {β : Type*} {lt : α → α → Bool} {lt' : β → β → Bool} {f : α → β}

theorem swap_map (l : List α) (i j : ℕ) : swap (l.map f) i j = (swap l i j).map f := by
  unfold swap
  simp only [List.length_map, List.getElem_map]
  split_ifs with h
  · rw [List.map_set, List.map_set]
  · rfl

theorem ltAt_map (hf : ∀ x y, lt' (f x) (f y) = lt x y) (l : List α) (i j : ℕ) :
    ltAt lt' (l.map f) i j = ltAt lt l i j := by
  unfold ltAt
  rw [List.getElem?_map, List.getElem?_map]
  cases l[i]? <;> cases l[j]? <;> simp [hf]

theorem pushHeap_map (hf : ∀ x y, lt' (f x) (f y) = lt x y) (top : ℕ) :
    ∀ (fuel : ℕ) (l : List α) (hole : ℕ),
      pushHeap lt' top fuel (l.map f) hole = (pushHeap lt top fuel l hole).map f := by
  intro fuel
  induction fuel with
  | zero =>
    intro l hole
    rfl
  | succ fuel ih =>
    intro l hole
    rw [pushHeap, pushHeap, ltAt_map hf]
    split_ifs with h
    · rw [swap_map, ih]
    · rfl

theorem sinkHole_map (hf : ∀ x y, lt' (f x) (f y) = lt x y) (len : ℕ) :
    ∀ (fuel : ℕ) (l : List α) (hole : ℕ), sinkHole lt' len fuel (l.map f) hole =
      ((sinkHole lt len fuel l hole).1.map f, (sinkHole lt len fuel l hole).2) := by
  intro fuel
  induction fuel with
  | zero =>
    intro l hole
    rfl
  | succ fuel ih =>
    intro l hole
    rw [sinkHole, sinkHole]
    simp only [ltAt_map hf, swap_map]
    split
    · exact ih _ _
    · split
      · rfl
      · rfl

theorem adjustHeap_map (hf : ∀ x y, lt' (f x) (f y) = lt x y) (len : ℕ) (l : List α) (hole : ℕ) :
    adjustHeap lt' len (l.map f) hole = (adjustHeap lt len l hole).map f := by
  simp only [adjustHeap, sinkHole_map hf, pushHeap_map hf]

/-- The arrangement depends on what is compared only. -/
theorem makeHeap_map (hf : ∀ x y, lt' (f x) (f y) = lt x y) (l : List α) :
    makeHeap lt' (l.map f) = (makeHeap lt l).map f := by
  have hfold : ∀ (ps : List ℕ) (m : List α),
      ps.foldl (adjustHeap lt' l.length) (m.map f) = (ps.foldl (adjustHeap lt l.length) m).map f := by
    intro ps
    induction ps with
    | nil =>
      intro m
      rfl
    | cons p ps ih =>
      intro m
      rw [List.foldl_cons, List.foldl_cons, adjustHeap_map hf, ih]
  unfold makeHeap
  rw [List.length_map]
  split_ifs with h
  · rfl
  · exact hfold _ l

end Map

end SwppCompiler.Lib.Heap
