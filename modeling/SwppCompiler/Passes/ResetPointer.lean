import SwppCompiler.Passes.Values
import Mathlib

/-!
# `ResetPointer`

Model of `ResetPointer` (`src/passes/ResetPointer.cpp`, lines 60–100) on one block. A pass over the
block collects the accesses that need a reset in two lists; then the calls are inserted.

* `resetBlock_eq`: what is inserted before each instruction.
* `reset_placement`: a reset call stands before an access iff it changes from one memory to the other.
-/

namespace SwppCompiler.Passes

/-! ## The code -/

/-- An instruction of the new block: the `i`-th one of the old block, or a new call. -/
inductive Item
  | inst (i : ℕ)
  | resetStack
  | resetHeap
deriving DecidableEq, Repr

/-- What the loop changes: `state`, `s` and `h`. -/
structure ResetScan where
  state : AllocType
  s : List ℕ
  h : List ℕ

/-- The body of the loop over the instructions (`ResetPointer.cpp`, lines 70–88). -/
def resetStep (sc : ResetScan) (itr : Value × ℕ) : ResetScan :=
  let cur := getAccessType itr.1
  if cur = .noEffect then sc
  else if cur = .call ∨ cur = .unknown then { sc with state := .unknown }
  else if cur = .stack then
    { sc with
      s := if sc.state = .heap then sc.s ++ [itr.2] else sc.s
      state := .stack }
  else
    { sc with
      h := if sc.state = .stack then sc.h ++ [itr.2] else sc.h
      state := .heap }

/-- The loop over the instructions (`ResetPointer.cpp`, lines 66–88). -/
def resetScan (BB : List Value) : ResetScan := BB.zipIdx.foldl resetStep ⟨.unknown, [], []⟩

/-- `I->insertBefore(iptr)`. -/
def insertBefore (I : Item) (iptr : ℕ) : List Item → List Item
  | [] => []
  | x :: xs => if x = .inst iptr then I :: x :: xs else x :: insertBefore I iptr xs

/-- A call is created before each instruction of a list (`ResetPointer.cpp`, lines 90–93, 94–97). -/
def insertAll (I : Item) (iptrs : List ℕ) (block : List Item) : List Item :=
  iptrs.foldl (fun block iptr => insertBefore I iptr block) block

/-- A block afterwards. -/
def resetBlock (BB : List Value) : List Item :=
  let block := (List.range BB.length).map .inst
  let sc := resetScan BB
  if sc.s = [] ∧ sc.h = [] then block
  else insertAll .resetHeap sc.h (insertAll .resetStack sc.s block)

/-- `ResetPointer(M)`, on the blocks of the functions. -/
def resetPointer (M : List (List (List Value))) : List (List (List Item)) :=
  M.map fun F => F.map resetBlock

/-! ## The accesses -/

/-- The state after an access. -/
def AllocType.after (state access : AllocType) : AllocType :=
  match access with
  | .stack => .stack
  | .heap => .heap
  | .unknown | .call => .unknown
  | .noEffect => state

/-- The state in which instruction `i` is reached. -/
def stateAt (BB : List Value) (i : ℕ) : AllocType :=
  (BB.take i).foldl (fun state v => state.after (getAccessType v)) .unknown

/-- Instruction `i` accesses `to` after an access of `from`. -/
def Switches (BB : List Value) (source target : AllocType) (i : ℕ) : Prop :=
  stateAt BB i = source ∧ BB[i]?.map getAccessType = some target

instance (BB : List Value) (source target : AllocType) : DecidablePred (Switches BB source target) :=
  fun i => inferInstanceAs (Decidable (stateAt BB i = source ∧ BB[i]?.map getAccessType = some target))

section

variable {BB : List Value}

/-- What the loop has found after `n` instructions. -/
theorem foldl_resetStep (n : ℕ) (hn : n ≤ BB.length) :
    (BB.take n).zipIdx.foldl resetStep ⟨.unknown, [], []⟩ =
      ⟨stateAt BB n, (List.range n).filter (Switches BB .heap .stack),
        (List.range n).filter (Switches BB .stack .heap)⟩ := by
  induction n with
  | zero => rfl
  | succ n ih =>
    have hlt : n < BB.length := hn
    have hget : BB[n]? = some BB[n] := List.getElem?_eq_getElem hlt
    have hstate : stateAt BB (n + 1) = (stateAt BB n).after (getAccessType BB[n]) := by
      rw [stateAt, List.take_succ_eq_append_getElem hlt, List.foldl_append]
      rfl
    rw [List.take_succ_eq_append_getElem hlt, List.zipIdx_append, List.foldl_append, ih (by omega),
      List.length_take, Nat.min_eq_left (by omega), hstate, List.range_succ, List.filter_append,
      List.filter_append]
    have hswitch : ∀ source target, Switches BB source target n ↔
        stateAt BB n = source ∧ getAccessType BB[n] = target := fun source target => by
      rw [Switches, hget, Option.map_some, Option.some_inj]
    have hfilter : ∀ source target, [n].filter (Switches BB source target) =
        if stateAt BB n = source ∧ getAccessType BB[n] = target then [n] else [] :=
      fun source target => by
        simp only [List.filter_cons, List.filter_nil, hswitch, decide_eq_true_eq]
    rw [hfilter, hfilter]
    show resetStep _ (BB[n], 0 + n) = _
    rw [Nat.zero_add]
    unfold resetStep
    generalize getAccessType BB[n] = cur
    generalize stateAt BB n = state
    cases cur with
    | noEffect => simp [AllocType.after]
    | call => simp [AllocType.after]
    | unknown => simp [AllocType.after]
    | stack => cases state <;> simp [AllocType.after]
    | heap => cases state <;> simp [AllocType.after]

theorem resetScan_eq : resetScan BB = ⟨stateAt BB BB.length,
    (List.range BB.length).filter (Switches BB .heap .stack),
    (List.range BB.length).filter (Switches BB .stack .heap)⟩ := by
  have h := foldl_resetStep BB.length (le_refl BB.length)
  rwa [List.take_length] at h

/-! ## The insertions -/

/-- Instructions with calls before them. -/
def withCalls (pre : ℕ → List Item) (is : List ℕ) : List Item := is.flatMap fun i => pre i ++ [.inst i]

theorem withCalls_cons (pre : ℕ → List Item) (i : ℕ) (is : List ℕ) :
    withCalls pre (i :: is) = pre i ++ .inst i :: withCalls pre is := by
  simp [withCalls]

/-- Other items are passed. -/
theorem insertBefore_append {I : Item} {i : ℕ} {l r : List Item} (hl : .inst i ∉ l) :
    insertBefore I i (l ++ r) = l ++ insertBefore I i r := by
  induction l with
  | nil => rfl
  | cons x l ih =>
    obtain ⟨hx, hl⟩ := not_or.mp (mt List.mem_cons.mpr hl)
    rw [List.cons_append, insertBefore, if_neg (Ne.symm hx), ih hl]
    rfl

theorem insertBefore_withCalls {I : Item} {i : ℕ} {pre : ℕ → List Item} {is : List ℕ}
    (hpre : ∀ j k, .inst k ∉ pre j) (his : is.Nodup) (hi : i ∈ is) :
    insertBefore I i (withCalls pre is) = withCalls (Function.update pre i (pre i ++ [I])) is := by
  induction is with
  | nil => cases hi
  | cons j is ih =>
    obtain ⟨hj, his⟩ := List.nodup_cons.mp his
    rw [withCalls_cons, withCalls_cons, insertBefore_append (hpre j i), insertBefore]
    by_cases hij : j = i
    · subst hij
      have hrest : withCalls (Function.update pre j (pre j ++ [I])) is = withCalls pre is := by
        unfold withCalls
        refine List.flatMap_congr fun k hk => ?_
        have hkj : k ≠ j := fun h => hj (h ▸ hk)
        rw [Function.update_of_ne hkj]
      rw [if_pos rfl, Function.update_self, hrest]
      simp
    · have hi : i ∈ is := (List.mem_cons.mp hi).resolve_left (Ne.symm hij)
      rw [if_neg fun h => hij (Item.inst.inj h), Function.update_of_ne hij, ih his hi]

/-- A call is inserted before each instruction of a list. -/
theorem insertAll_withCalls {I : Item} {pre : ℕ → List Item} {is iptrs : List ℕ}
    (hI : ∀ k, I ≠ .inst k) (hpre : ∀ j k, .inst k ∉ pre j) (his : is.Nodup) (hiptrs : iptrs.Nodup)
    (hsub : iptrs ⊆ is) : insertAll I iptrs (withCalls pre is) =
      withCalls (fun i => pre i ++ if i ∈ iptrs then [I] else []) is := by
  induction iptrs generalizing pre with
  | nil => simp [insertAll]
  | cons i iptrs ih =>
    obtain ⟨hi, hiptrs⟩ := List.nodup_cons.mp hiptrs
    rw [insertAll, List.foldl_cons, insertBefore_withCalls hpre his (hsub List.mem_cons_self)]
    have hpre' : ∀ j k, .inst k ∉ Function.update pre i (pre i ++ [I]) j := by
      intro j k
      by_cases hji : j = i
      · rw [hji, Function.update_self]
        simp [hpre, Ne.symm (hI k)]
      · rw [Function.update_of_ne hji]
        exact hpre j k
    refine (ih hpre' hiptrs fun j hj => hsub (List.mem_cons_of_mem _ hj)).trans ?_
    congr 1
    funext j
    by_cases hji : j = i
    · subst hji
      simp [hi]
    · simp [hji]

/-! ## Results -/

/-- The call before an instruction. -/
def callBefore (BB : List Value) (i : ℕ) : Option Item :=
  if Switches BB .heap .stack i then some .resetStack
  else if Switches BB .stack .heap i then some .resetHeap
  else none

theorem callBefore_eq_some_iff {i : ℕ} :
    (callBefore BB i = some .resetStack ↔ Switches BB .heap .stack i) ∧
      (callBefore BB i = some .resetHeap ↔ Switches BB .stack .heap i) := by
  have hboth : Switches BB .heap .stack i → ¬Switches BB .stack .heap i := fun h1 h2 => by
    have := h1.1.symm.trans h2.1
    cases this
  unfold callBefore
  split_ifs with h1 h2
  · simp [h1, hboth h1]
  · simp [h1, h2]
  · simp [h1, h2]

/-- The new block: each instruction, after its call. -/
theorem resetBlock_eq : resetBlock BB =
    withCalls (fun i => (callBefore BB i).toList) (List.range BB.length) := by
  have hblock : (List.range BB.length).map Item.inst = withCalls (fun _ => []) (List.range BB.length) :=
    List.map_eq_flatMap
  have hinsert : resetBlock BB = insertAll .resetHeap (resetScan BB).h
      (insertAll .resetStack (resetScan BB).s ((List.range BB.length).map .inst)) := by
    simp only [resetBlock]
    split_ifs with hempty
    · rw [hempty.1, hempty.2]
      rfl
    · rfl
  have hnodup : ∀ p : ℕ → Bool, ((List.range BB.length).filter p).Nodup := fun p =>
    List.nodup_range.filter p
  have hsub : ∀ p : ℕ → Bool, (List.range BB.length).filter p ⊆ List.range BB.length := fun p =>
    List.filter_subset_self _
  rw [hinsert, resetScan_eq, hblock,
    insertAll_withCalls (fun _ => Item.noConfusion) (by simp) List.nodup_range (hnodup _) (hsub _),
    insertAll_withCalls (fun _ => Item.noConfusion) ?_ List.nodup_range (hnodup _) (hsub _)]
  · unfold withCalls
    refine List.flatMap_congr fun i hi => ?_
    simp only [List.mem_filter, hi, true_and, decide_eq_true_eq, callBefore, List.nil_append]
    by_cases h1 : Switches BB .heap .stack i
    · have h2 : ¬Switches BB .stack .heap i := fun h2 => by
        have := h1.1.symm.trans h2.1
        cases this
      simp [h1, h2]
    · by_cases h2 : Switches BB .stack .heap i <;> simp [h1, h2]
  · intro j k
    split_ifs <;> simp

/-- Where a call stands before an instruction. -/
theorem infix_withCalls {before : ℕ → Option Item} {is : List ℕ} {I : Item} {i : ℕ}
    (hI : ∀ k, I ≠ .inst k) : [I, .inst i] <:+: withCalls (fun i => (before i).toList) is ↔
      i ∈ is ∧ before i = some I := by
  induction is with
  | nil => simp [withCalls]
  | cons j is ih =>
    have hinst : [I, .inst i] <:+: .inst j :: withCalls (fun i => (before i).toList) is ↔
        i ∈ is ∧ before i = some I := by
      rw [List.infix_cons_iff, ih]
      refine or_iff_right fun h => ?_
      exact hI j (List.cons_prefix_cons.mp h).1
    rw [withCalls_cons]
    cases hj : before j with
    | none =>
      show [I, .inst i] <:+: .inst j :: _ ↔ _
      rw [hinst, List.mem_cons]
      refine ⟨fun h => ⟨Or.inr h.1, h.2⟩, fun h => ⟨h.1.resolve_left ?_, h.2⟩⟩
      rintro rfl
      rw [hj] at h
      cases h.2
    | some J =>
      show [I, .inst i] <:+: J :: .inst j :: _ ↔ _
      rw [List.infix_cons_iff, hinst, List.cons_prefix_cons, List.cons_prefix_cons, List.mem_cons]
      constructor
      · rintro (⟨rfl, hij, -⟩ | h)
        · cases hij
          exact ⟨Or.inl rfl, hj⟩
        · exact ⟨Or.inr h.1, h.2⟩
      · rintro ⟨rfl | hi, h⟩
        · rw [hj] at h
          cases h
          exact Or.inl ⟨rfl, rfl, List.nil_prefix⟩
        · exact Or.inr ⟨hi, h⟩

/-- A call stands before an instruction. -/
theorem suffix_withCalls {before : ℕ → Option Item} {is : List ℕ} {I : Item} {r : List Item}
    (hI : ∀ k, I ≠ .inst k) (h : I :: r <:+ withCalls (fun i => (before i).toList) is) :
    ∃ i r', r = .inst i :: r' := by
  induction is with
  | nil => cases List.suffix_nil.mp h
  | cons j is ih =>
    have hinst : I :: r <:+ .inst j :: withCalls (fun i => (before i).toList) is →
        ∃ i r', r = .inst i :: r' := fun h => by
      rcases List.suffix_cons_iff.mp h with h | h
      · exact absurd (List.cons.inj h).1 (hI j)
      · exact ih h
    rw [withCalls_cons] at h
    cases hj : before j with
    | none =>
      rw [hj] at h
      exact hinst h
    | some J =>
      rw [hj] at h
      rcases List.suffix_cons_iff.mp h with h | h
      · exact ⟨j, _, (List.cons.inj h).2⟩
      · exact hinst h

end

/-- The instructions of the old block. -/
def Item.inst? : Item → Option ℕ
  | .inst i => some i
  | _ => none

/-- In the new block, a `__reset_stack__` call stands right before an instruction iff this is a stack
    access that is reached after a heap access, and a `__reset_heap__` call iff it is a heap access that
    is reached after a stack access. Every call that was added stands right before an instruction of
    the old block, and without them the old block is left. -/
structure ResetsPlaced (BB : List Value) (new : List Item) : Prop where
  resetStack : ∀ i, [.resetStack, .inst i] <:+: new ↔ Switches BB .heap .stack i
  resetHeap : ∀ i, [.resetHeap, .inst i] <:+: new ↔ Switches BB .stack .heap i
  only : ∀ I r, I :: r <:+ new → (∀ k, I ≠ .inst k) → ∃ i r', r = .inst i :: r'
  rest : new.filterMap Item.inst? = List.range BB.length

theorem Switches.mem_range {BB : List Value} {source target : AllocType} {i : ℕ}
    (h : Switches BB source target i) : i ∈ List.range BB.length := by
  obtain ⟨v, hv, -⟩ := Option.map_eq_some_iff.mp h.2
  exact List.mem_range.mpr (List.getElem?_eq_some_iff.mp hv).1

theorem resetBlock_placed (BB : List Value) : ResetsPlaced BB (resetBlock BB) := by
  rw [resetBlock_eq]
  refine ⟨fun i => ?_, fun i => ?_, fun I r h hI => suffix_withCalls hI h, ?_⟩
  · rw [infix_withCalls fun _ => Item.noConfusion, callBefore_eq_some_iff.1]
    exact and_iff_right_of_imp Switches.mem_range
  · rw [infix_withCalls fun _ => Item.noConfusion, callBefore_eq_some_iff.2]
    exact and_iff_right_of_imp Switches.mem_range
  · generalize List.range BB.length = is
    induction is with
    | nil => rfl
    | cons i is ih =>
      have hcall : ((callBefore BB i).toList).filterMap Item.inst? = [] := by
        unfold callBefore
        split_ifs <;> rfl
      rw [withCalls_cons, List.filterMap_append, hcall, List.nil_append]
      exact congrArg (i :: ·) ih

/-- **Reset placement.** `ResetPointer` puts the reset calls where they belong, in every block of every
    module. -/
theorem reset_placement (M : List (List (List Value))) :
    List.Forall₂ (List.Forall₂ ResetsPlaced) M (resetPointer M) := by
  refine List.forall₂_map_right_iff.mpr (List.forall₂_same.mpr fun F _ => ?_)
  exact List.forall₂_map_right_iff.mpr (List.forall₂_same.mpr fun BB _ => resetBlock_placed BB)

end SwppCompiler.Passes
