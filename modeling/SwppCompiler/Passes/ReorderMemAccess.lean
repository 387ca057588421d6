import SwppCompiler.Lib.Schedule
import SwppCompiler.Passes.Values
import Mathlib

/-!
# `ReorderMemAccess`

Model of `ReorderMemAccess::run` (`src/passes/ReorderMemAccess.cpp`, lines 123–198) on one block. The
scan over the instructions is repeated until it pushes nothing; then the other class is blocked.

* `reorder_schedules`: the loop ends, and the new order is a permutation that keeps every pair of
  `checkDom` in order, and the PHI nodes in front.
* `reorder_switches`: no order that keeps these pairs has fewer switches between the stack and the
  heap, but for one.
-/

namespace SwppCompiler.Passes

open Lib.Schedule

/-- `STACK + HEAP - block` (`ReorderMemAccess.cpp`, line 174). -/
def AllocType.otherBlock : AllocType → AllocType
  | .stack => .heap
  | .heap => .stack
  | ty => ty

/-! ## The code -/

namespace Reorder

variable (Insts : List Value)

/-- What the loop changes: `cnt`, `used`, `lft` and `newInsts`. An instruction is its number. -/
structure Sched where
  cnt : Fin Insts.length → ℤ
  used : Fin Insts.length → Bool
  lft : ℤ
  newInsts : List (Fin Insts.length)

/-- `type[i]`. -/
def type (i : Fin Insts.length) : AllocType := getBlockType (Insts.get i)

/-- An edge of the dominance graph (`ReorderMemAccess.cpp`, lines 147–152). -/
def Edge (i j : Fin Insts.length) : Prop := i < j ∧ checkDom (Insts.get i) (Insts.get j) = true

instance : DecidableRel (Edge Insts) := fun i j =>
  inferInstanceAs (Decidable (i < j ∧ checkDom (Insts.get i) (Insts.get j) = true))

/-- `dom[i]`. -/
def dom (i : Fin Insts.length) : List (Fin Insts.length) :=
  (List.finRange Insts.length).filter fun j => Edge Insts i j

/-- The state before the loop. -/
def Sched.init : Sched Insts where
  cnt j := (Finset.univ.filter fun i => Edge Insts i j).card
  used _ := false
  lft := Insts.length
  newInsts := []

variable {Insts}

/-- An instruction is pushed (`ReorderMemAccess.cpp`, lines 167–171). -/
def Sched.push (s : Sched Insts) (i : Fin Insts.length) : Sched Insts where
  cnt := (dom Insts i).foldl (fun cnt nxt => Function.update cnt nxt (cnt nxt - 1)) s.cnt
  used := Function.update s.used i true
  lft := s.lft - 1
  newInsts := s.newInsts ++ [i]

/-- The body of the `for` loop (`ReorderMemAccess.cpp`, lines 163–173), on the state and `flag`. -/
def visit (block : AllocType) (s : Sched Insts × Bool) (i : Fin Insts.length) :
    Sched Insts × Bool :=
  if s.1.used i ∨ type Insts i = block then s
  else if s.1.cnt i = 0 then (s.1.push i, true)
  else s

/-- The `for` loop, from `flag = false`. -/
def scan (block : AllocType) (s : Sched Insts) : Sched Insts × Bool :=
  (List.finRange Insts.length).foldl (visit block) (s, false)

/-- `while(flag)` (`ReorderMemAccess.cpp`, lines 160–174), with at most `fuel` rounds. -/
def pushAll (block : AllocType) : (fuel : ℕ) → Sched Insts → Option (Sched Insts)
  | 0, _ => none
  | fuel + 1, s =>
    let (s, flag) := scan block s
    if flag then pushAll block fuel s else some s

/-- `while(lft)` (`ReorderMemAccess.cpp`, lines 157–183), with at most `fuel` tests. -/
def reorder : (fuel : ℕ) → (block : AllocType) → Sched Insts → Option (List (Fin Insts.length))
  | 0, _, _ => none
  | fuel + 1, block, s =>
    if s.lft = 0 then some s.newInsts
    else do
      let s ← pushAll block fuel s
      reorder fuel block.otherBlock s

variable (Insts) in
/-- The new order of the instructions of a block (`ReorderMemAccess.cpp`, lines 153–183). -/
def newInsts (fuel : ℕ) : Option (List (Fin Insts.length)) := reorder fuel .heap (.init Insts)

variable (Insts) in
/-- The block afterwards (`ReorderMemAccess.cpp`, lines 185–196). -/
def run (BranchInst : Value) (fuel : ℕ) : Option (List Value) :=
  (newInsts Insts fuel).map fun order => order.map Insts.get ++ [BranchInst]

/-! ## One push -/

@[simp] theorem Sched.push_newInsts (s : Sched Insts) (i : Fin Insts.length) :
    (s.push i).newInsts = s.newInsts ++ [i] := rfl

/-- What the counters count. -/
structure Sched.Ok (s : Sched Insts) : Prop where
  used : ∀ i, s.used i = true ↔ i ∈ s.newInsts
  cnt : ∀ j, s.cnt j = (Finset.univ.filter fun i => Edge Insts i j ∧ i ∉ s.newInsts).card
  nodup : s.newInsts.Nodup
  lft : s.lft = Insts.length - s.newInsts.length

variable {s s' : Sched Insts} {block : AllocType} {i j : Fin Insts.length}

theorem Sched.Ok.init : (Sched.init Insts).Ok where
  used i := by simp [Sched.init]
  cnt j := by simp [Sched.init]
  nodup := List.nodup_nil
  lft := by simp [Sched.init]

theorem Sched.Ok.cnt_eq_zero_iff (h : s.Ok) : s.cnt j = 0 ↔ ∀ i, Edge Insts i j → i ∈ s.newInsts := by
  rw [h.cnt, Int.natCast_eq_zero, Finset.card_eq_zero, Finset.filter_eq_empty_iff]
  simp only [Finset.mem_univ, forall_const, not_and, not_not]

/-- Each successor is counted down once. -/
theorem foldl_decrement (l : List (Fin Insts.length)) (hl : l.Nodup) (cnt : Fin Insts.length → ℤ) :
    l.foldl (fun cnt nxt => Function.update cnt nxt (cnt nxt - 1)) cnt j =
      if j ∈ l then cnt j - 1 else cnt j := by
  induction l generalizing cnt with
  | nil => simp
  | cons a l ih =>
    obtain ⟨ha, hl⟩ := List.nodup_cons.mp hl
    rw [List.foldl_cons, ih hl]
    by_cases hja : j = a
    · subst hja
      rw [if_neg ha, if_pos List.mem_cons_self, Function.update_self]
    · rw [Function.update_of_ne hja]
      simp only [List.mem_cons, hja, false_or]

theorem dom_nodup : (dom Insts i).Nodup := (List.nodup_finRange _).filter _

theorem mem_dom : j ∈ dom Insts i ↔ Edge Insts i j := by
  simp [dom]

theorem Sched.Ok.push (h : s.Ok) (hi : i ∉ s.newInsts) : (s.push i).Ok where
  used j := by
    show Function.update s.used i true j = true ↔ j ∈ s.newInsts ++ [i]
    rw [List.mem_append, List.mem_singleton]
    by_cases hji : j = i
    · rw [hji, Function.update_self]
      simp
    · rw [Function.update_of_ne hji, h.used]
      simp [hji]
  cnt j := by
    show (dom Insts i).foldl _ s.cnt j = _
    rw [foldl_decrement _ dom_nodup, h.cnt]
    have hrest : (Finset.univ.filter fun k => Edge Insts k j ∧ k ∉ (s.push i).newInsts) =
        (Finset.univ.filter fun k => Edge Insts k j ∧ k ∉ s.newInsts).erase i := by
      ext k
      simp only [Sched.push, Finset.mem_filter, Finset.mem_univ, true_and, Finset.mem_erase,
        List.mem_append, List.mem_singleton, not_or]
      tauto
    rw [hrest]
    by_cases hedge : Edge Insts i j
    · rw [if_pos (mem_dom.mpr hedge)]
      have hmem : i ∈ Finset.univ.filter fun k => Edge Insts k j ∧ k ∉ s.newInsts := by
        simp [hedge, hi]
      have hpos := Finset.card_pos.mpr ⟨i, hmem⟩
      rw [Finset.card_erase_of_mem hmem]
      omega
    · rw [if_neg fun h => hedge (mem_dom.mp h), Finset.erase_eq_of_notMem (by simp [hedge])]
  nodup := by
    refine List.nodup_append.mpr ⟨h.nodup, by simp, fun a ha b hb => ?_⟩
    rw [List.mem_singleton.mp hb]
    rintro rfl
    exact hi ha
  lft := by
    show s.lft - 1 = _
    rw [h.lft]
    simp [Sched.push]
    omega

/-! ## One scan -/

/-- Instructions that are not blocked are pushed when they are ready. -/
abbrev Pushes (block : AllocType) (s s' : Sched Insts) : Prop :=
  Fill (Edge Insts) (List.finRange Insts.length) (fun i => type Insts i ≠ block)
    s.newInsts s'.newInsts

/-- Nothing that is not blocked is ready. -/
abbrev Stuck (block : AllocType) (s : Sched Insts) : Prop :=
  Closed (Edge Insts) (List.finRange Insts.length) (fun i => type Insts i ≠ block) s.newInsts

theorem Pushes.extends (h : Pushes block s s') : s.newInsts <+: s'.newInsts := by
  obtain ⟨l, hl, -⟩ := h.exists_append
  exact ⟨l, hl.symm⟩

theorem visit_cases (block : AllocType) (h : s.Ok) (flag : Bool) (i : Fin Insts.length) :
    (visit block (s, flag) i = (s, flag) ∧
      (i ∉ s.newInsts → type Insts i ≠ block → ∃ j, Edge Insts j i ∧ j ∉ s.newInsts)) ∨
    visit block (s, flag) i = (s.push i, true) ∧ (s.push i).Ok ∧ Pushes block s (s.push i) := by
  unfold visit
  by_cases hskip : s.used i ∨ type Insts i = block
  · rw [if_pos hskip]
    refine Or.inl ⟨rfl, fun hi hty => absurd hskip ?_⟩
    rw [h.used]
    exact not_or.mpr ⟨hi, hty⟩
  · rw [if_neg hskip]
    obtain ⟨hused, hty⟩ := not_or.mp hskip
    have hi : i ∉ s.newInsts := fun hmem => hused ((h.used i).mpr hmem)
    by_cases hcnt : s.cnt i = 0
    · rw [if_pos hcnt]
      refine Or.inr ⟨rfl, h.push hi, .push (.refl _) (List.mem_finRange i) hi hty fun j _ hj => ?_⟩
      exact h.cnt_eq_zero_iff.mp hcnt j hj
    · rw [if_neg hcnt]
      refine Or.inl ⟨rfl, fun _ _ => ?_⟩
      simpa using mt h.cnt_eq_zero_iff.mpr hcnt

/-- A scan of some instructions: `flag` says whether one was pushed. -/
theorem foldl_visit (block : AllocType) (l : List (Fin Insts.length)) (h : s.Ok) (flag : Bool) :
    let r := l.foldl (visit block) (s, flag)
    r.1.Ok ∧ Pushes block s r.1 ∧
      (r.2 = false → flag = false ∧ r.1 = s ∧
        ∀ i ∈ l, i ∉ s.newInsts → type Insts i ≠ block → ∃ j, Edge Insts j i ∧ j ∉ s.newInsts) ∧
      (r.2 = true → flag = true ∨ s.newInsts.length < r.1.newInsts.length) := by
  induction l generalizing s flag with
  | nil => exact ⟨h, .refl _, fun hr => ⟨hr, rfl, by simp⟩, Or.inl⟩
  | cons i l ih =>
    rw [List.foldl_cons]
    obtain ⟨heq, hi⟩ | ⟨heq, hok, hpush⟩ := visit_cases block h flag i
    · rw [heq]
      obtain ⟨h1, h2, h3, h4⟩ := ih h flag
      refine ⟨h1, h2, fun hr => ?_, h4⟩
      obtain ⟨hflag, hs, hl⟩ := h3 hr
      exact ⟨hflag, hs, List.forall_mem_cons.mpr ⟨hi, hl⟩⟩
    · rw [heq]
      obtain ⟨h1, h2, h3, -⟩ := ih hok true
      refine ⟨h1, hpush.trans h2, fun hr => absurd (h3 hr).1 (by decide), fun _ => Or.inr ?_⟩
      have hlen := h2.extends.length_le
      rw [Sched.push_newInsts, List.length_append, List.length_singleton] at hlen
      exact hlen

theorem scan_ok (block : AllocType) (h : s.Ok) :
    (scan block s).1.Ok ∧ Pushes block s (scan block s).1 ∧
      ((scan block s).2 = false → (scan block s).1 = s ∧ Stuck block s) ∧
      ((scan block s).2 = true → s.newInsts.length < (scan block s).1.newInsts.length) := by
  obtain ⟨h1, h2, h3, h4⟩ := foldl_visit block (List.finRange Insts.length) h false
  refine ⟨h1, h2, fun hr => ⟨(h3 hr).2.1, fun i hi hnot hty => ?_⟩, fun hr => ?_⟩
  · obtain ⟨j, hj, hjnot⟩ := (h3 hr).2.2 i hi hnot hty
    exact ⟨j, List.mem_finRange j, hj, hjnot⟩
  · exact (h4 hr).resolve_left (by decide)

/-! ## The loops -/

theorem Sched.Ok.length_le (h : s.Ok) : s.newInsts.length ≤ Insts.length := by
  have := h.nodup.length_le_card
  rwa [Fintype.card_fin] at this

theorem pushAll_succ (fuel : ℕ) (s : Sched Insts) : pushAll block (fuel + 1) s =
    if (scan block s).2 then pushAll block fuel (scan block s).1 else some (scan block s).1 := rfl

theorem pushAll_ok {fuel : ℕ} (h : s.Ok) (hs : pushAll block fuel s = some s') :
    s'.Ok ∧ Pushes block s s' ∧ Stuck block s' := by
  induction fuel generalizing s with
  | zero => cases hs
  | succ fuel ih =>
    obtain ⟨h1, h2, h3, -⟩ := scan_ok block h
    rw [pushAll_succ] at hs
    split_ifs at hs with hflag
    · obtain ⟨h4, h5, h6⟩ := ih h1 hs
      exact ⟨h4, h2.trans h5, h6⟩
    · obtain ⟨hsame, hstuck⟩ := h3 (Bool.eq_false_of_not_eq_true hflag)
      cases hs
      rw [hsame]
      exact ⟨h, .refl _, hstuck⟩

/-- Every round but the last pushes an instruction. -/
theorem pushAll_isSome {fuel : ℕ} (block : AllocType) (h : s.Ok)
    (hfuel : Insts.length < fuel + s.newInsts.length) :
    ∃ s', pushAll block fuel s = some s' := by
  induction fuel generalizing s with
  | zero =>
    have := h.length_le
    omega
  | succ fuel ih =>
    obtain ⟨h1, -, -, h4⟩ := scan_ok block h
    rw [pushAll_succ]
    split_ifs with hflag
    · have := h4 hflag
      exact ih h1 (by omega)
    · exact ⟨_, rfl⟩

theorem pushAll_mono {fuel : ℕ} (h : pushAll block fuel s = some s') :
    pushAll block (fuel + 1) s = some s' := by
  induction fuel generalizing s with
  | zero => cases h
  | succ fuel ih =>
    rw [pushAll_succ] at h ⊢
    split_ifs at h ⊢ with hflag
    · exact ih h
    · exact h

theorem reorder_mono {fuel : ℕ} {order : List (Fin Insts.length)}
    (h : reorder fuel block s = some order) : reorder (fuel + 1) block s = some order := by
  induction fuel generalizing s block with
  | zero => cases h
  | succ fuel ih =>
    rw [reorder] at h ⊢
    split_ifs at h ⊢ with hlft
    · exact h
    · obtain ⟨s1, h1, h2⟩ := Option.bind_eq_some_iff.mp h
      exact Option.bind_eq_some_iff.mpr ⟨s1, pushAll_mono h1, ih h2⟩

/-- The class of an instruction: `false` for the stack, `true` for the heap. -/
def classOf : AllocType → Option Bool
  | .stack => some false
  | .heap => some true
  | _ => none

/-- The type that is blocked with a class. -/
def blockOf (c : Bool) : AllocType := if c then .heap else .stack

variable (Insts) in
/-- `k` rounds of `while(lft)`. -/
abbrev Rounds (k : ℕ) (order : List (Fin Insts.length)) : Prop :=
  Phases (Edge Insts) (List.finRange Insts.length) (fun i => classOf (type Insts i)) true k order

theorem classOf_eq_some_iff {ty : AllocType} {c : Bool} : classOf ty = some c ↔ ty = blockOf c := by
  cases ty <;> cases c <;> simp [classOf, blockOf]

theorem free_eq (k : ℕ) : Free (fun i => classOf (type Insts i)) true k =
    fun i => type Insts i ≠ blockOf (blocked true k) := by
  funext i
  exact propext (not_congr classOf_eq_some_iff)

theorem otherBlock_blockOf (k : ℕ) :
    (blockOf (blocked true k)).otherBlock = blockOf (blocked true (k + 1)) := by
  unfold blocked
  rcases Nat.mod_two_eq_zero_or_one k with h | h
  · have h1 : (k + 1) % 2 = 1 := by omega
    simp [h, h1, blockOf, AllocType.otherBlock]
  · have h1 : (k + 1) % 2 = 0 := by omega
    simp [h, h1, blockOf, AllocType.otherBlock]

theorem Sched.Ok.lft_eq_zero_iff (h : s.Ok) : s.lft = 0 ↔ ∀ i, i ∈ s.newInsts := by
  have hcard : s.newInsts.toFinset.card = s.newInsts.length := List.toFinset_card_of_nodup h.nodup
  rw [h.lft]
  constructor
  · intro hlft i
    have huniv : s.newInsts.toFinset = Finset.univ :=
      Finset.eq_univ_of_card _ (by rw [hcard, Fintype.card_fin]; omega)
    rw [← List.mem_toFinset, huniv]
    exact Finset.mem_univ i
  · intro hall
    have huniv : s.newInsts.toFinset = Finset.univ := Finset.eq_univ_iff_forall.mpr fun i =>
      List.mem_toFinset.mpr (hall i)
    rw [← hcard, huniv, Finset.card_univ, Fintype.card_fin]
    omega

theorem Sched.Ok.exists_left (h : s.Ok) (hlft : s.lft ≠ 0) :
    ∃ i ∈ List.finRange Insts.length, i ∉ s.newInsts := by
  by_contra hall
  refine hlft (h.lft_eq_zero_iff.mpr fun i => ?_)
  by_contra hi
  exact hall ⟨i, List.mem_finRange i, hi⟩

/-- One round of `while(lft)`. -/
theorem reorder_step {fuel k : ℕ} (h : s.Ok) (hk : Rounds Insts k s.newInsts) (hlft : s.lft ≠ 0)
    (hs : pushAll (blockOf (blocked true k)) fuel s = some s') :
    s'.Ok ∧ Rounds Insts (k + 1) s'.newInsts ∧ s.newInsts <+: s'.newInsts ∧
      reorder (fuel + 1) (blockOf (blocked true k)) s =
        reorder fuel (blockOf (blocked true (k + 1))) s' := by
  obtain ⟨h1, h2, h3⟩ := pushAll_ok h hs
  refine ⟨h1, .next hk (h.exists_left hlft) (free_eq k ▸ h2) (free_eq k ▸ h3), h2.extends, ?_⟩
  rw [reorder, if_neg hlft, hs, otherBlock_blockOf]
  rfl

theorem reorder_ok {fuel k : ℕ} {order : List (Fin Insts.length)} (h : s.Ok)
    (hk : Rounds Insts k s.newInsts)
    (hs : reorder fuel (blockOf (blocked true k)) s = some order) :
    (∃ k, Rounds Insts k order) ∧ (∀ i, i ∈ order) ∧ s.newInsts <+: order := by
  induction fuel generalizing s k with
  | zero => cases hs
  | succ fuel ih =>
    by_cases hlft : s.lft = 0
    · rw [reorder, if_pos hlft] at hs
      cases hs
      exact ⟨⟨k, hk⟩, h.lft_eq_zero_iff.mp hlft, List.prefix_rfl⟩
    · have hs1 := hs
      rw [reorder, if_neg hlft] at hs1
      obtain ⟨s1, h1, -⟩ := Option.bind_eq_some_iff.mp hs1
      obtain ⟨hok, hk1, hpre, heq⟩ := reorder_step h hk hlft h1
      rw [heq] at hs
      obtain ⟨hrounds, hall, hpre'⟩ := ih hok hk1 hs
      exact ⟨hrounds, hall, hpre.trans hpre'⟩

theorem edge_wellFounded : WellFounded (Edge Insts) :=
  Subrelation.wf (fun h => h.1) (wellFounded_lt (α := Fin Insts.length))

/-- Of two rounds, one pushes an instruction. -/
theorem reorder_isSome {fuel k : ℕ} (h : s.Ok) (hk : Rounds Insts k s.newInsts)
    (hfuel : Insts.length + 2 * (Insts.length - s.newInsts.length) + 2 ≤ fuel) :
    ∃ order, reorder fuel (blockOf (blocked true k)) s = some order := by
  induction fuel using Nat.strong_induction_on generalizing s k with
  | _ fuel ih =>
    obtain ⟨fuel, rfl⟩ : ∃ f, fuel = f + 2 := ⟨fuel - 2, by omega⟩
    by_cases hlft : s.lft = 0
    · rw [reorder, if_pos hlft]
      exact ⟨_, rfl⟩
    · obtain ⟨s1, h1⟩ : ∃ s1, pushAll (blockOf (blocked true k)) (fuel + 1) s = some s1 :=
        pushAll_isSome _ h (by omega)
      obtain ⟨hok1, hk1, hpre1, heq1⟩ := reorder_step h hk hlft h1
      rw [heq1]
      have hle1 := hpre1.length_le
      have hmax := h.length_le
      by_cases hgrow : s.newInsts.length < s1.newInsts.length
      · have := hok1.length_le
        exact ih (fuel + 1) (by omega) hok1 hk1 (by omega)
      · -- nothing was pushed, so something is in the next round
        have hsame : s.newInsts = s1.newInsts := hpre1.eq_of_length (by omega)
        have hleft := h.lft
        have hlen1 := congrArg List.length hsame
        have hlft1 : s1.lft ≠ 0 := by
          rw [Ne, hok1.lft_eq_zero_iff, ← hsame, ← h.lft_eq_zero_iff]
          exact hlft
        obtain ⟨s2, h2⟩ : ∃ s2, pushAll (blockOf (blocked true (k + 1))) fuel s1 = some s2 :=
          pushAll_isSome _ hok1 (by omega)
        obtain ⟨hok2, hk2, hpre2, heq2⟩ := reorder_step hok1 hk1 hlft1 h2
        rw [heq2]
        have hgrow2 : s1.newInsts.length < s2.newInsts.length := by
          refine lt_of_le_of_ne hpre2.length_le fun hlen => ?_
          refine hk1.progress edge_wellFounded (hok1.exists_left hlft1) ?_
          rw [free_eq, hpre2.eq_of_length hlen]
          exact (pushAll_ok hok1 h2).2.2
        have := hok2.length_le
        exact ih fuel (by omega) hok2 hk2 (by omega)

/-! ## PHI nodes -/

theorem getBlockType_of_isPhi {v : Value} (h : v.isPhi = true) : getBlockType v = .unknown := by
  cases v with
  | phi _ _ => rfl
  | _ => cases h

/-- The first scan begins with the PHI nodes, which wait for PHI nodes before them only. -/
theorem foldl_visit_phis {p : ℕ} (hp : p ≤ Insts.length)
    (hphis : ∀ i : Fin Insts.length, i.val < p → (Insts.get i).isPhi = true) :
    let r := ((List.finRange Insts.length).take p).foldl (visit .heap) (Sched.init Insts, false)
    r.1.Ok ∧ r.1.newInsts = (List.finRange Insts.length).take p := by
  induction p with
  | zero => exact ⟨Sched.Ok.init, rfl⟩
  | succ p ih =>
    obtain ⟨hok, hnew⟩ := ih (by omega) fun i hi => hphis i (by omega)
    have hlen : p < (List.finRange Insts.length).length := by
      rw [List.length_finRange]
      omega
    rw [List.take_succ_eq_append_getElem hlen, List.foldl_append, List.foldl_cons, List.foldl_nil,
      List.getElem_finRange]
    generalize ((List.finRange Insts.length).take p).foldl (visit .heap) (Sched.init Insts, false) = r
      at hok hnew ⊢
    obtain ⟨s, flag⟩ := r
    dsimp only at hok hnew
    generalize hi : Fin.cast _ _ = i
    have hival : i.val = p := by
      rw [← hi]
      rfl
    have hmem : ∀ j : Fin Insts.length, j ∈ s.newInsts ↔ j < i := by
      intro j
      rw [hnew, List.mem_take_iff_getElem, Fin.lt_def, hival]
      constructor
      · rintro ⟨a, ha, rfl⟩
        rw [List.getElem_finRange]
        exact (lt_min_iff.mp ha).1
      · intro hj
        exact ⟨j, lt_min_iff.mpr ⟨hj, by rw [List.length_finRange]; exact j.isLt⟩, by simp⟩
    have hphi : type Insts i ≠ .heap := by
      rw [type, getBlockType_of_isPhi (hphis i (by omega))]
      decide
    obtain ⟨-, hwait⟩ | ⟨heq, hpush, -⟩ := visit_cases .heap hok flag i
    · have hnot : i ∉ s.newInsts := fun h => lt_irrefl i ((hmem i).mp h)
      obtain ⟨j, hedge, hj⟩ := hwait hnot hphi
      exact absurd ((hmem j).mpr hedge.1) hj
    · rw [heq]
      exact ⟨hpush, by rw [Sched.push_newInsts, hnew]⟩

theorem pushAll_scan_extends {fuel : ℕ} (h : s.Ok) (hs : pushAll block fuel s = some s') :
    (scan block s).1.newInsts <+: s'.newInsts := by
  cases fuel with
  | zero => cases hs
  | succ fuel =>
    rw [pushAll_succ] at hs
    split_ifs at hs with hflag
    · exact (pushAll_ok (scan_ok block h).1 hs).2.1.extends
    · cases hs
      exact List.prefix_rfl

theorem newInsts_phis {fuel p : ℕ} {order : List (Fin Insts.length)}
    (h : newInsts Insts fuel = some order) (hp : p ≤ Insts.length)
    (hphis : ∀ i : Fin Insts.length, i.val < p → (Insts.get i).isPhi = true) :
    (List.finRange Insts.length).take p <+: order := by
  cases fuel with
  | zero => cases h
  | succ fuel =>
    unfold newInsts at h
    by_cases hlft : (Sched.init Insts).lft = 0
    · have hzero : p = 0 := by
        have : (Insts.length : ℤ) = 0 := hlft
        omega
      rw [hzero]
      exact List.nil_prefix
    · have h0 := h
      rw [reorder, if_neg hlft] at h0
      obtain ⟨s1, h1, -⟩ := Option.bind_eq_some_iff.mp h0
      obtain ⟨hok, hk, -, heq⟩ := reorder_step (k := 0) Sched.Ok.init .start hlft h1
      have hpre := (reorder_ok hok hk (heq ▸ h)).2.2
      refine .trans ?_ ((pushAll_scan_extends Sched.Ok.init h1).trans hpre)
      obtain ⟨hok0, hnew⟩ := foldl_visit_phis hp hphis
      have hsplit : scan .heap (.init Insts) = ((List.finRange Insts.length).drop p).foldl (visit .heap)
          (((List.finRange Insts.length).take p).foldl (visit .heap) (.init Insts, false)) := by
        rw [scan, ← List.foldl_append, List.take_append_drop]
      show _ <+: (scan .heap (.init Insts)).1.newInsts
      rw [hsplit]
      generalize ((List.finRange Insts.length).take p).foldl (visit .heap) (Sched.init Insts, false) = r
        at hok0 hnew ⊢
      obtain ⟨s0, flag⟩ := r
      have hrest := (foldl_visit .heap ((List.finRange Insts.length).drop p) hok0 flag).2.1.extends
      dsimp only at hnew
      rwa [hnew] at hrest

/-! ## Results -/

/-- The switches between the stack and the heap in an order of the instructions. -/
def switches (order : List (Fin Insts.length)) : ℕ :=
  changes (order.filterMap fun i => classOf (type Insts i))

/-- Every pair of `checkDom` is in order. -/
def KeepsDom (order : List (Fin Insts.length)) : Prop :=
  ∀ i j, i < j → checkDom (Insts.get i) (Insts.get j) = true → order.idxOf i < order.idxOf j

theorem not_edge (i : Fin Insts.length) : ¬Edge Insts i i := fun h => lt_irrefl i h.1

theorem respects_iff_keepsDom {order : List (Fin Insts.length)}
    (h : order.Perm (List.finRange Insts.length)) : Respects (Edge Insts) order ↔ KeepsDom order := by
  rw [respects_iff (h.nodup_iff.mpr (List.nodup_finRange _))
    (fun i => h.mem_iff.mpr (List.mem_finRange i))
    not_edge]
  exact ⟨fun hr i j hij hdom => hr i j ⟨hij, hdom⟩, fun hr i j hedge => hr i j hedge.1 hedge.2⟩

theorem newInsts_mono {fuel fuel' : ℕ} {order : List (Fin Insts.length)}
    (h : newInsts Insts fuel = some order) (hle : fuel ≤ fuel') :
    newInsts Insts fuel' = some order :=
  Nat.le_induction h (fun _ _ ih => reorder_mono ih) fuel' hle

/-- With enough rounds the loop ends, always with the same order. -/
theorem newInsts_ok (Insts : List Value) :
    ∃ order, (∃ fuel₀, ∀ fuel ≥ fuel₀, newInsts Insts fuel = some order) ∧
    ∃ k, Rounds Insts k order ∧ order.Perm (List.finRange Insts.length) := by
  obtain ⟨order, horder⟩ := reorder_isSome (s := .init Insts) (k := 0) Sched.Ok.init .start le_rfl
  obtain ⟨⟨k, hk⟩, hall, -⟩ := reorder_ok Sched.Ok.init .start horder
  refine ⟨order, ⟨_, fun fuel hfuel => newInsts_mono horder hfuel⟩, k, hk, ?_⟩
  exact (List.perm_ext_iff_of_nodup hk.taken.nodup (List.nodup_finRange _)).mpr fun i =>
      ⟨fun _ => List.mem_finRange i, fun _ => hall i⟩

end Reorder

open Reorder

/-- **The schedule.** For every block the loop ends. The new order has every instruction once; a pair
    of `checkDom` stays in order, also a definition and its use; PHI nodes that come first stay where
    they are, and the terminator stays the last instruction. -/
theorem reorder_schedules (Insts : List Value) (BranchInst : Value) :
    ∃ order : List (Fin Insts.length),
      (∃ fuel₀, ∀ fuel ≥ fuel₀,
        Reorder.run Insts BranchInst fuel = some (order.map Insts.get ++ [BranchInst])) ∧
      order.Perm (List.finRange Insts.length) ∧ KeepsDom order ∧
      (∀ i j : Fin Insts.length, i < j → ∀ id, (Insts.get i).id? = some id →
        id ∈ (Insts.get j).operands → order.idxOf i < order.idxOf j) ∧
      ∀ p ≤ Insts.length, (∀ i : Fin Insts.length, i.val < p → (Insts.get i).isPhi = true) →
        (List.finRange Insts.length).take p <+: order := by
  obtain ⟨order, ⟨fuel₀, hfuel⟩, k, hk, hperm⟩ := newInsts_ok Insts
  have hkeeps := (respects_iff_keepsDom hperm).mp hk.taken.respects
  refine ⟨order, ⟨fuel₀, fun fuel h => ?_⟩, hperm, hkeeps, fun i j hij id hid hmem => ?_,
    fun p hp hphis => newInsts_phis (hfuel fuel₀ le_rfl) hp hphis⟩
  · rw [Reorder.run, hfuel fuel h]
    rfl
  · refine hkeeps i j hij ?_
    rw [checkDom, if_pos]
    exact List.any_eq_true.mpr ⟨id, hmem, decide_eq_true hid⟩

/-- The block of `src/test/ReorderMemAccess_test.cpp`. -/
def unitTest : List Value :=
  [.call 0 "malloc" [], .alloca 1 [], .call 2 "malloc" [], .alloca 3 [],
    .store 4 [] (.call 0 "malloc" []), .store 5 [] (.alloca 1 []),
    .store 6 [] (.call 2 "malloc" []), .store 7 [] (.alloca 3 [])]

example : (newInsts unitTest 10).map (·.map Fin.val) = some [1, 3, 5, 7, 0, 2, 4, 6] := by
  decide +kernel

/-- **The quality of the schedule.** The new order of a block has at most one switch between the stack
    and the heap more than any other order that keeps the pairs of `checkDom`, so at most one more than
    the old order. -/
theorem reorder_switches (Insts : List Value) :
    ∃ order : List (Fin Insts.length),
      (∃ fuel₀, ∀ fuel ≥ fuel₀, newInsts Insts fuel = some order) ∧
      (∀ order' : List (Fin Insts.length), order'.Perm (List.finRange Insts.length) →
        KeepsDom order' → switches order ≤ switches order' + 1) ∧
      switches order ≤ switches (List.finRange Insts.length) + 1 := by
  obtain ⟨order, hfuel, k, hk, -⟩ := newInsts_ok Insts
  have hbest : ∀ order' : List (Fin Insts.length), order'.Perm (List.finRange Insts.length) →
      KeepsDom order' → switches order ≤ switches order' + 1 := fun order' hperm hkeeps =>
    hk.switches_le not_edge hperm ((respects_iff_keepsDom hperm).mpr hkeeps)
  refine ⟨order, hfuel, hbest, hbest _ (.refl _) fun i j hij _ => ?_⟩
  rw [List.idxOf_finRange, List.idxOf_finRange]
  exact hij

end SwppCompiler.Passes
