import SwppCompiler.Lib.Allocator
import Mathlib

/-!
# The interpreter's heap

Model of `Memory::exec_malloc` and `Memory::exec_free` (`interpreter/src/memory.cpp`, lines
153–221). A `set<block_t>` is a finite set of pairs in lexicographic order. Addresses are natural
numbers: nothing wraps, as every block lies below `HEAP_MAX`.

* `execMalloc_ok`: the block that `exec_malloc` returns is new.
* `execFree_ok`: `exec_free` accepts every allocated block.
-/

namespace SwppCompiler.Interp

open Lib.Allocator

/-- `STACK_MAX`, `HEAP_MIN`, `HEAP_MAX` (`memory.h`, lines 13–15). -/
def stackMax : ℕ := 10240
@[inherit_doc stackMax] def heapMin : ℕ := 20480
@[inherit_doc stackMax] def heapMax : ℕ := 2 ^ 64 - 1 - 7

/-- `block_t`. -/
def BlockT := ℕ ×ₗ ℕ
deriving DecidableEq, LinearOrder

/-- `block_t(lo, hi)`. -/
def mkBlock (lo hi : ℕ) : BlockT := toLex (lo, hi)

/-- The members `first` and `second`. -/
def BlockT.lo (b : BlockT) : ℕ := (ofLex b).1
@[inherit_doc BlockT.lo] def BlockT.hi (b : BlockT) : ℕ := (ofLex b).2

/-- The members `alloced` and `freed` of `Memory`. -/
structure Heap where
  alloced : Finset BlockT
  freed : Finset BlockT
deriving DecidableEq

/-- The constructor (`memory.cpp`, lines 8–14). -/
def Heap.init : Heap := ⟨∅, {mkBlock heapMin heapMax}⟩

/-- `exec_malloc` (`memory.cpp`, lines 153–182): the first free block that is large enough. `none`
    is a runtime error. -/
def Heap.execMalloc (h : Heap) (size : ℕ) : Option (ℕ × Heap) :=
  if size = 0 ∨ size % 8 ≠ 0 then none
  else
    match first? (h.freed.filter fun b => ¬b.hi - b.lo < size) with
    | none => none
    | some b =>
      some (b.lo,
        { alloced := insert (mkBlock b.lo (b.lo + size)) h.alloced
          freed := insert (mkBlock (b.lo + size) b.hi) (h.freed.erase b) })

/-- The freed block is merged with the one before it (`memory.cpp`, lines 200–208). -/
def mergePrev (b : BlockT) (prev : Option BlockT) (freed : Finset BlockT) :
    BlockT × Finset BlockT :=
  match prev with
  | some p => if p.hi = b.lo then (mkBlock p.lo b.hi, freed.erase p) else (b, freed)
  | none => (b, freed)

/-- It is merged with the one after it (`memory.cpp`, lines 210–215). -/
def mergeNext (b : BlockT) (next : Option BlockT) (freed : Finset BlockT) :
    BlockT × Finset BlockT :=
  match next with
  | some n => if n.lo = b.hi then (mkBlock b.lo n.hi, freed.erase n) else (b, freed)
  | none => (b, freed)

/-- `exec_free` (`memory.cpp`, lines 184–221). -/
def Heap.execFree (h : Heap) (addr : ℕ) : Option Heap :=
  match first? (h.alloced.filter fun b => mkBlock addr 0 ≤ b) with
  | none => none
  | some b =>
    if b.lo ≠ addr then none
    else
      let next := first? (h.freed.filter fun f => b ≤ f)
      let prev := last? (h.freed.filter fun f => f < b)
      let (b', freed) := mergePrev b prev h.freed
      let (b', freed) := mergeNext b' next freed
      some { alloced := h.alloced.erase b, freed := insert b' freed }

/-! ## Well-formed heaps -/

/-- The addresses of a block. -/
def BlockT.range (b : BlockT) : Set ℕ := Set.Ico b.lo b.hi

@[simp] theorem mkBlock_lo (a b : ℕ) : (mkBlock a b).lo = a := rfl

@[simp] theorem mkBlock_hi (a b : ℕ) : (mkBlock a b).hi = b := rfl

theorem mkBlock_lo_hi (b : BlockT) : mkBlock b.lo b.hi = b := rfl

theorem BlockT.disjoint_iff {a b : BlockT} :
    Disjoint a.range b.range ↔ min a.hi b.hi ≤ max a.lo b.lo := Set.Ico_disjoint_Ico

/-- Allocated and free blocks lie in the heap and do not overlap. An exact fit leaves an empty free
    block. -/
structure Heap.WellFormed (h : Heap) : Prop where
  alloced : ∀ b ∈ h.alloced, heapMin ≤ b.lo ∧ b.lo < b.hi ∧ b.hi ≤ heapMax
  freed : ∀ b ∈ h.freed, heapMin ≤ b.lo ∧ b.lo ≤ b.hi ∧ b.hi ≤ heapMax
  alloced_disjoint : (h.alloced : Set BlockT).PairwiseDisjoint BlockT.range
  freed_disjoint : (h.freed : Set BlockT).PairwiseDisjoint BlockT.range
  disjoint : ∀ a ∈ h.alloced, ∀ f ∈ h.freed, Disjoint a.range f.range

theorem Heap.WellFormed.init : Heap.init.WellFormed where
  alloced := by simp [Heap.init]
  freed := by
    intro b hb
    rw [Finset.mem_singleton.mp hb]
    decide
  alloced_disjoint := by simp [Heap.init, Set.PairwiseDisjoint]
  freed_disjoint := by simp [Heap.init]
  disjoint := by simp [Heap.init]

/-- A block inside another one is disjoint from what the other is disjoint from. -/
theorem BlockT.disjoint_of_le {a b c : BlockT} (hlo : b.lo ≤ a.lo) (hhi : a.hi ≤ b.hi)
    (h : Disjoint b.range c.range) : Disjoint a.range c.range :=
  h.mono_left (Set.Ico_subset_Ico hlo hhi)

/-- The block that `exec_malloc` returns is cut from a free one. -/
theorem Heap.execMalloc_ok {h h' : Heap} {size p : ℕ} (hw : h.WellFormed)
    (hm : h.execMalloc size = some (p, h')) :
    h'.WellFormed ∧ h'.alloced = insert (mkBlock p (p + size)) h.alloced ∧
      (∀ b ∈ h.alloced, Disjoint (mkBlock p (p + size)).range b.range) ∧ heapMin ≤ p := by
  unfold execMalloc at hm
  split_ifs at hm with hsize
  have hpos : 0 < size := by omega
  cases hf : first? (h.freed.filter fun b => ¬b.hi - b.lo < size) with
  | none =>
    rw [hf] at hm
    cases hm
  | some b =>
    rw [hf] at hm
    cases hm
    obtain ⟨hb, hroom⟩ := Finset.mem_filter.mp (first?_eq_some hf).1
    obtain ⟨h1, h2, h3⟩ := hw.freed b hb
    have hnew : ∀ {c : BlockT}, Disjoint b.range c.range →
        Disjoint (mkBlock b.lo (b.lo + size)).range c.range ∧
          Disjoint (mkBlock (b.lo + size) b.hi).range c.range := by
      intro c hc
      constructor
      · refine BlockT.disjoint_of_le (b := b) le_rfl ?_ hc
        rw [mkBlock_hi]
        omega
      · refine BlockT.disjoint_of_le (b := b) ?_ le_rfl hc
        rw [mkBlock_lo]
        omega
    have hapart : ∀ a ∈ h.alloced, Disjoint b.range a.range := fun a ha => (hw.disjoint a ha b hb).symm
    have hrest : ∀ f ∈ h.freed.erase b, Disjoint b.range f.range := fun f hf =>
      hw.freed_disjoint hb (Finset.mem_of_mem_erase hf) (Finset.ne_of_mem_erase hf).symm
    refine ⟨⟨fun a ha => ?_, fun f hf => ?_, ?_, ?_, fun a ha f hf => ?_⟩, rfl,
      fun a ha => (hnew (hapart a ha)).1, h1⟩
    · rcases Finset.mem_insert.mp ha with rfl | ha
      · simp only [mkBlock_lo, mkBlock_hi]
        omega
      · exact hw.alloced a ha
    · rcases Finset.mem_insert.mp hf with rfl | hf
      · simp only [mkBlock_lo, mkBlock_hi]
        omega
      · exact hw.freed f (Finset.mem_of_mem_erase hf)
    · rw [Finset.coe_insert]
      exact hw.alloced_disjoint.insert fun a ha _ => (hnew (hapart a ha)).1
    · rw [Finset.coe_insert]
      refine Set.PairwiseDisjoint.insert ?_ fun f hf _ => (hnew (hrest f hf)).2
      exact hw.freed_disjoint.subset (by simp)
    · rcases Finset.mem_insert.mp ha with rfl | ha <;> rcases Finset.mem_insert.mp hf with rfl | hf
      · rw [BlockT.disjoint_iff]
        simp only [mkBlock_lo, mkBlock_hi]
        omega
      · exact (hnew (hrest f hf)).1
      · exact ((hnew (hapart a ha)).2).symm
      · exact hw.disjoint a ha f (Finset.mem_of_mem_erase hf)

/-! ## Merging -/

/-- A block may be added to the free ones: it lies in the heap, and overlaps neither the free blocks
    nor the allocated ones. -/
structure Addable (alloced freed : Finset BlockT) (b : BlockT) : Prop where
  bounds : heapMin ≤ b.lo ∧ b.lo ≤ b.hi ∧ b.hi ≤ heapMax
  members : ∀ f ∈ freed, heapMin ≤ f.lo ∧ f.lo ≤ f.hi ∧ f.hi ≤ heapMax
  pairwise : (freed : Set BlockT).PairwiseDisjoint BlockT.range
  apart_freed : ∀ f ∈ freed, Disjoint b.range f.range
  apart_alloced : ∀ a ∈ alloced, Disjoint b.range a.range
  disjoint : ∀ a ∈ alloced, ∀ f ∈ freed, Disjoint a.range f.range

/-- A block and an adjacent free one may be added as one block. -/
theorem Addable.merge {alloced freed : Finset BlockT} {b f c : BlockT} (h : Addable alloced freed b)
    (hf : f ∈ freed) (hc : c.range = b.range ∪ f.range)
    (hbounds : heapMin ≤ c.lo ∧ c.lo ≤ c.hi ∧ c.hi ≤ heapMax) :
    Addable alloced (freed.erase f) c := by
  have hsub : ∀ g ∈ freed.erase f, g ∈ freed := fun g hg => Finset.mem_of_mem_erase hg
  refine ⟨hbounds, fun g hg => h.members g (hsub g hg), h.pairwise.subset (by simp), fun g hg => ?_,
    fun a ha => ?_, fun a ha g hg => h.disjoint a ha g (hsub g hg)⟩
  · rw [hc]
    exact (h.apart_freed g (hsub g hg)).sup_left
      (h.pairwise hf (hsub g hg) (Finset.ne_of_mem_erase hg).symm)
  · rw [hc]
    exact (h.apart_alloced a ha).sup_left (h.disjoint a ha f hf).symm

theorem Addable.mergePrev {alloced freed : Finset BlockT} {b : BlockT} {prev : Option BlockT}
    (h : Addable alloced freed b) (hprev : ∀ p, prev = some p → p ∈ freed) :
    Addable alloced (mergePrev b prev freed).2 (mergePrev b prev freed).1 := by
  cases prev with
  | none => exact h
  | some p =>
    unfold Interp.mergePrev
    simp only
    split_ifs with hadj
    · have hp := h.members p (hprev p rfl)
      have hb := h.bounds
      refine h.merge (hprev p rfl) ?_ (by simp only [mkBlock_lo, mkBlock_hi]; omega)
      rw [Set.union_comm]
      show Set.Ico p.lo b.hi = Set.Ico p.lo p.hi ∪ Set.Ico b.lo b.hi
      rw [← hadj, Set.Ico_union_Ico_eq_Ico hp.2.1 (by omega)]
    · exact h

theorem Addable.mergeNext {alloced freed : Finset BlockT} {b : BlockT} {next : Option BlockT}
    (h : Addable alloced freed b) (hnext : ∀ n, next = some n → n ∈ freed) :
    Addable alloced (mergeNext b next freed).2 (mergeNext b next freed).1 := by
  cases next with
  | none => exact h
  | some n =>
    unfold Interp.mergeNext
    simp only
    split_ifs with hadj
    · have hn := h.members n (hnext n rfl)
      have hb := h.bounds
      refine h.merge (hnext n rfl) ?_ (by simp only [mkBlock_lo, mkBlock_hi]; omega)
      show Set.Ico b.lo n.hi = Set.Ico b.lo b.hi ∪ Set.Ico n.lo n.hi
      rw [hadj, Set.Ico_union_Ico_eq_Ico hb.2.1 (by omega)]
    · exact h

theorem BlockT.le_iff {a b : BlockT} : a ≤ b ↔ a.lo < b.lo ∨ a.lo = b.lo ∧ a.hi ≤ b.hi :=
  Prod.Lex.le_iff

theorem BlockT.lt_iff {a b : BlockT} : a < b ↔ a.lo < b.lo ∨ a.lo = b.lo ∧ a.hi < b.hi :=
  Prod.Lex.lt_iff

/-- `exec_free` accepts the start of every allocated block. -/
theorem Heap.execFree_ok {h : Heap} {b : BlockT} (hw : h.WellFormed) (hb : b ∈ h.alloced) :
    ∃ h', h.execFree b.lo = some h' ∧ h'.WellFormed ∧ h'.alloced = h.alloced.erase b := by
  have hfirst : first? (h.alloced.filter fun c => mkBlock b.lo 0 ≤ c) = some b := by
    have hmem : b ∈ h.alloced.filter fun c => mkBlock b.lo 0 ≤ c :=
      Finset.mem_filter.mpr ⟨hb, BlockT.le_iff.mpr (Or.inr ⟨rfl, Nat.zero_le _⟩)⟩
    obtain ⟨c, hc⟩ := first?_isSome hmem
    obtain ⟨hcmem, hmin⟩ := first?_eq_some hc
    obtain ⟨hc', hle⟩ := Finset.mem_filter.mp hcmem
    have hbc : b.lo ≤ c.lo := by
      rcases BlockT.le_iff.mp hle with h | h
      · exact h.le
      · exact h.1.le
    have hcb : c.lo ≤ b.lo := by
      rcases BlockT.le_iff.mp (hmin b hmem) with h | h
      · exact h.le
      · exact h.1.le
    -- two allocated blocks with one start overlap
    have heq : c = b := by
      by_contra hne
      have hdis := BlockT.disjoint_iff.mp (hw.alloced_disjoint hc' hb hne)
      have h1 := hw.alloced c hc'
      have h2 := hw.alloced b hb
      omega
    rw [hc, heq]
  have hadd : Addable (h.alloced.erase b) h.freed b := by
    have hbounds := hw.alloced b hb
    refine ⟨⟨hbounds.1, hbounds.2.1.le, hbounds.2.2⟩, hw.freed, hw.freed_disjoint,
      hw.disjoint b hb, fun a ha => ?_, fun a ha => hw.disjoint a (Finset.mem_of_mem_erase ha)⟩
    exact hw.alloced_disjoint hb (Finset.mem_of_mem_erase ha) (Finset.ne_of_mem_erase ha).symm
  have hprev : ∀ p, last? (h.freed.filter fun f => f < b) = some p → p ∈ h.freed := fun p hp =>
    (Finset.mem_filter.mp (last?_mem hp)).1
  have hadd1 := hadd.mergePrev hprev
  -- the block after it is not the one before it
  have hnext : ∀ n, first? (h.freed.filter fun f => b ≤ f) = some n →
      n ∈ (mergePrev b (last? (h.freed.filter fun f => f < b)) h.freed).2 := by
    intro n hn
    obtain ⟨hn, hle⟩ := Finset.mem_filter.mp (first?_eq_some hn).1
    cases hp : last? (h.freed.filter fun f => f < b) with
    | none => exact hn
    | some p =>
      have hlt := (Finset.mem_filter.mp (last?_mem hp)).2
      unfold Interp.mergePrev
      simp only
      split_ifs
      · exact Finset.mem_erase.mpr ⟨fun heq => absurd (heq ▸ hle) (not_le.mpr hlt), hn⟩
      · exact hn
  have hadd2 := hadd1.mergeNext hnext
  refine ⟨_, by simp only [execFree, hfirst, ne_eq, not_true_eq_false, if_false]; rfl, ?_, rfl⟩
  refine ⟨fun a ha => hw.alloced a (Finset.mem_of_mem_erase ha), fun f hf => ?_,
    hw.alloced_disjoint.subset (by simp), ?_, fun a ha f hf => ?_⟩
  · rcases Finset.mem_insert.mp hf with rfl | hf
    · exact hadd2.bounds
    · exact hadd2.members f hf
  · rw [Finset.coe_insert]
    exact hadd2.pairwise.insert fun f hf _ => hadd2.apart_freed f hf
  · rcases Finset.mem_insert.mp hf with rfl | hf
    · exact (hadd2.apart_alloced a ha).symm
    · exact hadd2.disjoint a ha f hf

end SwppCompiler.Interp
