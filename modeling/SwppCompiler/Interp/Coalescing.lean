import SwppCompiler.Interp.Memory

/-!
# The interpreter's heap is tiled

`exec_malloc` and `exec_free` (`interpreter/src/memory.cpp`, lines 153–221) keep the heap cut into
blocks without gaps, and no two free blocks touch: `exec_free` merges what it frees with both
neighbours, also with the empty blocks that exact fits leave.

* `Heap.Tiled.execMalloc`, `Heap.Tiled.execFree`: the operations keep the heap tiled.
* `Heap.Tiled.freed_of_alloced_empty`: when nothing is allocated, the heap is one free block.
-/

namespace SwppCompiler.Interp

open Lib.Allocator

/-- One block ends where the other begins, or before. -/
def BlockT.Apart (a b : BlockT) : Prop := a.hi ≤ b.lo ∨ b.hi ≤ a.lo

/-- One block ends before the other begins. -/
def BlockT.Separate (a b : BlockT) : Prop := a.hi < b.lo ∨ b.hi < a.lo

/-- A block of the heap, between multiples of 8. -/
structure BlockT.InHeap (b : BlockT) : Prop where
  heapMin_le : heapMin ≤ b.lo
  le_heapMax : b.hi ≤ heapMax
  le : b.lo ≤ b.hi
  lo_dvd : 8 ∣ b.lo
  hi_dvd : 8 ∣ b.hi

/-- The blocks are disjoint, together they are the heap, and free blocks do not touch. -/
structure Heap.Tiled (h : Heap) : Prop where
  inHeap : ∀ b, b ∈ h.alloced ∨ b ∈ h.freed → b.InHeap
  nonempty : ∀ a ∈ h.alloced, a.lo < a.hi
  alloced_apart : (h.alloced : Set BlockT).Pairwise BlockT.Apart
  freed_separate : (h.freed : Set BlockT).Pairwise BlockT.Separate
  apart : ∀ a ∈ h.alloced, ∀ f ∈ h.freed, a.Apart f
  covers : ∀ x, heapMin ≤ x → x < heapMax →
    ∃ b, (b ∈ h.alloced ∨ b ∈ h.freed) ∧ b.lo ≤ x ∧ x < b.hi

instance : Std.Symm BlockT.Apart := ⟨fun _ _ => Or.symm⟩

instance : Std.Symm BlockT.Separate := ⟨fun _ _ => Or.symm⟩

theorem BlockT.Apart.disjoint {a b : BlockT} (h : a.Apart b) : Disjoint a.range b.range := by
  rw [BlockT.disjoint_iff]
  unfold BlockT.Apart at h
  omega

theorem BlockT.Separate.apart {a b : BlockT} (h : a.Separate b) : a.Apart b :=
  h.imp le_of_lt le_of_lt

theorem Heap.Tiled.init : Heap.init.Tiled where
  inHeap := by
    rintro b (hb | hb)
    · simp [Heap.init] at hb
    · rw [Finset.mem_singleton.mp hb]
      constructor <;> decide
  nonempty := by simp [Heap.init]
  alloced_apart := by simp [Heap.init]
  freed_separate := by simp [Heap.init]
  apart := by simp [Heap.init]
  covers x h1 h2 := ⟨mkBlock heapMin heapMax, Or.inr (Finset.mem_singleton_self _), h1, h2⟩

/-- A tiled heap is well-formed. -/
theorem Heap.Tiled.wellFormed {h : Heap} (ht : h.Tiled) : h.WellFormed where
  alloced a ha :=
    ⟨(ht.inHeap a (Or.inl ha)).heapMin_le, ht.nonempty a ha, (ht.inHeap a (Or.inl ha)).le_heapMax⟩
  freed f hf :=
    ⟨(ht.inHeap f (Or.inr hf)).heapMin_le, (ht.inHeap f (Or.inr hf)).le,
      (ht.inHeap f (Or.inr hf)).le_heapMax⟩
  alloced_disjoint := ht.alloced_apart.imp fun _ _ h => h.disjoint
  freed_disjoint := ht.freed_separate.imp fun _ _ h => h.apart.disjoint
  disjoint a ha f hf := (ht.apart a ha f hf).disjoint

/-- Two allocated blocks do not begin at one address. -/
theorem Heap.Tiled.eq_of_lo_eq {h : Heap} (ht : h.Tiled) {a b : BlockT} (ha : a ∈ h.alloced)
    (hb : b ∈ h.alloced) (hlo : a.lo = b.lo) : a = b := by
  by_contra hne
  have h1 := ht.nonempty a ha
  have h2 := ht.nonempty b hb
  rcases ht.alloced_apart ha hb hne with h | h <;> omega

/-- When nothing is allocated, the heap is one free block. -/
theorem Heap.Tiled.freed_of_alloced_empty {h : Heap} (ht : h.Tiled) (hempty : h.alloced = ∅) :
    h.freed = {mkBlock heapMin heapMax} := by
  have hcovers : ∀ x, heapMin ≤ x → x < heapMax → ∃ f ∈ h.freed, f.lo ≤ x ∧ x < f.hi := by
    intro x h1 h2
    obtain ⟨b, hb, hx⟩ := ht.covers x h1 h2
    rw [hempty] at hb
    exact ⟨b, hb.resolve_left (Finset.notMem_empty b), hx⟩
  have hlt : heapMin < heapMax := by decide
  obtain ⟨f, hf, hfmin, hfhi⟩ := hcovers heapMin le_rfl hlt
  have hfin := ht.inHeap f (Or.inr hf)
  -- a free block that goes on where `f` ends would touch it
  have hfmax : f.hi = heapMax := by
    by_contra hne
    obtain ⟨g, hg, hg1, hg2⟩ := hcovers f.hi (hfin.heapMin_le.trans hfin.le)
      (lt_of_le_of_ne hfin.le_heapMax hne)
    have hfg : f ≠ g := by
      rintro rfl
      omega
    have := hfin.le
    rcases ht.freed_separate hf hg hfg with h | h <;> omega
  have hf' : f = mkBlock heapMin heapMax := by
    rw [← mkBlock_lo_hi f, hfmax, le_antisymm hfmin hfin.heapMin_le]
  rw [← hf']
  refine Finset.eq_singleton_iff_unique_mem.mpr ⟨hf, fun g hg => ?_⟩
  by_contra hne
  have hgin := ht.inHeap g (Or.inr hg)
  have h1 := hgin.heapMin_le
  have h2 := hgin.le_heapMax
  have h3 := hgin.le
  rcases ht.freed_separate hg hf hne with h | h <;> omega

/-! ## Allocation -/

/-- What `exec_malloc` does when it succeeds. -/
theorem Heap.execMalloc_cases {h h' : Heap} {size p : ℕ} (hm : h.execMalloc size = some (p, h')) :
    0 < size ∧ 8 ∣ size ∧ ∃ b ∈ h.freed, size ≤ b.hi - b.lo ∧ p = b.lo ∧
      h' = ⟨insert (mkBlock b.lo (b.lo + size)) h.alloced,
        insert (mkBlock (b.lo + size) b.hi) (h.freed.erase b)⟩ := by
  unfold execMalloc at hm
  split_ifs at hm with hsize
  cases hf : first? (h.freed.filter fun b => ¬b.hi - b.lo < size) with
  | none =>
    rw [hf] at hm
    cases hm
  | some b =>
    rw [hf] at hm
    cases hm
    obtain ⟨hb, hroom⟩ := Finset.mem_filter.mp (first?_eq_some hf).1
    exact ⟨by omega, by omega, b, hb, not_lt.mp hroom, rfl, rfl⟩

/-- The free block that is cut may become empty. -/
theorem Heap.Tiled.execMalloc {h h' : Heap} {size p : ℕ} (ht : h.Tiled)
    (hm : h.execMalloc size = some (p, h')) : h'.Tiled := by
  obtain ⟨hpos, h8, b, hb, hroom, rfl, rfl⟩ := Heap.execMalloc_cases hm
  have hbin := ht.inHeap b (Or.inr hb)
  have hlo : b.lo + size ≤ b.hi := by
    have := hbin.le
    omega
  refine ⟨fun c hc => ?_, fun a ha => ?_, ?_, ?_, fun a ha f hf => ?_, fun x h1 h2 => ?_⟩
  · simp only [Finset.mem_insert, Finset.mem_erase] at hc
    have h1 := hbin.heapMin_le
    have h2 := hbin.le_heapMax
    obtain (rfl | hc) | rfl | ⟨-, hc⟩ := hc
    · exact ⟨h1, hlo.trans h2, Nat.le_add_right _ _, hbin.lo_dvd, Nat.dvd_add hbin.lo_dvd h8⟩
    · exact ht.inHeap c (Or.inl hc)
    · exact ⟨h1.trans (Nat.le_add_right _ _), h2, hlo, Nat.dvd_add hbin.lo_dvd h8, hbin.hi_dvd⟩
    · exact ht.inHeap c (Or.inr hc)
  · rcases Finset.mem_insert.mp ha with rfl | ha
    · exact Nat.lt_add_of_pos_right hpos
    · exact ht.nonempty a ha
  · rw [Finset.coe_insert]
    refine ht.alloced_apart.insert_of_symm fun a ha _ => ?_
    have hab := ht.apart a ha b hb
    unfold BlockT.Apart at hab ⊢
    simp only [mkBlock_lo, mkBlock_hi]
    omega
  · rw [Finset.coe_insert]
    have hsub : ((h.freed.erase b : Finset BlockT) : Set BlockT) ⊆ h.freed := by simp
    refine (ht.freed_separate.mono hsub).insert_of_symm fun f hf _ => ?_
    have hf := Finset.mem_erase.mp hf
    have hbf := ht.freed_separate hb hf.2 hf.1.symm
    unfold BlockT.Separate at hbf ⊢
    simp only [mkBlock_lo, mkBlock_hi]
    omega
  · rcases Finset.mem_insert.mp ha with rfl | ha <;> rcases Finset.mem_insert.mp hf with rfl | hf
    · exact Or.inl le_rfl
    · have hf := Finset.mem_erase.mp hf
      have hbf := ht.freed_separate hb hf.2 hf.1.symm
      unfold BlockT.Separate at hbf
      unfold BlockT.Apart
      simp only [mkBlock_lo, mkBlock_hi]
      omega
    · have hab := ht.apart a ha b hb
      unfold BlockT.Apart at hab ⊢
      simp only [mkBlock_lo, mkBlock_hi]
      omega
    · exact ht.apart a ha f (Finset.mem_of_mem_erase hf)
  · obtain ⟨c, hc, hx⟩ := ht.covers x h1 h2
    by_cases hcb : c = b
    · subst hcb
      by_cases hlt : x < c.lo + size
      · exact ⟨_, Or.inl (Finset.mem_insert_self _ _), hx.1, hlt⟩
      · exact ⟨_, Or.inr (Finset.mem_insert_self _ _), not_lt.mp hlt, hx.2⟩
    · refine ⟨c, ?_, hx⟩
      exact hc.imp Finset.mem_insert_of_mem fun hc =>
        Finset.mem_insert_of_mem (Finset.mem_erase.mpr ⟨hcb, hc⟩)

/-! ## Freeing -/

/-- The block `b` fills the one gap that the other blocks leave. -/
structure Gap (alloced freed : Finset BlockT) (b : BlockT) : Prop where
  inHeap : b.InHeap
  nonempty : b.lo < b.hi
  alloced_nonempty : ∀ a ∈ alloced, a.lo < a.hi
  freed_inHeap : ∀ f ∈ freed, f.InHeap
  freed_separate : (freed : Set BlockT).Pairwise BlockT.Separate
  apart_freed : ∀ f ∈ freed, b.Apart f
  apart_alloced : ∀ a ∈ alloced, a.Apart b
  apart : ∀ a ∈ alloced, ∀ f ∈ freed, a.Apart f
  covers : ∀ x, heapMin ≤ x → x < heapMax → (b.lo ≤ x ∧ x < b.hi) ∨
    ∃ c, (c ∈ alloced ∨ c ∈ freed) ∧ c.lo ≤ x ∧ x < c.hi

section

variable {alloced freed : Finset BlockT} {b f c : BlockT}

theorem mergePrev_touching (h : f.hi = b.lo) :
    mergePrev b (some f) freed = (mkBlock f.lo b.hi, freed.erase f) := if_pos h

theorem mergePrev_apart (h : f.hi ≠ b.lo) : mergePrev b (some f) freed = (b, freed) := if_neg h

theorem mergeNext_touching (h : f.lo = b.hi) :
    mergeNext b (some f) freed = (mkBlock b.lo f.hi, freed.erase f) := if_pos h

theorem mergeNext_apart (h : f.lo ≠ b.hi) : mergeNext b (some f) freed = (b, freed) := if_neg h

/-- The gap grows by a free block that touches it. -/
theorem Gap.merge (h : Gap alloced freed b) (hf : f ∈ freed)
    (hc : f.hi = b.lo ∧ c = mkBlock f.lo b.hi ∨ f.lo = b.hi ∧ c = mkBlock b.lo f.hi) :
    Gap alloced (freed.erase f) c := by
  have hb := h.inHeap
  have hfin := h.freed_inHeap f hf
  have hpos := h.nonempty
  have hle := hfin.le
  have hlo : c.lo = min b.lo f.lo := by
    rcases hc with ⟨h, rfl⟩ | ⟨h, rfl⟩ <;> rw [mkBlock_lo] <;> omega
  have hhi : c.hi = max b.hi f.hi := by
    rcases hc with ⟨h, rfl⟩ | ⟨h, rfl⟩ <;> rw [mkBlock_hi] <;> omega
  have htouch : f.hi = b.lo ∨ f.lo = b.hi := hc.imp And.left And.left
  have herase : ∀ {g}, g ∈ freed.erase f → g ∈ freed := fun hg => Finset.mem_of_mem_erase hg
  refine ⟨⟨?_, ?_, by omega, ?_, ?_⟩, by omega, h.alloced_nonempty,
    fun g hg => h.freed_inHeap g (herase hg),
    h.freed_separate.mono (by simp), fun g hg => ?_, fun a ha => ?_,
    fun a ha g hg => h.apart a ha g (herase hg), fun x h1 h2 => ?_⟩
  · have := hb.heapMin_le
    have := hfin.heapMin_le
    omega
  · have := hb.le_heapMax
    have := hfin.le_heapMax
    omega
  · have := hb.lo_dvd
    have := hfin.lo_dvd
    omega
  · have := hb.hi_dvd
    have := hfin.hi_dvd
    omega
  · have h1 := h.apart_freed g (herase hg)
    have h2 := h.freed_separate hf (herase hg) (Finset.ne_of_mem_erase hg).symm
    have h3 := (h.freed_inHeap g (herase hg)).le
    unfold BlockT.Apart at h1 ⊢
    unfold BlockT.Separate at h2
    omega
  · have h1 := h.apart_alloced a ha
    have h2 := h.apart a ha f hf
    have h3 := h.alloced_nonempty a ha
    unfold BlockT.Apart at h1 h2 ⊢
    omega
  · rcases h.covers x h1 h2 with hx | ⟨d, hd, hx⟩
    · left
      omega
    · by_cases hdf : d = f
      · subst hdf
        left
        omega
      · exact Or.inr ⟨d, hd.imp_right fun hd => Finset.mem_erase.mpr ⟨hdf, hd⟩, hx⟩

/-- A free block that ends where the gap begins is the last one before it. -/
theorem Gap.mergePrev {prev : Option BlockT} (h : Gap alloced freed b)
    (hprev : last? (freed.filter fun f => f < b) = prev) :
    let m := mergePrev b prev freed
    Gap alloced m.2 m.1 ∧ m.1.hi = b.hi ∧ ∀ g ∈ m.2, g ∈ freed ∧ g.hi ≠ m.1.lo := by
  have hpos := h.nonempty
  have hlast : ∀ g ∈ freed, g.hi = b.lo → last? (freed.filter fun f => f < b) = some g := by
    intro g hg hgb
    have hgle := (h.freed_inHeap g hg).le
    have hmem : g ∈ freed.filter fun f => f < b := by
      refine Finset.mem_filter.mpr ⟨hg, BlockT.lt_iff.mpr ?_⟩
      omega
    refine last?_eq_of_mem hmem fun p hp => ?_
    obtain ⟨hp, hlt⟩ := Finset.mem_filter.mp hp
    by_contra hne
    have h1 := h.apart_freed p hp
    have h2 := h.freed_separate hg hp fun heq => hne heq.ge
    have h3 := (h.freed_inHeap p hp).le
    rw [BlockT.lt_iff] at hlt
    rw [BlockT.le_iff] at hne
    unfold BlockT.Apart at h1
    unfold BlockT.Separate at h2
    omega
  cases prev with
  | none =>
    refine ⟨h, rfl, fun g hg => ⟨hg, fun hgb => ?_⟩⟩
    rw [hlast g hg hgb] at hprev
    cases hprev
  | some p =>
    have hp := (Finset.mem_filter.mp (last?_mem hprev)).1
    by_cases hadj : p.hi = b.lo
    · rw [mergePrev_touching hadj]
      refine ⟨h.merge hp (Or.inl ⟨hadj, rfl⟩), rfl, fun g hg => ?_⟩
      refine ⟨Finset.mem_of_mem_erase hg, fun hgb => ?_⟩
      have h2 := h.freed_separate hp (Finset.mem_of_mem_erase hg) (Finset.ne_of_mem_erase hg).symm
      have h3 := (h.freed_inHeap p hp).le
      have h4 := (h.freed_inHeap g (Finset.mem_of_mem_erase hg)).le
      unfold BlockT.Separate at h2
      simp only [mkBlock_lo] at hgb
      omega
    · rw [mergePrev_apart hadj]
      refine ⟨h, rfl, fun g hg => ⟨hg, fun hgb => ?_⟩⟩
      rw [hlast g hg hgb] at hprev
      cases hprev
      exact hadj hgb

/-- Only a block before the gap is taken away. -/
theorem Gap.mergePrev_lost {prev : Option BlockT} (h : Gap alloced freed b)
    (hprev : last? (freed.filter fun f => f < b) = prev) :
    let m := Interp.mergePrev b prev freed
    m.1.lo ≤ b.lo ∧ ∀ f ∈ freed, f ∉ m.2 → f < b := by
  cases prev with
  | none =>
    exact ⟨le_rfl, fun f hf hnot => absurd hf hnot⟩
  | some p =>
    obtain ⟨hp, hlt⟩ := Finset.mem_filter.mp (last?_mem hprev)
    have hle := (h.freed_inHeap p hp).le
    by_cases hadj : p.hi = b.lo
    · rw [mergePrev_touching hadj]
      refine ⟨by rw [mkBlock_lo]; omega, fun f hf hnot => ?_⟩
      have heq : f = p := by
        by_contra hne
        exact hnot (Finset.mem_erase.mpr ⟨hne, hf⟩)
      rw [heq]
      exact hlt
    · rw [mergePrev_apart hadj]
      exact ⟨le_rfl, fun f hf hnot => absurd hf hnot⟩

/-- A free block that begins where the gap ends is the first one after it. The iterator to it was
    taken before the gap grew to the left. -/
theorem Gap.mergeNext {b0 : BlockT} {freed0 : Finset BlockT} {next : Option BlockT}
    (h : Gap alloced freed b) (hnext : first? (freed0.filter fun f => b0 ≤ f) = next)
    (hlo : b.lo ≤ b0.lo) (hhi : b0.hi = b.hi) (hb0 : b0.lo < b0.hi) (hsub : freed ⊆ freed0)
    (hrest : ∀ f ∈ freed0, f ∉ freed → f < b0) (hends : ∀ g ∈ freed, g.hi ≠ b.lo) :
    let m := mergeNext b next freed
    Gap alloced m.2 m.1 ∧ ∀ g ∈ m.2, g.hi ≠ m.1.lo ∧ g.lo ≠ m.1.hi := by
  have hpos := h.nonempty
  have hmem : ∀ f ∈ freed0, b0 ≤ f → f ∈ freed := by
    intro f hf hle
    by_contra hnot
    exact absurd (hrest f hf hnot) (not_lt.mpr hle)
  have hfirst : ∀ g ∈ freed, g.lo = b.hi →
      first? (freed0.filter fun f => b0 ≤ f) = some g := by
    intro g hg hgb
    have hgle := (h.freed_inHeap g hg).le
    refine first?_eq_of_mem (Finset.mem_filter.mpr ⟨hsub hg, ?_⟩) fun n hn => ?_
    · rw [BlockT.le_iff]
      omega
    · obtain ⟨hn, hle⟩ := Finset.mem_filter.mp hn
      have hnfreed := hmem n hn hle
      by_contra hne
      have h1 := h.apart_freed n hnfreed
      have h2 := h.freed_separate hg hnfreed fun heq => hne heq.le
      have h3 := (h.freed_inHeap n hnfreed).le
      rw [BlockT.le_iff] at hle hne
      unfold BlockT.Apart at h1
      unfold BlockT.Separate at h2
      omega
  cases next with
  | none =>
    refine ⟨h, fun g hg => ⟨hends g hg, fun hgb => ?_⟩⟩
    rw [hfirst g hg hgb] at hnext
    cases hnext
  | some n =>
    obtain ⟨hn0, hle⟩ := Finset.mem_filter.mp (first?_eq_some hnext).1
    have hn := hmem n hn0 hle
    by_cases hadj : n.lo = b.hi
    · rw [mergeNext_touching hadj]
      refine ⟨h.merge hn (Or.inr ⟨hadj, rfl⟩), fun g hg => ⟨hends g (Finset.mem_of_mem_erase hg), ?_⟩⟩
      intro hgb
      have h2 := h.freed_separate hn (Finset.mem_of_mem_erase hg) (Finset.ne_of_mem_erase hg).symm
      have h3 := (h.freed_inHeap n hn).le
      have h4 := (h.freed_inHeap g (Finset.mem_of_mem_erase hg)).le
      unfold BlockT.Separate at h2
      simp only [mkBlock_hi] at hgb
      omega
    · rw [mergeNext_apart hadj]
      refine ⟨h, fun g hg => ⟨hends g hg, fun hgb => ?_⟩⟩
      rw [hfirst g hg hgb] at hnext
      cases hnext
      exact hadj hgb

end

/-- A gap that no free block touches is a free block. -/
theorem Gap.tiled {alloced freed : Finset BlockT} {b : BlockT} (h : Gap alloced freed b)
    (halloced : ∀ a ∈ alloced, a.InHeap) (happart : (alloced : Set BlockT).Pairwise BlockT.Apart)
    (hends : ∀ g ∈ freed, g.hi ≠ b.lo ∧ g.lo ≠ b.hi) : Heap.Tiled ⟨alloced, insert b freed⟩ where
  inHeap c hc := by
    rcases hc with hc | hc
    · exact halloced c hc
    · rcases Finset.mem_insert.mp hc with rfl | hc
      · exact h.inHeap
      · exact h.freed_inHeap c hc
  nonempty := h.alloced_nonempty
  alloced_apart := happart
  freed_separate := by
    rw [Finset.coe_insert]
    refine h.freed_separate.insert_of_symm fun f hf _ => ?_
    have h1 := h.apart_freed f hf
    have h2 := hends f hf
    unfold BlockT.Apart at h1
    unfold BlockT.Separate
    omega
  apart a ha f hf := by
    rcases Finset.mem_insert.mp hf with rfl | hf
    · exact h.apart_alloced a ha
    · exact h.apart a ha f hf
  covers x h1 h2 := by
    rcases h.covers x h1 h2 with hx | ⟨c, hc, hx⟩
    · exact ⟨b, Or.inr (Finset.mem_insert_self _ _), hx⟩
    · exact ⟨c, hc.imp_right Finset.mem_insert_of_mem, hx⟩

/-- An allocated block that is given back leaves a gap. -/
theorem Heap.Tiled.gap {h : Heap} (ht : h.Tiled) {b : BlockT} (hb : b ∈ h.alloced) :
    Gap (h.alloced.erase b) h.freed b where
  inHeap := ht.inHeap b (Or.inl hb)
  nonempty := ht.nonempty b hb
  alloced_nonempty a ha := ht.nonempty a (Finset.mem_of_mem_erase ha)
  freed_inHeap f hf := ht.inHeap f (Or.inr hf)
  freed_separate := ht.freed_separate
  apart_freed := ht.apart b hb
  apart_alloced a ha :=
    ht.alloced_apart (Finset.mem_of_mem_erase ha) hb (Finset.ne_of_mem_erase ha)
  apart a ha := ht.apart a (Finset.mem_of_mem_erase ha)
  covers x h1 h2 := by
    obtain ⟨c, hc, hx⟩ := ht.covers x h1 h2
    by_cases hcb : c = b
    · subst hcb
      exact Or.inl hx
    · exact Or.inr ⟨c, hc.imp_left fun hc => Finset.mem_erase.mpr ⟨hcb, hc⟩, hx⟩

/-- What `exec_free` does when it succeeds. -/
theorem Heap.execFree_cases {h h' : Heap} {addr : ℕ} (hf : h.execFree addr = some h') :
    ∃ b ∈ h.alloced, b.lo = addr ∧
      let prev := mergePrev b (last? (h.freed.filter fun f => f < b)) h.freed
      let next := mergeNext prev.1 (first? (h.freed.filter fun f => b ≤ f)) prev.2
      h' = ⟨h.alloced.erase b, insert next.1 next.2⟩ := by
  unfold execFree at hf
  cases hfirst : first? (h.alloced.filter fun b => mkBlock addr 0 ≤ b) with
  | none =>
    rw [hfirst] at hf
    cases hf
  | some b =>
    rw [hfirst] at hf
    simp only at hf
    split_ifs at hf with hlo
    exact ⟨b, (Finset.mem_filter.mp (first?_eq_some hfirst).1).1, not_not.mp hlo,
      (Option.some.inj hf).symm⟩

theorem Heap.Tiled.execFree {h h' : Heap} {addr : ℕ} (ht : h.Tiled)
    (hf : h.execFree addr = some h') : h'.Tiled := by
  obtain ⟨b, hb, -, rfl⟩ := Heap.execFree_cases hf
  obtain ⟨hgap, hhi, hends⟩ := (ht.gap hb).mergePrev rfl
  obtain ⟨hlo, hlost⟩ := (ht.gap hb).mergePrev_lost rfl
  obtain ⟨hgap', hends'⟩ := hgap.mergeNext rfl hlo hhi.symm (ht.nonempty b hb)
    (fun g hg => (hends g hg).1) hlost fun g hg => (hends g hg).2
  exact hgap'.tiled (fun a ha => ht.inHeap a (Or.inl (Finset.mem_of_mem_erase ha)))
    (ht.alloced_apart.mono (by simp)) hends'

end SwppCompiler.Interp
