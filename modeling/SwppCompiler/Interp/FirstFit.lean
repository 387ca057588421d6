import SwppCompiler.Interp.Access

/-!
# `malloc` is first fit

* `Heap.Tiled.isLeast_fits`: the first free block that is large enough begins at the lowest address
  where a block of that size fits, as free blocks do not touch.
* `Heap.Tiled.execFree_execMalloc`: the rest of the block that was cut is merged again.
* `malloc_firstFit`: both, for a memory that a run of operations leaves.
-/

namespace SwppCompiler.Interp

open Lib.Allocator

/-- A block of `size` bytes at `a` lies in the heap and meets no allocated block. -/
def Heap.Fits (h : Heap) (size a : ℕ) : Prop :=
  heapMin ≤ a ∧ a + size ≤ heapMax ∧
    ∀ b ∈ h.alloced, Disjoint (mkBlock a (a + size)).range b.range

section

variable {h h' : Heap} {size a p : ℕ}

/-- The free block around an address goes on to the end of what fits there. -/
theorem Heap.Tiled.exists_free (ht : h.Tiled) (hpos : 0 < size) (hfits : h.Fits size a) :
    ∃ f ∈ h.freed, f.lo ≤ a ∧ a + size ≤ f.hi := by
  obtain ⟨hmin, hmax, hdis⟩ := hfits
  have hfree : ∀ b ∈ h.alloced, ∀ x, a ≤ x → x < a + size → ¬(b.lo ≤ x ∧ x < b.hi) := by
    intro b hb x hax hxa hxb
    exact Set.disjoint_left.mp (hdis b hb) ⟨hax, hxa⟩ hxb
  obtain ⟨f, hf, hfa⟩ := ht.covers a hmin (by omega)
  have hf : f ∈ h.freed := hf.resolve_left fun hb => hfree f hb a le_rfl (by omega) hfa
  refine ⟨f, hf, hfa.1, not_lt.mp fun hlt => ?_⟩
  -- the block at the end of `f` is neither allocated nor free
  obtain ⟨c, hc, hcf⟩ := ht.covers f.hi (by omega) (by omega)
  have hc : c ∈ h.freed := hc.resolve_left fun hb => hfree c hb f.hi hfa.2.le hlt hcf
  have hne : c ≠ f := by
    rintro rfl
    omega
  have hsep := ht.freed_separate hc hf hne
  unfold BlockT.Separate at hsep
  omega

theorem Heap.Tiled.isLeast_fits (ht : h.Tiled) (hm : h.execMalloc size = some (p, h')) :
    IsLeast {a | h.Fits size a} p := by
  have hpos := (Heap.execMalloc_cases hm).1
  obtain ⟨-, -, hapart, hmin⟩ := Heap.execMalloc_ok ht.wellFormed hm
  unfold Heap.execMalloc at hm
  split_ifs at hm
  cases hf : first? (h.freed.filter fun b => ¬b.hi - b.lo < size) with
  | none =>
    rw [hf] at hm
    cases hm
  | some b =>
    rw [hf] at hm
    cases hm
    obtain ⟨hb, hfirst⟩ := first?_eq_some hf
    obtain ⟨hb, hroom⟩ := Finset.mem_filter.mp hb
    have hin := ht.inHeap b (Or.inr hb)
    have hle := hin.le
    have hmax := hin.le_heapMax
    refine ⟨⟨hmin, by omega, hapart⟩, fun a ha => ?_⟩
    obtain ⟨f, hf, hlo, hhi⟩ := ht.exists_free hpos ha
    have hbf := hfirst f (Finset.mem_filter.mpr ⟨hf, by omega⟩)
    rw [BlockT.le_iff] at hbf
    omega

/-- No block is large enough. -/
theorem Heap.Tiled.not_fits (ht : h.Tiled) (hpos : 0 < size) (h8 : size % 8 = 0)
    (hm : h.execMalloc size = none) : ¬h.Fits size a := by
  intro hfits
  obtain ⟨f, hf, hlo, hhi⟩ := ht.exists_free hpos hfits
  have hmem : f ∈ h.freed.filter fun b => ¬b.hi - b.lo < size :=
    Finset.mem_filter.mpr ⟨hf, by omega⟩
  obtain ⟨b, hb⟩ := first?_isSome hmem
  rw [Heap.execMalloc, if_neg (by omega), hb] at hm
  cases hm

/-- The block that is given back is merged with what was left of the one that it was cut from. -/
theorem Heap.Tiled.execFree_execMalloc (ht : h.Tiled) (hm : h.execMalloc size = some (p, h')) :
    h'.execFree p = some h := by
  have ht' := ht.execMalloc hm
  obtain ⟨hpos, -, b, hb, hroom, rfl, rfl⟩ := Heap.execMalloc_cases hm
  have hle := (ht.inHeap b (Or.inr hb)).le
  set new := mkBlock b.lo (b.lo + size) with hnew
  set rest := mkBlock (b.lo + size) b.hi with hrest
  have hsep : ∀ f ∈ h.freed.erase b, f.hi < b.lo ∨ b.hi < f.lo := fun f hf =>
    ht.freed_separate (Finset.mem_of_mem_erase hf) hb (Finset.ne_of_mem_erase hf)
  have hnotMem : new ∉ h.alloced := fun hmem => by
    have := ht.apart new hmem b hb
    unfold BlockT.Apart at this
    simp only [hnew, mkBlock_lo, mkBlock_hi] at this
    omega
  have hrestNotMem : rest ∉ h.freed.erase b := fun hmem => by
    have := hsep rest hmem
    simp only [hrest, mkBlock_lo, mkBlock_hi] at this
    omega
  obtain ⟨h1, hfree, -⟩ := Heap.execFree_ok ht'.wellFormed (Finset.mem_insert_self new h.alloced)
  obtain ⟨c, hc, hclo, heq⟩ := Heap.execFree_cases hfree
  have hc : c = new := ht'.eq_of_lo_eq hc (Finset.mem_insert_self new h.alloced) hclo
  subst hc
  have hnext : first? ((insert rest (h.freed.erase b)).filter fun f => new ≤ f) = some rest := by
    refine first?_eq_of_mem (Finset.mem_filter.mpr ⟨Finset.mem_insert_self .., ?_⟩) fun f hf => ?_
    · rw [BlockT.le_iff]
      simp only [hnew, hrest, mkBlock_lo, mkBlock_hi]
      omega
    · obtain ⟨hf, hle⟩ := Finset.mem_filter.mp hf
      rcases Finset.mem_insert.mp hf with rfl | hf
      · exact le_rfl
      · have hfb := hsep f hf
        have hfin := (ht.inHeap f (Or.inr (Finset.mem_of_mem_erase hf))).le
        rw [BlockT.le_iff] at hle ⊢
        simp only [hnew, hrest, mkBlock_lo, mkBlock_hi] at hle ⊢
        omega
  have hprev : mergePrev new (last? ((insert rest (h.freed.erase b)).filter fun f => f < new))
      (insert rest (h.freed.erase b)) = (new, insert rest (h.freed.erase b)) := by
    cases hlast : last? ((insert rest (h.freed.erase b)).filter fun f => f < new) with
    | none => rfl
    | some f =>
      obtain ⟨hf, hlt⟩ := Finset.mem_filter.mp (last?_mem hlast)
      refine mergePrev_apart fun htouch => ?_
      rw [BlockT.lt_iff] at hlt
      rcases Finset.mem_insert.mp hf with rfl | hf
      · simp only [hnew, hrest, mkBlock_lo, mkBlock_hi] at hlt
        omega
      · have hfb := hsep f hf
        have hfin := (ht.inHeap f (Or.inr (Finset.mem_of_mem_erase hf))).le
        simp only [hnew, mkBlock_lo] at htouch
        omega
  have hmerge : mergeNext new (some rest) (insert rest (h.freed.erase b)) = (b, h.freed.erase b) := by
    rw [mergeNext_touching rfl, Finset.erase_insert hrestNotMem]
    rfl
  simp only [hprev, hnext, hmerge, Finset.erase_insert hnotMem, Finset.insert_erase hb] at heq
  rw [heq] at hfree
  exact hfree

/-- `exec_free` of an allocated block, by what it does to the blocks. -/
theorem Memory.execFree_of_mem {m : Memory} {addr : Word} {b : BlockT} (ht : m.heap.Tiled)
    (hb : b ∈ m.heap.alloced) (hlo : b.lo = addr.toNat) (hf : m.heap.execFree addr.toNat = some h) :
    m.execFree addr = .ok (Cost.free, { m with
      heap := h
      allocedSize := m.allocedSize - BitVec.ofNat 64 (b.hi - b.lo) }) := by
  unfold execFree
  rw [hf]
  unfold Heap.execFree at hf
  cases hfirst : first? (m.heap.alloced.filter fun b => mkBlock addr.toNat 0 ≤ b) with
  | none =>
    rw [hfirst] at hf
    cases hf
  | some c =>
    rw [hfirst] at hf
    simp only at hf
    split_ifs at hf with hclo
    have hc := (Finset.mem_filter.mp (first?_eq_some hfirst).1).1
    have hcb : c = b := ht.eq_of_lo_eq hc hb ((not_not.mp hclo).trans hlo.symm)
    rw [hcb]

end

/-- **First fit.** In every memory that a run of operations leaves, and for every size that is a
    positive multiple of 8, `exec_malloc` returns the lowest address where a block of that size fits,
    if there is one and `calloc` finds room, and then `exec_free` takes the block back and restores
    the heap and `alloced_size`; if there is none, it reports that the memory is exhausted. -/
theorem malloc_firstFit {calloc : Heap → Word → Bool} {m : Memory} {ms : List Memory} {size : Word}
    (h : Trace calloc (m :: ms)) (hpos : 0 < size.toNat) (h8 : size.toNat % 8 = 0)
    (hcalloc : calloc m.heap size = true) :
    (∃ p cost m', m.execMalloc calloc size = .ok (p, cost, m') ∧
      IsLeast {a | m.heap.Fits size.toNat a} p.toNat ∧
      ∃ cost' m'', m'.execFree p = .ok (cost', m'') ∧ m''.heap.alloced = m.heap.alloced ∧
        m''.heap.freed = m.heap.freed ∧ m''.allocedSize = m.allocedSize) ∨
    m.execMalloc calloc size = .error (.runtimeError "out-of-memory") ∧
      ∀ a, ¬m.heap.Fits size.toNat a := by
  have ht := h.inv.tiled
  have hsize : size ≠ 0 := by
    rintro rfl
    exact absurd hpos (by decide)
  cases hm : m.heap.execMalloc size.toNat with
  | none =>
    refine Or.inr ⟨?_, fun a => ht.not_fits hpos h8 hm⟩
    rw [Memory.execMalloc, if_neg hsize, if_neg (not_not.mpr h8), hm]
  | some q =>
    obtain ⟨p, heap⟩ := q
    have hleast := ht.isLeast_fits hm
    have hp : (BitVec.ofNat 64 p).toNat = p := by
      rw [BitVec.toNat_ofNat]
      refine Nat.mod_eq_of_lt ?_
      have hmax := hleast.1.2.1
      simp only [heapMax] at hmax
      omega
    have hmem : mkBlock p (p + size.toNat) ∈ heap.alloced := by
      rw [(Heap.execMalloc_ok ht.wellFormed hm).2.1]
      exact Finset.mem_insert_self ..
    obtain ⟨cost, m', hok, hheap, hsum⟩ : ∃ cost m',
        m.execMalloc calloc size = .ok (BitVec.ofNat 64 p, cost, m') ∧ m'.heap = heap ∧
          m'.allocedSize = m.allocedSize + size := by
      rw [Memory.execMalloc, if_neg hsize, if_neg (not_not.mpr h8), hm]
      simp only [hcalloc, not_true_eq_false, if_false]
      exact ⟨_, _, rfl, rfl, rfl⟩
    have hfree := ht.execFree_execMalloc hm
    subst hheap
    refine Or.inl ⟨_, cost, m', hok, hp.symm ▸ hleast, _, _,
      Memory.execFree_of_mem (ht.execMalloc hm) hmem hp.symm (hp.symm ▸ hfree), rfl, rfl, ?_⟩
    rw [hsum, mkBlock_hi, mkBlock_lo, Nat.add_sub_cancel_left, BitVec.ofNat_toNat, BitVec.setWidth_eq]
    exact BitVec.add_sub_cancel _ _

/-- With a hole of 16 bytes between two blocks, 16 bytes are allocated in the hole. -/
theorem malloc_firstFit_hole : ∃ m ms, Trace (fun _ _ => true) (m :: ms) ∧
    m.heap.alloced = {mkBlock 20480 20488, mkBlock 20504 20512} ∧
    ∃ p cost m', m.execMalloc (fun _ _ => true) 16 = .ok (p, cost, m') ∧ p.toNat = 20488 := by
  obtain ⟨m, ms, h, halloced, -⟩ := exists_hole
  have hfits : m.heap.Fits 16 20488 := by
    refine ⟨by decide, by decide, ?_⟩
    rw [halloced]
    intro b hb
    rw [BlockT.disjoint_iff]
    rcases Finset.mem_insert.mp hb with rfl | hb
    · decide
    · rw [Finset.mem_singleton.mp hb]
      decide
  refine ⟨m, ms, h, halloced, ?_⟩
  obtain ⟨p, cost, m', hok, hleast, -⟩ | ⟨-, hnot⟩ :=
    malloc_firstFit h (show 0 < (16 : Word).toNat by decide) rfl rfl
  · refine ⟨p, cost, m', hok, le_antisymm (hleast.2 hfits) ?_⟩
    obtain ⟨hmin, -, hdis⟩ := hleast.1
    have hfirst : mkBlock 20480 20488 ∈ m.heap.alloced := by
      rw [halloced]
      exact Finset.mem_insert_self ..
    have hapart := BlockT.disjoint_iff.mp (hdis _ hfirst)
    have hsize : (16 : Word).toNat = 16 := rfl
    simp only [mkBlock_lo, mkBlock_hi, heapMin, hsize] at hmin hapart
    omega
  · exact absurd hfits (hnot 20488)

end SwppCompiler.Interp
