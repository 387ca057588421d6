import SwppCompiler.Interp.Bop
import SwppCompiler.Interp.Memory

/-!
# `MemUseOptimization`

What the pass (`src/passes/MemUseOptimization.cpp`) turns `malloc` and `free` of `main` into, as the
assembler emits it (`src/core/AssemblyEmitter.cpp`, `visitCallInst`) and the interpreter executes it.
An allocation takes from the stack while there is room above `STACK_DANGEROUS_REGION`; a `free` looks
at the address to find out whether there is anything to free.

* `Run.inv`: what a run of allocations and frees keeps.
* `memUse_refines`: such a run is a run of an allocator; stack blocks stay in the stack, and `free`
  is called on the blocks of `malloc` only.
-/

namespace SwppCompiler.Passes

open Interp Lib.Allocator

/-- `STACK_DANGEROUS_REGION` and `STACK_BOUNDARY` (`MemUseOptimization.h`, lines 11–12). -/
def stackDangerousRegion : ℕ := 5120
@[inherit_doc stackDangerousRegion] def stackBoundary : ℕ := 10240

/-- The stack pointer and the heap. -/
structure MemState where
  sp : Word
  heap : Heap
deriving DecidableEq

/-- Where a block comes from. -/
inductive Origin
  | stack | heap
deriving DecidableEq, Repr

/-- `malloc(size)`. -/
def plainMalloc (s : MemState) (size : Word) : Option (Word × Origin × MemState) := do
  let (p, heap) ← s.heap.execMalloc size.toNat
  some (BitVec.ofNat 64 p, .heap, { s with heap := heap })

/-- `__alloca_bytes__(size)` (`AssemblyEmitter.cpp`, lines 432–441). -/
def allocaBytes (s : MemState) (size : Word) : Option (Word × Origin × MemState) := do
  let sp ← (compute .sub .size64 s.sp size).toOption
  some (sp, .stack, { s with sp := sp })

/-- A converted `malloc(size)` (`MemUseOptimization.cpp`, lines 80–123). -/
def convertedMalloc (s : MemState) (size : Word) : Option (Word × Origin × MemState) := do
  let lookaheadSp ← (compute .sub .size64 s.sp size).toOption
  let isSafeSp ←
    (compute .sge .size64 lookaheadSp (BitVec.ofNat 64 stackDangerousRegion)).toOption
  if isSafeSp ≠ 0 then allocaBytes s size else plainMalloc s size

/-- A converted `free(ptr)` (`MemUseOptimization.cpp`, lines 125–151), and whether it calls `free`. -/
def convertedFree (s : MemState) (ptr : Word) : Option (Bool × MemState) := do
  let cmpSp ← (compute .sge .size64 ptr (BitVec.ofNat 64 stackBoundary)).toOption
  if cmpSp ≠ 0 then do
    let heap ← s.heap.execFree ptr.toNat
    some (true, { s with heap := heap })
  else some (false, s)

/-- Allocations and frees that `main` executes from `s0`. Sizes are positive multiples of 8; sizes
    and heap addresses are below `2 ^ 63`; a live block is freed. A `malloc` in a loop, or in another
    function, is not converted. -/
inductive Run (s0 : MemState) : List Event → MemState → List (Block × Origin) → Prop
  | init : Run s0 [] s0 []
  | alloc {events : List Event} {s s' : MemState} {live : List (Block × Origin)} {size p : Word}
      {o : Origin} (h : Run s0 events s live) (hpos : 0 < size.toNat) (h8 : 8 ∣ size.toNat)
      (hlt : size.toNat < 2 ^ 63)
      (hm : convertedMalloc s size = some (p, o, s') ∨ plainMalloc s size = some (p, o, s'))
      (haddr : o = .heap → p.toNat < 2 ^ 63) :
      Run s0 (events ++ [.alloc ⟨p.toNat, size.toNat, hpos⟩]) s'
        ((⟨p.toNat, size.toNat, hpos⟩, o) :: live)
  | free {events : List Event} {s s' : MemState} {live : List (Block × Origin)} {b : Block}
      {o : Origin} {called : Bool} (h : Run s0 events s live) (hb : (b, o) ∈ live)
      (hf : convertedFree s (BitVec.ofNat 64 b.start) = some (called, s')) :
      Run s0 (events ++ [.free b]) s' (live.erase (b, o))

/-! ## The guards -/

theorem compute_sub64 (a b : Word) : compute .sub .size64 a b = .ok (a - b) := rfl

theorem compute_sge64 (a b : Word) : compute .sge .size64 a b = .ok (ofCond (b.sle a)) := by
  have h : ∀ c : Bool, getResult .size64 (ofCond c) = ofCond c := fun _ => rfl
  simp only [compute, getOp1, getOp2, isSignedOp, isShiftOp, computeWord, Except.map, if_true]
  rw [if_neg Bool.false_ne_true, h]

theorem ofCond_ne_zero {c : Bool} : ofCond c ≠ 0 ↔ c = true := by
  cases c <;> decide

/-- The difference of a small stack pointer and a size is compared as an integer. -/
theorem sle_sub_iff {sp size : Word} (hsp : sp.toNat ≤ 10240) (hsize : size.toNat < 2 ^ 63) :
    (BitVec.ofNat 64 stackDangerousRegion).sle (sp - size) = true ↔
      stackDangerousRegion + size.toNat ≤ sp.toNat := by
  have h1 : (BitVec.ofNat 64 stackDangerousRegion).toInt = 5120 := by decide
  rw [BitVec.sle_iff_toInt_le, h1, BitVec.toInt_eq_toNat_cond, BitVec.toNat_sub,
    stackDangerousRegion]
  split_ifs <;> omega

theorem sle_boundary_iff {p : Word} (hp : p.toNat < 2 ^ 63) :
    (BitVec.ofNat 64 stackBoundary).sle p = true ↔ stackBoundary ≤ p.toNat := by
  have h1 : (BitVec.ofNat 64 stackBoundary).toInt = 10240 := by decide
  rw [BitVec.sle_iff_toInt_le, h1, BitVec.toInt_eq_toNat_cond, stackBoundary]
  split_ifs <;> omega

/-- A converted allocation comes from the stack iff there is room. -/
theorem convertedMalloc_eq {s : MemState} {size : Word} (hsp : s.sp.toNat ≤ 10240)
    (hsize : size.toNat < 2 ^ 63) : convertedMalloc s size =
      if stackDangerousRegion + size.toNat ≤ s.sp.toNat then
        some (s.sp - size, .stack, { s with sp := s.sp - size })
      else plainMalloc s size := by
  have h : ofCond ((BitVec.ofNat 64 stackDangerousRegion).sle (s.sp - size)) ≠ 0 ↔
      stackDangerousRegion + size.toNat ≤ s.sp.toNat := ofCond_ne_zero.trans (sle_sub_iff hsp hsize)
  simp only [convertedMalloc, allocaBytes, compute_sub64, compute_sge64, Except.toOption,
    Option.bind_eq_bind, Option.bind_some, h]

/-- A converted `free` calls `free` iff the address is not one of the stack. -/
theorem convertedFree_eq {s : MemState} {p : ℕ} (hp : p < 2 ^ 63) :
    convertedFree s (BitVec.ofNat 64 p) =
      if stackBoundary ≤ p then (s.heap.execFree p).map fun heap => (true, { s with heap := heap })
      else some (false, s) := by
  have hnat : (BitVec.ofNat 64 p).toNat = p := by
    rw [BitVec.toNat_ofNat, Nat.mod_eq_of_lt]
    omega
  have h : ofCond ((BitVec.ofNat 64 stackBoundary).sle (BitVec.ofNat 64 p)) ≠ 0 ↔
      stackBoundary ≤ p := by
    rw [ofCond_ne_zero, sle_boundary_iff (by rw [hnat]; exact hp), hnat]
  simp only [convertedFree, compute_sge64, Except.toOption, Option.bind_eq_bind, Option.bind_some,
    h, hnat]
  split_ifs
  · cases s.heap.execFree p <;> rfl
  · rfl

/-! ## Runs -/

/-- A block as a pair of addresses. -/
def blockT (b : Block) : BlockT := mkBlock b.start (b.start + b.size)

theorem blockT_range (b : Block) : (blockT b).range = b.range := rfl

/-- What a run from `s0` keeps: the stack pointer, and where the live blocks are. -/
structure Inv (s0 s : MemState) (live : List (Block × Origin)) : Prop where
  sp : s.sp = s0.sp ∨ stackDangerousRegion ≤ s.sp.toNat
  sp_le : s.sp.toNat ≤ s0.sp.toNat
  heap : s.heap.WellFormed
  kept : s0.heap.alloced ⊆ s.heap.alloced
  onStack : ∀ b, (b, Origin.stack) ∈ live → s.sp.toNat ≤ b.start ∧
    stackDangerousRegion ≤ b.start ∧ b.start + b.size ≤ s0.sp.toNat
  onHeap : ∀ b, (b, Origin.heap) ∈ live → blockT b ∈ s.heap.alloced ∧
    blockT b ∉ s0.heap.alloced ∧ b.start < 2 ^ 63

theorem disjoint_iff {a b : Block} : Disjoint a.range b.range ↔
    min (a.start + a.size) (b.start + b.size) ≤ max a.start b.start := Set.Ico_disjoint_Ico

section Steps

variable {s0 s s' : MemState} {live : List (Block × Origin)} {size p : Word} {o : Origin}

/-- A block of `malloc` is a new one of the heap. -/
theorem plainMalloc_ok (hw : s.heap.WellFormed) (h : plainMalloc s size = some (p, o, s')) :
    o = .heap ∧ s'.sp = s.sp ∧ s'.heap.WellFormed ∧
      s'.heap.alloced = insert (mkBlock p.toNat (p.toNat + size.toNat)) s.heap.alloced ∧
      ∀ b ∈ s.heap.alloced, Disjoint (mkBlock p.toNat (p.toNat + size.toNat)).range b.range := by
  simp only [plainMalloc, Option.bind_eq_bind, Option.bind_eq_some_iff, Option.some.injEq] at h
  obtain ⟨⟨q, heap⟩, hm, heq⟩ := h
  cases heq
  obtain ⟨hw', halloc, hdis, -⟩ := Heap.execMalloc_ok hw hm
  have hbounds := hw'.alloced (mkBlock q (q + size.toNat)) (by rw [halloc]; simp)
  have hq : (BitVec.ofNat 64 q).toNat = q := by
    rw [BitVec.toNat_ofNat, Nat.mod_eq_of_lt]
    simp only [mkBlock_lo, mkBlock_hi, heapMax] at hbounds
    omega
  rw [hq]
  exact ⟨rfl, rfl, hw', halloc, hdis⟩

/-- An allocation on the stack. -/
theorem Inv.allocStack (hinv : Inv s0 s live) (hsp : s0.sp.toNat ≤ stackBoundary)
    (hpos : 0 < size.toNat) (hroom : stackDangerousRegion + size.toNat ≤ s.sp.toNat) :
    (∀ d ∈ live, Disjoint (Block.range ⟨(s.sp - size).toNat, size.toNat, hpos⟩) d.1.range) ∧
      Inv s0 { s with sp := s.sp - size }
        ((⟨(s.sp - size).toNat, size.toNat, hpos⟩, .stack) :: live) := by
  have hsub : (s.sp - size).toNat = s.sp.toNat - size.toNat := by
    rw [BitVec.toNat_sub]
    omega
  have hle := hinv.sp_le
  constructor
  · rintro ⟨d, o⟩ hd
    rw [disjoint_iff]
    simp only [hsub]
    cases o with
    | stack =>
      have := hinv.onStack d hd
      omega
    | heap =>
      have hbounds := hinv.heap.alloced _ (hinv.onHeap d hd).1
      simp only [blockT, mkBlock_lo, heapMin, stackBoundary] at hbounds hsp
      omega
  · refine ⟨Or.inr ?_, ?_, hinv.heap, hinv.kept, fun b hb => ?_, fun b hb => ?_⟩
    · simp only [hsub]
      omega
    · simp only [hsub]
      omega
    · simp only [hsub]
      rcases List.mem_cons.mp hb with heq | hb
      · cases heq
        simp only [hsub]
        omega
      · have := hinv.onStack b hb
        omega
    · rcases List.mem_cons.mp hb with heq | hb
      · cases heq
      · exact hinv.onHeap b hb

/-- An allocation in the heap. -/
theorem Inv.allocHeap (hinv : Inv s0 s live) (hsp : s0.sp.toNat ≤ stackBoundary)
    (hpos : 0 < size.toNat) (hm : plainMalloc s size = some (p, o, s'))
    (haddr : o = .heap → p.toNat < 2 ^ 63) :
    (∀ d ∈ live, Disjoint (Block.range ⟨p.toNat, size.toNat, hpos⟩) d.1.range) ∧
      Inv s0 s' ((⟨p.toNat, size.toNat, hpos⟩, o) :: live) := by
  obtain ⟨rfl, hsp', hw', halloc, hdis⟩ := plainMalloc_ok hinv.heap hm
  have hbounds := hw'.alloced (mkBlock p.toNat (p.toNat + size.toNat)) (by rw [halloc]; simp)
  constructor
  · rintro ⟨d, o⟩ hd
    cases o with
    | stack =>
      have := hinv.onStack d hd
      rw [disjoint_iff]
      simp only [mkBlock_lo, heapMin, stackBoundary] at hbounds hsp ⊢
      omega
    | heap => exact hdis _ (hinv.onHeap d hd).1
  · refine ⟨hsp' ▸ hinv.sp, hsp' ▸ hinv.sp_le, hw', fun b hb => ?_, fun b hb => ?_, fun b hb => ?_⟩
    · rw [halloc]
      exact Finset.mem_insert_of_mem (hinv.kept hb)
    · rcases List.mem_cons.mp hb with heq | hb
      · cases heq
      · rw [hsp']
        exact hinv.onStack b hb
    · rcases List.mem_cons.mp hb with heq | hb
      · cases heq
        refine ⟨by rw [halloc]; exact Finset.mem_insert_self _ _, fun hmem => ?_, haddr rfl⟩
        -- a new block overlaps no block that was allocated before
        have := BlockT.disjoint_iff.mp (hdis _ (hinv.kept hmem))
        simp only [blockT, mkBlock_lo, mkBlock_hi] at this
        omega
      · obtain ⟨h1, h2, h3⟩ := hinv.onHeap b hb
        exact ⟨by rw [halloc]; exact Finset.mem_insert_of_mem h1, h2, h3⟩

/-- Freeing a live block calls `free` iff the block is in the heap, and then succeeds. -/
theorem Inv.free (hinv : Inv s0 s live) (hsp : s0.sp.toNat ≤ stackBoundary)
    (hdis : (live.map Prod.fst).Pairwise fun a b => Disjoint a.range b.range) {b : Block}
    (hb : (b, o) ∈ live) :
    ∃ s', convertedFree s (BitVec.ofNat 64 b.start) = some (decide (o = .heap), s') ∧
      Inv s0 s' (live.erase (b, o)) := by
  have hmem : ∀ {d}, d ∈ live.erase (b, o) → d ∈ live := fun hd => List.mem_of_mem_erase hd
  cases o with
  | stack =>
    obtain ⟨h1, h2, h3⟩ := hinv.onStack b hb
    have hpos := b.size_pos
    simp only [stackBoundary] at hsp
    rw [convertedFree_eq (by omega), if_neg (by simp only [stackBoundary]; omega)]
    exact ⟨s, rfl, hinv.sp, hinv.sp_le, hinv.heap, hinv.kept, fun d hd => hinv.onStack d (hmem hd),
      fun d hd => hinv.onHeap d (hmem hd)⟩
  | heap =>
    obtain ⟨halloc, hnot, hlt⟩ := hinv.onHeap b hb
    have hbounds := hinv.heap.alloced _ halloc
    simp only [blockT, mkBlock_lo, heapMin] at hbounds
    obtain ⟨heap, hfree, hw, herase⟩ := Heap.execFree_ok hinv.heap halloc
    have hfree' : s.heap.execFree b.start = some heap := hfree
    rw [convertedFree_eq hlt, if_pos (by simp only [stackBoundary]; omega), hfree']
    refine ⟨_, rfl, hinv.sp, hinv.sp_le, hw, fun d hd => ?_, fun d hd => hinv.onStack d (hmem hd),
      fun d hd => ?_⟩
    · rw [herase]
      exact Finset.mem_erase.mpr ⟨fun heq => hnot (heq ▸ hd), hinv.kept hd⟩
    · obtain ⟨h1, h2, h3⟩ := hinv.onHeap d (hmem hd)
      refine ⟨?_, h2, h3⟩
      rw [herase]
      refine Finset.mem_erase.mpr ⟨fun heq => ?_, h1⟩
      -- another live block of the heap is another block
      have hperm := (List.perm_cons_erase hb).map Prod.fst
      have hpair := (hperm.pairwise_iff fun h => h.symm).mp hdis
      have hbd := List.rel_of_pairwise_cons hpair (List.mem_map_of_mem hd)
      have hrange : d.range = b.range := by rw [← blockT_range, heq, blockT_range]
      have := disjoint_iff.mp (hrange ▸ hbd : Disjoint b.range b.range)
      have hpos := b.size_pos
      omega

end Steps

theorem Run.inv {s0 s : MemState} {events : List Event} {live : List (Block × Origin)}
    (hsp : s0.sp.toNat ≤ stackBoundary) (hheap : s0.heap.WellFormed) (h : Run s0 events s live) :
    Lib.Allocator.Run events (live.map Prod.fst) ∧ Inv s0 s live := by
  induction h with
  | init =>
    exact ⟨.init, Or.inl rfl, le_rfl, hheap, Finset.Subset.refl _, by simp, by simp⟩
  | @alloc events s s' live size p o h hpos h8 hlt hm haddr ih =>
    obtain ⟨hrun, hinv⟩ := ih
    have hstep : (∀ d ∈ live, Disjoint (Block.range ⟨p.toNat, size.toNat, hpos⟩) d.1.range) ∧
        Inv s0 s' ((⟨p.toNat, size.toNat, hpos⟩, o) :: live) := by
      rcases hm with hm | hm
      · rw [convertedMalloc_eq (hinv.sp_le.trans hsp) hlt] at hm
        split_ifs at hm with hroom
        · cases hm
          exact hinv.allocStack hsp hpos hroom
        · exact hinv.allocHeap hsp hpos hm haddr
      · exact hinv.allocHeap hsp hpos hm haddr
    refine ⟨hrun.alloc fun d hd => ?_, hstep.2⟩
    obtain ⟨e, he, rfl⟩ := List.mem_map.mp hd
    exact hstep.1 e he
  | @free events s s' live b o called h hb hf ih =>
    obtain ⟨hrun, hinv⟩ := ih
    obtain ⟨s1, hfree, hinv'⟩ := hinv.free hsp hrun.pairwise hb
    rw [hf] at hfree
    cases hfree
    exact ⟨hrun.free ((List.perm_cons_erase hb).map Prod.fst), hinv'⟩

/-- **Refinement of `malloc` and `free`.** In every run from a stack pointer of at most 10240 the
    calls are those of an allocator, so that live blocks never overlap, nor do they overlap what was
    allocated before; a stack allocation leaves the stack pointer at 5120 or more; stack blocks lie
    between 5120 and the stack pointer at the start; and freeing a live block succeeds and calls
    `free` iff the block came from `malloc`. -/
theorem memUse_refines {s0 s : MemState} {events : List Event} {live : List (Block × Origin)}
    (hsp : s0.sp.toNat ≤ 10240) (hheap : s0.heap.WellFormed) (h : Run s0 events s live) :
    Lib.Allocator.Run events (live.map Prod.fst) ∧
    (live.map Prod.fst).Pairwise (fun a b => Disjoint a.range b.range) ∧
    (∀ b o, (b, o) ∈ live → ∀ d ∈ s0.heap.alloced, Disjoint b.range d.range) ∧
    (∀ size p s', 0 < size.toNat → size.toNat < 2 ^ 63 →
      convertedMalloc s size = some (p, .stack, s') → s'.sp = p ∧ 5120 ≤ p.toNat) ∧
    (∀ b, (b, Origin.stack) ∈ live → 5120 ≤ b.start ∧ b.start + b.size ≤ s0.sp.toNat) ∧
    ∀ b o, (b, o) ∈ live → ∃ s',
      convertedFree s (BitVec.ofNat 64 b.start) = some (decide (o = .heap), s') := by
  obtain ⟨hrun, hinv⟩ := h.inv hsp hheap
  refine ⟨hrun, hrun.pairwise, fun b o hb d hd => ?_, fun size p s' hpos hlt hm => ?_,
    fun b hb => (hinv.onStack b hb).2, fun b o hb => ?_⟩
  · have hbounds := hheap.alloced d hd
    cases o with
    | stack =>
      have := hinv.onStack b hb
      refine Set.Ico_disjoint_Ico.mpr ?_
      simp only [heapMin] at hbounds
      omega
    | heap =>
      obtain ⟨h1, h2, -⟩ := hinv.onHeap b hb
      exact hinv.heap.alloced_disjoint h1 (hinv.kept hd) fun heq => h2 (heq ▸ hd)
  · rw [convertedMalloc_eq (hinv.sp_le.trans hsp) hlt] at hm
    split_ifs at hm with hroom
    · cases hm
      refine ⟨rfl, ?_⟩
      have hsub : (s.sp - size).toNat = s.sp.toNat - size.toNat := by
        rw [BitVec.toNat_sub]
        omega
      rw [hsub]
      simp only [stackDangerousRegion] at hroom
      omega
    · obtain ⟨ho, -⟩ := plainMalloc_ok hinv.heap hm
      cases ho
  · obtain ⟨s', hfree, -⟩ := hinv.free hsp hrun.pairwise hb
    exact ⟨s', hfree⟩

/-- `main` allocates 64 bytes, which come from the stack, and 8192 bytes, for which the stack has no
    room; both are freed, and `free` is called for the second block. -/
theorem memUse_refines_fallback : ∃ s,
    Run ⟨10240, .init⟩ [.alloc ⟨10176, 64, by decide⟩, .alloc ⟨20480, 8192, by decide⟩,
      .free ⟨10176, 64, by decide⟩, .free ⟨20480, 8192, by decide⟩] s [] ∧
    s.sp = 10176 ∧ s.heap.alloced = ∅ ∧
    Lib.Allocator.Run [.alloc ⟨10176, 64, by decide⟩, .alloc ⟨20480, 8192, by decide⟩,
      .free ⟨10176, 64, by decide⟩, .free ⟨20480, 8192, by decide⟩] [] := by
  have hm1 : convertedMalloc ⟨10240, .init⟩ 64 = some (10176, .stack, _) := rfl
  have hstack : Origin.stack = .heap → (10176 : Word).toNat < 2 ^ 63 := fun h => by cases h
  have h1 := Run.alloc .init (by decide) (by decide) (by decide) (Or.inl hm1) hstack
  -- 10176 - 8192 is below 5120
  have hm2 : convertedMalloc ⟨10176, .init⟩ 8192 = some (20480, .heap, _) := rfl
  have h2 := h1.alloc (by decide) (by decide) (by decide) (Or.inl hm2) fun _ => by decide
  have h3 := h2.free (List.mem_cons_of_mem _ List.mem_cons_self)
    (show convertedFree _ (BitVec.ofNat 64 (10176 : Word).toNat) = some (false, _) from rfl)
  have h4 := h3.free List.mem_cons_self
    (show convertedFree _ (BitVec.ofNat 64 (20480 : Word).toNat) = some (true, _) from rfl)
  have hsp : (10240 : Word).toNat ≤ 10240 := by decide
  exact ⟨_, h4, rfl, by decide +kernel, (memUse_refines hsp Heap.WellFormed.init h4).1⟩

end SwppCompiler.Passes
