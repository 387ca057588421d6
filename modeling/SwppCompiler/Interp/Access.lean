import SwppCompiler.Interp.Bop
import SwppCompiler.Interp.Coalescing

/-!
# The interpreter's memory

Model of `Memory` (`interpreter/src/memory.h`, `memory.cpp`): the stack array, the heap blocks with
their arrays, the head, and the sizes. A cost is a rational number, as nothing depends on its
rounding. `is_stack` adds in 64 bits: at `addr = 2 ^ 64 - size` the sum is 0 and the access is taken for
one of the stack.

* `heap_invariant`: what holds of the heap after every sequence of successful operations.
* `accessChecked_iff`: `exec_load` and `exec_store` accept exactly the accesses inside the stack or
  one block, except at the one address where `addr + size` wraps to 0.
-/

namespace SwppCompiler.Interp

open Lib.Allocator

/-- A `uint8_t`. -/
abbrev Byte := BitVec 8

/-- Why an execution ends early: `invoke_runtime_error`, `invoke_assertion_failed`, or an operation
    that is undefined in C++, such as an access outside an array. -/
inductive Stop
  | runtimeError (msg : String)
  | assertionFailed
  | undefined
deriving DecidableEq, Repr

/-- `enum MSize`. -/
inductive MSize
  | size1 | size2 | size4 | size8
deriving DecidableEq, Repr

/-- `msize_of` (`size.cpp`, lines 4–15). -/
def msizeOf : MSize → ℕ
  | .size1 => 1
  | .size2 => 2
  | .size4 => 4
  | .size8 => 8

/-- `class Cost` (`opcode.h`, lines 72–102): the costs of memory operations. -/
def Cost.malloc : ℚ := 1
@[inherit_doc Cost.malloc] def Cost.free : ℚ := 1
@[inherit_doc Cost.malloc] def Cost.stack : ℚ := 2
@[inherit_doc Cost.malloc] def Cost.heap : ℚ := 4
@[inherit_doc Cost.malloc] def Cost.perByte : ℚ := 4 / 10000
@[inherit_doc Cost.malloc] def Cost.reset : ℚ := 2

/-- `Memory`. The arrays that `calloc` returned are found under their blocks. -/
structure Memory where
  head : Word
  stack : ℕ → Byte
  heap : Heap
  contents : BlockT → ℕ → Byte
  allocedSize : Word
  maxAllocedSize : Word

/-- The constructor (`memory.cpp`, lines 8–14). -/
def Memory.init : Memory := ⟨-1, fun _ => 0, .init, fun _ _ => 0, 0, 0⟩

/-- `find_block` (`memory.cpp`, lines 16–29): the last block before `(addr, -1)`. -/
def Memory.findBlock (m : Memory) (addr : Word) : Except Stop BlockT :=
  match last? (m.heap.alloced.filter fun b => b < mkBlock addr.toNat (2 ^ 64 - 1)) with
  | none => .error (.runtimeError "accessing non-allocated memory")
  | some b =>
    if b.hi ≤ addr.toNat then .error (.runtimeError "accessing non-allocated memory") else .ok b

/-- The sum of `load_little_endian` (`memory.cpp`, lines 31–42). -/
def littleEndian (bytes : ℕ → Byte) : (size ofs : ℕ) → Word
  | 0, _ => 0
  | size + 1, ofs => (littleEndian bytes size (ofs + 1) <<< 8) + (bytes ofs).setWidth 64

/-- `load_little_endian` from an array of `len` bytes. -/
def loadLittleEndian (len : ℕ) (bytes : ℕ → Byte) (size : MSize) (ofs : ℕ) : Except Stop Word :=
  if ofs + msizeOf size ≤ len then .ok (littleEndian bytes (msizeOf size) ofs)
  else .error .undefined

/-- The loop of `store_little_endian` (`memory.cpp`, lines 58–65). -/
def putLittleEndian (bytes : ℕ → Byte) : (size ofs : ℕ) → Word → ℕ → Byte
  | 0, _, _ => bytes
  | size + 1, ofs, val =>
    putLittleEndian (Function.update bytes ofs (val.setWidth 8)) size (ofs + 1) (val >>> 8)

/-- `store_little_endian` to an array of `len` bytes. -/
def storeLittleEndian (len : ℕ) (bytes : ℕ → Byte) (size : MSize) (ofs : ℕ) (val : Word) :
    Except Stop (ℕ → Byte) :=
  if ofs + msizeOf size ≤ len then .ok (putLittleEndian bytes (msizeOf size) ofs val)
  else .error .undefined

/-- `load_stack` (`memory.cpp`, lines 44–47). -/
def Memory.loadStack (m : Memory) (size : MSize) (addr : Word) : Except Stop Word :=
  loadLittleEndian stackMax m.stack size addr.toNat

/-- `load_heap` (`memory.cpp`, lines 49–56). -/
def Memory.loadHeap (m : Memory) (size : MSize) (addr : Word) : Except Stop Word := do
  let block ← m.findBlock addr
  loadLittleEndian (block.hi - block.lo) (m.contents block) size (addr.toNat - block.lo)

/-- `store_stack` (`memory.cpp`, lines 67–70). -/
def Memory.storeStack (m : Memory) (size : MSize) (addr val : Word) : Except Stop Memory := do
  let stack ← storeLittleEndian stackMax m.stack size addr.toNat val
  .ok { m with stack := stack }

/-- `store_heap` (`memory.cpp`, lines 72–79). -/
def Memory.storeHeap (m : Memory) (size : MSize) (addr val : Word) : Except Stop Memory := do
  let block ← m.findBlock addr
  let bytes ← storeLittleEndian (block.hi - block.lo) (m.contents block) size
    (addr.toNat - block.lo) val
  .ok { m with contents := Function.update m.contents block bytes }

/-- `is_stack`, `is_heap`, `is_alligned` (`memory.cpp`, lines 81–91). The sums are of 64 bits. -/
def isStack (size : MSize) (addr : Word) : Bool :=
  addr + BitVec.ofNat 64 (msizeOf size) ≤ BitVec.ofNat 64 stackMax

@[inherit_doc isStack] def isHeap (size : MSize) (addr : Word) : Bool :=
  BitVec.ofNat 64 heapMin ≤ addr ∧
    addr + BitVec.ofNat 64 (msizeOf size) ≤ BitVec.ofNat 64 heapMax

@[inherit_doc isStack] def isAlligned (size : MSize) (addr : Word) : Bool :=
  addr % BitVec.ofNat 64 (msizeOf size) = 0

/-- The cost of an access and the head after it (`memory.cpp`, lines 101–105 and three more times). -/
def Memory.seek (m : Memory) (base : ℚ) (addr : Word) : ℚ × Memory :=
  let dist := if m.head < addr then addr - m.head else m.head - addr
  let cost := if m.head = -1 then 0 else base + Cost.perByte * dist.toNat
  (cost, { m with head := addr })

/-- `exec_load` (`memory.cpp`, lines 93–121). -/
def Memory.execLoad (m : Memory) (size : MSize) (addr : Word) :
    Except Stop (Word × ℚ × Memory) :=
  if ¬isAlligned size addr then .error (.runtimeError "address not aligned")
  else if isStack size addr then do
    let result ← m.loadStack size addr
    .ok (result, m.seek Cost.stack addr)
  else if isHeap size addr then do
    let result ← m.loadHeap size addr
    .ok (result, m.seek Cost.heap addr)
  else .error (.runtimeError "accessing address between 10248 and 20480")

/-- `exec_store` (`memory.cpp`, lines 123–151). -/
def Memory.execStore (m : Memory) (size : MSize) (addr val : Word) : Except Stop (ℚ × Memory) :=
  if ¬isAlligned size addr then .error (.runtimeError "address not aligned")
  else if isStack size addr then do
    let m ← m.storeStack size addr val
    .ok (m.seek Cost.stack addr)
  else if isHeap size addr then do
    let m ← m.storeHeap size addr val
    .ok (m.seek Cost.heap addr)
  else .error (.runtimeError "acessing address between 10240 and 20480")

/-- `exec_malloc` (`memory.cpp`, lines 153–182). Whether `calloc` finds room is a parameter. -/
def Memory.execMalloc (calloc : Heap → Word → Bool) (m : Memory) (size : Word) :
    Except Stop (Word × ℚ × Memory) :=
  if size = 0 then .error (.runtimeError "allocation size should not be 0")
  else if size.toNat % 8 ≠ 0 then
    .error (.runtimeError "allocation size should be multiple of 8")
  else
    match m.heap.execMalloc size.toNat with
    | none => .error (.runtimeError "out-of-memory")
    | some (addr, heap) =>
      if ¬calloc m.heap size then .error (.runtimeError "out-of-memory")
      else
        let allocedSize := m.allocedSize + size
        .ok (BitVec.ofNat 64 addr, Cost.malloc,
          { m with
            heap := heap
            contents := Function.update m.contents (mkBlock addr (addr + size.toNat)) fun _ => 0
            allocedSize := allocedSize
            maxAllocedSize :=
              if m.maxAllocedSize < allocedSize then allocedSize else m.maxAllocedSize })

/-- `exec_free` (`memory.cpp`, lines 184–221). `alloc_lb` is the block that `Heap.execFree` takes
    away. -/
def Memory.execFree (m : Memory) (addr : Word) : Except Stop (ℚ × Memory) :=
  let allocLb := first? (m.heap.alloced.filter fun b => mkBlock addr.toNat 0 ≤ b)
  match allocLb, m.heap.execFree addr.toNat with
  | some block, some heap =>
    let size := BitVec.ofNat 64 (block.hi - block.lo)
    .ok (Cost.free, { m with heap := heap, allocedSize := m.allocedSize - size })
  | _, _ => .error (.runtimeError "freeing non-allocated address")

/-- `exec_reset_stack` and `exec_reset_heap` (`memory.cpp`, lines 223–231). -/
def Memory.execResetStack (m : Memory) : ℚ × Memory :=
  (Cost.reset, { m with head := BitVec.ofNat 64 stackMax })

@[inherit_doc Memory.execResetStack] def Memory.execResetHeap (m : Memory) : ℚ × Memory :=
  (Cost.reset, { m with head := BitVec.ofNat 64 heapMin })

/-- The memories of a run of successful operations, the last one first. -/
inductive Trace (calloc : Heap → Word → Bool) : List Memory → Prop
  | init : Trace calloc [.init]
  | malloc {m : Memory} {ms : List Memory} {size : Word} {r : Word × ℚ × Memory}
      (h : Trace calloc (m :: ms)) (hm : m.execMalloc calloc size = .ok r) :
      Trace calloc (r.2.2 :: m :: ms)
  | free {m : Memory} {ms : List Memory} {addr : Word} {r : ℚ × Memory}
      (h : Trace calloc (m :: ms)) (hm : m.execFree addr = .ok r) : Trace calloc (r.2 :: m :: ms)
  | load {m : Memory} {ms : List Memory} {size : MSize} {addr : Word} {r : Word × ℚ × Memory}
      (h : Trace calloc (m :: ms)) (hm : m.execLoad size addr = .ok r) :
      Trace calloc (r.2.2 :: m :: ms)
  | store {m : Memory} {ms : List Memory} {size : MSize} {addr val : Word} {r : ℚ × Memory}
      (h : Trace calloc (m :: ms)) (hm : m.execStore size addr val = .ok r) :
      Trace calloc (r.2 :: m :: ms)
  | resetStack {m : Memory} {ms : List Memory} (h : Trace calloc (m :: ms)) :
      Trace calloc (m.execResetStack.2 :: m :: ms)
  | resetHeap {m : Memory} {ms : List Memory} (h : Trace calloc (m :: ms)) :
      Trace calloc (m.execResetHeap.2 :: m :: ms)

/-! ## The sizes -/

/-- The sum of the sizes of the allocated blocks. -/
def Heap.liveSize (h : Heap) : ℕ := ∑ b ∈ h.alloced, (b.hi - b.lo)

/-- The allocated blocks fit into the heap. -/
theorem Heap.Tiled.liveSize_le {h : Heap} (ht : h.Tiled) : h.liveSize ≤ heapMax - heapMin := by
  have hdis : (h.alloced : Set BlockT).PairwiseDisjoint fun b => Finset.Ico b.lo b.hi := by
    intro a ha b hb hab
    have hapart := ht.alloced_apart ha hb hab
    rw [Function.onFun, Finset.disjoint_left]
    intro x hx hx'
    rw [Finset.mem_Ico] at hx hx'
    rcases hapart with h | h <;> omega
  have hsum : h.liveSize = (h.alloced.biUnion fun b => Finset.Ico b.lo b.hi).card := by
    rw [Finset.card_biUnion hdis]
    exact Finset.sum_congr rfl fun b _ => (Nat.card_Ico _ _).symm
  rw [hsum, ← Nat.card_Ico heapMin heapMax]
  refine Finset.card_le_card fun x hx => ?_
  obtain ⟨b, hb, hxb⟩ := Finset.mem_biUnion.mp hx
  rw [Finset.mem_Ico] at hxb ⊢
  have hin := ht.inHeap b (Or.inl hb)
  exact ⟨hin.heapMin_le.trans hxb.1, hxb.2.trans_le hin.le_heapMax⟩

/-- What a memory keeps: the heap is tiled, and the sizes are those of the blocks. -/
structure Memory.Inv (m : Memory) (ms : List Memory) : Prop where
  tiled : m.heap.Tiled
  allocedSize : m.allocedSize.toNat = m.heap.liveSize
  maxAllocedSize_mem : ∃ m' ∈ m :: ms, m.maxAllocedSize.toNat = m'.heap.liveSize
  le_maxAllocedSize : ∀ m' ∈ m :: ms, m'.heap.liveSize ≤ m.maxAllocedSize.toNat

/-- An operation that leaves the blocks alone. -/
theorem Memory.Inv.of_eq {m m' : Memory} {ms : List Memory} (h : m.Inv ms)
    (hheap : m'.heap = m.heap) (hsize : m'.allocedSize = m.allocedSize)
    (hmax : m'.maxAllocedSize = m.maxAllocedSize) : m'.Inv (m :: ms) where
  tiled := hheap ▸ h.tiled
  allocedSize := by rw [hsize, hheap, h.allocedSize]
  maxAllocedSize_mem := by
    obtain ⟨d, hd, heq⟩ := h.maxAllocedSize_mem
    exact ⟨d, List.mem_cons_of_mem _ hd, hmax ▸ heq⟩
  le_maxAllocedSize d hd := by
    rw [hmax]
    rcases List.mem_cons.mp hd with rfl | hd
    · rw [hheap]
      exact h.le_maxAllocedSize m List.mem_cons_self
    · exact h.le_maxAllocedSize d hd

theorem Heap.Tiled.liveSize_execMalloc {h h' : Heap} {size p : ℕ} (ht : h.Tiled)
    (hm : h.execMalloc size = some (p, h')) : h'.liveSize = h.liveSize + size := by
  obtain ⟨hpos, -, b, hb, hroom, rfl, rfl⟩ := Heap.execMalloc_cases hm
  have hnew : mkBlock b.lo (b.lo + size) ∉ h.alloced := fun hmem => by
    rcases ht.apart _ hmem b hb with h | h <;> simp only [mkBlock_lo, mkBlock_hi] at h <;> omega
  rw [liveSize, Finset.sum_insert hnew, mkBlock_lo, mkBlock_hi, Nat.add_sub_cancel_left, add_comm]
  rfl

theorem Heap.liveSize_erase {h h' : Heap} {b : BlockT} (hb : b ∈ h.alloced)
    (herase : h'.alloced = h.alloced.erase b) : h'.liveSize + (b.hi - b.lo) = h.liveSize := by
  rw [liveSize, herase, Finset.sum_erase_add _ _ hb]
  rfl

/-- What `exec_malloc` does when it succeeds. -/
theorem Memory.execMalloc_cases {calloc : Heap → Word → Bool} {m : Memory} {size : Word}
    {r : Word × ℚ × Memory} (hm : m.execMalloc calloc size = .ok r) :
    ∃ addr, m.heap.execMalloc size.toNat = some (addr, r.2.2.heap) ∧
      r.2.2.allocedSize = m.allocedSize + size ∧
      r.2.2.maxAllocedSize = if m.maxAllocedSize < m.allocedSize + size then m.allocedSize + size
        else m.maxAllocedSize := by
  unfold execMalloc at hm
  cases hh : m.heap.execMalloc size.toNat with
  | none =>
    rw [hh] at hm
    split_ifs at hm
  | some q =>
    rw [hh] at hm
    simp only at hm
    split_ifs at hm with h1 h2 hc hlt
    · cases hm
      exact ⟨q.1, rfl, rfl, (if_pos hlt).symm⟩
    · cases hm
      exact ⟨q.1, rfl, rfl, (if_neg hlt).symm⟩

/-- What `exec_free` does when it succeeds. -/
theorem Memory.execFree_cases {m : Memory} {addr : Word} {r : ℚ × Memory}
    (hm : m.execFree addr = .ok r) :
    ∃ b ∈ m.heap.alloced, m.heap.execFree addr.toNat = some r.2.heap ∧
      r.2.heap.alloced = m.heap.alloced.erase b ∧
      r.2.allocedSize = m.allocedSize - BitVec.ofNat 64 (b.hi - b.lo) ∧
      r.2.maxAllocedSize = m.maxAllocedSize := by
  unfold execFree at hm
  cases hb : first? (m.heap.alloced.filter fun b => mkBlock addr.toNat 0 ≤ b) with
  | none =>
    rw [hb] at hm
    cases hm
  | some b =>
    cases hh : m.heap.execFree addr.toNat with
    | none =>
      rw [hb, hh] at hm
      cases hm
    | some heap =>
      rw [hb, hh] at hm
      cases hm
      refine ⟨b, (Finset.mem_filter.mp (first?_eq_some hb).1).1, rfl, ?_, rfl, rfl⟩
      unfold Heap.execFree at hh
      rw [hb] at hh
      simp only at hh
      split_ifs at hh
      cases hh
      rfl

theorem Memory.Inv.execMalloc {calloc : Heap → Word → Bool} {m : Memory} {ms : List Memory}
    {size : Word} {r : Word × ℚ × Memory} (h : m.Inv ms)
    (hm : m.execMalloc calloc size = .ok r) : r.2.2.Inv (m :: ms) := by
  obtain ⟨addr, hheap, hsize, hmax⟩ := Memory.execMalloc_cases hm
  have ht := h.tiled.execMalloc hheap
  have hlive := h.tiled.liveSize_execMalloc hheap
  have hle := ht.liveSize_le
  have hadd : (m.allocedSize + size).toNat = r.2.2.heap.liveSize := by
    rw [BitVec.toNat_add, h.allocedSize, ← hlive]
    refine Nat.mod_eq_of_lt (hle.trans_lt ?_)
    decide
  refine ⟨ht, by rw [hsize, hadd], ?_, fun d hd => ?_⟩
  · rw [hmax]
    split_ifs
    · exact ⟨_, List.mem_cons_self, hadd⟩
    · obtain ⟨d, hd, heq⟩ := h.maxAllocedSize_mem
      exact ⟨d, List.mem_cons_of_mem _ hd, heq⟩
  · have hge : m.maxAllocedSize.toNat ≤ r.2.2.maxAllocedSize.toNat ∧
        r.2.2.heap.liveSize ≤ r.2.2.maxAllocedSize.toNat := by
      rw [hmax]
      split_ifs with hlt
      · exact ⟨(BitVec.lt_def.mp hlt).le, hadd.ge⟩
      · exact ⟨le_rfl, hadd.ge.trans (not_lt.mp fun h => hlt (BitVec.lt_def.mpr h))⟩
    rcases List.mem_cons.mp hd with rfl | hd
    · exact hge.2
    · exact (h.le_maxAllocedSize d hd).trans hge.1

theorem Memory.Inv.execFree {m : Memory} {ms : List Memory} {addr : Word} {r : ℚ × Memory}
    (h : m.Inv ms) (hm : m.execFree addr = .ok r) : r.2.Inv (m :: ms) := by
  obtain ⟨b, hb, hheap, halloced, hsize, hmax⟩ := Memory.execFree_cases hm
  have hlive := Heap.liveSize_erase hb halloced
  have hlt := m.allocedSize.isLt
  refine ⟨h.tiled.execFree hheap, ?_, ?_, fun d hd => ?_⟩
  · have halloc := h.allocedSize
    rw [hsize, BitVec.toNat_sub, BitVec.toNat_ofNat]
    omega
  · obtain ⟨d, hd, heq⟩ := h.maxAllocedSize_mem
    exact ⟨d, List.mem_cons_of_mem _ hd, by rw [hmax, heq]⟩
  · rw [hmax]
    rcases List.mem_cons.mp hd with rfl | hd
    · exact (Nat.le.intro hlive).trans (h.le_maxAllocedSize m List.mem_cons_self)
    · exact h.le_maxAllocedSize d hd

/-- A load moves the head only. -/
theorem Memory.execLoad_cases {m : Memory} {size : MSize} {addr : Word} {r : Word × ℚ × Memory}
    (hm : m.execLoad size addr = .ok r) : r.2.2 = { m with head := addr } := by
  unfold execLoad at hm
  split_ifs at hm
  · cases hl : m.loadStack size addr with
    | error e => rw [hl] at hm; cases hm
    | ok w => rw [hl] at hm; cases hm; rfl
  · cases hl : m.loadHeap size addr with
    | error e => rw [hl] at hm; cases hm
    | ok w => rw [hl] at hm; cases hm; rfl

/-- A store changes bytes of the stack or of a block. -/
theorem Memory.execStore_cases {m : Memory} {size : MSize} {addr val : Word} {r : ℚ × Memory}
    (hm : m.execStore size addr val = .ok r) :
    ∃ stack contents, r.2 = { m with head := addr, stack := stack, contents := contents } := by
  unfold execStore at hm
  split_ifs at hm
  · cases hl : m.storeStack size addr val with
    | error e => rw [hl] at hm; cases hm
    | ok m' =>
      rw [hl] at hm
      cases hm
      unfold storeStack at hl
      cases hs : storeLittleEndian stackMax m.stack size addr.toNat val with
      | error e => rw [hs] at hl; cases hl
      | ok stack => rw [hs] at hl; cases hl; exact ⟨stack, m.contents, rfl⟩
  · cases hl : m.storeHeap size addr val with
    | error e => rw [hl] at hm; cases hm
    | ok m' =>
      rw [hl] at hm
      cases hm
      unfold storeHeap at hl
      cases hb : m.findBlock addr with
      | error e => rw [hb] at hl; cases hl
      | ok b =>
        rw [hb] at hl
        cases hs : storeLittleEndian (b.hi - b.lo) (m.contents b) size (addr.toNat - b.lo) val with
        | error e => simp only [bind, Except.bind, hs] at hl; cases hl
        | ok bytes => simp only [bind, Except.bind, hs] at hl; cases hl; exact ⟨m.stack, _, rfl⟩

theorem Trace.inv {calloc : Heap → Word → Bool} {m : Memory} {ms : List Memory}
    (h : Trace calloc (m :: ms)) : m.Inv ms := by
  generalize hl : m :: ms = l at h
  induction h generalizing m ms with
  | init =>
    cases hl
    exact ⟨Heap.Tiled.init, rfl, ⟨_, List.mem_cons_self, rfl⟩,
      by simp [Memory.init, Heap.init, Heap.liveSize]⟩
  | malloc h hm ih => cases hl; exact (ih rfl).execMalloc hm
  | free h hm ih => cases hl; exact (ih rfl).execFree hm
  | load h hm ih =>
    cases hl
    rw [Memory.execLoad_cases hm]
    exact (ih rfl).of_eq rfl rfl rfl
  | store h hm ih =>
    cases hl
    obtain ⟨stack, contents, heq⟩ := Memory.execStore_cases hm
    rw [heq]
    exact (ih rfl).of_eq rfl rfl rfl
  | resetStack h ih => cases hl; exact (ih rfl).of_eq rfl rfl rfl
  | resetHeap h ih => cases hl; exact (ih rfl).of_eq rfl rfl rfl

/-- **Heap allocator invariant.** After every run of successful operations the blocks are disjoint
    and cover the heap, they lie between multiples of 8, free blocks do not touch, an address begins
    at most one allocated block, and the sizes are right. -/
theorem heap_invariant {calloc : Heap → Word → Bool} {m : Memory} {ms : List Memory}
    (h : Trace calloc (m :: ms)) :
    Disjoint m.heap.alloced m.heap.freed ∧
    ((m.heap.alloced ∪ m.heap.freed : Finset BlockT) : Set BlockT).PairwiseDisjoint BlockT.range ∧
    (⋃ b ∈ m.heap.alloced ∪ m.heap.freed, b.range) = Set.Ico heapMin heapMax ∧
    (∀ b ∈ m.heap.alloced ∪ m.heap.freed, 8 ∣ b.lo ∧ 8 ∣ b.hi) ∧
    (∀ f ∈ m.heap.freed, ∀ g ∈ m.heap.freed, f ≠ g → f.hi ≠ g.lo) ∧
    (∀ a ∈ m.heap.alloced, ∀ b ∈ m.heap.alloced, a.lo = b.lo → a = b) ∧
    m.allocedSize.toNat = ∑ b ∈ m.heap.alloced, (b.hi - b.lo) ∧
    IsGreatest {n | ∃ m' ∈ m :: ms, n = ∑ b ∈ m'.heap.alloced, (b.hi - b.lo)}
      m.maxAllocedSize.toNat ∧
    (m.heap.alloced = ∅ → m.heap.freed = {mkBlock heapMin heapMax}) := by
  have hinv := h.inv
  have ht := hinv.tiled
  refine ⟨?_, ?_, ?_, fun b hb => ?_, fun f hf g hg hne => ?_, fun a ha b hb => ht.eq_of_lo_eq ha hb,
    hinv.allocedSize, ⟨hinv.maxAllocedSize_mem, ?_⟩, ht.freed_of_alloced_empty⟩
  · rw [Finset.disjoint_left]
    intro b hb hb'
    have hpos := ht.nonempty b hb
    rcases ht.apart b hb b hb' with h | h <;> omega
  · rw [Finset.coe_union]
    refine Set.PairwiseDisjoint.union ht.wellFormed.alloced_disjoint ht.wellFormed.freed_disjoint ?_
    exact fun a ha f hf _ => ht.wellFormed.disjoint a ha f hf
  · ext x
    simp only [Set.mem_iUnion, Finset.mem_union, exists_prop]
    constructor
    · rintro ⟨b, hb, hx⟩
      have hin := ht.inHeap b hb
      exact ⟨hin.heapMin_le.trans hx.1, hx.2.trans_le hin.le_heapMax⟩
    · exact fun hx => ht.covers x hx.1 hx.2
  · have hin := ht.inHeap b (Finset.mem_union.mp hb)
    exact ⟨hin.lo_dvd, hin.hi_dvd⟩
  · have h1 := (ht.inHeap f (Or.inr hf)).le
    have h2 := (ht.inHeap g (Or.inr hg)).le
    rcases ht.freed_separate hf hg hne with h | h <;> omega
  · rintro n ⟨m', hm', rfl⟩
    exact hinv.le_maxAllocedSize m' hm'

/-- A block of 8 bytes that is given back: the heap is one free block again. -/
theorem heap_invariant_givenBack :
    ∃ m m', Trace (fun _ _ => true) [m', m, .init] ∧ m.heap.freed = {mkBlock 20488 heapMax} ∧
      m'.heap.freed = {mkBlock heapMin heapMax} := by
  have hm : ∃ r, Memory.init.execMalloc (fun _ _ => true) 8 = .ok r ∧
      r.2.2.heap = ⟨{mkBlock 20480 20488}, {mkBlock 20488 heapMax}⟩ := ⟨_, rfl, by decide +kernel⟩
  obtain ⟨r, hr, hheap⟩ := hm
  have h1 := Trace.init.malloc hr
  have hlb : first? (r.2.2.heap.alloced.filter fun b => mkBlock 20480 0 ≤ b) =
      some (mkBlock 20480 20488) := by
    rw [hheap]
    decide +kernel
  have hfree : r.2.2.heap.execFree 20480 = some ⟨∅, {mkBlock heapMin heapMax}⟩ := by
    rw [hheap]
    decide +kernel
  have hf : ∃ q, r.2.2.execFree 20480 = .ok q ∧ q.2.heap.alloced = ∅ := by
    have h20480 : (20480 : Word).toNat = 20480 := by decide
    simp only [Memory.execFree, h20480, hlb, hfree]
    exact ⟨_, rfl, rfl⟩
  obtain ⟨q, hq, hempty⟩ := hf
  have h2 := h1.free hq
  exact ⟨_, _, h2, by rw [hheap], (heap_invariant h2).2.2.2.2.2.2.2.2 hempty⟩

/-! ## Accesses -/

/-- The aligned access lies inside the stack or inside one allocated block. -/
def Memory.InBounds (m : Memory) (size : MSize) (addr : Word) : Prop :=
  addr.toNat % msizeOf size = 0 ∧
    (addr.toNat + msizeOf size ≤ stackMax ∨
      ∃ b ∈ m.heap.alloced, b.lo ≤ addr.toNat ∧ addr.toNat + msizeOf size ≤ b.hi)

/-- The bytes of the stack, and of the block that `find_block` returns, that a store changes. -/
def Memory.ChangesOnly (m m' : Memory) (size : MSize) (addr : Word) : Prop :=
  (∀ i, m'.stack i ≠ m.stack i → addr.toNat ≤ i ∧ i < addr.toNat + msizeOf size ∧ i < stackMax) ∧
  ∀ b i, m'.contents b i ≠ m.contents b i → m.findBlock addr = .ok b ∧
    addr.toNat ≤ b.lo + i ∧ b.lo + i < addr.toNat + msizeOf size ∧ b.lo + i < b.hi

/-- An access is accepted iff it is in bounds, and reported otherwise. -/
structure Memory.AccessChecked (m : Memory) (size : MSize) (addr : Word) : Prop where
  accepts : m.InBounds size addr → (∃ r, m.execLoad size addr = .ok r) ∧
    ∀ val, ∃ r, m.execStore size addr val = .ok r
  reports : ¬m.InBounds size addr → (∃ msg, m.execLoad size addr = .error (.runtimeError msg)) ∧
    ∀ val, ∃ msg, m.execStore size addr val = .error (.runtimeError msg)
  changes : ∀ val r, m.execStore size addr val = .ok r → m.ChangesOnly r.2 size addr

theorem msizeOf_mem (size : MSize) :
    msizeOf size = 1 ∨ msizeOf size = 2 ∨ msizeOf size = 4 ∨ msizeOf size = 8 := by
  cases size <;> simp [msizeOf]

theorem isAlligned_iff {size : MSize} {addr : Word} :
    isAlligned size addr = true ↔ addr.toNat % msizeOf size = 0 := by
  have hpow : (BitVec.ofNat 64 (msizeOf size)).toNat = msizeOf size := by cases size <;> rfl
  unfold isAlligned
  rw [decide_eq_true_iff, ← BitVec.toNat_inj, BitVec.toNat_umod, hpow]
  rfl

/-- The sum wraps to 0 only, as the address is aligned. -/
theorem isStack_iff {size : MSize} {addr : Word} (halign : addr.toNat % msizeOf size = 0) :
    isStack size addr = true ↔
      addr.toNat + msizeOf size ≤ stackMax ∨ addr.toNat + msizeOf size = 2 ^ 64 := by
  have hlt := addr.isLt
  unfold isStack
  rw [decide_eq_true_iff, BitVec.le_def, BitVec.toNat_add, BitVec.toNat_ofNat, BitVec.toNat_ofNat,
    stackMax]
  rcases msizeOf_mem size with h | h | h | h <;> rw [h] at halign ⊢ <;> omega

theorem isHeap_iff {size : MSize} {addr : Word} (hwrap : addr.toNat + msizeOf size < 2 ^ 64) :
    isHeap size addr = true ↔ heapMin ≤ addr.toNat ∧ addr.toNat + msizeOf size ≤ heapMax := by
  unfold isHeap
  rw [decide_eq_true_iff, BitVec.le_def, BitVec.le_def, BitVec.toNat_add, BitVec.toNat_ofNat,
    BitVec.toNat_ofNat, BitVec.toNat_ofNat, heapMin, heapMax]
  rcases msizeOf_mem size with h | h | h | h <;> rw [h] at hwrap ⊢ <;> omega

/-- `find_block` finds the allocated block that an address lies in, if there is one. -/
theorem Heap.Tiled.findBlock {m : Memory} (ht : m.heap.Tiled) (addr : Word) :
    (∃ b ∈ m.heap.alloced, b.lo ≤ addr.toNat ∧ addr.toNat < b.hi ∧ m.findBlock addr = .ok b) ∨
    (∀ b ∈ m.heap.alloced, ¬(b.lo ≤ addr.toNat ∧ addr.toNat < b.hi)) ∧
      m.findBlock addr = .error (.runtimeError "accessing non-allocated memory") := by
  have hlt : ∀ b ∈ m.heap.alloced,
      b < mkBlock addr.toNat (2 ^ 64 - 1) ↔ b.lo ≤ addr.toNat := by
    intro b hb
    have hle := (ht.inHeap b (Or.inl hb)).le_heapMax
    rw [BlockT.lt_iff, mkBlock_lo, mkBlock_hi]
    simp only [heapMax] at hle
    omega
  unfold Memory.findBlock
  cases hl : last? (m.heap.alloced.filter fun b => b < mkBlock addr.toNat (2 ^ 64 - 1)) with
  | none =>
    refine Or.inr ⟨fun b hb hin => ?_, rfl⟩
    have hmem : b ∈ m.heap.alloced.filter fun b => b < mkBlock addr.toNat (2 ^ 64 - 1) :=
      Finset.mem_filter.mpr ⟨hb, (hlt b hb).mpr hin.1⟩
    obtain ⟨c, hc⟩ := last?_isSome hmem
    rw [hl] at hc
    cases hc
  | some b =>
    obtain ⟨hb, hblt⟩ := Finset.mem_filter.mp (last?_mem hl)
    have hblo := (hlt b hb).mp hblt
    by_cases hhi : b.hi ≤ addr.toNat
    · refine Or.inr ⟨fun c hc hin => ?_, if_pos hhi⟩
      -- `c` begins after `b`, which is the last block before the address
      have hcb : c ≤ b := (last?_eq_some hl).2 c (Finset.mem_filter.mpr ⟨hc, (hlt c hc).mpr hin.1⟩)
      have hne : c ≠ b := by
        rintro rfl
        omega
      have hpos := ht.nonempty b hb
      rw [BlockT.le_iff] at hcb
      rcases ht.alloced_apart hc hb hne with h | h <;> omega
    · exact Or.inl ⟨b, hb, hblo, not_le.mp hhi, if_neg hhi⟩

/-- Where an aligned access that does not wrap goes. -/
inductive Memory.Target (m : Memory) (size : MSize) (addr : Word) : Prop
  | stack (h : isStack size addr = true) (hle : addr.toNat + msizeOf size ≤ stackMax)
  | block (b : BlockT) (hb : b ∈ m.heap.alloced) (hs : isStack size addr = false)
      (hh : isHeap size addr = true) (hf : m.findBlock addr = .ok b) (hlo : b.lo ≤ addr.toNat)
      (hhi : addr.toNat + msizeOf size ≤ b.hi)
  | noBlock (hs : isStack size addr = false) (hh : isHeap size addr = true)
      (hf : m.findBlock addr = .error (.runtimeError "accessing non-allocated memory"))
      (hout : ¬m.InBounds size addr)
  | between (hs : isStack size addr = false) (hh : isHeap size addr = false)
      (hout : ¬m.InBounds size addr)

/-- An aligned access that begins in a block ends in it, as blocks end at multiples of 8. -/
theorem Heap.Tiled.target {m : Memory} (ht : m.heap.Tiled) {size : MSize} {addr : Word}
    (halign : addr.toNat % msizeOf size = 0) (hwrap : addr.toNat + msizeOf size ≠ 2 ^ 64) :
    m.Target size addr := by
  have hpos := msizeOf_mem size
  have hlt64 : addr.toNat + msizeOf size < 2 ^ 64 := by
    have hlt := addr.isLt
    rcases hpos with h | h | h | h <;> rw [h] at halign hwrap ⊢ <;> omega
  by_cases hs : isStack size addr = true
  · exact .stack hs (((isStack_iff halign).mp hs).resolve_right hwrap)
  have hs' := Bool.eq_false_iff.mpr hs
  have hstack : ¬addr.toNat + msizeOf size ≤ stackMax := fun h =>
    hs ((isStack_iff halign).mpr (Or.inl h))
  by_cases hh : isHeap size addr = true
  · rcases ht.findBlock addr with ⟨b, hb, hlo, hhi, hf⟩ | ⟨hnone, hf⟩
    · have h8 := (ht.inHeap b (Or.inl hb)).hi_dvd
      refine .block b hb hs' hh hf hlo ?_
      rcases hpos with h | h | h | h <;> rw [h] at halign ⊢ <;> omega
    · refine .noBlock hs' hh hf fun hin => ?_
      obtain ⟨b, hb, hlo, hhi⟩ := hin.2.resolve_left hstack
      exact hnone b hb ⟨hlo, by omega⟩
  · refine .between hs' (Bool.eq_false_iff.mpr hh) fun hin => hh ?_
    obtain ⟨b, hb, hlo, hhi⟩ := hin.2.resolve_left hstack
    have hb := ht.inHeap b (Or.inl hb)
    exact (isHeap_iff hlt64).mpr ⟨hb.heapMin_le.trans hlo, hhi.trans hb.le_heapMax⟩

theorem putLittleEndian_of_lt {bytes : ℕ → Byte} {size ofs i : ℕ} {val : Word}
    (h : i < ofs ∨ ofs + size ≤ i) : putLittleEndian bytes size ofs val i = bytes i := by
  induction size generalizing bytes ofs val with
  | zero => rfl
  | succ size ih =>
    rw [putLittleEndian, ih (by omega)]
    exact Function.update_of_ne (by omega) ..

/-- A store that succeeds changes the bytes it is meant to. -/
theorem Memory.execStore_changesOnly {m : Memory} {size : MSize} {addr val : Word}
    {r : ℚ × Memory} (hlo : ∀ b, m.findBlock addr = .ok b → b.lo ≤ addr.toNat)
    (h : m.execStore size addr val = .ok r) : m.ChangesOnly r.2 size addr := by
  unfold execStore at h
  split_ifs at h
  · simp only [storeStack, storeLittleEndian] at h
    split_ifs at h with hle
    · cases h
      refine ⟨fun i hne => ?_, fun b i hne => absurd rfl hne⟩
      by_contra hout
      exact hne (putLittleEndian_of_lt (by omega))
    · cases h
  · cases hf : m.findBlock addr with
    | error e =>
      simp only [storeHeap, hf, bind, Except.bind] at h
      cases h
    | ok b =>
      simp only [storeHeap, hf, bind, Except.bind, storeLittleEndian] at h
      split_ifs at h with hle
      cases h
      refine ⟨fun i hne => absurd rfl hne, fun c i hne => ?_⟩
      have hcb : c = b := by
        by_contra hcb
        exact hne (congrFun (Function.update_of_ne hcb ..) i)
      subst hcb
      have hblo := hlo c hf
      refine ⟨hf, ?_⟩
      by_contra hout
      refine hne ((congrFun (Function.update_self ..) i).trans (putLittleEndian_of_lt ?_))
      omega

/-- An access that stays in its array succeeds. -/
theorem Memory.Target.accessChecked {m : Memory} {size : MSize} {addr : Word}
    (ht : m.heap.Tiled) (h : m.Target size addr) (halign : addr.toNat % msizeOf size = 0) :
    m.AccessChecked size addr := by
  have ha := isAlligned_iff.mpr halign
  have hlo : ∀ b, m.findBlock addr = .ok b → b.lo ≤ addr.toNat := fun b hb => by
    rcases ht.findBlock addr with ⟨c, -, hlo, -, hf⟩ | ⟨-, hf⟩
    · rw [hf] at hb
      cases hb
      exact hlo
    · rw [hf] at hb
      cases hb
  suffices hs : (m.InBounds size addr → (∃ r, m.execLoad size addr = .ok r) ∧
        ∀ val, ∃ r, m.execStore size addr val = .ok r) ∧
      (¬m.InBounds size addr → (∃ msg, m.execLoad size addr = .error (.runtimeError msg)) ∧
        ∀ val, ∃ msg, m.execStore size addr val = .error (.runtimeError msg)) from
    ⟨hs.1, hs.2, fun val r => execStore_changesOnly hlo⟩
  unfold execLoad execStore
  simp only [ha, not_true_eq_false, if_false]
  cases h with
  | stack hs hle =>
    simp only [hs, if_true, loadStack, storeStack, loadLittleEndian, storeLittleEndian, hle]
    exact ⟨fun _ => ⟨⟨_, rfl⟩, fun val => ⟨_, rfl⟩⟩, fun h => absurd ⟨halign, Or.inl hle⟩ h⟩
  | block b hb hs hh hf hlo hhi =>
    have hofs : addr.toNat - b.lo + msizeOf size ≤ b.hi - b.lo := by omega
    simp only [hs, hh, Bool.false_eq_true, if_false, if_true, loadHeap, storeHeap, hf, bind,
      Except.bind, loadLittleEndian, storeLittleEndian, hofs]
    exact ⟨fun _ => ⟨⟨_, rfl⟩, fun val => ⟨_, rfl⟩⟩,
      fun h => absurd ⟨halign, Or.inr ⟨b, hb, hlo, hhi⟩⟩ h⟩
  | noBlock hs hh hf hout =>
    simp only [hs, hh, Bool.false_eq_true, if_false, if_true, loadHeap, storeHeap, hf, bind,
      Except.bind]
    exact ⟨fun h => absurd h hout, fun _ => ⟨⟨_, rfl⟩, fun val => ⟨_, rfl⟩⟩⟩
  | between hs hh hout =>
    simp only [hs, hh, Bool.false_eq_true, if_false]
    exact ⟨fun h => absurd h hout, fun _ => ⟨⟨_, rfl⟩, fun val => ⟨_, rfl⟩⟩⟩

/-- The access at the end of the address space counts as one of the stack, far outside the array. -/
theorem wrap_outside {size : MSize} {addr : Word} (hwrap : addr.toNat + msizeOf size = 2 ^ 64) :
    isAlligned size addr = true ∧ isStack size addr = true ∧
      ¬addr.toNat + msizeOf size ≤ stackMax := by
  have halign : addr.toNat % msizeOf size = 0 := by
    rcases msizeOf_mem size with h | h | h | h <;> rw [h] at hwrap ⊢ <;> omega
  refine ⟨isAlligned_iff.mpr halign, (isStack_iff halign).mpr (Or.inr hwrap), ?_⟩
  rw [stackMax]
  omega

theorem Memory.execLoad_wrap {m : Memory} {size : MSize} {addr : Word}
    (hwrap : addr.toNat + msizeOf size = 2 ^ 64) : m.execLoad size addr = .error .undefined := by
  obtain ⟨halign, hstack, hleave⟩ := wrap_outside hwrap
  simp only [execLoad, halign, hstack, not_true_eq_false, if_false, if_true, loadStack,
    loadLittleEndian, if_neg hleave]
  rfl

theorem Memory.execStore_wrap {m : Memory} {size : MSize} {addr val : Word}
    (hwrap : addr.toNat + msizeOf size = 2 ^ 64) :
    m.execStore size addr val = .error .undefined := by
  obtain ⟨halign, hstack, hleave⟩ := wrap_outside hwrap
  simp only [execStore, halign, hstack, not_true_eq_false, if_false, if_true, storeStack,
    storeLittleEndian, if_neg hleave]
  rfl

theorem Heap.Tiled.not_inBounds_wrap {m : Memory} (ht : m.heap.Tiled) {size : MSize} {addr : Word}
    (hwrap : addr.toNat + msizeOf size = 2 ^ 64) : ¬m.InBounds size addr := by
  rintro ⟨-, hle | ⟨b, hb, -, hhi⟩⟩
  · simp only [stackMax] at hle
    omega
  · have hmax := (ht.inHeap b (Or.inl hb)).le_heapMax
    simp only [heapMax] at hmax
    omega

/-- An access whose end does not wrap to 0 is checked. -/
theorem Heap.Tiled.accessChecked {m : Memory} (ht : m.heap.Tiled) {size : MSize} {addr : Word}
    (hwrap : addr.toNat + msizeOf size ≠ 2 ^ 64) : m.AccessChecked size addr := by
  by_cases halign : addr.toNat % msizeOf size = 0
  · exact (ht.target halign hwrap).accessChecked ht halign
  · have ha := mt isAlligned_iff.mp halign
    have hload : m.execLoad size addr = .error (.runtimeError "address not aligned") := if_pos ha
    have hstore : ∀ val, m.execStore size addr val =
        .error (.runtimeError "address not aligned") := fun val => if_pos ha
    refine ⟨fun hin => absurd hin.1 halign, fun _ => ⟨⟨_, hload⟩, fun val => ⟨_, hstore val⟩⟩, ?_⟩
    intro val r hr
    rw [hstore val] at hr
    cases hr

/-- A run that allocates three blocks and frees the second one: there is a hole between two blocks. -/
theorem exists_hole : ∃ m ms, Trace (fun _ _ => true) (m :: ms) ∧
    m.heap.alloced = {mkBlock 20480 20488, mkBlock 20504 20512} ∧
    m.heap.freed = {mkBlock 20488 20504, mkBlock 20512 heapMax} := by
  have h0 : Trace (fun _ _ => true) [.init] := .init
  have h1 := h0.malloc (show Memory.init.execMalloc (fun _ _ => true) 8 = .ok _ from rfl)
  have h2 := h1.malloc (show Memory.execMalloc (fun _ _ => true) _ 16 = .ok _ from rfl)
  have h3 := h2.malloc (show Memory.execMalloc (fun _ _ => true) _ 8 = .ok _ from rfl)
  have h4 := h3.free (show Memory.execFree _ 20488 = .ok _ from rfl)
  exact ⟨_, _, h4, by decide +kernel, by decide +kernel⟩

/-- **Access bounds.** In every memory that a run reaches, an access is checked iff its end does not
    wrap to 0. -/
theorem accessChecked_iff {calloc : Heap → Word → Bool} {m : Memory} {ms : List Memory}
    (h : Trace calloc (m :: ms)) (size : MSize) (addr : Word) :
    m.AccessChecked size addr ↔ addr.toNat + msizeOf size ≠ 2 ^ 64 := by
  have ht := h.inv.tiled
  constructor
  · intro hchecked hwrap
    obtain ⟨⟨msg, herr⟩, -⟩ := hchecked.reports (ht.not_inBounds_wrap hwrap)
    rw [Memory.execLoad_wrap hwrap] at herr
    cases herr
  · exact ht.accessChecked

/-- Between two blocks there is a hole: accesses are checked at the end of the stack, in a block and in
    the hole. -/
theorem accessChecked_iff_hole : ∃ m ms, Trace (fun _ _ => true) (m :: ms) ∧
    m.heap.alloced = {mkBlock 20480 20488, mkBlock 20504 20512} ∧ m.AccessChecked .size8 10232 ∧
    m.AccessChecked .size8 20504 ∧ m.AccessChecked .size8 20488 := by
  obtain ⟨m, ms, h, halloced, -⟩ := exists_hole
  refine ⟨m, ms, h, halloced, ?_, ?_, ?_⟩
  · exact (accessChecked_iff h .size8 10232).mpr (by decide)
  · exact (accessChecked_iff h .size8 20504).mpr (by decide)
  · exact (accessChecked_iff h .size8 20488).mpr (by decide)

/-- The last word of the address space: the load is neither in bounds nor reported. -/
theorem not_accessChecked_wrap :
    Trace (fun _ _ => true) [.init] ∧
      Memory.init.execLoad .size8 (BitVec.ofNat 64 (2 ^ 64 - 8)) = .error .undefined ∧
      ¬Memory.init.AccessChecked .size8 (BitVec.ofNat 64 (2 ^ 64 - 8)) := by
  have hwrap : (BitVec.ofNat 64 (2 ^ 64 - 8)).toNat + msizeOf .size8 = 2 ^ 64 := by decide
  refine ⟨.init, Memory.execLoad_wrap hwrap, fun hchecked => ?_⟩
  obtain ⟨⟨msg, herr⟩, -⟩ := hchecked.reports (Heap.Tiled.init.not_inBounds_wrap hwrap)
  rw [Memory.execLoad_wrap hwrap] at herr
  cases herr

end SwppCompiler.Interp
