import SwppCompiler.Interp.ReadOverWrite

/-!
# Memory operations in another order

The operations of `Memory` without the costs and the head, on which only the costs depend. Two of them
that are made one after the other do the same in the other order, if they touch different bytes and at
most one of them allocates or gives back a block.

* `load?_iff`, `store?_iff`: the accesses, on the array of the stack or of a block.
* `malloc?_allocates`, `free?_givesBack`: the block that comes or goes.
* `load?_store?`, `store?_comm`, ..., one for each pair of operations.
-/

namespace SwppCompiler.Interp

open Lib.Allocator

/-! ## The operations -/

/-- `exec_load`. -/
def Memory.load? (m : Memory) (size : MSize) (addr : Word) : Option Word :=
  match m.execLoad size addr with
  | .ok r => some r.1
  | .error _ => none

/-- `exec_store`. -/
def Memory.store? (m : Memory) (size : MSize) (addr val : Word) : Option Memory :=
  match m.execStore size addr val with
  | .ok r => some { r.2 with head := m.head }
  | .error _ => none

/-- `exec_malloc`: the address, and the block that was allocated. -/
def Memory.malloc? (calloc : Heap → Word → Bool) (m : Memory) (size : Word) :
    Option (Word × BlockT × Memory) :=
  match m.execMalloc calloc size, m.heap.execMalloc size.toNat with
  | .ok r, some q =>
    some (r.1, mkBlock q.1 (q.1 + size.toNat), { r.2.2 with head := m.head })
  | _, _ => none

/-- `exec_free`: the block that was given back. -/
def Memory.free? (m : Memory) (addr : Word) : Option (BlockT × Memory) :=
  match m.execFree addr, first? (m.heap.alloced.filter fun b => b.lo = addr.toNat) with
  | .ok r, some b => some (b, { r.2 with head := m.head })
  | _, _ => none

/-! ## Arrays -/

/-- The bytes of the stack, or of a block. -/
def Memory.array (m : Memory) : Option BlockT → ℕ → Byte
  | none => m.stack
  | some b => m.contents b

def Memory.setArray (m : Memory) (t : Option BlockT) (bytes : ℕ → Byte) : Memory :=
  match t with
  | none => { m with stack := bytes }
  | some b => { m with contents := Function.update m.contents b bytes }

/-- Where an array begins. -/
def base : Option BlockT → ℕ
  | none => 0
  | some b => b.lo

/-- The access lies in the stack, or in an allocated block. -/
def Memory.Home (m : Memory) (size : MSize) (addr : Word) : Option BlockT → Prop
  | none => addr.toNat + msizeOf size ≤ stackMax
  | some b => b ∈ m.heap.alloced ∧ b.lo ≤ addr.toNat ∧ addr.toNat + msizeOf size ≤ b.hi

section

variable {calloc : Heap → Word → Bool} {m m' m1 m2 : Memory} {size s1 s2 : MSize}
  {addr val a1 a2 v1 v2 w size' : Word} {t t1 t2 : Option BlockT} {f g : ℕ → Byte} {b : BlockT}

@[simp] theorem heap_setArray : (m.setArray t f).heap = m.heap := by
  cases t <;> rfl

theorem Heap.Tiled.setArray (ht : m.heap.Tiled) : (m.setArray t f).heap.Tiled := by
  rw [heap_setArray]
  exact ht

@[simp] theorem array_setArray : (m.setArray t f).array t = f := by
  cases t with
  | none => rfl
  | some b => exact Function.update_self ..

theorem array_setArray_of_ne (h : t2 ≠ t1) : (m.setArray t1 f).array t2 = m.array t2 := by
  cases t1 with
  | none =>
    cases t2 with
    | none => exact absurd rfl h
    | some b => rfl
  | some b =>
    cases t2 with
    | none => rfl
    | some b' => exact Function.update_of_ne (fun heq => h (congrArg some heq)) ..

@[simp] theorem setArray_setArray : (m.setArray t f).setArray t g = m.setArray t g := by
  cases t with
  | none => rfl
  | some b =>
    show { m with contents := Function.update (Function.update m.contents b f) b g } = _
    rw [Function.update_idem]
    rfl

theorem setArray_comm (h : t2 ≠ t1) :
    (m.setArray t1 f).setArray t2 g = (m.setArray t2 g).setArray t1 f := by
  cases t1 with
  | none =>
    cases t2 with
    | none => exact absurd rfl h
    | some b => rfl
  | some b =>
    cases t2 with
    | none => rfl
    | some b' =>
      show { m with contents := Function.update (Function.update m.contents b f) b' g } =
        { m with contents := Function.update (Function.update m.contents b' g) b f }
      rw [Function.update_comm fun heq => h (congrArg some heq)]

theorem home_setArray : (m.setArray t1 f).Home size addr t ↔ m.Home size addr t := by
  cases t with
  | none => exact Iff.rfl
  | some b =>
    show b ∈ (m.setArray t1 f).heap.alloced ∧ _ ↔ _
    rw [heap_setArray]
    exact Iff.rfl

theorem msizeOf_pos (size : MSize) : 0 < msizeOf size := by cases size <;> decide

/-- An access has one home. -/
theorem Heap.Tiled.home_unique (ht : m.heap.Tiled) (h1 : m.Home size addr t1)
    (h2 : m.Home size addr t2) : t1 = t2 := by
  have hpos := msizeOf_pos size
  have hstack : ∀ {b : BlockT}, m.Home size addr none → ¬m.Home size addr (some b) := by
    intro b hs hb
    have hmin := (ht.inHeap b (Or.inl hb.1)).heapMin_le
    have hle : addr.toNat + msizeOf size ≤ stackMax := hs
    have hlo := hb.2.1
    unfold heapMin at hmin
    unfold stackMax at hle
    omega
  cases t1 with
  | none =>
    cases t2 with
    | none => rfl
    | some b => exact absurd h2 (hstack h1)
  | some b =>
    cases t2 with
    | none => exact absurd h1 (hstack h2)
    | some b' =>
      by_contra hne
      have hapart := ht.alloced_apart h1.1 h2.1 fun heq => hne (congrArg some heq)
      have hlo1 := h1.2.1
      have hhi1 := h1.2.2
      have hlo2 := h2.2.1
      have hhi2 := h2.2.2
      rcases hapart with h | h <;> omega

/-! ## What the operations do -/

theorem Memory.Home.inBounds (halign : addr.toNat % msizeOf size = 0) (h : m.Home size addr t) :
    m.InBounds size addr := by
  refine ⟨halign, ?_⟩
  cases t with
  | none => exact Or.inl h
  | some b => exact Or.inr ⟨b, h⟩

/-- An accepted access goes to its home. -/
theorem Heap.Tiled.home_target (ht : m.heap.Tiled) (halign : addr.toNat % msizeOf size = 0)
    (h : m.Home size addr t) :
    (t = none ∧ isStack size addr = true ∧ addr.toNat + msizeOf size ≤ stackMax) ∨
    ∃ b, t = some b ∧ isStack size addr = false ∧ isHeap size addr = true ∧
      m.findBlock addr = .ok b ∧ addr.toNat - b.lo + msizeOf size ≤ b.hi - b.lo := by
  have hin := h.inBounds halign
  have hwrap : addr.toNat + msizeOf size ≠ 2 ^ 64 := fun hwrap => ht.not_inBounds_wrap hwrap hin
  cases ht.target halign hwrap with
  | stack hs hle =>
    have hhome : m.Home size addr none := hle
    exact Or.inl ⟨ht.home_unique h hhome, hs, hle⟩
  | block b hb hs hh hf hlo hhi =>
    have hhome : m.Home size addr (some b) := ⟨hb, hlo, hhi⟩
    refine Or.inr ⟨b, ht.home_unique h hhome, hs, hh, hf, ?_⟩
    omega
  | noBlock hs hh hf hout => exact absurd hin hout
  | between hs hh hout => exact absurd hin hout

theorem Heap.Tiled.load?_of_home (ht : m.heap.Tiled) (halign : addr.toNat % msizeOf size = 0)
    (h : m.Home size addr t) : m.load? size addr =
      some (littleEndian (m.array t) (msizeOf size) (addr.toNat - base t)) := by
  have ha := isAlligned_iff.mpr halign
  unfold Memory.load? Memory.execLoad
  obtain ⟨rfl, hs, hle⟩ | ⟨b, rfl, hs, hh, hf, hofs⟩ := ht.home_target halign h
  · simp only [ha, hs, not_true_eq_false, if_false, if_true, Memory.loadStack, loadLittleEndian,
      hle, bind, Except.bind]
    rfl
  · simp only [ha, hs, hh, hf, not_true_eq_false, Bool.false_eq_true, if_false, if_true,
      Memory.loadHeap, bind, Except.bind, loadLittleEndian, hofs]
    rfl

theorem Heap.Tiled.store?_of_home (ht : m.heap.Tiled) (halign : addr.toNat % msizeOf size = 0)
    (h : m.Home size addr t) : m.store? size addr val =
      some (m.setArray t (putLittleEndian (m.array t) (msizeOf size) (addr.toNat - base t) val)) := by
  have ha := isAlligned_iff.mpr halign
  unfold Memory.store? Memory.execStore
  obtain ⟨rfl, hs, hle⟩ | ⟨b, rfl, hs, hh, hf, hofs⟩ := ht.home_target halign h
  · simp only [ha, hs, not_true_eq_false, if_false, if_true, Memory.storeStack, storeLittleEndian,
      hle, bind, Except.bind]
    rfl
  · simp only [ha, hs, hh, hf, not_true_eq_false, Bool.false_eq_true, if_false, if_true,
      Memory.storeHeap, bind, Except.bind, storeLittleEndian, hofs]
    rfl

/-- An access that is accepted has a home. -/
theorem Memory.InBounds.home (h : m.InBounds size addr) :
    addr.toNat % msizeOf size = 0 ∧ ∃ t, m.Home size addr t := by
  obtain ⟨halign, hle | ⟨b, hb⟩⟩ := h
  · exact ⟨halign, none, hle⟩
  · exact ⟨halign, some b, hb⟩

theorem Heap.Tiled.load?_iff (ht : m.heap.Tiled) :
    m.load? size addr = some w ↔ addr.toNat % msizeOf size = 0 ∧
      ∃ t, m.Home size addr t ∧ w = littleEndian (m.array t) (msizeOf size) (addr.toNat - base t) := by
  constructor
  · intro h
    have hin : m.InBounds size addr := by
      unfold Memory.load? at h
      cases hr : m.execLoad size addr with
      | error e =>
        rw [hr] at h
        cases h
      | ok r =>
        by_contra hout
        obtain ⟨msg, hmsg⟩ := ((ht.accessChecked (execLoad_ok hr).2).reports hout).1
        rw [hr] at hmsg
        cases hmsg
    obtain ⟨halign, t, hhome⟩ := hin.home
    rw [ht.load?_of_home halign hhome] at h
    exact ⟨halign, t, hhome, (Option.some.inj h).symm⟩
  · rintro ⟨halign, t, hhome, rfl⟩
    exact ht.load?_of_home halign hhome

theorem Heap.Tiled.store?_iff (ht : m.heap.Tiled) :
    m.store? size addr val = some m' ↔ addr.toNat % msizeOf size = 0 ∧
      ∃ t, m.Home size addr t ∧ m' = m.setArray t
        (putLittleEndian (m.array t) (msizeOf size) (addr.toNat - base t) val) := by
  constructor
  · intro h
    have hin : m.InBounds size addr := by
      unfold Memory.store? at h
      cases hr : m.execStore size addr val with
      | error e =>
        rw [hr] at h
        cases h
      | ok r =>
        by_contra hout
        obtain ⟨msg, hmsg⟩ := ((ht.accessChecked (execStore_ok hr).2).reports hout).2 val
        rw [hr] at hmsg
        cases hmsg
    obtain ⟨halign, t, hhome⟩ := hin.home
    rw [ht.store?_of_home halign hhome] at h
    exact ⟨halign, t, hhome, (Option.some.inj h).symm⟩
  · rintro ⟨halign, t, hhome, rfl⟩
    exact ht.store?_of_home halign hhome

/-- The block that `exec_malloc` allocates is apart from the others, and full of zeros. -/
structure Memory.Allocates (m m' : Memory) (b : BlockT) : Prop where
  alloced : m'.heap.alloced = insert b m.heap.alloced
  fresh : b ∉ m.heap.alloced
  array : ∀ t ≠ some b, m'.array t = m.array t
  tiled : m'.heap.Tiled

theorem Heap.Tiled.malloc?_allocates (ht : m.heap.Tiled)
    (h : m.malloc? calloc size' = some (a1, b, m')) : m.Allocates m' b := by
  unfold Memory.malloc? at h
  cases hr : m.execMalloc calloc size' with
  | error e =>
    rw [hr] at h
    cases h
  | ok r =>
    obtain ⟨p, hp, hstack, hcontents⟩ := execMalloc_contents hr
    rw [hr, hp] at h
    obtain ⟨hpos, -, c, hc, hroom, rfl, hheap⟩ := Heap.execMalloc_cases hp
    obtain ⟨-, rfl, rfl⟩ : r.1 = a1 ∧ mkBlock c.lo (c.lo + size'.toNat) = b ∧
        { r.2.2 with head := m.head } = m' := by
      simpa using h
    refine ⟨congrArg Heap.alloced hheap, fun hmem => ?_, fun t hne => ?_, ht.execMalloc hp⟩
    · rcases ht.apart _ hmem c hc with hle | hle <;> simp only [mkBlock_lo, mkBlock_hi] at hle <;>
        omega
    · cases t with
      | none => exact hstack
      | some c' =>
        show r.2.2.contents c' = m.contents c'
        rw [hcontents]
        exact Function.update_of_ne (fun heq => hne (congrArg some heq)) ..

/-- `exec_malloc` does not look at the bytes. -/
theorem malloc?_setArray (h : m.malloc? calloc size' = some (a1, b, m')) (hne : t ≠ some b) :
    (m.setArray t f).malloc? calloc size' = some (a1, b, m'.setArray t f) := by
  cases t with
  | none =>
    unfold Memory.malloc? Memory.execMalloc Memory.setArray at *
    dsimp only
    cases hp : m.heap.execMalloc size'.toNat with
    | none =>
      rw [hp] at h
      split_ifs at h
    | some q =>
      rw [hp] at h
      dsimp only at h ⊢
      split_ifs at h ⊢ <;> cases h <;> rfl
  | some c =>
    unfold Memory.malloc? Memory.execMalloc Memory.setArray at *
    dsimp only
    cases hp : m.heap.execMalloc size'.toNat with
    | none =>
      rw [hp] at h
      split_ifs at h
    | some q =>
      rw [hp] at h
      dsimp only at h ⊢
      split_ifs at h ⊢ <;> cases h <;>
        rw [Function.update_comm fun heq => hne (congrArg some heq)]

/-- The block that `exec_free` gives back. -/
structure Memory.GivesBack (m m' : Memory) (b : BlockT) : Prop where
  mem : b ∈ m.heap.alloced
  alloced : m'.heap.alloced = m.heap.alloced.erase b
  array : ∀ t, m'.array t = m.array t
  tiled : m'.heap.Tiled

theorem Heap.Tiled.free?_givesBack (ht : m.heap.Tiled) (h : m.free? addr = some (b, m')) :
    m.GivesBack m' b := by
  unfold Memory.free? at h
  cases hr : m.execFree addr with
  | error e =>
    rw [hr] at h
    cases h
  | ok r =>
    cases hb : first? (m.heap.alloced.filter fun b => b.lo = addr.toNat) with
    | none =>
      rw [hr, hb] at h
      cases h
    | some c =>
      rw [hr, hb] at h
      obtain ⟨rfl, rfl⟩ : c = b ∧ { r.2 with head := m.head } = m' := by simpa using h
      obtain ⟨hc, hlo⟩ := Finset.mem_filter.mp (first?_eq_some hb).1
      obtain ⟨hheap, hstack, hcontents⟩ := execFree_contents hr
      obtain ⟨d, hd, hdlo, heq⟩ := Heap.execFree_cases hheap
      obtain rfl : d = c := ht.eq_of_lo_eq hd hc (hdlo.trans hlo.symm)
      refine ⟨hc, congrArg Heap.alloced heq, fun t => ?_, ht.execFree hheap⟩
      cases t with
      | none => exact hstack
      | some c' => exact congrFun hcontents c'

theorem free?_setArray (h : m.free? addr = some (b, m')) :
    (m.setArray t f).free? addr = some (b, m'.setArray t f) := by
  unfold Memory.free? Memory.execFree at h ⊢
  rw [heap_setArray]
  cases hlb : first? (m.heap.alloced.filter fun b => mkBlock addr.toNat 0 ≤ b) with
  | none =>
    rw [hlb] at h
    cases h
  | some c =>
    cases hh : m.heap.execFree addr.toNat with
    | none =>
      rw [hlb, hh] at h
      cases h
    | some heap =>
      rw [hlb, hh] at h
      cases hb : first? (m.heap.alloced.filter fun b => b.lo = addr.toNat) with
      | none =>
        rw [hb] at h
        cases h
      | some d =>
        rw [hb] at h
        cases h
        cases t <;> rfl

/-! ## Two accesses -/

@[simp] theorem setArray_self : m.setArray t (m.array t) = m := by
  cases t with
  | none => rfl
  | some b =>
    show { m with contents := Function.update m.contents b (m.contents b) } = m
    rw [Function.update_eq_self]

theorem Memory.Home.base_le (h : m.Home size addr t) : base t ≤ addr.toNat := by
  cases t with
  | none => exact Nat.zero_le _
  | some b => exact h.2.1

theorem disjoint_footprint : Disjoint (footprint s1 a1) (footprint s2 a2) ↔
    a1.toNat + msizeOf s1 ≤ a2.toNat ∨ a2.toNat + msizeOf s2 ≤ a1.toNat := by
  have h1 := msizeOf_pos s1
  have h2 := msizeOf_pos s2
  unfold footprint
  rw [Set.Ico_disjoint_Ico]
  omega

theorem littleEndian_congr {n ofs : ℕ} (h : ∀ i < n, f (ofs + i) = g (ofs + i)) :
    littleEndian f n ofs = littleEndian g n ofs := by
  induction n generalizing ofs with
  | zero => rfl
  | succ n ih =>
    have hrest : littleEndian f n (ofs + 1) = littleEndian g n (ofs + 1) := by
      refine ih fun i hi => ?_
      have hi := h (i + 1) (by omega)
      rwa [show ofs + (i + 1) = ofs + 1 + i by omega] at hi
    rw [littleEndian, littleEndian, hrest, show f ofs = g ofs from h 0 (by omega)]

theorem putLittleEndian_comm {n1 n2 o1 o2 : ℕ} (h : o1 + n1 ≤ o2 ∨ o2 + n2 ≤ o1) :
    putLittleEndian (putLittleEndian f n1 o1 v1) n2 o2 v2 =
      putLittleEndian (putLittleEndian f n2 o2 v2) n1 o1 v1 := by
  funext i
  rw [putLittleEndian_eq, putLittleEndian_eq, putLittleEndian_eq, putLittleEndian_eq]
  split_ifs
  · omega
  · rfl
  · rfl
  · rfl

/-- A store does not change what is loaded from elsewhere. -/
theorem Heap.Tiled.load?_store? (ht : m.heap.Tiled) (h : m.store? s1 a1 v1 = some m')
    (hd : Disjoint (footprint s1 a1) (footprint s2 a2)) : m'.load? s2 a2 = m.load? s2 a2 := by
  obtain ⟨-, t1, hhome1, rfl⟩ := ht.store?_iff.mp h
  refine Option.ext fun w => ?_
  rw [ht.setArray.load?_iff, ht.load?_iff]
  refine and_congr_right fun _ => exists_congr fun t2 => ?_
  rw [home_setArray]
  refine and_congr_right fun hhome2 => ?_
  suffices hvalue : littleEndian ((m.setArray t1 (putLittleEndian (m.array t1) (msizeOf s1)
      (a1.toNat - base t1) v1)).array t2) (msizeOf s2) (a2.toNat - base t2) =
      littleEndian (m.array t2) (msizeOf s2) (a2.toNat - base t2) by
    rw [hvalue]
  by_cases hne : t2 = t1
  · subst hne
    rw [array_setArray]
    refine littleEndian_congr fun i hi => ?_
    have hle1 := hhome1.base_le
    have hle2 := hhome2.base_le
    rw [disjoint_footprint] at hd
    exact putLittleEndian_of_lt (by omega)
  · rw [array_setArray_of_ne hne]

/-- Stores to different bytes. -/
theorem Heap.Tiled.store?_comm (ht : m.heap.Tiled) (h1 : m.store? s1 a1 v1 = some m1)
    (h2 : m1.store? s2 a2 v2 = some m2) (hd : Disjoint (footprint s1 a1) (footprint s2 a2)) :
    ∃ m1', m.store? s2 a2 v2 = some m1' ∧ m1'.store? s1 a1 v1 = some m2 := by
  obtain ⟨halign1, t1, hhome1, rfl⟩ := ht.store?_iff.mp h1
  obtain ⟨halign2, t2, hhome2, rfl⟩ := ht.setArray.store?_iff.mp h2
  rw [home_setArray] at hhome2
  refine ⟨_, ht.store?_of_home halign2 hhome2, ?_⟩
  rw [ht.setArray.store?_of_home halign1 (home_setArray.mpr hhome1), Option.some_inj]
  by_cases hne : t2 = t1
  · subst hne
    have hle1 := hhome1.base_le
    have hle2 := hhome2.base_le
    rw [disjoint_footprint] at hd
    rw [array_setArray, array_setArray, setArray_setArray, setArray_setArray,
      putLittleEndian_comm (by omega)]
  · rw [array_setArray_of_ne hne, array_setArray_of_ne (Ne.symm hne), setArray_comm hne]

/-! ## An access and a block that comes or goes -/

theorem Memory.Home.meets (h : m.Home size addr (some b)) :
    ¬Disjoint (footprint size addr) b.range := by
  have hpos := msizeOf_pos size
  have hlo := h.2.1
  have hhi := h.2.2
  unfold footprint BlockT.range
  rw [Set.Ico_disjoint_Ico]
  omega

theorem Memory.Allocates.home (h : m.Allocates m' b) (hhome : m.Home size addr t) :
    m'.Home size addr t ∧ t ≠ some b := by
  cases t with
  | none => exact ⟨hhome, fun h => by cases h⟩
  | some c =>
    refine ⟨⟨?_, hhome.2⟩, fun heq => h.fresh (Option.some.inj heq ▸ hhome.1)⟩
    rw [h.alloced]
    exact Finset.mem_insert_of_mem hhome.1

theorem Memory.Allocates.home_of_disjoint (h : m.Allocates m' b) (hhome : m'.Home size addr t)
    (hd : Disjoint (footprint size addr) b.range) : m.Home size addr t ∧ t ≠ some b := by
  have hne : t ≠ some b := by
    rintro rfl
    exact hhome.meets hd
  refine ⟨?_, hne⟩
  cases t with
  | none => exact hhome
  | some c =>
    refine ⟨?_, hhome.2⟩
    have hmem := hhome.1
    rw [h.alloced] at hmem
    exact (Finset.mem_insert.mp hmem).resolve_left fun heq => hne (congrArg some heq)

theorem Memory.GivesBack.home (h : m.GivesBack m' b) (hhome : m'.Home size addr t) :
    m.Home size addr t := by
  cases t with
  | none => exact hhome
  | some c =>
    have hmem := hhome.1
    rw [h.alloced] at hmem
    exact ⟨Finset.mem_of_mem_erase hmem, hhome.2⟩

theorem Memory.GivesBack.home_of_disjoint (h : m.GivesBack m' b) (hhome : m.Home size addr t)
    (hd : Disjoint (footprint size addr) b.range) : m'.Home size addr t := by
  cases t with
  | none => exact hhome
  | some c =>
    refine ⟨?_, hhome.2⟩
    rw [h.alloced]
    refine Finset.mem_erase.mpr ⟨?_, hhome.1⟩
    rintro rfl
    exact hhome.meets hd

theorem Heap.Tiled.load?_malloc? (ht : m.heap.Tiled)
    (h : m.malloc? calloc size' = some (a1, b, m')) (hload : m.load? size addr = some w) :
    m'.load? size addr = some w := by
  have hb := ht.malloc?_allocates h
  obtain ⟨halign, t, hhome, rfl⟩ := ht.load?_iff.mp hload
  obtain ⟨hhome', hne⟩ := hb.home hhome
  rw [hb.tiled.load?_of_home halign hhome', hb.array t hne]

theorem Heap.Tiled.malloc?_load? (ht : m.heap.Tiled)
    (h : m.malloc? calloc size' = some (a1, b, m')) (hload : m'.load? size addr = some w)
    (hd : Disjoint (footprint size addr) b.range) : m.load? size addr = some w := by
  have hb := ht.malloc?_allocates h
  obtain ⟨halign, t, hhome, rfl⟩ := hb.tiled.load?_iff.mp hload
  obtain ⟨hhome', hne⟩ := hb.home_of_disjoint hhome hd
  rw [ht.load?_of_home halign hhome', hb.array t hne]

theorem Heap.Tiled.store?_malloc? (ht : m.heap.Tiled) (h1 : m.store? size addr val = some m1)
    (h2 : m1.malloc? calloc size' = some (a1, b, m2)) :
    ∃ m1', m.malloc? calloc size' = some (a1, b, m1') ∧ m1'.store? size addr val = some m2 := by
  obtain ⟨halign, t, hhome, rfl⟩ := ht.store?_iff.mp h1
  have hb := ht.setArray.malloc?_allocates h2
  obtain ⟨hhome', hne⟩ := hb.home (home_setArray.mpr hhome)
  -- without the store, the old bytes are where they were
  have h := malloc?_setArray (t := t) (f := m.array t) h2 hne
  rw [setArray_setArray, setArray_self] at h
  refine ⟨_, h, ?_⟩
  rw [(ht.malloc?_allocates h).tiled.store?_of_home halign (home_setArray.mpr hhome'),
    array_setArray, setArray_setArray]
  have hsame := hb.array t hne
  rw [array_setArray] at hsame
  rw [← hsame, setArray_self]

theorem Heap.Tiled.malloc?_store? (ht : m.heap.Tiled)
    (h1 : m.malloc? calloc size' = some (a1, b, m1)) (h2 : m1.store? size addr val = some m2)
    (hd : Disjoint (footprint size addr) b.range) :
    ∃ m1', m.store? size addr val = some m1' ∧ m1'.malloc? calloc size' = some (a1, b, m2) := by
  have hb := ht.malloc?_allocates h1
  obtain ⟨halign, t, hhome, rfl⟩ := hb.tiled.store?_iff.mp h2
  obtain ⟨hhome', hne⟩ := hb.home_of_disjoint hhome hd
  refine ⟨_, ht.store?_of_home halign hhome', ?_⟩
  rw [hb.array t hne]
  exact malloc?_setArray h1 hne

theorem Heap.Tiled.load?_free? (ht : m.heap.Tiled) (h : m.free? a1 = some (b, m'))
    (hload : m.load? size addr = some w) (hd : Disjoint (footprint size addr) b.range) :
    m'.load? size addr = some w := by
  have hb := ht.free?_givesBack h
  obtain ⟨halign, t, hhome, rfl⟩ := ht.load?_iff.mp hload
  rw [hb.tiled.load?_of_home halign (hb.home_of_disjoint hhome hd), hb.array t]

theorem Heap.Tiled.free?_load? (ht : m.heap.Tiled) (h : m.free? a1 = some (b, m'))
    (hload : m'.load? size addr = some w) : m.load? size addr = some w := by
  have hb := ht.free?_givesBack h
  obtain ⟨halign, t, hhome, rfl⟩ := hb.tiled.load?_iff.mp hload
  rw [ht.load?_of_home halign (hb.home hhome), hb.array t]

theorem Heap.Tiled.store?_free? (ht : m.heap.Tiled) (h1 : m.store? size addr val = some m1)
    (h2 : m1.free? a1 = some (b, m2)) (hd : Disjoint (footprint size addr) b.range) :
    ∃ m1', m.free? a1 = some (b, m1') ∧ m1'.store? size addr val = some m2 := by
  obtain ⟨halign, t, hhome, rfl⟩ := ht.store?_iff.mp h1
  have hb := ht.setArray.free?_givesBack h2
  have hhome' := hb.home_of_disjoint (home_setArray.mpr hhome) hd
  have h := free?_setArray (t := t) (f := m.array t) h2
  rw [setArray_setArray, setArray_self] at h
  refine ⟨_, h, ?_⟩
  rw [(ht.free?_givesBack h).tiled.store?_of_home halign (home_setArray.mpr hhome'),
    array_setArray, setArray_setArray]
  have hsame := hb.array t
  rw [array_setArray] at hsame
  rw [← hsame, setArray_self]

theorem Heap.Tiled.free?_store? (ht : m.heap.Tiled) (h1 : m.free? a1 = some (b, m1))
    (h2 : m1.store? size addr val = some m2) :
    ∃ m1', m.store? size addr val = some m1' ∧ m1'.free? a1 = some (b, m2) := by
  have hb := ht.free?_givesBack h1
  obtain ⟨halign, t, hhome, rfl⟩ := hb.tiled.store?_iff.mp h2
  refine ⟨_, ht.store?_of_home halign (hb.home hhome), ?_⟩
  rw [hb.array t]
  exact free?_setArray h1

end

end SwppCompiler.Interp
