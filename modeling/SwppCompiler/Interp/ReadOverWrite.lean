import SwppCompiler.Interp.Access
import SwppCompiler.Lib.LittleEndian

/-!
# What a load reads after a store

The memory as a partial function from addresses to bytes: `byteAt` has a byte for the addresses of the
stack and of the allocated blocks.

* `execStore_byteAt`: a store writes its own bytes and no others.
* `Between.byteAt`: allocating blocks, and giving others back, changes no byte.
* `read_over_write`: what a later load returns.
-/

namespace SwppCompiler.Interp

open Lib.Allocator Lib.LittleEndian

/-- The byte at an address of the stack or of an allocated block. -/
def Memory.byteAt (m : Memory) (x : ℕ) : Option Byte :=
  if x < stackMax then some (m.stack x)
  else (first? (m.heap.alloced.filter fun b => b.lo ≤ x ∧ x < b.hi)).map fun b =>
    m.contents b (x - b.lo)

/-- An address of the stack or of an allocated block. -/
def Memory.Live (m : Memory) (x : ℕ) : Prop :=
  x < stackMax ∨ ∃ b ∈ m.heap.alloced, b.lo ≤ x ∧ x < b.hi

/-- The addresses of an access. -/
def footprint (size : MSize) (addr : Word) : Set ℕ :=
  Set.Ico addr.toNat (addr.toNat + msizeOf size)

instance (size : MSize) (addr : Word) (x : ℕ) : Decidable (x ∈ footprint size addr) :=
  inferInstanceAs (Decidable (_ ∧ _))

/-- The byte at an address after `val` has been stored. -/
def Memory.written (m : Memory) (size : MSize) (addr val : Word) (x : ℕ) : Option Byte :=
  if x ∈ footprint size addr then some (byte val (x - addr.toNat)) else m.byteAt x

/-- Calls of `exec_malloc` and `exec_free` that give back no block with an address in `X`. -/
inductive Between (calloc : Heap → Word → Bool) (X : Set ℕ) (m : Memory) : Memory → Prop
  | refl : Between calloc X m m
  | malloc {m' : Memory} {size : Word} {r : Word × ℚ × Memory} (h : Between calloc X m m')
      (hm : m'.execMalloc calloc size = .ok r) : Between calloc X m r.2.2
  | free {m' : Memory} {addr : Word} {r : ℚ × Memory} (h : Between calloc X m m')
      (hm : m'.execFree addr = .ok r)
      (hX : ∀ b ∈ m'.heap.alloced, b.lo = addr.toNat → Disjoint b.range X) :
      Between calloc X m r.2

/-! ## The byte loops -/

theorem littleEndian_toNat {bytes : ℕ → Byte} {n ofs : ℕ} (hn : n ≤ 8) :
    (littleEndian bytes n ofs).toNat = ofBytes ((List.range n).map fun i => bytes (ofs + i)) := by
  induction n generalizing ofs with
  | zero => rfl
  | succ n ih =>
    have hmap : (List.range n).map ((fun i => bytes (ofs + i)) ∘ Nat.succ) =
        (List.range n).map fun i => bytes (ofs + 1 + i) :=
      List.map_congr_left fun i _ => congrArg bytes (by omega)
    have hrest := ofBytes_lt ((List.range n).map fun i => bytes (ofs + 1 + i))
    rw [List.length_map, List.length_range] at hrest
    have hpow : (256 : ℕ) ^ n ≤ 256 ^ 7 := Nat.pow_le_pow_right (by norm_num) (by omega)
    have hb := (bytes ofs).isLt
    have hlow : ((bytes ofs).setWidth 64).toNat = (bytes ofs).toNat := by
      rw [BitVec.toNat_setWidth]
      omega
    rw [littleEndian, List.range_succ_eq_map, List.map_cons, List.map_map, ofBytes_cons, hmap,
      BitVec.toNat_add, BitVec.toNat_shiftLeft, ih (by omega), hlow, Nat.shiftLeft_eq, Nat.add_zero ofs]
    omega

/-- The bytes that `store_little_endian` leaves. -/
theorem putLittleEndian_eq {bytes : ℕ → Byte} {n ofs i : ℕ} {val : Word} :
    putLittleEndian bytes n ofs val i =
      if ofs ≤ i ∧ i < ofs + n then byte val (i - ofs) else bytes i := by
  induction n generalizing bytes ofs val with
  | zero => exact (if_neg (by omega)).symm
  | succ n ih =>
    rw [putLittleEndian, ih]
    by_cases hi : i = ofs
    · subst hi
      rw [if_neg (by omega), if_pos (by omega), Function.update_self, Nat.sub_self, byte_zero]
    · by_cases hin : ofs ≤ i ∧ i < ofs + (n + 1)
      · have hsub : i - ofs = i - (ofs + 1) + 1 := by omega
        rw [if_pos (by omega), if_pos hin, hsub, byte_succ]
      · rw [if_neg (by omega), if_neg hin, Function.update_of_ne hi]

/-! ## The bytes of the stack and of a block -/

section

variable {m m' : Memory} {size : MSize} {addr val : Word} {x : ℕ} {b : BlockT}

theorem byteAt_stack (hx : x < stackMax) : m.byteAt x = some (m.stack x) := if_pos hx

/-- An address lies in one allocated block at most. -/
theorem Heap.Tiled.byteAt (ht : m.heap.Tiled) (hb : b ∈ m.heap.alloced) (hlo : b.lo ≤ x)
    (hhi : x < b.hi) : m.byteAt x = some (m.contents b (x - b.lo)) := by
  have hmin := (ht.inHeap b (Or.inl hb)).heapMin_le
  have hstack : ¬x < stackMax := by
    unfold stackMax
    unfold heapMin at hmin
    omega
  have hfirst : first? (m.heap.alloced.filter fun b => b.lo ≤ x ∧ x < b.hi) = some b := by
    refine first?_eq_of_mem (Finset.mem_filter.mpr ⟨hb, hlo, hhi⟩) fun c hc => ?_
    obtain ⟨hc, hclo, hchi⟩ := Finset.mem_filter.mp hc
    by_cases hne : b = c
    · exact le_of_eq hne
    · rcases ht.alloced_apart hb hc hne with h | h <;> omega
  unfold Memory.byteAt
  rw [if_neg hstack, hfirst]
  rfl

theorem byteAt_of_not_live (hx : ¬m.Live x) : m.byteAt x = none := by
  have hstack : ¬x < stackMax := fun h => hx (Or.inl h)
  unfold Memory.byteAt
  rw [if_neg hstack]
  cases hf : first? (m.heap.alloced.filter fun b => b.lo ≤ x ∧ x < b.hi) with
  | none => rfl
  | some b =>
    obtain ⟨hb, hin⟩ := Finset.mem_filter.mp (first?_eq_some hf).1
    exact absurd (Or.inr ⟨b, hb, hin⟩) hx

/-- An aligned access to a live address stays in the stack or in a block. -/
theorem Heap.Tiled.inBounds (ht : m.heap.Tiled) (halign : addr.toNat % msizeOf size = 0)
    (hlive : m.Live addr.toNat) : m.InBounds size addr := by
  refine ⟨halign, ?_⟩
  obtain hstack | ⟨b, hb, hlo, hhi⟩ := hlive
  · left
    unfold stackMax at hstack ⊢
    rcases msizeOf_mem size with h | h | h | h <;> rw [h] at halign ⊢ <;> omega
  · right
    have h8 := (ht.inHeap b (Or.inl hb)).hi_dvd
    refine ⟨b, hb, hlo, ?_⟩
    rcases msizeOf_mem size with h | h | h | h <;> rw [h] at halign ⊢ <;> omega

/-! ## Loads and stores -/

/-- An access that is accepted is aligned and does not wrap. -/
theorem execLoad_ok {q : Word × ℚ × Memory} (h : m.execLoad size addr = .ok q) :
    addr.toNat % msizeOf size = 0 ∧ addr.toNat + msizeOf size ≠ 2 ^ 64 := by
  constructor
  · by_contra halign
    rw [Memory.execLoad, if_pos (mt isAlligned_iff.mp halign)] at h
    cases h
  · intro hwrap
    rw [Memory.execLoad_wrap hwrap] at h
    cases h

@[inherit_doc execLoad_ok] theorem execStore_ok {r : ℚ × Memory}
    (h : m.execStore size addr val = .ok r) :
    addr.toNat % msizeOf size = 0 ∧ addr.toNat + msizeOf size ≠ 2 ^ 64 := by
  constructor
  · by_contra halign
    rw [Memory.execStore, if_pos (mt isAlligned_iff.mp halign)] at h
    cases h
  · intro hwrap
    rw [Memory.execStore_wrap hwrap] at h
    cases h

/-- A load returns the bytes at its addresses. -/
theorem Heap.Tiled.execLoad_bytes (ht : m.heap.Tiled) {q : Word × ℚ × Memory}
    (h : m.execLoad size addr = .ok q) : ∃ f : ℕ → Byte,
      (∀ i < msizeOf size, m.byteAt (addr.toNat + i) = some (f i)) ∧
      q.1.toNat = ofBytes ((List.range (msizeOf size)).map f) := by
  have hsize : msizeOf size ≤ 8 := by cases size <;> decide
  obtain ⟨halign, hwrap⟩ := execLoad_ok h
  have ha := isAlligned_iff.mpr halign
  unfold Memory.execLoad at h
  cases ht.target halign hwrap with
  | stack hs hle =>
    simp only [ha, hs, not_true_eq_false, if_false, if_true, Memory.loadStack, loadLittleEndian,
      hle] at h
    obtain rfl := Except.ok.inj h
    exact ⟨fun i => m.stack (addr.toNat + i), fun i hi => byteAt_stack (by omega),
      littleEndian_toNat hsize⟩
  | block b hb hs hh hf hlo hhi =>
    have hofs : addr.toNat - b.lo + msizeOf size ≤ b.hi - b.lo := by omega
    simp only [ha, hs, hh, hf, not_true_eq_false, Bool.false_eq_true, if_false, if_true,
      Memory.loadHeap, bind, Except.bind, loadLittleEndian, hofs] at h
    obtain rfl := Except.ok.inj h
    refine ⟨fun i => m.contents b (addr.toNat - b.lo + i), fun i hi => ?_,
      littleEndian_toNat hsize⟩
    rw [ht.byteAt hb (by omega) (by omega)]
    exact congrArg (some ∘ m.contents b) (by omega)
  | noBlock hs hh hf hout =>
    simp only [ha, hs, hh, hf, not_true_eq_false, Bool.false_eq_true, if_false, if_true,
      Memory.loadHeap, bind, Except.bind] at h
    cases h
  | between hs hh hout =>
    simp only [ha, hs, hh, not_true_eq_false, Bool.false_eq_true, if_false] at h
    cases h

/-- A store into the stack. -/
theorem byteAt_putStack (hle : addr.toNat + msizeOf size ≤ stackMax)
    (hstack : m'.stack = putLittleEndian m.stack (msizeOf size) addr.toNat val)
    (hheap : m'.heap = m.heap) (hcontents : m'.contents = m.contents) :
    m'.byteAt x = m.written size addr val x := by
  unfold Memory.written
  by_cases hx : x < stackMax
  · rw [byteAt_stack hx, byteAt_stack hx, hstack, putLittleEndian_eq]
    by_cases hin : x ∈ footprint size addr
    · rw [if_pos hin]
      exact congrArg some (if_pos hin)
    · rw [if_neg hin]
      exact congrArg some (if_neg hin)
  · have hout : x ∉ footprint size addr := fun h => hx (h.2.trans_le hle)
    rw [if_neg hout]
    unfold Memory.byteAt
    rw [if_neg hx, if_neg hx, hheap, hcontents]

/-- A store into a block. -/
theorem Heap.Tiled.byteAt_putBlock (ht : m.heap.Tiled) (hb : b ∈ m.heap.alloced)
    (hlo : b.lo ≤ addr.toNat) (hhi : addr.toNat + msizeOf size ≤ b.hi)
    (hstack : m'.stack = m.stack) (hheap : m'.heap = m.heap)
    (hcontents : m'.contents = Function.update m.contents b
      (putLittleEndian (m.contents b) (msizeOf size) (addr.toNat - b.lo) val)) :
    m'.byteAt x = m.written size addr val x := by
  have ht' : m'.heap.Tiled := hheap ▸ ht
  have hmin := (ht.inHeap b (Or.inl hb)).heapMin_le
  unfold Memory.written
  by_cases hx : m.Live x
  · obtain hx | ⟨c, hc, hclo, hchi⟩ := hx
    · have hout : x ∉ footprint size addr := by
        intro hin
        have hxlo : addr.toNat ≤ x := hin.1
        unfold stackMax at hx
        unfold heapMin at hmin
        omega
      rw [if_neg hout, byteAt_stack hx, byteAt_stack hx, hstack]
    · rw [ht'.byteAt (hheap ▸ hc) hclo hchi, ht.byteAt hc hclo hchi, hcontents]
      by_cases hcb : c = b
      · subst hcb
        rw [Function.update_self, putLittleEndian_eq]
        by_cases hin : x ∈ footprint size addr
        · have hxlo : addr.toNat ≤ x := hin.1
          have hxhi : x < addr.toNat + msizeOf size := hin.2
          have hsub : x - c.lo - (addr.toNat - c.lo) = x - addr.toNat := by omega
          have hofs : addr.toNat - c.lo ≤ x - c.lo ∧
              x - c.lo < addr.toNat - c.lo + msizeOf size := by omega
          rw [if_pos hin, if_pos hofs, hsub]
        · have hofs : ¬(addr.toNat - c.lo ≤ x - c.lo ∧
              x - c.lo < addr.toNat - c.lo + msizeOf size) := by
            rintro ⟨hxlo, hxhi⟩
            exact hin (Set.mem_Ico.mpr ⟨by omega, by omega⟩)
          rw [if_neg hin, if_neg hofs]
      · have hout : x ∉ footprint size addr := by
          intro hin
          have hxlo : addr.toNat ≤ x := hin.1
          have hxhi : x < addr.toNat + msizeOf size := hin.2
          rcases ht.alloced_apart hc hb hcb with h | h <;> omega
        rw [if_neg hout, Function.update_of_ne hcb]
  · have hout : x ∉ footprint size addr := fun hin =>
      hx (Or.inr ⟨b, hb, hlo.trans hin.1, hin.2.trans_le hhi⟩)
    have hx' : ¬m'.Live x := by
      unfold Memory.Live
      rw [hheap]
      exact hx
    rw [if_neg hout, byteAt_of_not_live hx, byteAt_of_not_live hx']

/-- **A store writes its bytes and no others.** -/
theorem Heap.Tiled.execStore_byteAt (ht : m.heap.Tiled) {r : ℚ × Memory}
    (h : m.execStore size addr val = .ok r) (x : ℕ) :
    r.2.byteAt x = m.written size addr val x := by
  obtain ⟨halign, hwrap⟩ := execStore_ok h
  have ha := isAlligned_iff.mpr halign
  unfold Memory.execStore at h
  cases ht.target halign hwrap with
  | stack hs hle =>
    simp only [ha, hs, not_true_eq_false, if_false, if_true, Memory.storeStack, storeLittleEndian,
      hle] at h
    obtain rfl := Except.ok.inj h
    exact byteAt_putStack hle rfl rfl rfl
  | block b hb hs hh hf hlo hhi =>
    have hofs : addr.toNat - b.lo + msizeOf size ≤ b.hi - b.lo := by omega
    simp only [ha, hs, hh, hf, not_true_eq_false, Bool.false_eq_true, if_false, if_true,
      Memory.storeHeap, bind, Except.bind, storeLittleEndian, hofs] at h
    obtain rfl := Except.ok.inj h
    exact ht.byteAt_putBlock hb hlo hhi rfl rfl rfl
  | noBlock hs hh hf hout =>
    simp only [ha, hs, hh, hf, not_true_eq_false, Bool.false_eq_true, if_false, if_true,
      Memory.storeHeap, bind, Except.bind] at h
    cases h
  | between hs hh hout =>
    simp only [ha, hs, hh, not_true_eq_false, Bool.false_eq_true, if_false] at h
    cases h

end

/-! ## Other blocks come and go -/

section

variable {calloc : Heap → Word → Bool} {X : Set ℕ} {m m' : Memory} {x : ℕ}

/-- The stack and the contents after `exec_malloc`. -/
theorem execMalloc_contents {size : Word} {r : Word × ℚ × Memory}
    (h : m.execMalloc calloc size = .ok r) : ∃ p, m.heap.execMalloc size.toNat = some (p, r.2.2.heap) ∧
      r.2.2.stack = m.stack ∧ r.2.2.contents =
        Function.update m.contents (mkBlock p (p + size.toNat)) fun _ => 0 := by
  unfold Memory.execMalloc at h
  cases hh : m.heap.execMalloc size.toNat with
  | none =>
    rw [hh] at h
    split_ifs at h
  | some q =>
    rw [hh] at h
    simp only at h
    split_ifs at h
    all_goals
      obtain rfl := Except.ok.inj h
      exact ⟨q.1, rfl, rfl, rfl⟩

/-- The stack and the contents after `exec_free`. -/
theorem execFree_contents {addr : Word} {r : ℚ × Memory} (h : m.execFree addr = .ok r) :
    m.heap.execFree addr.toNat = some r.2.heap ∧ r.2.stack = m.stack ∧
      r.2.contents = m.contents := by
  unfold Memory.execFree at h
  cases hb : first? (m.heap.alloced.filter fun b => mkBlock addr.toNat 0 ≤ b) with
  | none =>
    rw [hb] at h
    cases h
  | some b =>
    cases hh : m.heap.execFree addr.toNat with
    | none =>
      rw [hb, hh] at h
      cases h
    | some heap =>
      rw [hb, hh] at h
      obtain rfl := Except.ok.inj h
      exact ⟨rfl, rfl, rfl⟩

/-- What one call keeps of a live address: it stays live and keeps its byte. -/
structure Memory.Keeps (m m' : Memory) (x : ℕ) : Prop where
  live : m'.Live x
  byteAt : m'.byteAt x = m.byteAt x

/-- A block that stays where it is, with its bytes. -/
theorem Memory.Keeps.of_block (ht : m.heap.Tiled) (ht' : m'.heap.Tiled)
    (hstack : m'.stack = m.stack) (hlive : m.Live x)
    (hblock : ∀ b ∈ m.heap.alloced, b.lo ≤ x → x < b.hi →
      b ∈ m'.heap.alloced ∧ m'.contents b = m.contents b) : m.Keeps m' x := by
  obtain hx | ⟨b, hb, hlo, hhi⟩ := hlive
  · exact ⟨Or.inl hx, by rw [byteAt_stack hx, byteAt_stack hx, hstack]⟩
  · obtain ⟨hb', hcontents⟩ := hblock b hb hlo hhi
    refine ⟨Or.inr ⟨b, hb', hlo, hhi⟩, ?_⟩
    rw [ht'.byteAt hb' hlo hhi, ht.byteAt hb hlo hhi, hcontents]

theorem Heap.Tiled.execMalloc_keeps (ht : m.heap.Tiled) {size : Word} {r : Word × ℚ × Memory}
    (h : m.execMalloc calloc size = .ok r) (hlive : m.Live x) : m.Keeps r.2.2 x := by
  obtain ⟨p, hheap, hstack, hcontents⟩ := execMalloc_contents h
  refine .of_block ht (ht.execMalloc hheap) hstack hlive fun b hb hlo hhi => ?_
  obtain ⟨-, halloced, hapart, -⟩ := Heap.execMalloc_ok ht.wellFormed hheap
  refine ⟨halloced ▸ Finset.mem_insert_of_mem hb, ?_⟩
  rw [hcontents]
  refine Function.update_of_ne ?_ ..
  -- the new block is disjoint from `b`
  rintro rfl
  exact Set.disjoint_left.mp (hapart _ hb) ⟨hlo, hhi⟩ ⟨hlo, hhi⟩

theorem Heap.Tiled.execFree_keeps (ht : m.heap.Tiled) {addr : Word} {r : ℚ × Memory}
    (h : m.execFree addr = .ok r) (hlive : m.Live x)
    (hx : ∀ b ∈ m.heap.alloced, b.lo = addr.toNat → x ∉ b.range) : m.Keeps r.2 x := by
  obtain ⟨hheap, hstack, hcontents⟩ := execFree_contents h
  refine .of_block ht (ht.execFree hheap) hstack hlive fun b hb hlo hhi => ⟨?_, by rw [hcontents]⟩
  obtain ⟨c, hc, hclo, heq⟩ := Heap.execFree_cases hheap
  rw [heq]
  refine Finset.mem_erase.mpr ⟨?_, hb⟩
  rintro rfl
  exact hx b hc hclo ⟨hlo, hhi⟩

/-- **Bytes that stay live.** -/
theorem Between.keeps (h : Between calloc X m m') (ht : m.heap.Tiled) :
    m'.heap.Tiled ∧ ∀ x ∈ X, m.Live x → m.Keeps m' x := by
  induction h with
  | refl => exact ⟨ht, fun x _ hlive => ⟨hlive, rfl⟩⟩
  | malloc _ hm ih =>
    obtain ⟨ht1, hkeeps⟩ := ih
    obtain ⟨p, hheap, -⟩ := execMalloc_contents hm
    refine ⟨ht1.execMalloc hheap, fun x hx hlive => ?_⟩
    have h1 := hkeeps x hx hlive
    have h2 := ht1.execMalloc_keeps hm h1.live
    exact ⟨h2.live, h2.byteAt.trans h1.byteAt⟩
  | free _ hm hX ih =>
    obtain ⟨ht1, hkeeps⟩ := ih
    obtain ⟨hheap, -⟩ := execFree_contents hm
    refine ⟨ht1.execFree hheap, fun x hx hlive => ?_⟩
    have h1 := hkeeps x hx hlive
    have h2 := ht1.execFree_keeps hm h1.live fun b hb hlo hin =>
      Set.disjoint_left.mp (hX b hb hlo) hin hx
    exact ⟨h2.live, h2.byteAt.trans h1.byteAt⟩

end

/-! ## Read over write -/

section

variable {m : Memory} {s1 s2 : MSize} {a1 a2 v : Word} {x : ℕ}

theorem written_of_mem (hin : x ∈ footprint s1 a1) :
    m.written s1 a1 v x = some (byte v (x - a1.toNat)) := if_pos hin

theorem written_of_disjoint (hdisj : Disjoint (footprint s1 a1) (footprint s2 a2))
    (hin : x ∈ footprint s2 a2) : m.written s1 a1 v x = m.byteAt x :=
  if_neg fun h => Set.disjoint_left.mp hdisj h hin

theorem mem_footprint {i : ℕ} (hi : i < msizeOf s2) : a2.toNat + i ∈ footprint s2 a2 :=
  Set.mem_Ico.mpr ⟨Nat.le_add_right .., by omega⟩

/-- All the bytes of a word that has just been stored. -/
theorem ofBytes_written {f : ℕ → Byte}
    (hf : ∀ i < msizeOf s1, m.written s1 a1 v (a1.toNat + i) = some (f i)) :
    ofBytes ((List.range (msizeOf s1)).map f) = v.toNat % 2 ^ (8 * msizeOf s1) := by
  have hbytes : (List.range (msizeOf s1)).map f = (List.range (msizeOf s1)).map (byte v) := by
    refine List.map_congr_left fun i hi => ?_
    have hi := List.mem_range.mp hi
    have heq := (hf i hi).symm.trans (written_of_mem (mem_footprint hi))
    rw [Nat.add_sub_cancel_left] at heq
    exact Option.some.inj heq
  have hpow : 2 ^ (8 * msizeOf s1) = 256 ^ msizeOf s1 := by rw [pow_mul]; rfl
  rw [hbytes, ofBytes_bytes, hpow]

/-- A load that returns the bytes which `m` has at its addresses returns what `m` would. -/
theorem Heap.Tiled.execLoad_same (ht : m.heap.Tiled) {q q0 : Word × ℚ × Memory} {f : ℕ → Byte}
    (hq0 : m.execLoad s2 a2 = .ok q0) (hf : ∀ i < msizeOf s2, m.byteAt (a2.toNat + i) = some (f i))
    (hq : q.1.toNat = ofBytes ((List.range (msizeOf s2)).map f)) : q.1 = q0.1 := by
  obtain ⟨f0, hf0, hq0⟩ := ht.execLoad_bytes hq0
  have hbytes : (List.range (msizeOf s2)).map f = (List.range (msizeOf s2)).map f0 := by
    refine List.map_congr_left fun i hi => ?_
    have hi := List.mem_range.mp hi
    exact Option.some.inj ((hf i hi).symm.trans (hf0 i hi))
  apply BitVec.eq_of_toNat_eq
  rw [hq, hq0, hbytes]

end

/-- **Read over write.** In every memory that a run reaches: after a store, and after other blocks
    have come and gone, a load of live addresses returns the stored bytes where it overlaps the store
    and the bytes from before elsewhere. -/
theorem read_over_write {calloc : Heap → Word → Bool} {m m' : Memory} {ms : List Memory}
    (h : Trace calloc (m :: ms)) {s1 s2 : MSize} {a1 a2 v : Word} {r : ℚ × Memory}
    {q : Word × ℚ × Memory} (hstore : m.execStore s1 a1 v = .ok r)
    (hlive : ∀ x ∈ footprint s2 a2, m.Live x)
    (hbetween : Between calloc (footprint s2 a2) r.2 m') (hload : m'.execLoad s2 a2 = .ok q) :
    (∃ f : ℕ → Byte,
      (∀ i < msizeOf s2, m.written s1 a1 v (a2.toNat + i) = some (f i)) ∧
      q.1.toNat = ofBytes ((List.range (msizeOf s2)).map f)) ∧
    (a2 = a1 → s2 = s1 → q.1.toNat = v.toNat % 2 ^ (8 * msizeOf s1)) ∧
    (Disjoint (footprint s1 a1) (footprint s2 a2) →
      ∃ q0, m.execLoad s2 a2 = .ok q0 ∧ q.1 = q0.1) := by
  have ht := h.inv.tiled
  obtain ⟨stack, contents, hr⟩ := Memory.execStore_cases hstore
  have hheap : r.2.heap = m.heap := by rw [hr]
  obtain ⟨ht', hkeeps⟩ := hbetween.keeps (hheap ▸ ht)
  obtain ⟨f, hf, hq⟩ := ht'.execLoad_bytes hload
  -- the bytes at the load are the ones that the store left
  have hbytes : ∀ i < msizeOf s2, m.written s1 a1 v (a2.toNat + i) = some (f i) := by
    intro i hi
    have hin := (mem_footprint hi : a2.toNat + i ∈ footprint s2 a2)
    have hlive' : r.2.Live (a2.toNat + i) := by
      unfold Memory.Live
      rw [hheap]
      exact hlive _ hin
    rw [← ht.execStore_byteAt hstore, ← (hkeeps _ hin hlive').byteAt]
    exact hf i hi
  refine ⟨⟨f, hbytes, hq⟩, ?_, fun hdisj => ?_⟩
  · rintro rfl rfl
    rw [hq]
    exact ofBytes_written hbytes
  · obtain ⟨halign, hwrap⟩ := execLoad_ok hload
    have hpos : 0 < msizeOf s2 := by rcases msizeOf_mem s2 with h | h | h | h <;> omega
    have hin := ht.inBounds halign (hlive _ (mem_footprint hpos))
    obtain ⟨⟨q0, hq0⟩, -⟩ := (ht.accessChecked hwrap).accepts hin
    refine ⟨q0, hq0, ht.execLoad_same hq0 (fun i hi => ?_) hq⟩
    rw [← written_of_disjoint hdisj (mem_footprint hi)]
    exact hbytes i hi

/-- A word is stored at the start of the stack, a block is allocated, and the word is loaded. -/
theorem read_over_write_stack :
    ∃ r p q, Memory.init.execStore .size8 0 258 = .ok r ∧
      r.2.execMalloc (fun _ _ => true) 8 = .ok p ∧ p.2.2.execLoad .size8 0 = .ok q ∧
      q.1.toNat = 258 := by
  have hlive : ∀ x ∈ footprint .size8 0, Memory.init.Live x := fun x hx =>
    Or.inl (hx.2.trans (by decide))
  obtain ⟨r, hr⟩ : ∃ r, Memory.init.execStore .size8 0 258 = .ok r := ⟨_, rfl⟩
  obtain ⟨p, hp⟩ : ∃ p, r.2.execMalloc (fun _ _ => true) 8 = .ok p := by
    obtain rfl := Except.ok.inj hr
    exact ⟨_, rfl⟩
  obtain ⟨q, hq⟩ : ∃ q, p.2.2.execLoad .size8 0 = .ok q := by
    obtain rfl := Except.ok.inj hr
    obtain rfl := Except.ok.inj hp
    exact ⟨_, rfl⟩
  exact ⟨r, p, q, hr, hp, hq, (read_over_write .init hr hlive (.malloc .refl hp) hq).2.1 rfl rfl⟩

end SwppCompiler.Interp
