import SwppCompiler.Backend.Machine
import SwppCompiler.Interp.ReadOverWrite

/-!
# Known bytes of the interpreter's memory

The memory of a `Machine` has a byte for every address; the interpreter's has one for the addresses
of the stack and of the allocated blocks, and some of these bytes are the function's own business.
`Shows` compares the two on a set of addresses.

* `execLoad_shows`, `execStore_shows`: accesses to known addresses.
* `execLoad_word`, `execStore_word`: accesses to a slot.
-/

namespace SwppCompiler.Backend

open Interp Lib.LittleEndian

/-! ## Words as bytes -/

section Bytes

variable {mem : Word → Byte} {a v x : Word} {n : ℕ}

/-- The addresses after `a`. -/
theorem add_one_add (a : Word) (i : ℕ) : a + 1 + BitVec.ofNat 64 i = a + BitVec.ofNat 64 (i + 1) := by
  have hone : (1 : Word).toNat = 1 := rfl
  apply BitVec.eq_of_toNat_eq
  simp only [BitVec.toNat_add, BitVec.toNat_ofNat, hone]
  omega

theorem loadLittleEndian_toNat (hn : n ≤ 8) : (loadLittleEndian mem n a).toNat =
    ofBytes ((List.range n).map fun i => mem (a + BitVec.ofNat 64 i)) := by
  induction n generalizing a with
  | zero => rfl
  | succ n ih =>
    have hmap : (List.range n).map ((fun i => mem (a + BitVec.ofNat 64 i)) ∘ Nat.succ) =
        (List.range n).map fun i => mem (a + 1 + BitVec.ofNat 64 i) := by
      apply List.map_congr_left
      intro i _
      exact congrArg mem (add_one_add a i).symm
    have hrest := ofBytes_lt ((List.range n).map fun i => mem (a + 1 + BitVec.ofNat 64 i))
    rw [List.length_map, List.length_range] at hrest
    have hpow : (256 : ℕ) ^ n ≤ 256 ^ 7 := Nat.pow_le_pow_right (by norm_num) (by omega)
    have hb := (mem a).isLt
    have hlow : ((mem a).setWidth 64).toNat = (mem a).toNat := by
      rw [BitVec.toNat_setWidth]
      omega
    have hzero : a + BitVec.ofNat 64 0 = a := by simp
    rw [loadLittleEndian, List.range_succ_eq_map, List.map_cons, List.map_map, ofBytes_cons, hmap,
      hzero, BitVec.toNat_add, BitVec.toNat_shiftLeft, ih (by omega), hlow, Nat.shiftLeft_eq]
    omega

/-- The bytes that `store_little_endian` leaves. -/
theorem storeLittleEndian_eq (hn : n ≤ 8) : storeLittleEndian mem n a v x =
    if (x - a).toNat < n then byte v (x - a).toNat else mem x := by
  induction n generalizing mem a v with
  | zero => simp [storeLittleEndian]
  | succ n ih =>
    rw [storeLittleEndian, ih (by omega)]
    by_cases hx : x = a
    · subst hx
      have hlast : (x - (x + 1)).toNat = 2 ^ 64 - 1 := by
        rw [show x - (x + 1) = -1 by ring]
        rfl
      have hzero : (x - x).toNat = 0 := by simp
      rw [hlast, hzero, if_neg (by omega), if_pos (by omega), Function.update_self, byte_zero]
    · have hne : (x - a).toNat ≠ 0 := by
        intro h0
        apply hx
        have hsub : x - a = 0 := BitVec.eq_of_toNat_eq h0
        rwa [sub_eq_zero] at hsub
      have hsucc : (x - a).toNat = (x - (a + 1)).toNat + 1 := by
        have hlt := (x - a).isLt
        have hone : (1 : Word).toNat = 1 := rfl
        rw [show x - (a + 1) = x - a - 1 by ring, BitVec.toNat_sub (x - a), hone]
        omega
      rw [hsucc, Function.update_of_ne hx, byte_succ]
      simp only [Nat.add_lt_add_iff_right]

/-- The bytes of an address in the memory. -/
theorem ofNat_sub_toNat {y : ℕ} (hlo : a.toNat ≤ y) (hy : y < 2 ^ 64) :
    (BitVec.ofNat 64 y - a).toNat = y - a.toNat := by
  have ha := a.isLt
  rw [BitVec.toNat_sub, BitVec.toNat_ofNat, Nat.mod_eq_of_lt hy]
  omega

theorem ofNat_sub_toNat_of_lt {y : ℕ} (hlo : y < a.toNat) :
    (BitVec.ofNat 64 y - a).toNat = 2 ^ 64 - (a.toNat - y) := by
  have ha := a.isLt
  rw [BitVec.toNat_sub, BitVec.toNat_ofNat, Nat.mod_eq_of_lt (by omega)]
  omega

/-- Only the low bytes are stored. -/
theorem byte_eq_of_setWidth {k : ℕ} {w : Word} (h : v.setWidth (8 * n) = w.setWidth (8 * n))
    (hk : k < n) : byte v k = byte w k := by
  apply BitVec.eq_of_getLsbD_eq
  intro i hi
  have hbit := congrArg (fun b => b.getLsbD (8 * k + i)) h
  have hlt : 8 * k + i < 8 * n := by omega
  simp only [BitVec.getLsbD_setWidth, hlt, decide_true, Bool.true_and] at hbit
  simp only [byte, BitVec.getLsbD_setWidth, BitVec.getLsbD_ushiftRight, hi, decide_true,
    Bool.true_and]
  exact hbit

end Bytes

/-! ## Known addresses -/

/-- The memory has the bytes of `mem` at the addresses in `K`. -/
def Shows (m : Memory) (K : Set ℕ) (mem : Word → Byte) : Prop :=
  ∀ x ∈ K, m.byteAt x = some (mem (BitVec.ofNat 64 x))

/-- The memory has the word `w` at `a`. -/
def HoldsWord (m : Memory) (a : ℕ) (w : Word) : Prop := ∀ i < 8, m.byteAt (a + i) = some (byte w i)

/-- The addresses of the stack from `lo` on, and those of the allocated blocks, but for the ones that
    are reserved. -/
def Visible (h : Heap) (lo : ℕ) (R : Set ℕ) : Set ℕ :=
  {x | x ∉ R ∧ (lo ≤ x ∧ x < stackMax ∨ ∃ b ∈ h.alloced, b.lo ≤ x ∧ x < b.hi)}

section Known

variable {m m' : Memory} {K R : Set ℕ} {mem : Word → Byte} {size : MSize} {addr v w : Word} {lo x : ℕ}

theorem Visible.live (h : x ∈ Visible m.heap lo R) : m.Live x := by
  obtain ⟨-, ⟨-, hx⟩ | hx⟩ := h
  · exact Or.inl hx
  · exact Or.inr hx

theorem msizeOf_le (size : MSize) : msizeOf size ≤ 8 := by cases size <;> decide

theorem msizeOf_pos (size : MSize) : 0 < msizeOf size := by cases size <;> decide

/-- A live address is far from the end of the address space. -/
theorem Heap.Tiled.lt_of_live (ht : m.heap.Tiled) (hx : m.Live x) : x < 2 ^ 64 - 8 := by
  obtain hx | ⟨b, hb, -, hhi⟩ := hx
  · unfold stackMax at hx
    omega
  · have hmax := (ht.inHeap b (Or.inl hb)).le_heapMax
    unfold heapMax at hmax
    omega

/-- An aligned access to a live address succeeds. -/
theorem Heap.Tiled.access (ht : m.heap.Tiled) (halign : addr.toNat % msizeOf size = 0)
    (hlive : m.Live addr.toNat) : (∃ q, m.execLoad size addr = .ok q) ∧
      ∀ val, ∃ r, m.execStore size addr val = .ok r := by
  have hlt := Heap.Tiled.lt_of_live ht hlive
  have hsize := msizeOf_le size
  exact (ht.accessChecked (by omega)).accepts (ht.inBounds halign hlive)

/-- A load changes no byte. -/
theorem execLoad_byteAt {q : Word × ℚ × Memory} (h : m.execLoad size addr = .ok q) :
    q.2.2.heap = m.heap ∧ ∀ x, q.2.2.byteAt x = m.byteAt x := by
  rw [Memory.execLoad_cases h]
  exact ⟨rfl, fun _ => rfl⟩

theorem execStore_heap {r : ℚ × Memory} (h : m.execStore size addr v = .ok r) :
    r.2.heap = m.heap := by
  obtain ⟨stack, contents, hr⟩ := Memory.execStore_cases h
  rw [hr]

/-- A load of known bytes. -/
theorem execLoad_shows (ht : m.heap.Tiled) (hs : Shows m K mem)
    (halign : addr.toNat % msizeOf size = 0) (hK : footprint size addr ⊆ K)
    (hlive : ∀ x ∈ K, m.Live x) : ∃ q, m.execLoad size addr = .ok q ∧
      q.1 = loadLittleEndian mem (msizeOf size) addr ∧ q.2.2.heap = m.heap ∧
      ∀ x, q.2.2.byteAt x = m.byteAt x := by
  have hfirst : addr.toNat ∈ footprint size addr := mem_footprint (i := 0) (msizeOf_pos size)
  obtain ⟨⟨q, hq⟩, -⟩ := Heap.Tiled.access ht halign (hlive _ (hK hfirst))
  obtain ⟨f, hf, hval⟩ := ht.execLoad_bytes hq
  obtain ⟨hheap, hbytes⟩ := execLoad_byteAt hq
  refine ⟨q, hq, ?_, hheap, hbytes⟩
  apply BitVec.eq_of_toNat_eq
  rw [hval, loadLittleEndian_toNat (msizeOf_le size)]
  congr 1
  apply List.map_congr_left
  intro i hi
  have hi := List.mem_range.mp hi
  have hknown := hs _ (hK (mem_footprint hi))
  rw [hf i hi] at hknown
  have haddr : BitVec.ofNat 64 (addr.toNat + i) = addr + BitVec.ofNat 64 i := by
    apply BitVec.eq_of_toNat_eq
    simp only [BitVec.toNat_add, BitVec.toNat_ofNat]
    omega
  rw [haddr] at hknown
  exact Option.some.inj hknown

/-- The bytes of an access, known after it, and the known ones before it. -/
theorem execStore_shows (ht : m.heap.Tiled) (hs : Shows m K mem)
    (halign : addr.toNat % msizeOf size = 0) (hlive : ∀ x ∈ footprint size addr, m.Live x)
    (hK : ∀ x ∈ K, m.Live x) (hv : w.setWidth (8 * msizeOf size) = v.setWidth (8 * msizeOf size)) :
    ∃ r, m.execStore size addr w = .ok r ∧ r.2.heap = m.heap ∧
      Shows r.2 (K ∪ footprint size addr) (storeLittleEndian mem (msizeOf size) addr v) ∧
      ∀ x ∉ footprint size addr, r.2.byteAt x = m.byteAt x := by
  have hfirst : addr.toNat ∈ footprint size addr := mem_footprint (i := 0) (msizeOf_pos size)
  obtain ⟨-, hstore⟩ := Heap.Tiled.access ht halign (hlive _ hfirst)
  obtain ⟨r, hr⟩ := hstore w
  have hbytes := ht.execStore_byteAt hr
  have hend := Heap.Tiled.lt_of_live ht (hlive _ hfirst)
  have hsize := msizeOf_le size
  refine ⟨r, hr, execStore_heap hr, fun x hx => ?_, fun x hx => ?_⟩
  · have hx64 : x < 2 ^ 64 - 8 := by
      obtain hx | hx := hx
      · exact Heap.Tiled.lt_of_live ht (hK x hx)
      · exact Heap.Tiled.lt_of_live ht (hlive x hx)
    rw [hbytes, storeLittleEndian_eq hsize]
    by_cases hin : x ∈ footprint size addr
    · have hlo : addr.toNat ≤ x := hin.1
      have hhi : x < addr.toNat + msizeOf size := hin.2
      rw [written_of_mem hin, ofNat_sub_toNat hlo (by omega), if_pos (by omega)]
      exact congrArg some (byte_eq_of_setWidth hv (by omega))
    · have hout : ¬(BitVec.ofNat 64 x - addr).toNat < msizeOf size := by
        by_cases hlo : addr.toNat ≤ x
        · rw [ofNat_sub_toNat hlo (by omega)]
          intro hlt
          exact hin ⟨hlo, by omega⟩
        · rw [ofNat_sub_toNat_of_lt (by omega)]
          omega
      rw [if_neg hout]
      show m.written size addr w x = _
      rw [Memory.written, if_neg hin]
      exact hs x (hx.resolve_right hin)
  · rw [hbytes, Memory.written, if_neg hx]

/-- A load from a slot. -/
theorem execLoad_word (ht : m.heap.Tiled) (h : HoldsWord m addr.toNat w)
    (halign : addr.toNat % 8 = 0) (hlive : m.Live addr.toNat) :
    ∃ q, m.execLoad .size8 addr = .ok q ∧ q.1 = w ∧ q.2.2.heap = m.heap ∧
      ∀ x, q.2.2.byteAt x = m.byteAt x := by
  have haligned : addr.toNat % msizeOf .size8 = 0 := halign
  obtain ⟨⟨q, hq⟩, -⟩ := Heap.Tiled.access ht haligned hlive
  obtain ⟨f, hf, hval⟩ := ht.execLoad_bytes hq
  obtain ⟨hheap, hbytes⟩ := execLoad_byteAt hq
  refine ⟨q, hq, ?_, hheap, hbytes⟩
  have hmap : (List.range 8).map f = (List.range 8).map (byte w) := by
    apply List.map_congr_left
    intro i hi
    have hi := List.mem_range.mp hi
    exact Option.some.inj ((hf i hi).symm.trans (h i hi))
  apply BitVec.eq_of_toNat_eq
  rw [hval]
  show ofBytes ((List.range 8).map f) = _
  have hpow : (256 : ℕ) ^ 8 = 2 ^ 64 := by norm_num
  rw [hmap, ofBytes_bytes, hpow, Nat.mod_eq_of_lt w.isLt]

/-- A store into a slot. -/
theorem execStore_word (ht : m.heap.Tiled) (halign : addr.toNat % 8 = 0) (hlive : m.Live addr.toNat)
    (w : Word) : ∃ r, m.execStore .size8 addr w = .ok r ∧ r.2.heap = m.heap ∧
      HoldsWord r.2 addr.toNat w ∧
      ∀ x, x < addr.toNat ∨ addr.toNat + 8 ≤ x → r.2.byteAt x = m.byteAt x := by
  have haligned : addr.toNat % msizeOf .size8 = 0 := halign
  obtain ⟨-, hstore⟩ := Heap.Tiled.access ht haligned hlive
  obtain ⟨r, hr⟩ := hstore w
  have hbytes := ht.execStore_byteAt hr
  refine ⟨r, hr, execStore_heap hr, fun i hi => ?_, fun x hx => ?_⟩
  · have hin : addr.toNat + i ∈ footprint .size8 addr := mem_footprint hi
    rw [hbytes, written_of_mem hin, Nat.add_sub_cancel_left]
  · have hout : x ∉ footprint .size8 addr := by
      rintro ⟨hlo, hhi⟩
      have h8 : msizeOf .size8 = 8 := rfl
      rw [h8] at hhi
      omega
    rw [hbytes, Memory.written, if_neg hout]

end Known

end SwppCompiler.Backend
