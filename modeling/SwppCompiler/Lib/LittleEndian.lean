import Mathlib

/-!
# Little-endian bytes

* `ofBytes`: the number with the given bytes, the lowest one first.
* `ofBytes_bytes`: the first bytes of a word are the word modulo a power of 256.
-/

namespace SwppCompiler.Lib.LittleEndian

/-- The number that bytes stand for. -/
def ofBytes (bytes : List (BitVec 8)) : ℕ := Nat.ofDigits 256 (bytes.map BitVec.toNat)

/-- Byte `k` of a word. -/
def byte {w : ℕ} (v : BitVec w) (k : ℕ) : BitVec 8 := (v >>> (8 * k)).setWidth 8

section

variable {w : ℕ} {v : BitVec w}

theorem ofBytes_cons {b : BitVec 8} {bytes : List (BitVec 8)} :
    ofBytes (b :: bytes) = b.toNat + 256 * ofBytes bytes := by
  unfold ofBytes
  rw [List.map_cons, Nat.ofDigits_cons]

theorem ofBytes_lt (bytes : List (BitVec 8)) : ofBytes bytes < 256 ^ bytes.length := by
  induction bytes with
  | nil => exact Nat.one_pos
  | cons b bytes ih =>
    have hb := b.isLt
    rw [ofBytes_cons, List.length_cons, pow_succ]
    omega

theorem byte_zero : byte v 0 = v.setWidth 8 := by
  unfold byte
  rw [Nat.mul_zero, BitVec.ushiftRight_zero]

theorem byte_succ (k : ℕ) : byte v (k + 1) = byte (v >>> 8) k := by
  unfold byte
  rw [Nat.mul_succ, Nat.add_comm, BitVec.shiftRight_add]

/-- The first `n` bytes of a word. -/
theorem ofBytes_bytes (n : ℕ) :
    ofBytes ((List.range n).map (byte v)) = v.toNat % 256 ^ n := by
  induction n generalizing v with
  | zero =>
    rw [pow_zero, Nat.mod_one]
    rfl
  | succ n ih =>
    have hrest : (List.range n).map (fun k => byte v (k + 1)) =
        (List.range n).map (byte (v >>> 8)) := List.map_congr_left fun k _ => byte_succ k
    have hshift : (v >>> 8).toNat = v.toNat / 256 := by
      rw [BitVec.toNat_ushiftRight, Nat.shiftRight_eq_div_pow]
    have hlow : (v.setWidth 8).toNat = v.toNat % 256 := BitVec.toNat_setWidth ..
    rw [List.range_succ_eq_map, List.map_cons, List.map_map, ofBytes_cons, byte_zero]
    show (v.setWidth 8).toNat + 256 * ofBytes ((List.range n).map fun k => byte v (k + 1)) = _
    rw [hrest, ih, hshift, hlow, pow_succ', Nat.mod_mul]

end

end SwppCompiler.Lib.LittleEndian
