import Mathlib

/-!
# Masks of the low bits

The numbers `2 ^ k - 1`, as bit vectors: how a test finds them, what their bits are, and that a
conjunction with one is a remainder.
-/

namespace SwppCompiler.Lib.Masks

variable {w : ℕ}

/-- `N` is the mask of its `k` low bits. -/
def IsMask (N : BitVec w) (k : ℕ) : Prop := N.toNat + 1 = 2 ^ k

/-- The bits of a mask. -/
theorem isMask_iff_getLsbD {N : BitVec w} {k : ℕ} :
    IsMask N k ↔ ∀ i, N.getLsbD i = decide (i < k) := by
  have hpos := Nat.two_pow_pos k
  constructor
  · intro h i
    have hN : N.toNat = 2 ^ k - 1 := by
      unfold IsMask at h
      omega
    rw [← BitVec.testBit_toNat, hN, Nat.testBit_two_pow_sub_one]
  · intro h
    have hN : N.toNat = 2 ^ k - 1 := by
      apply Nat.eq_of_testBit_eq
      intro i
      rw [BitVec.testBit_toNat, h, Nat.testBit_two_pow_sub_one]
    unfold IsMask
    omega

/-- The successor of a mask is a power of two, or zero. -/
theorem IsMask.setWidth_add_one {N : BitVec w} {k : ℕ} (h : IsMask N k) {v : ℕ} (hv : v ≤ w) :
    ((N + 1).setWidth v).toNat = if k < v then 2 ^ k else 0 := by
  have hsucc : (N + 1).toNat = 2 ^ k % 2 ^ w := by
    rw [BitVec.toNat_add, ← h]
    cases w with
    | zero => simp
    | succ w => simp
  rw [BitVec.toNat_setWidth, hsucc, Nat.mod_mod_of_dvd _ (Nat.pow_dvd_pow 2 hv)]
  split
  · next hlt => exact Nat.mod_eq_of_lt (Nat.pow_lt_pow_right (by decide) hlt)
  · next hlt => exact Nat.mod_eq_zero_of_dvd (Nat.pow_dvd_pow 2 (not_lt.mp hlt))

/-- The test for a mask: it has no bit in common with its successor. -/
theorem and_add_one_eq_zero_iff {N : BitVec w} : N &&& (N + 1) = 0 ↔ ∃ k, IsMask N k := by
  have hsub : N.toNat + 1 - 1 = N.toNat := by omega
  rw [← BitVec.toNat_inj, BitVec.toNat_and, BitVec.toNat_add]
  by_cases hlt : N.toNat + 1 < 2 ^ w
  · have hone : (1 : BitVec w).toNat = 1 := by
      cases w with
      | zero => simp at hlt
      | succ w => simp
    have htest := Nat.and_sub_one_eq_zero_iff_isPowerOfTwo (Nat.succ_ne_zero N.toNat)
    rw [Nat.succ_eq_add_one, hsub, Nat.and_comm] at htest
    rw [hone, Nat.mod_eq_of_lt hlt]
    exact htest
  · have hall : N.toNat + 1 = 2 ^ w := by
      have hle := N.isLt
      omega
    have hmod : (N.toNat + (1 : BitVec w).toNat) % 2 ^ w = 0 := by
      cases w with
      | zero => exact Nat.mod_one _
      | succ w =>
        have hone : (1 : BitVec (w + 1)).toNat = 1 := by simp
        rw [hone, hall, Nat.mod_self]
    rw [hmod, Nat.and_zero]
    exact ⟨fun _ => ⟨w, hall⟩, fun _ => rfl⟩

/-- The conjunction with a mask, where `c` may lack those of its bits that `a` lacks too. -/
theorem and_eq_mod {a c k : ℕ}
    (h : ∀ i, a.testBit i = true → c.testBit i = decide (i < k)) : a &&& c = a % 2 ^ k := by
  apply Nat.eq_of_testBit_eq
  intro i
  rw [Nat.testBit_and, Nat.testBit_mod_two_pow]
  cases ha : a.testBit i with
  | true => rw [h i ha, Bool.true_and, Bool.and_true]
  | false => rw [Bool.false_and, Bool.and_false]

end SwppCompiler.Lib.Masks
