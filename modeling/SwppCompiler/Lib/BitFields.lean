import Mathlib

/-!
# Bit fields in a number

`concat` puts fields one after the other, the first one in the lowest bits. The first field comes back
as a remainder, the others as a quotient, and adding a field below is also an exclusive or.
-/

namespace SwppCompiler.Lib.BitFields

/-- A field: its width and its bits. -/
abbrev Field := (w : ℕ) × BitVec w

/-- The widths together. -/
def width (fs : List Field) : ℕ := (fs.map Sigma.fst).sum

/-- The number with the given fields. -/
def concat : List Field → ℕ
  | [] => 0
  | f :: fs => f.2.toNat + 2 ^ f.1 * concat fs

variable {f : Field} {fs : List Field}

@[simp] theorem width_cons : width (f :: fs) = f.1 + width fs := rfl

theorem concat_lt (fs : List Field) : concat fs < 2 ^ width fs := by
  induction fs with
  | nil => exact Nat.one_pos
  | cons f fs ih =>
    have hf := f.2.isLt
    calc concat (f :: fs) < 2 ^ f.1 * 1 + 2 ^ f.1 * concat fs := by
          rw [mul_one]
          exact Nat.add_lt_add_right hf _
      _ = 2 ^ f.1 * (concat fs + 1) := by ring
      _ ≤ 2 ^ f.1 * 2 ^ width fs := Nat.mul_le_mul_left _ ih
      _ = 2 ^ width (f :: fs) := by rw [width_cons, pow_add]

theorem concat_cons_mod : concat (f :: fs) % 2 ^ f.1 = f.2.toNat := by
  rw [concat, Nat.add_mul_mod_self_left, Nat.mod_eq_of_lt f.2.isLt]

theorem concat_cons_div : concat (f :: fs) / 2 ^ f.1 = concat fs := by
  rw [concat, Nat.add_mul_div_left _ _ (Nat.two_pow_pos _), Nat.div_eq_of_lt f.2.isLt, zero_add]

/-- The bits of the first field are not among those of the others. -/
theorem concat_cons_xor : (concat fs * 2 ^ f.1) ^^^ f.2.toNat = concat (f :: fs) := by
  apply Nat.eq_of_testBit_eq
  intro i
  rw [concat, Nat.add_comm, Nat.testBit_two_pow_mul_add _ f.2.isLt, Nat.testBit_xor, mul_comm,
    Nat.testBit_two_pow_mul]
  by_cases hi : i < f.1
  · simp [hi, not_le.mpr hi]
  · have hf : f.2.toNat.testBit i = false := by
      apply Nat.testBit_lt_two_pow
      exact f.2.isLt.trans_le (Nat.pow_le_pow_right (by omega) (by omega))
    have hle : f.1 ≤ i := not_lt.mp hi
    simp [hi, hle, hf]

end SwppCompiler.Lib.BitFields
