import SwppCompiler.Interp.Bop

/-!
# What the arithmetic unit computes

`bvOperation` is the two's-complement operation of a width, with every signed division wrapping.
`compute` leaves the division of -2^63 by -1 to the host (`interpreter/src/stmt.cpp`, lines 250 and 264),
where it is undefined.

* `arithmeticRight_iff`: `compute` returns its value, or reports a division by zero, except where the
  host's 64-bit signed division overflows.
-/

namespace SwppCompiler.Interp

/-- The operation divides. -/
def BopKind.isDivision : BopKind → Bool
  | .udiv | .sdiv | .urem | .srem => true
  | _ => false

/-- The operation on `w` bits; `none` is a division by zero. A signed division truncates, and wraps if
    it overflows. A shift amount is reduced modulo `w`. -/
def bvOperation {w : ℕ} (kind : BopKind) (x y : BitVec w) : Option (BitVec w) :=
  match kind with
  | .udiv => if y = 0 then none else some (x / y)
  | .sdiv => if y = 0 then none else some (x.sdiv y)
  | .urem => if y = 0 then none else some (x % y)
  | .srem => if y = 0 then none else some (x.srem y)
  | .mul => some (x * y)
  | .shl => some (x <<< (y.toNat % w))
  | .lshr => some (x >>> (y.toNat % w))
  | .ashr => some (x.sshiftRight (y.toNat % w))
  | .and => some (x &&& y)
  | .or => some (x ||| y)
  | .xor => some (x ^^^ y)
  | .add => some (x + y)
  | .sub => some (x - y)
  | .eq => some (ofCondW w (x = y))
  | .ne => some (ofCondW w (x ≠ y))
  | .ugt => some (ofCondW w (y.ult x))
  | .uge => some (ofCondW w (y.ule x))
  | .ult => some (ofCondW w (x.ult y))
  | .ule => some (ofCondW w (x.ule y))
  | .sgt => some (ofCondW w (y.slt x))
  | .sge => some (ofCondW w (y.sle x))
  | .slt => some (ofCondW w (x.slt y))
  | .sle => some (ofCondW w (x.sle y))

/-- The host's signed division overflows: the least `int64_t` by -1. -/
def HostOverflows (kind : BopKind) (size : Size) (a b : Word) : Prop :=
  (kind = .sdiv ∨ kind = .srem) ∧ size = .size64 ∧ a = BitVec.intMin 64 ∧ b = -1

instance (kind : BopKind) (size : Size) (a b : Word) : Decidable (HostOverflows kind size a b) :=
  inferInstanceAs (Decidable (_ ∧ _))

/-- Words that are the same second operand: an amount modulo the size, or the low bits. -/
def SameOp2 (kind : BopKind) (size : Size) (b b' : Word) : Prop :=
  if isShiftOp kind then b.toNat % bwOf size = b'.toNat % bwOf size
  else b.setWidth (bwOf size) = b'.setWidth (bwOf size)

/-- `compute` does what it should on these operands: it reports a division by zero or returns the
    value of the operation on the low bits, without undefined behaviour, and depends on no other
    bits. -/
structure ArithmeticRight (kind : BopKind) (size : Size) (a b : Word) : Prop where
  reports : compute kind size a b = .error .divisionByZero ↔
    kind.isDivision = true ∧ b.setWidth (bwOf size) = 0
  value : ∀ r, bvOperation kind (a.setWidth (bwOf size)) (b.setWidth (bwOf size)) = some r →
    compute kind size a b = .ok (zext r)
  lowBits : ∀ a' b', a.setWidth (bwOf size) = a'.setWidth (bwOf size) → SameOp2 kind size b b' →
    compute kind size a' b' = compute kind size a b

theorem bvOperation_eq_none_iff {w : ℕ} {kind : BopKind} {x y : BitVec w} :
    bvOperation kind x y = none ↔ kind.isDivision = true ∧ y = 0 := by
  cases kind <;> simp [bvOperation, BopKind.isDivision]

/-- `compute` is the operation, except where the host overflows. -/
theorem bvCompute_eq {w : ℕ} {kind : BopKind} {x y : BitVec w}
    (hover : ¬((kind = .sdiv ∨ kind = .srem) ∧ w = 64 ∧ x = BitVec.intMin w ∧ y = -1)) :
    bvCompute kind x y =
      match bvOperation kind x y with
      | none => .error .divisionByZero
      | some r => .ok r := by
  have hsigned : ∀ f : BitVec w → BitVec w → BitVec w, kind = .sdiv ∨ kind = .srem →
      signedDiv f x y =
        match if y = 0 then none else some (f x y) with
        | none => .error .divisionByZero
        | some r => .ok r := by
    intro f hkind
    unfold signedDiv
    rw [if_neg fun h => hover ⟨hkind, h⟩]
    split_ifs <;> rfl
  cases kind with
  | sdiv => exact hsigned BitVec.sdiv (Or.inl rfl)
  | srem => exact hsigned BitVec.srem (Or.inr rfl)
  | udiv | urem =>
    unfold bvCompute bvOperation
    simp only
    split_ifs <;> rfl
  | _ => rfl

theorem size64_of_bwOf {size : Size} (h : bwOf size = 64) : size = .size64 := by
  cases size <;> first | rfl | cases h

theorem compute_of_not_overflows {kind : BopKind} {size : Size} {a b : Word}
    (h : ¬HostOverflows kind size a b) : compute kind size a b =
      match bvOperation kind (a.setWidth (bwOf size)) (b.setWidth (bwOf size)) with
      | none => .error .divisionByZero
      | some r => .ok (zext r) := by
  have hover : ¬((kind = .sdiv ∨ kind = .srem) ∧ bwOf size = 64 ∧
      a.setWidth (bwOf size) = BitVec.intMin (bwOf size) ∧ b.setWidth (bwOf size) = -1) := by
    rintro ⟨hkind, hw, ha, hb⟩
    obtain rfl := size64_of_bwOf hw
    exact h ⟨hkind, rfl, (BitVec.setWidth_eq a).symm.trans ha, (BitVec.setWidth_eq b).symm.trans hb⟩
  rw [compute_eq, bvCompute_eq hover]
  cases bvOperation kind (a.setWidth (bwOf size)) (b.setWidth (bwOf size)) <;> rfl

/-- The operation reads the second operand through its low bits, or through the amount. -/
theorem bvCompute_congr {kind : BopKind} {size : Size} {b b' : Word} (h : SameOp2 kind size b b')
    (x : BitVec (bwOf size)) : bvCompute kind x (b.setWidth (bwOf size)) =
      bvCompute kind x (b'.setWidth (bwOf size)) := by
  unfold SameOp2 at h
  by_cases hshift : isShiftOp kind = true
  · rw [if_pos hshift] at h
    have hamount : (b.setWidth (bwOf size)).toNat % bwOf size =
        (b'.setWidth (bwOf size)).toNat % bwOf size := by
      rw [BitVec.toNat_setWidth, BitVec.toNat_setWidth,
        Nat.mod_mod_of_dvd _ (bwOf_dvd_two_pow size), Nat.mod_mod_of_dvd _ (bwOf_dvd_two_pow size), h]
    cases kind with
    | shl | lshr | ashr =>
      unfold bvCompute
      simp only
      rw [hamount]
    | _ => cases hshift
  · rw [if_neg hshift] at h
    rw [h]

/-- **Arithmetic unit.** `compute` is right on its operands iff the host's division does not
    overflow. -/
theorem arithmeticRight_iff (kind : BopKind) (size : Size) (a b : Word) :
    ArithmeticRight kind size a b ↔ ¬HostOverflows kind size a b := by
  constructor
  · rintro h ⟨hkind, rfl, rfl, rfl⟩
    obtain ⟨r, hr⟩ : ∃ r, bvOperation kind ((BitVec.intMin 64).setWidth (bwOf .size64))
        ((-1 : Word).setWidth (bwOf .size64)) = some r := by
      rcases hkind with rfl | rfl <;> exact ⟨_, rfl⟩
    have hok := h.value r hr
    have hfault : compute kind .size64 (BitVec.intMin 64) (-1) = .error .hostOverflow := by
      rcases hkind with rfl | rfl <;> rfl
    rw [hfault] at hok
    cases hok
  · intro h
    have hcompute := compute_of_not_overflows h
    refine ⟨?_, fun r hr => ?_, fun a' b' ha hb => ?_⟩
    · rw [hcompute, ← bvOperation_eq_none_iff
        (x := a.setWidth (bwOf size)) (y := b.setWidth (bwOf size))]
      cases bvOperation kind (a.setWidth (bwOf size)) (b.setWidth (bwOf size)) <;> simp
    · rw [hcompute, hr]
    · rw [compute_eq, compute_eq, ha, bvCompute_congr hb]

/-- The least `int64_t` by -1: both divisions are undefined on the host; in 32 bits they wrap. -/
theorem not_arithmeticRight_intMin :
    compute .sdiv .size64 (BitVec.intMin 64) (-1) = .error .hostOverflow ∧
      compute .srem .size64 (BitVec.intMin 64) (-1) = .error .hostOverflow ∧
      compute .sdiv .size32 (zext (BitVec.intMin 32)) (-1) = .ok (zext (BitVec.intMin 32)) ∧
      ¬ArithmeticRight .sdiv .size64 (BitVec.intMin 64) (-1) := by
  refine ⟨by decide, by decide, by decide, fun h => ?_⟩
  have hok := h.value (BitVec.intMin 64) (by decide)
  revert hok
  decide

end SwppCompiler.Interp
