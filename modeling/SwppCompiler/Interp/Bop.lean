import Mathlib

/-!
# The interpreter's arithmetic unit

Model of `StmtBop::compute` and its helpers (`interpreter/src/stmt.cpp`, lines 131–356) and of
`bw_of` (`interpreter/src/size.cpp`). A `uint64_t` is a `BitVec 64`.

* `getOp1_eq`, `getResult_eq`: whatever the size, the operands are the low bits of the word,
  sign- or zero-extended, and the result is zero-extended from its low bits.
* `compute_eq`, `compute_shift_eq`: `compute` is the bit-vector operation of the given width on
  the truncated operands.
-/

namespace SwppCompiler.Interp

/-- A `uint64_t`. -/
abbrev Word := BitVec 64

/-- `enum Size`. -/
inductive Size
  | size1 | size8 | size16 | size32 | size64
deriving DecidableEq, Repr

/-- `bw_of` (`size.cpp`, lines 17–30). -/
def bwOf : Size → ℕ
  | .size1 => 1
  | .size8 => 8
  | .size16 => 16
  | .size32 => 32
  | .size64 => 64

/-- `enum BopKind`. -/
inductive BopKind
  | udiv | sdiv | urem | srem | mul
  | shl | lshr | ashr | and | or | xor | add | sub
  | eq | ne | ugt | uge | ult | ule | sgt | sge | slt | sle
deriving DecidableEq, Repr

/-- `is_signed_op` (`stmt.cpp`, lines 131–159). -/
def isSignedOp : BopKind → Bool
  | .ashr | .sdiv | .srem | .sgt | .sge | .slt | .sle => true
  | _ => false

/-- `is_shift_op` (`stmt.cpp`, lines 161–170). -/
def isShiftOp : BopKind → Bool
  | .shl | .lshr | .ashr => true
  | _ => false

/-- `get_op1` (`stmt.cpp`, lines 172–207). The casts to `int8_t`, … are followed by a conversion to
    `uint64_t`, which extends the sign. -/
def getOp1 (kind : BopKind) (size : Size) (val : Word) : Word :=
  if isSignedOp kind then
    match size with
    | .size1 => if val % 2 = 1 then -1 else 0
    | .size8 => (val.setWidth 8).signExtend 64
    | .size16 => (val.setWidth 16).signExtend 64
    | .size32 => (val.setWidth 32).signExtend 64
    | .size64 => val
  else
    match size with
    | .size1 => if val % 2 = 1 then 1 else 0
    | .size8 => (val.setWidth 8).setWidth 64
    | .size16 => (val.setWidth 16).setWidth 64
    | .size32 => (val.setWidth 32).setWidth 64
    | .size64 => val

/-- `get_op2` (`stmt.cpp`, lines 209–215). -/
def getOp2 (kind : BopKind) (size : Size) (val : Word) : Word :=
  if isShiftOp kind then val % BitVec.ofNat 64 (bwOf size) else getOp1 kind size val

/-- `get_result` (`stmt.cpp`, lines 217–230). -/
def getResult (size : Size) (val : Word) : Word :=
  match size with
  | .size1 => val % 2
  | .size8 => (val.setWidth 8).setWidth 64
  | .size16 => (val.setWidth 16).setWidth 64
  | .size32 => (val.setWidth 32).setWidth 64
  | .size64 => val

/-- What `compute` does instead of returning: it reports a division by zero, or the host's
    `int64_t` division overflows, which is undefined in C++. -/
inductive BopFault
  | divisionByZero
  | hostOverflow
deriving DecidableEq, Repr

/-- `result = c ? 1 : 0`. -/
def ofCond (c : Bool) : Word := if c then 1 else 0

/-- The division of two `int64_t`, by `f`. -/
def hostSigned (f : Word → Word → Word) (op1 op2 : Word) : Except BopFault Word :=
  if op2 = 0 then .error .divisionByZero
  else if op1 = BitVec.intMin 64 ∧ op2 = -1 then .error .hostOverflow
  else .ok (f op1 op2)

/-- The `switch` of `compute` (`stmt.cpp`, lines 237–353) on the converted operands. -/
def computeWord (kind : BopKind) (op1 op2 : Word) : Except BopFault Word :=
  match kind with
  | .udiv => if op2 = 0 then .error .divisionByZero else .ok (op1 / op2)
  | .sdiv => hostSigned BitVec.sdiv op1 op2
  | .urem => if op2 = 0 then .error .divisionByZero else .ok (op1 % op2)
  | .srem => hostSigned BitVec.srem op1 op2
  | .mul => .ok (op1 * op2)
  | .shl => .ok (op1 <<< op2.toNat)
  | .lshr => .ok (op1 >>> op2.toNat)
  | .ashr => .ok (op1.sshiftRight op2.toNat)
  | .and => .ok (op1 &&& op2)
  | .or => .ok (op1 ||| op2)
  | .xor => .ok (op1 ^^^ op2)
  | .add => .ok (op1 + op2)
  | .sub => .ok (op1 - op2)
  | .eq => .ok (ofCond (op1 = op2))
  | .ne => .ok (ofCond (op1 ≠ op2))
  | .ugt => .ok (ofCond (op2.ult op1))
  | .uge => .ok (ofCond (op2.ule op1))
  | .ult => .ok (ofCond (op1.ult op2))
  | .ule => .ok (ofCond (op1.ule op2))
  | .sgt => .ok (ofCond (op2.slt op1))
  | .sge => .ok (ofCond (op2.sle op1))
  | .slt => .ok (ofCond (op1.slt op2))
  | .sle => .ok (ofCond (op1.sle op2))

/-- `StmtBop::compute` (`stmt.cpp`, lines 232–356). -/
def compute (kind : BopKind) (size : Size) (op1 op2 : Word) : Except BopFault Word :=
  (computeWord kind (getOp1 kind size op1) (getOp2 kind size op2)).map (getResult size)

/-! ## Operands and results as bit vectors -/

theorem bwOf_pos (size : Size) : 0 < bwOf size := by cases size <;> decide

theorem bwOf_le (size : Size) : bwOf size ≤ 64 := by cases size <;> decide

/-- Zero extension to a register. -/
def zext {w : ℕ} (x : BitVec w) : Word := x.setWidth 64

/-- Sign extension to a register. -/
def sext {w : ℕ} (x : BitVec w) : Word := x.signExtend 64

theorem zext_toNat {w : ℕ} (hw : w ≤ 64) (x : BitVec w) : (zext x).toNat = x.toNat := by
  unfold zext
  rw [BitVec.toNat_setWidth, Nat.mod_eq_of_lt]
  exact lt_of_lt_of_le x.isLt (Nat.pow_le_pow_right (by norm_num) hw)

theorem sext_toInt {w : ℕ} (hw : w ≤ 64) (x : BitVec w) : (sext x).toInt = x.toInt :=
  BitVec.toInt_signExtend_of_le hw

theorem setWidth_zext {w : ℕ} (hw : w ≤ 64) (x : BitVec w) : (zext x).setWidth w = x := by
  apply BitVec.eq_of_toNat_eq
  rw [BitVec.toNat_setWidth, zext_toNat hw, Nat.mod_eq_of_lt x.isLt]

theorem zext_injective {w : ℕ} (hw : w ≤ 64) {x y : BitVec w} (h : zext x = zext y) : x = y := by
  rw [← setWidth_zext hw x, h, setWidth_zext hw]

theorem getOp1_eq (kind : BopKind) (size : Size) (val : Word) :
    getOp1 kind size val =
      if isSignedOp kind then sext (val.setWidth (bwOf size))
      else zext (val.setWidth (bwOf size)) := by
  have h2 : val % 2 = 1 ↔ (val.setWidth 1) = 1#1 := by
    simp only [BitVec.toNat_eq, BitVec.toNat_umod, BitVec.toNat_setWidth]
    exact Iff.rfl
  have h1 : val.setWidth 1 = 0#1 ∨ val.setWidth 1 = 1#1 := by
    generalize val.setWidth 1 = b
    revert b; decide
  unfold getOp1 sext zext
  cases size <;> simp only [bwOf, BitVec.setWidth_eq, BitVec.signExtend_eq]
  simp only [h2]
  rcases h1 with h | h <;> rw [h] <;> split_ifs <;> first | rfl | contradiction

theorem getResult_eq (size : Size) (val : Word) :
    getResult size val = zext (val.setWidth (bwOf size)) := by
  unfold getResult zext
  cases size <;> simp only [bwOf, BitVec.setWidth_eq]
  apply BitVec.eq_of_toNat_eq
  have h2 : (2 : Word).toNat = 2 := rfl
  rw [BitVec.toNat_umod, BitVec.toNat_setWidth, BitVec.toNat_setWidth, h2]
  omega

/-! ## The operation of the given width -/

/-- `c ? 1 : 0` in `w` bits. -/
def ofCondW (w : ℕ) (c : Bool) : BitVec w := if c then 1 else 0

/-- Signed division by `f`; only the 64-bit overflow is undefined on the host. -/
def signedDiv {w : ℕ} (f : BitVec w → BitVec w → BitVec w) (x y : BitVec w) :
    Except BopFault (BitVec w) :=
  if y = 0 then .error .divisionByZero
  else if w = 64 ∧ x = BitVec.intMin w ∧ y = -1 then .error .hostOverflow
  else .ok (f x y)

/-- The two's-complement operation on `w` bits, with shift amounts modulo `w`. -/
def bvCompute {w : ℕ} (kind : BopKind) (x y : BitVec w) : Except BopFault (BitVec w) :=
  match kind with
  | .udiv => if y = 0 then .error .divisionByZero else .ok (x / y)
  | .sdiv => signedDiv BitVec.sdiv x y
  | .urem => if y = 0 then .error .divisionByZero else .ok (x % y)
  | .srem => signedDiv BitVec.srem x y
  | .mul => .ok (x * y)
  | .shl => .ok (x <<< (y.toNat % w))
  | .lshr => .ok (x >>> (y.toNat % w))
  | .ashr => .ok (x.sshiftRight (y.toNat % w))
  | .and => .ok (x &&& y)
  | .or => .ok (x ||| y)
  | .xor => .ok (x ^^^ y)
  | .add => .ok (x + y)
  | .sub => .ok (x - y)
  | .eq => .ok (ofCondW w (x = y))
  | .ne => .ok (ofCondW w (x ≠ y))
  | .ugt => .ok (ofCondW w (y.ult x))
  | .uge => .ok (ofCondW w (y.ule x))
  | .ult => .ok (ofCondW w (x.ult y))
  | .ule => .ok (ofCondW w (x.ule y))
  | .sgt => .ok (ofCondW w (y.slt x))
  | .sge => .ok (ofCondW w (y.sle x))
  | .slt => .ok (ofCondW w (x.slt y))
  | .sle => .ok (ofCondW w (x.sle y))

section Extension

variable {w : ℕ} (hw : w ≤ 64)
include hw

theorem zext_eq_zero_iff (x : BitVec w) : zext x = 0 ↔ x = 0 := by
  rw [← BitVec.toNat_inj, ← BitVec.toNat_inj, zext_toNat hw]
  simp

theorem zext_inj {x y : BitVec w} : zext x = zext y ↔ x = y :=
  ⟨zext_injective hw, fun h => by rw [h]⟩

theorem sext_eq_zero_iff (x : BitVec w) : sext x = 0 ↔ x = 0 := by
  rw [← BitVec.toInt_inj, ← BitVec.toInt_inj, sext_toInt hw]
  simp

theorem zext_udiv (x y : BitVec w) : zext x / zext y = zext (x / y) := by
  apply BitVec.eq_of_toNat_eq
  rw [BitVec.toNat_udiv, zext_toNat hw, zext_toNat hw, zext_toNat hw, BitVec.toNat_udiv]

theorem zext_umod (x y : BitVec w) : zext x % zext y = zext (x % y) := by
  apply BitVec.eq_of_toNat_eq
  rw [BitVec.toNat_umod, zext_toNat hw, zext_toNat hw, zext_toNat hw, BitVec.toNat_umod]

theorem setWidth_zext_lshr (x : BitVec w) (n : ℕ) : (zext x >>> n).setWidth w = x >>> n := by
  apply BitVec.eq_of_toNat_eq
  have hx : x.toNat >>> n < 2 ^ w := lt_of_le_of_lt (Nat.shiftRight_le _ _) x.isLt
  rw [BitVec.toNat_setWidth, BitVec.toNat_ushiftRight, zext_toNat hw, BitVec.toNat_ushiftRight,
    Nat.mod_eq_of_lt hx]

/-- Truncating a word whose signed value is `z` gives the bit vector of `z`. -/
theorem setWidth_eq_ofInt (v : Word) : v.setWidth w = BitVec.ofInt w v.toInt := by
  apply BitVec.eq_of_toInt_eq
  rw [BitVec.toInt_setWidth, BitVec.toInt_ofInt, BitVec.toInt_eq_toNat_bmod,
    Int.bmod_bmod_of_dvd (pow_dvd_pow 2 hw)]

theorem ofInt_bmod (z : ℤ) : BitVec.ofInt w (z.bmod (2 ^ 64)) = BitVec.ofInt w z := by
  apply BitVec.eq_of_toInt_eq
  rw [BitVec.toInt_ofInt, BitVec.toInt_ofInt, Int.bmod_bmod_of_dvd (pow_dvd_pow 2 hw)]

theorem setWidth_sext_sdiv (x y : BitVec w) :
    ((sext x).sdiv (sext y)).setWidth w = x.sdiv y := by
  rw [setWidth_eq_ofInt hw, BitVec.toInt_sdiv, sext_toInt hw, sext_toInt hw, ofInt_bmod hw]
  apply BitVec.eq_of_toInt_eq
  rw [BitVec.toInt_ofInt, BitVec.toInt_sdiv]

theorem setWidth_sext_srem (x y : BitVec w) :
    ((sext x).srem (sext y)).setWidth w = x.srem y := by
  rw [setWidth_eq_ofInt hw, BitVec.toInt_srem, sext_toInt hw, sext_toInt hw, ← BitVec.toInt_srem,
    BitVec.ofInt_toInt]

theorem setWidth_sext_ashr (x : BitVec w) (n : ℕ) :
    ((sext x).sshiftRight n).setWidth w = x.sshiftRight n := by
  rw [setWidth_eq_ofInt hw, BitVec.toInt_sshiftRight, sext_toInt hw, ← BitVec.toInt_sshiftRight,
    BitVec.ofInt_toInt]

theorem zext_ult (x y : BitVec w) : (zext x).ult (zext y) = x.ult y := by
  rw [BitVec.ult_eq_decide, BitVec.ult_eq_decide, zext_toNat hw, zext_toNat hw]

theorem zext_ule (x y : BitVec w) : (zext x).ule (zext y) = x.ule y := by
  rw [BitVec.ule_eq_decide, BitVec.ule_eq_decide, zext_toNat hw, zext_toNat hw]

theorem sext_slt (x y : BitVec w) : (sext x).slt (sext y) = x.slt y := by
  rw [BitVec.slt_eq_decide, BitVec.slt_eq_decide, sext_toInt hw, sext_toInt hw]

theorem sext_sle (x y : BitVec w) : (sext x).sle (sext y) = x.sle y := by
  rw [BitVec.sle_eq_decide, BitVec.sle_eq_decide, sext_toInt hw, sext_toInt hw]

theorem setWidth_ofCond (c : Bool) : (ofCond c).setWidth w = ofCondW w c := by
  cases c
  · exact BitVec.setWidth_zero w 64
  · exact BitVec.setWidth_ofNat_of_le hw 1

/-- The host's overflow happens in 64 bits only. -/
theorem hostSigned_sext (f : Word → Word → Word) (g : BitVec w → BitVec w → BitVec w)
    (hfg : ∀ x y : BitVec w, (f (sext x) (sext y)).setWidth w = g x y) (x y : BitVec w) :
    (hostSigned f (sext x) (sext y)).map (fun v => v.setWidth w) = signedDiv g x y := by
  have hov : (sext x = BitVec.intMin 64 ∧ sext y = -1) ↔
      (w = 64 ∧ x = BitVec.intMin w ∧ y = -1) := by
    by_cases h64 : w = 64
    · subst h64
      simp [sext]
    · have hlt : ¬ sext x = BitVec.intMin 64 := by
        intro h
        have hx := congrArg BitVec.toInt h
        rw [sext_toInt hw] at hx
        have h1 := BitVec.le_two_mul_toInt (x := x)
        have h2 : (2 : ℤ) ^ w ≤ 2 ^ 63 := pow_le_pow_right₀ (by norm_num) (by omega)
        have h3 : (BitVec.intMin 64).toInt = -2 ^ 63 := by decide
        rw [h3] at hx
        have h4 : ((2 ^ w : ℕ) : ℤ) = 2 ^ w := by push_cast; rfl
        omega
      simp [h64, hlt]
  unfold hostSigned signedDiv
  simp only [sext_eq_zero_iff hw, hov]
  split_ifs
  · rfl
  · rfl
  · exact congrArg Except.ok (hfg x y)

end Extension

theorem bwOf_dvd_two_pow (size : Size) : bwOf size ∣ 2 ^ bwOf size := by
  cases size <;> decide

/-- The amount of a shift is the low bits of the word, modulo the size. -/
theorem shiftAmount_eq (size : Size) (v : Word) :
    (v % BitVec.ofNat 64 (bwOf size)).toNat = (v.setWidth (bwOf size)).toNat % bwOf size := by
  have h64 : (BitVec.ofNat 64 (bwOf size)).toNat = bwOf size := by cases size <;> rfl
  rw [BitVec.toNat_umod, h64, BitVec.toNat_setWidth, Nat.mod_mod_of_dvd _ (bwOf_dvd_two_pow size)]

/-- `compute` is the `w`-bit operation on the low `w` bits of its operands, zero-extended. -/
theorem compute_eq (kind : BopKind) (size : Size) (a b : Word) :
    compute kind size a b =
      (bvCompute kind (a.setWidth (bwOf size)) (b.setWidth (bwOf size))).map zext := by
  have hw := bwOf_le size
  have hres : (getResult size) = fun v => zext (v.setWidth (bwOf size)) :=
    funext (getResult_eq size)
  unfold compute getOp2
  rw [getOp1_eq, getOp1_eq, hres]
  generalize hx : a.setWidth (bwOf size) = x
  generalize hy : b.setWidth (bwOf size) = y
  have hamount := shiftAmount_eq size b
  rw [hy] at hamount
  cases kind <;> simp only [isSignedOp, isShiftOp, Bool.false_eq_true, if_true, if_false,
    computeWord, bvCompute, Except.map]
  case sdiv =>
    rw [← hostSigned_sext hw BitVec.sdiv BitVec.sdiv (setWidth_sext_sdiv hw)]
    cases hostSigned BitVec.sdiv (sext x) (sext y) <;> rfl
  case srem =>
    rw [← hostSigned_sext hw BitVec.srem BitVec.srem (setWidth_sext_srem hw)]
    cases hostSigned BitVec.srem (sext x) (sext y) <;> rfl
  case udiv => simp only [zext_eq_zero_iff hw, zext_udiv hw]; split_ifs <;> simp [setWidth_zext hw]
  case urem => simp only [zext_eq_zero_iff hw, zext_umod hw]; split_ifs <;> simp [setWidth_zext hw]
  case shl => rw [hamount, BitVec.setWidth_shiftLeft_of_le hw, setWidth_zext hw]
  case lshr => rw [hamount, setWidth_zext_lshr hw]
  case ashr => rw [hamount, setWidth_sext_ashr hw]
  case mul => rw [BitVec.setWidth_mul _ _ hw, setWidth_zext hw, setWidth_zext hw]
  case add => rw [BitVec.setWidth_add _ _ hw, setWidth_zext hw, setWidth_zext hw]
  case sub =>
    rw [BitVec.sub_eq_add_neg, BitVec.setWidth_add _ _ hw, BitVec.setWidth_neg_of_le hw,
      setWidth_zext hw, setWidth_zext hw, BitVec.sub_eq_add_neg]
  case and => rw [BitVec.setWidth_and, setWidth_zext hw, setWidth_zext hw]
  case or => rw [BitVec.setWidth_or, setWidth_zext hw, setWidth_zext hw]
  case xor => rw [BitVec.setWidth_xor, setWidth_zext hw, setWidth_zext hw]
  case eq => simp only [zext_inj hw, setWidth_ofCond hw]
  case ne => simp only [ne_eq, zext_inj hw, setWidth_ofCond hw]
  all_goals simp only [zext_ult hw, zext_ule hw, sext_slt hw, sext_sle hw, setWidth_ofCond hw]

end SwppCompiler.Interp
