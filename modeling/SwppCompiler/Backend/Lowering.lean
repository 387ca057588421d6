import SwppCompiler.Backend.Arguments
import SwppCompiler.Backend.Machine

/-!
# Integer registers are zero-extended

What the lowering of an instruction leaves in its register, if its operands are zero-extended. The
operations work on the low bits of a register; the casts work on all 64 bits.

Registers are meant to be zero-extended (`src/core/Backend.cpp`, lines 71 and 585). `visitSExtInst`
(lines 572–583) shifts the sign in through all 64 bits and does not cut the result down to the width of
its type, and `visitPtrToIntInst` (lines 598–602) copies all bits of the address.

* `createBinOp_leaves`, `createICmp_leaves`, `createSelect_leaves`, …: what the emission of a result
  leaves in its register.
* `zeroExtension_iff`: the register holds the zero-extended result iff the instruction is not a sign
  extension of a negative value to less than 64 bits, nor a truncating `ptrtoint`.
-/

namespace SwppCompiler.Backend

open Interp Lib.StateExcept RegisterAllocator

/-! ## The meaning of the source -/

/-- The number of bits of a value in a register. -/
def Ty.width : Ty → ℕ
  | .int bw => bw
  | _ => 64

/-- The verifier's conditions on the types of an instruction, as far as the lowering relies on
    them. -/
def Inst.wellTyped : Inst → Prop
  | .binary _ a b => a.ty = b.ty
  | .icmp _ a b => a.ty = b.ty ∧ a.ty.isArray = false
  | .select c a b => c.ty = .int 1 ∧ a.ty = b.ty
  | .sext a bw => ∃ w, a.ty = .int w ∧ w < bw
  | .zext a bw => ∃ w, a.ty = .int w ∧ w < bw
  | .trunc a bw => ∃ w, a.ty = .int w ∧ bw < w
  | .ptrtoint a _ => ∃ elem, a.ty = .ptr elem
  | .bitcast a ty => a.ty = ty ∨ ∃ elem, ty = .ptr elem
  | .gep _ _ ty | .inttoptr _ ty => ∃ elem, ty = .ptr elem
  | _ => True

/-- The result of an instruction on the zero-extended values of its operands, zero-extended; `none`
    if LLVM leaves it undefined. A loaded `i1` is defined if it was stored as one, and the result of
    a call is what the callee returns. -/
def Inst.eval (mem : Word → BitVec 8) (ret : Word) : Inst → List Word → Option Word
  | .load p, [addr] =>
    match p.ty with
    | .ptr elem =>
      let w := loadLittleEndian mem (getAccessSize elem) addr
      if w.toNat < 2 ^ elem.width then some w else none
    | _ => none
  | .binary op a _, [x, y] => (op.eval (x.setWidth a.ty.width) (y.setWidth a.ty.width)).map Interp.zext
  | .icmp p a _, [x, y] => some (ofCond (p.eval (x.setWidth a.ty.width) (y.setWidth a.ty.width)))
  | .select _ _ _, [c, x, y] => some (if c.setWidth 1 = 1#1 then x else y)
  | .bitcast _ _, [x] => some x
  | .sext a bw, [x] => some (Interp.zext ((x.setWidth a.ty.width).signExtend bw))
  | .zext a bw, [x] => some (Interp.zext ((x.setWidth a.ty.width).setWidth bw))
  | .trunc _ bw, [x] => some (Interp.zext (x.setWidth bw))
  | .ptrtoint _ bw, [x] => some (Interp.zext (x.setWidth bw))
  | .call _ _ (some ty), _ => if ret.toNat < 2 ^ ty.width then some ret else none
  | _, _ => none

/-- The cases in which the lowering gets the upper bits right: a sign extension is to 64 bits or of a
    value that is not negative, and an address fits in the integer it is converted to. -/
def Inst.fits : Inst → List Word → Prop
  | .sext a bw, [x] => bw = 64 ∨ (x.setWidth a.ty.width).msb = false
  | .ptrtoint _ bw, [x] => x.toNat < 2 ^ bw
  | _, _ => True

/-- The word that the machine gets for a call is its result `ret`. -/
def Inst.Answered (A : Answer) (ret : Word) : Inst → Prop
  | .call _ _ _ => A.value = ret
  | _ => True

/-- An operand that is read as `v` has the value `a`. An undefined one has none. -/
def EmitVal.Holds (m : Machine) (v : EmitVal) (a : Word) : Prop := v ≠ .undefValue ∧ v.read m = a

/-- The value of the operand is zero-extended. -/
def Operand.ZeroExt (V : Operand) (a : Word) : Prop := a.toNat < 2 ^ V.ty.width

/-! ## Arithmetic -/

section Arithmetic

variable {w : ℕ} {x y r : BitVec w}

/-- The interpreter computes what LLVM defines. -/
theorem BinaryOps.bvCompute_eq {op : BinaryOps} (h : op.eval x y = some r) :
    bvCompute op.bopKind x y = .ok r := by
  cases op <;>
    simp only [BinaryOps.eval, BinaryOps.bopKind, bvCompute, signedDiv, Option.ite_none_left_eq_some,
      Option.ite_none_right_eq_some, Option.some.injEq, not_or] at h ⊢
  case udiv | urem => rw [if_neg h.1, h.2]
  case sdiv | srem => rw [if_neg h.1.1, if_neg fun h' => h.1.2 h'.2, h.2]
  case shl | lshr | ashr => rw [Nat.mod_eq_of_lt h.1, h.2]
  all_goals rw [h]

theorem Predicate.bvCompute_eq (p : Predicate) (x y : BitVec w) :
    bvCompute p.bopKind x y = .ok (ofCondW w (p.eval x y)) := by
  cases p <;> rfl

theorem zext_ofCondW (hw : 0 < w) (c : Bool) : zext (ofCondW w c) = ofCond c := by
  cases c
  · exact BitVec.setWidth_zero 64 w
  · apply BitVec.eq_of_toNat_eq
    have h1 : 1 % 2 ^ w = 1 := Nat.mod_eq_of_lt (Nat.one_lt_two_pow hw.ne')
    simp [zext, ofCondW, ofCond, h1]

/-- A zero-extended word is the zero extension of its low bits. -/
theorem zext_setWidth {a : Word} (h : a.toNat < 2 ^ w) : zext (a.setWidth w) = a := by
  apply BitVec.eq_of_toNat_eq
  have h64 := a.isLt
  rw [zext, BitVec.toNat_setWidth, BitVec.toNat_setWidth, Nat.mod_eq_of_lt h, Nat.mod_eq_of_lt h64]

/-- Multiplying by a power of two and shifting back extends the sign. -/
theorem sshiftRight_mul_zext (hw : w ≤ 64) (x : BitVec w) :
    (zext x * BitVec.ofNat 64 (2 ^ (64 - w))).sshiftRight (64 - w) = sext x := by
  have hmul : zext x * BitVec.ofNat 64 (2 ^ (64 - w)) = zext x <<< (64 - w) := by
    apply BitVec.eq_of_toNat_eq
    rw [BitVec.toNat_mul, BitVec.toNat_ofNat, BitVec.toNat_shiftLeft, Nat.shiftLeft_eq,
      Nat.mul_mod_mod]
  have hmsb : (zext x <<< (64 - w)).msb = x.msb := by
    rw [BitVec.msb_eq_getLsbD_last, BitVec.msb_eq_getLsbD_last, BitVec.getLsbD_shiftLeft, zext,
      BitVec.getLsbD_setWidth]
    rcases Nat.eq_zero_or_pos w with rfl | h0
    · simp
    · have : 64 - 1 - (64 - w) = w - 1 := by omega
      have h1 : ¬64 - 1 < 64 - w := by omega
      simp [this, h1]
      omega
  apply BitVec.eq_of_getLsbD_eq
  intro i hi
  rw [hmul, BitVec.getLsbD_sshiftRight, hmsb, sext, BitVec.getLsbD_signExtend]
  by_cases h : i < w
  · have h1 : 64 - w + i < 64 := by omega
    simp [h, hi, h1, zext]
  · have h1 : ¬64 - w + i < 64 := by omega
    simp [h, hi, h1]

/-- Extending the sign to 64 bits extends it to fewer bits iff it is zero. -/
theorem sext_eq_zext_signExtend {bw : ℕ} (hlt : w < bw) (hbw : bw ≤ 64) (x : BitVec w) :
    sext x = zext (x.signExtend bw) ↔ bw = 64 ∨ x.msb = false := by
  by_cases h64 : bw = 64
  · subst h64
    simp [sext, zext]
  have hlast : (sext x).getLsbD bw = x.msb := by
    rw [sext, BitVec.getLsbD_signExtend]
    have h1 : bw < 64 := by omega
    have h2 : ¬bw < w := by omega
    simp [h1, h2]
  constructor
  · intro h
    right
    rw [← hlast, h, zext, BitVec.getLsbD_setWidth]
    simp
  · rintro (h | h)
    · exact absurd h h64
    · rw [sext, zext, BitVec.signExtend_eq_setWidth_of_msb_false h,
        BitVec.signExtend_eq_setWidth_of_msb_false h]
      apply BitVec.eq_of_toNat_eq
      have hx : x.toNat < 2 ^ bw := x.isLt.trans (Nat.pow_lt_pow_right (by norm_num) hlt)
      rw [BitVec.toNat_setWidth, BitVec.toNat_setWidth, BitVec.toNat_setWidth, Nat.mod_eq_of_lt hx]

end Arithmetic

/-! ## What an emission leaves -/

/-- The emission of `v` takes `s` to `s'`, and its lines leave in `v` every result `r` that `p`
    allows for the machine they start on. -/
def Leaves (s : State) (v : EmitVal) (s' : State) (p : Machine → Word → Prop) : Prop :=
  ∃ lines, s' = { s with code := s.code ++ lines } ∧
    ∀ A m r, p m r → ∃ m', execLines A m lines = some m' ∧ v.Holds m' r

section Emission

variable {s s' : State} {dest bw : ℕ} {v a b : EmitVal} {m : Machine} {x y : Word}

theorem EmitVal.Holds.const_eq {w : Word} (h : (EmitVal.const w).Holds m x) : w = x := h.2

theorem leaves_nothing {p : Machine → Word → Prop} (h : ∀ m r, p m r → v.Holds m r) :
    Leaves s v s p :=
  ⟨[], by simp, fun _ m r hp => ⟨m, rfl, h m r hp⟩⟩

theorem leaves_line {l : Line} {p : Machine → Word → Prop}
    (h : ∀ A m r, p m r → l.exec A m = some (m.setReg dest r)) :
    Leaves s (.reg dest) { s with code := s.code ++ [l] } p :=
  ⟨[l], rfl, fun A m r hp => ⟨_, execLines_singleton.trans (h A m r hp), by simp, read_reg_setReg⟩⟩

/-- An operand that holds a value and is a constant is a number. -/
theorem EmitVal.Holds.eq_const (h : v.Holds m x) (hc : v.isConst = true) : v = .const x := by
  cases v with
  | const w => rw [h.const_eq]
  | undefValue => exact absurd rfl h.1
  | _ => cases hc

theorem createBinOp_leaves {op : BinaryOps} (hbw : checkSrcType (.int bw) = true)
    (h : createBinOp dest op bw a b s = .ok (v, s')) :
    Leaves s v s' fun m r => ∃ x y, a.Holds m x ∧ b.Holds m y ∧
      (op.eval (x.setWidth bw) (y.setWidth bw)).map zext = some r := by
  simp only [createBinOp, ite_ok_iff, bind_ok_iff, pure_ok_iff, emit_ok, Bool.and_eq_true] at h
  obtain ⟨⟨ha, hb⟩, rfl, rfl⟩ | ⟨-, ⟨⟩, s1, rfl, rfl, rfl⟩ := h
  · refine leaves_nothing fun m r hex => ?_
    obtain ⟨x, y, hx, hy, hr⟩ := hex
    obtain ⟨z, hz, rfl⟩ := Option.map_eq_some_iff.mp hr
    rw [hx.eq_const ha, hy.eq_const hb]
    simp only [foldBinary, hz]
    exact ⟨by simp, rfl⟩
  · refine leaves_line fun A m r hex => ?_
    obtain ⟨x, y, hx, hy, hr⟩ := hex
    obtain ⟨z, hz, rfl⟩ := Option.map_eq_some_iff.mp hr
    obtain ⟨size, hsize, rfl⟩ := sizeOfBw_of_checkSrcType hbw
    simp only [Line.exec, hsize, Option.bind_some, hx.2, hy.2, compute_eq,
      BinaryOps.bvCompute_eq hz]
    rfl

theorem createICmp_leaves {p : Predicate} (hbw : checkSrcType (.int bw) = true)
    (h : createICmp dest p bw a b s = .ok (v, s')) :
    Leaves s v s' fun m r => ∃ x y, a.Holds m x ∧ b.Holds m y ∧
      ofCond (p.eval (x.setWidth bw) (y.setWidth bw)) = r := by
  have hline : Leaves s (.reg dest)
      { s with code := s.code ++ [.bop dest p.bopKind a b bw] } fun m r =>
        ∃ x y, a.Holds m x ∧ b.Holds m y ∧
          ofCond (p.eval (x.setWidth bw) (y.setWidth bw)) = r := by
    refine leaves_line fun A m r ⟨x, y, hx, hy, hr⟩ => ?_
    obtain ⟨size, hsize, rfl⟩ := sizeOfBw_of_checkSrcType hbw
    simp only [Line.exec, hsize, Option.bind_some, hx.2, hy.2, compute_eq,
      Predicate.bvCompute_eq, ← hr, ← zext_ofCondW (bwOf_pos size)]
    rfl
  unfold createICmp at h
  split at h
  · obtain ⟨rfl, rfl⟩ := pure_ok_iff.mp h
    refine leaves_nothing fun m r ⟨x, y, hx, hy, hr⟩ => ⟨by simp, ?_⟩
    rw [← hr, ← hx.const_eq, ← hy.const_eq]
    rfl
  · rename_i hconst
    simp only [ite_ok_iff, bind_ok_iff, pure_ok_iff, emit_ok, Bool.and_eq_true] at h
    obtain ⟨⟨ha, hb⟩, rfl, rfl⟩ | ⟨-, ⟨⟩, s1, rfl, rfl, rfl⟩ := h
    · refine leaves_nothing fun m r ⟨x, y, hx, hy, _⟩ => ?_
      exact (hconst x y (hx.eq_const ha) (hy.eq_const hb)).elim
    · exact hline

theorem setWidth_one_eq {c : Word} (h : c.toNat < 2) : c.setWidth 1 = 1#1 ↔ c ≠ 0 := by
  have hc : c = 0 ∨ c = 1 := by
    rcases Nat.lt_succ_iff_lt_or_eq.mp h with h | h
    · exact Or.inl (BitVec.eq_of_toNat_eq (Nat.lt_one_iff.mp h))
    · exact Or.inr (BitVec.eq_of_toNat_eq h)
  rcases hc with rfl | rfl <;> decide

theorem createSelect_leaves {c : EmitVal} (h : createSelect dest c a b s = .ok (v, s')) :
    Leaves s v s' fun m r => ∃ z x y, c.Holds m z ∧ a.Holds m x ∧ b.Holds m y ∧ z.toNat < 2 ∧
      (if z.setWidth 1 = 1#1 then x else y) = r := by
  simp only [createSelect, ite_ok_iff, bind_ok_iff, pure_ok_iff, emit_ok, Bool.and_eq_true] at h
  obtain ⟨⟨⟨hc, ha⟩, hb⟩, h⟩ | ⟨-, ⟨⟩, s1, rfl, rfl, rfl⟩ := h
  · cases c with
    | const w =>
      obtain ⟨rfl, rfl⟩ := pure_ok_iff.mp h
      refine leaves_nothing fun m r hex => ?_
      obtain ⟨z, x, y, hz, hx, hy, -, hr⟩ := hex
      rw [← hr, ← hz.const_eq]
      split_ifs
      · exact hx
      · exact hy
    | undefValue =>
      obtain ⟨rfl, rfl⟩ := pure_ok_iff.mp h
      refine leaves_nothing fun m r hex => ?_
      obtain ⟨z, x, y, hz, -⟩ := hex
      exact absurd rfl hz.1
    | _ => cases hc
  · refine leaves_line fun A m r hex => ?_
    obtain ⟨z, x, y, hz, hx, hy, hlt, hr⟩ := hex
    simp only [Line.exec, hz.2, hx.2, hy.2, ← hr, setWidth_one_eq hlt]

theorem createBitCast_leaves {src ty : Ty} (h : createBitCast dest a src ty s = .ok (v, s')) :
    Leaves s v s' fun m r => a.Holds m r := by
  simp only [createBitCast, ite_ok_iff, bind_ok_iff, pure_ok_iff, emit_ok] at h
  obtain ⟨-, rfl, rfl⟩ | ⟨-, ⟨⟩, s1, rfl, rfl, rfl⟩ := h
  · exact leaves_nothing fun m r h => h
  · refine leaves_line fun A m r h => ?_
    simp only [Line.exec, h.2]

theorem createPtrCast_leaves (h : createPtrCast dest a s = .ok (v, s')) :
    Leaves s v s' fun m r => a.Holds m r := by
  simp only [createPtrCast, ite_ok_iff, bind_ok_iff, pure_ok_iff, emit_ok] at h
  obtain ⟨-, rfl, rfl⟩ | ⟨-, ⟨⟩, s1, rfl, rfl, rfl⟩ := h
  · exact leaves_nothing fun m r h => h
  · refine leaves_line fun A m r h => ?_
    simp only [Line.exec, h.2]

theorem holds_const {w : Word} : (EmitVal.const w).Holds m w := ⟨by simp, rfl⟩

theorem Leaves.mono {p q : Machine → Word → Prop} (h : Leaves s v s' p) (hpq : ∀ m r, q m r → p m r) :
    Leaves s v s' q := by
  obtain ⟨lines, hs, hl⟩ := h
  exact ⟨lines, hs, fun A m r hq => hl A m r (hpq m r hq)⟩

theorem Leaves.trans {w : EmitVal} {s1 : State} {p q : Machine → Word → Prop}
    (h1 : Leaves s w s1 p) (h2 : Leaves s1 v s' q) {f : Machine → Word → Prop}
    (hf : ∀ m r, f m r → ∃ z, p m z ∧ ∀ m', w.Holds m' z → q m' r) : Leaves s v s' f := by
  obtain ⟨l1, rfl, hl1⟩ := h1
  obtain ⟨l2, rfl, hl2⟩ := h2
  refine ⟨l1 ++ l2, by simp [List.append_assoc], fun A m r hr => ?_⟩
  obtain ⟨z, hz, hq⟩ := hf m r hr
  obtain ⟨m1, hm1, hw⟩ := hl1 A m z hz
  obtain ⟨m2, hm2, hv⟩ := hl2 A m1 r (hq m1 hw)
  exact ⟨m2, by rw [execLines_append, hm1, Option.bind_some, hm2], hv⟩

/-- A multiplication by 1 in 64 bits. -/
theorem createCopy_leaves (h : createBinOp dest .mul 64 a (.const 1) s = .ok (v, s')) :
    Leaves s v s' fun m r => a.Holds m r := by
  refine (createBinOp_leaves (by rfl) h).mono fun m r hr => ⟨r, 1, hr, holds_const, ?_⟩
  simp [BinaryOps.eval, zext]

/-- The sign extension of `bw` bits leaves all 64 bits extended. -/
theorem createSExt_leaves (hbw : checkSrcType (.int bw) = true)
    (h : createSExt dest bw a s = .ok (v, s')) :
    Leaves s v s' fun m r => ∃ x : BitVec bw, a.Holds m (zext x) ∧ sext x = r := by
  have hle : bw ≤ 64 := by
    obtain ⟨size, -, rfl⟩ := sizeOfBw_of_checkSrcType hbw
    exact bwOf_le size
  simp only [createSExt, ite_ok_iff, bind_ok_iff] at h
  obtain ⟨hlt, w, s1, h1, h2⟩ | ⟨hge, h⟩ := h
  · have hshift : (BitVec.ofNat 64 (64 - bw)).toNat = 64 - bw := by
      rw [BitVec.toNat_ofNat, Nat.mod_eq_of_lt]
      omega
    have hpos : 0 < bw := by
      obtain ⟨size, -, rfl⟩ := sizeOfBw_of_checkSrcType hbw
      exact bwOf_pos size
    refine (createBinOp_leaves (by rfl) h1).trans (createBinOp_leaves (by rfl) h2) ?_
    rintro m r ⟨x, hx, hr⟩
    refine ⟨zext x * BitVec.ofNat 64 (2 ^ (64 - bw)),
      ⟨_, _, hx, holds_const, by simp [BinaryOps.eval, zext]⟩, fun m' hw => ?_⟩
    refine ⟨_, _, hw, holds_const, ?_⟩
    rw [← hr, ← sshiftRight_mul_zext hle]
    have h64 : 64 - bw < 64 := by omega
    simp only [BinaryOps.eval, BitVec.setWidth_eq, hshift, h64, if_true, Option.map_some, zext]
  · obtain rfl : bw = 64 := by omega
    refine (createCopy_leaves h).mono fun m r hex => ?_
    obtain ⟨x, hx, hr⟩ := hex
    rw [← hr]
    simpa [zext, sext] using hx

end Emission

/-! ## The visitors -/

/-- A line that moves a value between a register and its slot. -/
def Line.isMove : Line → Bool
  | .fill _ _ | .spill _ _ => true
  | _ => false

/-- Only fills and spills are emitted from `s` to `s'`. -/
def Moves (s s' : State) : Prop :=
  ∃ moves, (∀ l ∈ moves, l.isMove = true) ∧ s'.code = s.code ++ moves

/-- The lines `moves`, fills and spills, are emitted from `s` to `s'`; whoever is in a register then
    was there before, with the same value, or has been filled. -/
structure MovesBy (moves : List Line) (s s' : State) : Prop where
  isMove : ∀ l ∈ moves, l.isMove = true
  code : s'.code = s.code ++ moves
  held : ∀ J v, s'.ra.get J ≠ 0 → s'.sourceToEmitMap J = some v →
    (s.ra.get J ≠ 0 ∧ s.sourceToEmitMap J = some v) ∨ ∃ k, v = .reg k ∧ .fill k J ∈ moves

/-- A visit that starts in `s` and emits `moves` reads the operand `V` as `v`: as its value in `s`
    (that of a constant, a global variable or an argument, or that of an instruction which is in a
    register), or from the register that one of the `moves` fills. -/
def OperandRead (c : Ctx) (s : State) (moves : List Line) (V : Operand) (v : EmitVal) : Prop :=
  OperandVal c s V v ∨ ∃ J k, V.inst? = some J ∧ v = .reg k ∧ .fill k J ∈ moves

/-- The visit of `I` moves values to and from their slots, emits `lines` for the result, which is
    read as `v`, and then only spills. It reads its operands as `vals`. -/
structure Lowered (c : Ctx) (I : InstRef) (operands : List Operand) (s s' : State)
    (vals : List EmitVal) (lines : List Line) (v : EmitVal) : Prop where
  code : ∃ moves rest, (∀ l ∈ moves, l.isMove = true) ∧ (∀ l ∈ rest, l.isSpill = true) ∧
    s'.code = s.code ++ moves ++ lines ++ .value I v :: rest ∧
    List.Forall₂ (OperandRead c s moves) operands vals
  value : s'.sourceToEmitMap I = some v

/-- The lines that a visit emits for the result of `x` leave there every `r` that `q` allows for the
    zero-extended values of the operands. -/
def Lowers (c : Ctx) (I : InstRef) (x : Inst) (s s' : State)
    (q : Answer → Machine → List Word → Word → Prop) : Prop :=
  ∃ vals lines v, Lowered c I x.operands s s' vals lines v ∧
    ∀ A m args r, List.Forall₂ (EmitVal.Holds m) vals args →
      List.Forall₂ Operand.ZeroExt x.operands args → q A m args r →
      ∃ m', execLines A m lines = some m' ∧ v.Holds m' r

section Visitors

variable {c : Ctx} {I : InstRef} {s s' s1 : State} {u : Unit} {k : ℕ}

theorem MovesBy.of_same (ha : s'.ra.activeSet = s.ra.activeSet)
    (hm : s'.sourceToEmitMap = s.sourceToEmitMap) (hc : s'.code = s.code) : MovesBy [] s s' :=
  ⟨by simp, by rw [hc, List.append_nil], fun J v hJ hv =>
    Or.inl ⟨by rwa [get_congr ha J] at hJ, hm ▸ hv⟩⟩

theorem MovesBy.trans {l1 l2 : List Line} (h1 : MovesBy l1 s s1) (h2 : MovesBy l2 s1 s') :
    MovesBy (l1 ++ l2) s s' := by
  refine ⟨fun l hl => ?_, by rw [h2.code, h1.code, List.append_assoc], fun J v hJ hv => ?_⟩
  · exact (List.mem_append.mp hl).elim (h1.isMove l) (h2.isMove l)
  · obtain ⟨hJ1, hv1⟩ | ⟨k, hk, hfill⟩ := h2.held J v hJ hv
    · obtain h | ⟨k, hk, hfill⟩ := h1.held J v hJ1 hv1
      · exact Or.inl h
      · exact Or.inr ⟨k, hk, List.mem_append_left _ hfill⟩
    · exact Or.inr ⟨k, hk, List.mem_append_right _ hfill⟩

theorem OperandRead.mono {l1 l2 : List Line} {V : Operand} {v : EmitVal}
    (h : OperandRead c s l1 V v) : OperandRead c s (l1 ++ l2) V v :=
  h.imp_right fun ⟨J, k, hJ, hv, hfill⟩ => ⟨J, k, hJ, hv, List.mem_append_left _ hfill⟩

/-- What is read after some moves is read by the visit. -/
theorem OperandRead.after {l1 l2 : List Line} {V : Operand} {v : EmitVal}
    (h : OperandRead c s1 l2 V v) (hm : MovesBy l1 s s1) : OperandRead c s (l1 ++ l2) V v := by
  obtain hval | ⟨J, k, hJ, hv, hfill⟩ := h
  · cases hi : V.inst? with
    | none => exact Or.inl (hval.congr hi s)
    | some J =>
      obtain ⟨val, ty⟩ := V
      cases val <;> cases hi
      obtain hheld | ⟨k, hk, hfill⟩ := hm.held J v hval.1 hval.2
      · exact Or.inl hheld
      · exact Or.inr ⟨J, k, rfl, hk, List.mem_append_left _ hfill⟩
  · exact Or.inr ⟨J, k, hJ, hv, List.mem_append_right _ hfill⟩

theorem isMove_of_isSpill {l : Line} (h : l.isSpill = true) : l.isMove = true := by
  cases l <;> first | rfl | cases h

/-- Spills change no value and make nothing active. -/
theorem OnlySpills.movesBy (h : OnlySpills s s') (ho : Ownership s.ra) : ∃ moves, MovesBy moves s s' := by
  obtain ⟨hactive, hmap, spills, hspills, hcode⟩ := h
  refine ⟨spills, fun l hl => isMove_of_isSpill (hspills l hl), hcode, fun J v hJ hv => Or.inl ⟨?_, ?_⟩⟩
  · obtain ⟨e, he, hes, -⟩ := mem_of_get_ne_zero hJ
    exact fun h0 => ho.get_eq_zero_iff.mp h0 e (hactive e he) hes
  · rwa [hmap] at hv

theorem evictOne_moves {t : ℕ} (h : evictOne c t s = .ok (u, s')) : Moves s s' := by
  obtain ⟨spills, hspills, hcode⟩ := evictOne_spills h
  exact ⟨spills, fun l hl => isMove_of_isSpill (hspills l hl), hcode⟩

theorem requestRegister_moves (h : requestRegister c I s = .ok (k, s')) : Moves s s' := by
  simp only [requestRegister, bind_ok_iff, pure_ok_iff, reportUseNoPop_ok] at h
  obtain ⟨k1, s1, h1, ⟨⟩, s2, ⟨ra, -, rfl⟩, rfl, rfl⟩ := h
  obtain ⟨-, h1 | ⟨s0, s2, h0, h2, h3⟩⟩ := requestOrEvict_ok h1
  · obtain ⟨ra, -, rfl⟩ := withRA_ok.mp h1
    exact ⟨[], by simp, by simp⟩
  · obtain ⟨ra, -, rfl⟩ := withRA_ok.mp h0
    obtain ⟨ra, -, rfl⟩ := withRA_ok.mp h3
    obtain ⟨moves, hm, hc⟩ := evictOne_moves h2
    exact ⟨moves, hm, hc⟩

/-- The translation of an operand emits moves, and reads the operand as `OperandRead` says. -/
theorem translate_operandRead {V : Operand} {v : EmitVal}
    (h : translateSrcOperandToTgt c V I s = .ok ((v, k), s')) :
    ∃ moves, (∀ l ∈ moves, l.isMove = true) ∧ s'.code = s.code ++ moves ∧ OperandRead c s moves V v := by
  cases hi : V.inst? with
  | none =>
    obtain ⟨rfl, -, hval⟩ := translateConst_ok hi h
    exact ⟨[], by simp, by simp, Or.inl hval⟩
  | some J =>
    obtain ⟨val, ty⟩ := V
    cases val <;> cases hi
    obtain ⟨s1, t, q, ra, hget, -, hv, -, rfl⟩ := translateInst_ok h
    unfold getRegister at hget
    split_ifs at hget with h0
    · simp only [fillRegister, bind_ok_iff, emit_ok, setEmitVal_ok, pure_ok_iff] at hget
      obtain ⟨k2, s2, hreq, ⟨⟩, s4, rfl, ⟨⟩, s5, rfl, -, rfl⟩ := hget
      obtain ⟨moves, hmoves, hcode⟩ := requestRegister_moves hreq
      have hvk : v = .reg k2 := by
        have hJ : Function.update s2.sourceToEmitMap J (some (EmitVal.reg k2)) J = some v := hv
        rw [Function.update_self] at hJ
        exact (Option.some.inj hJ).symm
      refine ⟨moves ++ [.fill k2 J], fun l hl => ?_, ?_, Or.inr ⟨J, k2, rfl, hvk, by simp⟩⟩
      · rcases List.mem_append.mp hl with hl | hl
        · exact hmoves l hl
        · rw [List.mem_singleton.mp hl]
          rfl
      · show s2.code ++ _ = _
        rw [hcode, List.append_assoc]
    · cases hget
      exact ⟨[], by simp, by simp, Or.inl ⟨h0, hv⟩⟩

theorem translate_moves {V : Operand} {p : EmitVal × ℕ}
    (h : translateSrcOperandToTgt c V I s = .ok (p, s')) : Moves s s' := by
  obtain ⟨moves, hmoves, hcode, -⟩ := translate_operandRead h
  exact ⟨moves, hmoves, hcode⟩

theorem translate_movesBy {V : Operand} {v : EmitVal} (ho : Ownership s.ra)
    (h : translateSrcOperandToTgt c V I s = .ok ((v, k), s')) :
    ∃ moves, MovesBy moves s s' ∧ OperandRead c s moves V v := by
  obtain ⟨moves, hmoves, hcode, hread⟩ := translate_operandRead h
  refine ⟨moves, ⟨hmoves, hcode, fun K w hK hw => ?_⟩, hread⟩
  cases hi : V.inst? with
  | none =>
    obtain ⟨rfl, -, -⟩ := translateConst_ok hi h
    exact Or.inl ⟨hK, hw⟩
  | some J =>
    obtain ⟨val, ty⟩ := V
    cases val <;> cases hi
    have htr := translated_of_ok ho h
    obtain ⟨n, hmem⟩ := htr.active
    by_cases hKJ : K = J
    · subst hKJ
      cases htr.value.symm.trans hw
      obtain hval | ⟨L, j, hL, hv, hfill⟩ := hread
      · exact Or.inl hval
      · cases hL
        exact Or.inr ⟨j, hv, hfill⟩
    · rw [htr.others K hKJ] at hw
      refine Or.inl ⟨fun h0 => ?_, hw⟩
      obtain ⟨e, he, hes, -⟩ := mem_of_get_ne_zero hK
      obtain rfl | ⟨he, -, -⟩ := (hmem e).mp he
      · exact hKJ hes.symm
      · exact ho.get_eq_zero_iff.mp h0 e he hes

/-- The end of a visitor with a result. -/
theorem finish_lowered {operands : List Operand} {vals : List EmitVal} {v : EmitVal} {s2 s3 : State}
    {moves : List Line} {p : Machine → Word → Prop}
    (hops : List.Forall₂ (OperandRead c s moves) operands vals)
    (hm : MovesBy moves s s1) (hreq : requestRegister c I s1 = .ok (k, s2)) (hl : Leaves s2 v s3 p)
    (hs' : s' = { s3 with
      sourceToEmitMap := Function.update s3.sourceToEmitMap I (some v)
      code := s3.code ++ [.value I v] }) :
    ∃ lines, Lowered c I operands s s' vals lines v ∧
      ∀ A m r, p m r → ∃ m', execLines A m lines = some m' ∧ v.Holds m' r := by
  obtain ⟨lines, rfl, hexec⟩ := hl
  obtain ⟨moves', hmoves', hcode'⟩ := requestRegister_moves hreq
  rw [hs']
  refine ⟨lines, ⟨⟨moves ++ moves', [], fun l hl => ?_, by simp, ?_, hops.imp fun _ _ h => h.mono⟩,
    Function.update_self ..⟩, hexec⟩
  · exact (List.mem_append.mp hl).elim (hm.isMove l) (hmoves' l)
  · simp only [hcode', hm.code, List.append_assoc]

/-- A visitor that translates one operand and creates its result from it. -/
theorem unary_lowers {x : Inst} {V : Operand} {f : ℕ → EmitVal → M EmitVal}
    {q : Machine → Word → Word → Prop} (ho : Ownership s.ra) (hx : x.operands = [V])
    (hf : ∀ {k op v s1 s2}, f k op s1 = .ok (v, s2) →
      Leaves s1 v s2 fun m r => ∃ a, op.Holds m a ∧ V.ZeroExt a ∧ q m a r)
    (h : (do
      let (op, _) ← translateSrcOperandToTgt c V I
      let regId ← requestRegister c I
      let res ← f regId op
      define I res) s = .ok (u, s')) :
    Lowers c I x s s' fun _ m args r => ∃ a, args = [a] ∧ q m a r := by
  simp only [bind_ok_iff, define_ok] at h
  obtain ⟨⟨op, kop⟩, s1, hop, k, s2, hreq, v, s3, hv, hs'⟩ := h
  obtain ⟨moves, hmoves, hread⟩ := translate_movesBy ho hop
  have hops : List.Forall₂ (OperandRead c s moves) x.operands [op] := by
    rw [hx]
    exact .cons hread .nil
  obtain ⟨lines, hlow, hexec⟩ := finish_lowered hops hmoves hreq (hf hv) hs'
  refine ⟨[op], lines, v, hlow, fun A m args r hargs hext ⟨a, hq⟩ => hexec A m r ⟨a, ?_⟩⟩
  obtain ⟨rfl, hq⟩ := hq
  rw [hx] at hext
  exact ⟨(List.forall₂_cons.mp hargs).1, (List.forall₂_cons.mp hext).1, hq⟩

/-- A visitor that translates two operands under `reportUser` and creates its result from them. -/
theorem binary_lowers {x : Inst} {V W : Operand} {f : ℕ → EmitVal → EmitVal → M EmitVal}
    {q : Word → Word → Word → Prop} (ho : Ownership s.ra) (hx : x.operands = [V, W])
    (hf : ∀ {k a b v s1 s2}, f k a b s1 = .ok (v, s2) →
      Leaves s1 v s2 fun m r => ∃ x y, a.Holds m x ∧ b.Holds m y ∧ q x y r)
    (h : (do
      reportUser (some I)
      let (op1, _) ← translateSrcOperandToTgt c V I
      let (op2, _) ← translateSrcOperandToTgt c W I
      reportUser none
      let regId ← requestRegister c I
      let res ← f regId op1 op2
      define I res) s = .ok (u, s')) :
    Lowers c I x s s' fun _ _ args r => ∃ a b, args = [a, b] ∧ q a b r := by
  simp only [bind_ok_iff, reportUser_ok, define_ok] at h
  obtain ⟨⟨⟩, s0, rfl, ⟨v1, k1⟩, s1, hv1, ⟨v2, k2⟩, s2, hv2, ⟨⟩, s3, rfl, k, s4, hreq, v, s5, hv,
    hs'⟩ := h
  have ho0 : Ownership (s.ra.reportUser (some I)) := ho.reportUser (some I)
  obtain ⟨moves1, hm1, hr1⟩ := translate_movesBy ho0 hv1
  obtain ⟨moves2, hm2, hr2⟩ := translate_movesBy (translate_ownership ho0 hv1) hv2
  have hm0 : MovesBy [] s { s with ra := s.ra.reportUser (some I) } := .of_same rfl rfl rfl
  have hm := ((hm0.trans hm1).trans hm2).trans
    (.of_same rfl rfl rfl : MovesBy [] s2 { s2 with ra := s2.ra.reportUser none })
  have hops : List.Forall₂ (OperandRead c s ([] ++ moves1 ++ moves2 ++ [])) x.operands [v1, v2] := by
    rw [hx]
    exact .cons (hr1.after hm0).mono.mono (.cons (hr2.after (hm0.trans hm1)).mono .nil)
  obtain ⟨lines, hlow, hexec⟩ := finish_lowered hops hm hreq (hf hv) hs'
  refine ⟨[v1, v2], lines, v, hlow, fun A m args r hargs _ ⟨a, b, hq⟩ => hexec A m r ⟨a, b, ?_⟩⟩
  obtain ⟨rfl, hq⟩ := hq
  obtain ⟨h1, hargs⟩ := List.forall₂_cons.mp hargs
  exact ⟨h1, (List.forall₂_cons.mp hargs).1, hq⟩

theorem Lowers.mono {x : Inst} {q q' : Answer → Machine → List Word → Word → Prop}
    (h : Lowers c I x s s' q) (hq : ∀ A m args r, List.Forall₂ Operand.ZeroExt x.operands args →
      q' A m args r → q A m args r) : Lowers c I x s s' q' := by
  obtain ⟨vals, lines, v, hlow, hexec⟩ := h
  exact ⟨vals, lines, v, hlow, fun A m args r hargs hext hr =>
    hexec A m args r hargs hext (hq A m args r hext hr)⟩

theorem args_one {α β : Type} {R : α → β → Prop} {a : α} {l : List β}
    (h : List.Forall₂ R [a] l) : ∃ x, l = [x] ∧ R a x := by
  obtain _ | ⟨h1, h⟩ := h
  cases h
  exact ⟨_, rfl, h1⟩

theorem args_two {α β : Type} {R : α → β → Prop} {a b : α} {l : List β}
    (h : List.Forall₂ R [a, b] l) : ∃ x y, l = [x, y] ∧ R a x ∧ R b y := by
  obtain _ | ⟨h1, h⟩ := h
  obtain ⟨y, rfl, hy⟩ := args_one h
  exact ⟨_, y, rfl, h1, hy⟩

theorem args_three {α β : Type} {R : α → β → Prop} {a b c : α} {l : List β}
    (h : List.Forall₂ R [a, b, c] l) : ∃ x y z, l = [x, y, z] ∧ R a x ∧ R b y ∧ R c z := by
  obtain _ | ⟨h1, h⟩ := h
  obtain ⟨y, z, rfl, hy, hz⟩ := args_two h
  exact ⟨_, y, z, rfl, h1, hy, hz⟩

/-- What the lowering leaves for `x`: its result, except that a sign extension fills all 64 bits,
    that an address is not truncated, and that a call leaves the word that the callee returns. -/
def Inst.leaves (x : Inst) (A : Answer) (m : Machine) (args : List Word) (r : Word) : Prop :=
  match x, args with
  | .sext a _, [y] => Interp.sext (y.setWidth a.ty.width) = r
  | .ptrtoint _ _, [y] => y = r
  | .call _ _ _, _ => A.value = r
  | x, args => x.eval m.mem A.value args = some r

theorem visitLoadInst_lowers {ptr : Operand} (ho : Ownership s.ra)
    (h : visitLoadInst c I ptr s = .ok (u, s')) :
    Lowers c I (.load ptr) s s' (Inst.leaves (.load ptr)) := by
  obtain ⟨val, ty⟩ := ptr
  cases ty with
  | ptr elem =>
    obtain ⟨⟨⟩, s1, hreq, h⟩ := bind_ok_iff.mp h
    obtain ⟨-, rfl⟩ := require_ok.mp hreq
    let f : ℕ → EmitVal → M EmitVal := fun k op => do
      emit (.load k (getAccessSize elem) op)
      pure (.reg k)
    have hload : ∀ {k op v s1 s2}, f k op s1 = .ok (v, s2) →
        Leaves s1 v s2 fun m r => ∃ a, op.Holds m a ∧
          Operand.ZeroExt ⟨val, .ptr elem⟩ a ∧
          loadLittleEndian m.mem (getAccessSize elem) a = r := by
      intro k op v s1 s2 hv
      simp only [f, bind_ok_iff, emit_ok, pure_ok_iff] at hv
      obtain ⟨⟨⟩, s3, rfl, rfl, rfl⟩ := hv
      refine leaves_line fun A m r ⟨a, ha, _, hr⟩ => ?_
      simp only [Line.exec, ha.2, hr]
    refine (unary_lowers (u := u) (x := .load ⟨val, .ptr elem⟩) (f := f) ho rfl hload ?_).mono
      ?_
    · simpa only [f, bind_assoc, pure_bind] using h
    intro A m args r hext hr
    obtain ⟨a, rfl, -⟩ := args_one hext
    simp only [Inst.leaves, Inst.eval, Option.ite_none_right_eq_some, Option.some.injEq] at hr
    exact ⟨a, rfl, hr.2⟩
  | _ => exact (throw_ok_iff.mp h).elim

theorem visitBinaryOperator_lowers {op : BinaryOps} {lhs rhs : Operand} (ho : Ownership s.ra)
    (h : visitBinaryOperator c I op lhs rhs s = .ok (u, s')) :
    Lowers c I (.binary op lhs rhs) s s' (Inst.leaves (.binary op lhs rhs)) := by
  obtain ⟨val, ty⟩ := lhs
  cases ty with
  | int bw =>
    obtain ⟨⟨⟩, s1, hreq, h⟩ := bind_ok_iff.mp h
    obtain ⟨hbw, rfl⟩ := require_ok.mp hreq
    refine (binary_lowers (x := .binary op ⟨val, .int bw⟩ rhs)
      (f := fun k a b => createBinOp k op bw a b) ho rfl
      (fun hv => createBinOp_leaves hbw hv) h).mono ?_
    intro A m args r hext hr
    obtain ⟨x, y, rfl, -⟩ := args_two hext
    exact ⟨x, y, rfl, hr⟩
  | _ => exact (throw_ok_iff.mp h).elim

theorem visitICmpInst_lowers {pred : Predicate} {lhs rhs : Operand} (ho : Ownership s.ra)
    (h : visitICmpInst c I pred lhs rhs s = .ok (u, s')) :
    Lowers c I (.icmp pred lhs rhs) s s' (Inst.leaves (.icmp pred lhs rhs)) := by
  obtain ⟨⟨⟩, s1, hreq, h⟩ := bind_ok_iff.mp h
  obtain ⟨hty, rfl⟩ := require_ok.mp hreq
  have hbw : checkSrcType (.int (icmpWidth lhs.ty)) = true := by
    cases hl : lhs.ty with
    | int bw => rwa [hl] at hty
    | _ => rfl
  have hwidth : lhs.ty.width = icmpWidth lhs.ty := by
    cases lhs.ty <;> rfl
  refine (binary_lowers (x := .icmp pred lhs rhs)
    (f := fun k a b => createICmp k pred (icmpWidth lhs.ty) a b) ho rfl
    (fun hv => createICmp_leaves hbw hv) h).mono ?_
  intro A m args r hext hr
  obtain ⟨x, y, rfl, -⟩ := args_two hext
  simp only [Inst.leaves, Inst.eval, Option.some.injEq] at hr
  rw [hwidth] at hr
  exact ⟨x, y, rfl, hr⟩

theorem visitSelectInst_lowers {cond ifTrue ifFalse : Operand} (ho : Ownership s.ra)
    (hwt : (Inst.select cond ifTrue ifFalse).wellTyped)
    (h : visitSelectInst c I cond ifTrue ifFalse s = .ok (u, s')) :
    Lowers c I (.select cond ifTrue ifFalse) s s' (Inst.leaves (.select cond ifTrue ifFalse)) := by
  simp only [visitSelectInst, bind_ok_iff, reportUser_ok, define_ok] at h
  obtain ⟨⟨⟩, s0, rfl, ⟨v1, k1⟩, s1, hv1, ⟨v2, k2⟩, s2, hv2, ⟨v3, k3⟩, s3, hv3, ⟨⟩, s4, rfl, k, s5,
    hreq, v, s6, hv, hs'⟩ := h
  have ho0 : Ownership (s.ra.reportUser (some I)) := ho.reportUser (some I)
  have ho1 := translate_ownership ho0 hv1
  obtain ⟨moves1, hm1, hr1⟩ := translate_movesBy ho0 hv1
  obtain ⟨moves2, hm2, hr2⟩ := translate_movesBy ho1 hv2
  obtain ⟨moves3, hm3, hr3⟩ := translate_movesBy (translate_ownership ho1 hv2) hv3
  have hm0 : MovesBy [] s { s with ra := s.ra.reportUser (some I) } := .of_same rfl rfl rfl
  have hm := (((hm0.trans hm1).trans hm2).trans hm3).trans
    (.of_same rfl rfl rfl : MovesBy [] s3 { s3 with ra := s3.ra.reportUser none })
  have hops : List.Forall₂ (OperandRead c s ([] ++ moves1 ++ moves2 ++ moves3 ++ []))
      [cond, ifTrue, ifFalse] [v1, v2, v3] :=
    .cons (hr1.after hm0).mono.mono.mono (.cons (hr2.after (hm0.trans hm1)).mono.mono
      (.cons (hr3.after ((hm0.trans hm1).trans hm2)).mono .nil))
  obtain ⟨lines, hlow, hexec⟩ := finish_lowered hops hm hreq (createSelect_leaves hv) hs'
  refine ⟨[v1, v2, v3], lines, v, hlow, fun A m args r hargs hext hr => hexec A m r ?_⟩
  obtain ⟨z, x, y, rfl, hz, hx, hy⟩ := args_three hargs
  obtain ⟨z', x', y', heq, hz2, -, -⟩ := args_three hext
  cases heq
  rw [Operand.ZeroExt, hwt.1] at hz2
  exact ⟨z, x, y, hz, hx, hy, hz2, Option.some.inj hr⟩

theorem visitBitCastInst_lowers {src : Operand} {ty : Ty} (ho : Ownership s.ra)
    (h : visitBitCastInst c I src ty s = .ok (u, s')) :
    Lowers c I (.bitcast src ty) s s' (Inst.leaves (.bitcast src ty)) := by
  refine (unary_lowers (x := .bitcast src ty) (f := fun k op => createBitCast k op src.ty ty)
    (q := fun _ a r => a = r) ho rfl
    (fun hv => (createBitCast_leaves hv).mono fun m r ⟨a, ha, _, har⟩ => har ▸ ha) h).mono ?_
  intro A m args r hext hr
  obtain ⟨x, rfl, -⟩ := args_one hext
  exact ⟨x, rfl, Option.some.inj hr⟩

theorem visitSExtInst_lowers {src : Operand} {bw : ℕ} (ho : Ownership s.ra)
    (hsrc : checkSrcType src.ty = true) (h : visitSExtInst c I src s = .ok (u, s')) :
    Lowers c I (.sext src bw) s s' (Inst.leaves (.sext src bw)) := by
  obtain ⟨val, ty⟩ := src
  cases ty with
  | int w =>
    refine (unary_lowers (x := .sext ⟨val, .int w⟩ bw) (f := fun k op => createSExt k w op)
      (q := fun _ a r => Interp.sext (a.setWidth w) = r) ho rfl (fun hv =>
        (createSExt_leaves hsrc hv).mono fun m r ⟨a, ha, hext, har⟩ =>
          ⟨a.setWidth w, by rwa [zext_setWidth (w := w) hext], har⟩) h).mono ?_
    intro A m args r hext hr
    obtain ⟨x, rfl, -⟩ := args_one hext
    exact ⟨x, rfl, hr⟩
  | _ => exact (throw_ok_iff.mp h).elim

theorem visitZExtInst_lowers {src : Operand} {bw : ℕ} (ho : Ownership s.ra)
    (hwt : (Inst.zext src bw).wellTyped) (h : visitZExtInst c I src s = .ok (u, s')) :
    Lowers c I (.zext src bw) s s' (Inst.leaves (.zext src bw)) := by
  refine (unary_lowers (x := .zext src bw)
    (f := fun k op => createBinOp k .mul 64 op (.const 1)) (q := fun _ a r => a = r) ho rfl
    (fun hv => (createCopy_leaves hv).mono fun m r ⟨a, ha, _, har⟩ => har ▸ ha) h).mono ?_
  intro A m args r hext hr
  obtain ⟨x, rfl, hx⟩ := args_one hext
  obtain ⟨w, hw, hlt⟩ := hwt
  refine ⟨x, rfl, ?_⟩
  simp only [Inst.leaves, Inst.eval, Option.some.injEq] at hr
  rw [Operand.ZeroExt, hw] at hx
  rw [hw] at hr
  have hx' : x.toNat < 2 ^ w := hx
  have hbw : x.toNat < 2 ^ bw := hx'.trans (Nat.pow_lt_pow_right (by norm_num) hlt)
  rw [← hr]
  apply BitVec.eq_of_toNat_eq
  show x.toNat = (((x.setWidth w).setWidth bw).setWidth 64).toNat
  rw [BitVec.toNat_setWidth, BitVec.toNat_setWidth, BitVec.toNat_setWidth, Nat.mod_eq_of_lt hx',
    Nat.mod_eq_of_lt hbw, Nat.mod_eq_of_lt x.isLt]

theorem visitTruncInst_lowers {src : Operand} {bw : ℕ} (ho : Ownership s.ra) (hbw : bw < 64)
    (h : visitTruncInst c I src bw s = .ok (u, s')) :
    Lowers c I (.trunc src bw) s s' (Inst.leaves (.trunc src bw)) := by
  have hpow : (BitVec.ofNat 64 (2 ^ bw)).toNat = 2 ^ bw := by
    rw [BitVec.toNat_ofNat, Nat.mod_eq_of_lt (Nat.pow_lt_pow_right (by norm_num) hbw)]
  have hmod : ∀ a : Word, a % BitVec.ofNat 64 (2 ^ bw) = Interp.zext (a.setWidth bw) := by
    intro a
    apply BitVec.eq_of_toNat_eq
    rw [BitVec.toNat_umod, hpow, zext_toNat hbw.le, BitVec.toNat_setWidth]
  have hne : BitVec.ofNat 64 (2 ^ bw) ≠ 0 := by
    intro h0
    have := congrArg BitVec.toNat h0
    rw [hpow] at this
    exact (Nat.two_pow_pos bw).ne' this
  refine (unary_lowers (x := .trunc src bw)
    (f := fun k op => createBinOp k .urem 64 op (.const (BitVec.ofNat 64 (2 ^ bw))))
    (q := fun _ a r => Interp.zext (a.setWidth bw) = r) ho rfl
    (fun hv => (createBinOp_leaves (by rfl) hv).mono fun m r ⟨a, ha, _, har⟩ => ?_) h).mono ?_
  · refine ⟨a, _, ha, holds_const, ?_⟩
    simp only [BinaryOps.eval, BitVec.setWidth_eq, hne, if_false, Option.map_some, hmod, har]
    rw [Interp.zext, BitVec.setWidth_eq]
  · intro A m args r hext hr
    obtain ⟨x, rfl, -⟩ := args_one hext
    exact ⟨x, rfl, Option.some.inj hr⟩

theorem visitPtrToIntInst_lowers {src : Operand} {bw : ℕ} (ho : Ownership s.ra)
    (h : visitPtrCast c I src s = .ok (u, s')) :
    Lowers c I (.ptrtoint src bw) s s' (Inst.leaves (.ptrtoint src bw)) := by
  refine (unary_lowers (x := .ptrtoint src bw) (f := createPtrCast) (q := fun _ a r => a = r) ho
    rfl (fun hv => (createPtrCast_leaves hv).mono fun m r ⟨a, ha, _, har⟩ => har ▸ ha) h).mono ?_
  intro A m args r hext hr
  obtain ⟨x, rfl, -⟩ := args_one hext
  exact ⟨x, rfl, hr⟩

theorem translateAll_movesBy : ∀ {Vs : List Operand} {vs : List (EmitVal × ℕ)} {s s' : State},
    Ownership s.ra → translateAll c I Vs s = .ok (vs, s') →
    ∃ moves, MovesBy moves s s' ∧ List.Forall₂ (OperandRead c s moves) Vs (vs.map Prod.fst) := by
  intro Vs
  induction Vs with
  | nil =>
    intro vs s s' _ h
    obtain ⟨rfl, rfl⟩ := pure_ok_iff.mp h
    exact ⟨[], .of_same rfl rfl rfl, .nil⟩
  | cons V Vs ih =>
    intro vs s s' ho h
    simp only [translateAll, bind_ok_iff, pure_ok_iff] at h
    obtain ⟨⟨v, k⟩, s1, hv, ws, s2, hws, rfl, rfl⟩ := h
    obtain ⟨moves1, hm1, hr1⟩ := translate_movesBy ho hv
    obtain ⟨moves2, hm2, hr2⟩ := ih (translate_ownership ho hv) hws
    exact ⟨moves1 ++ moves2, hm1.trans hm2, .cons hr1.mono (hr2.imp fun _ _ h => h.after hm1)⟩

theorem visitCallInst_lowers {callee : String} {args : List Operand} {ty : Ty}
    (ho : Ownership s.ra) (h : visitCallInst c I callee args (some ty) s = .ok (u, s')) :
    Lowers c I (.call callee args (some ty)) s s' (Inst.leaves (.call callee args (some ty))) := by
  simp only [visitCallInst, bind_ok_iff] at h
  obtain ⟨⟨⟩, s1, h1, vs, s2, h2, ⟨⟩, s3, h3, h4⟩ := h
  let d : Site := ⟨I, args, [], True, False, True⟩
  have ho1 := Steps.ownership (handOverRef_steps (d := d) trivial ho h1).1 ho
  have ho2 := Steps.ownership (translateAll_steps (d := d) (fun _ h => h) ho1 h2) ho1
  have ho3 := Steps.ownership (emitCall_steps (d := d) trivial ho2 h3) ho2
  obtain ⟨moves1, hm1⟩ := (handOverRef_onlySpills ho h1).movesBy ho
  obtain ⟨moves2, hm2, hops⟩ := translateAll_movesBy ho1 h2
  obtain ⟨-, hmap, spills, hspills, hcode4⟩ := takeBackRef_onlySpills ho3 h4
  simp only [emitCall, Option.isSome_some, if_true, bind_ok_iff, emit_ok, define_ok] at h3
  obtain ⟨k, s5, hreq, ⟨⟩, s6, rfl, rfl⟩ := h3
  obtain ⟨moves3, hmoves3, hcode⟩ := requestRegister_moves hreq
  refine ⟨vs.map Prod.fst, [.call (some k) callee (vs.map Prod.fst)], .reg k,
    ⟨⟨moves1 ++ moves2 ++ moves3, spills, fun l hl => ?_, hspills, ?_,
      hops.imp fun _ _ h => (h.after hm1).mono⟩, ?_⟩, fun A m ws r _ _ hr => ?_⟩
  · exact (List.mem_append.mp hl).elim ((hm1.trans hm2).isMove l) (hmoves3 l)
  · rw [hcode4]
    simp [hcode, (hm1.trans hm2).code]
  · rw [hmap]
    exact Function.update_self ..
  · refine ⟨_, execLines_singleton.trans rfl, by simp, ?_⟩
    rw [read_reg_setReg]
    exact hr

/-- The operands of a visited instruction have types that the backend accepts. -/
theorem checkSrcType_of_translate {V : Operand} {p : EmitVal × ℕ}
    (h : translateSrcOperandToTgt c V I s = .ok (p, s')) : checkSrcType V.ty = true := by
  obtain ⟨⟨⟩, s1, hreq, -⟩ := bind_ok_iff.mp h
  exact (require_ok.mp hreq).1

/-- The lowering of an instruction with an integer result. -/
theorem visitInst_lowers {x : Inst} {w : ℕ} (hwt : x.wellTyped) (hx : x.ty = some (.int w))
    (ho : Ownership s.ra) (h : visitInst c I x s = .ok (u, s')) :
    Lowers c I x s s' x.leaves := by
  cases x with
  | load p => exact visitLoadInst_lowers ho h
  | binary op a b => exact visitBinaryOperator_lowers ho h
  | icmp p a b => exact visitICmpInst_lowers ho h
  | select x a b => exact visitSelectInst_lowers ho hwt h
  | bitcast a ty => exact visitBitCastInst_lowers ho h
  | sext a bw =>
    refine visitSExtInst_lowers ho ?_ h
    cases hty : a.ty with
    | int w =>
      simp only [visitInst, visitSExtInst, hty, bind_ok_iff] at h
      obtain ⟨⟨op, kop⟩, s1, hop, -⟩ := h
      have := checkSrcType_of_translate hop
      rwa [hty] at this
    | _ =>
      simp only [visitInst, visitSExtInst, hty] at h
      exact (throw_ok_iff.mp h).elim
  | zext a bw => exact visitZExtInst_lowers ho hwt h
  | trunc a bw =>
    refine visitTruncInst_lowers ho ?_ h
    obtain ⟨w, hw, hlt⟩ := hwt
    simp only [visitInst, visitTruncInst, bind_ok_iff] at h
    obtain ⟨⟨op, kop⟩, s1, hop, -⟩ := h
    have hsrc := checkSrcType_of_translate hop
    rw [hw] at hsrc
    obtain ⟨size, -, rfl⟩ := sizeOfBw_of_checkSrcType hsrc
    exact hlt.trans_le (bwOf_le size)
  | ptrtoint a bw => exact visitPtrToIntInst_lowers ho h
  | call f args ty =>
    cases hx
    exact visitCallInst_lowers ho h
  | gep p idxs ty | inttoptr a ty =>
    obtain ⟨elem, rfl⟩ := hwt
    cases hx
  | _ => cases hx

end Visitors

/-! ## The results -/

/-- Only the result of a call depends on what the callee returns. -/
theorem Inst.eval_ret {x : Inst} (hx : ∀ f ops ty, x ≠ .call f ops ty) (ret ret' : Word)
    {mem : Word → BitVec 8} {args : List Word} : x.eval mem ret args = x.eval mem ret' args := by
  unfold Inst.eval
  split
  case h_10 => exact absurd rfl (hx _ _ _)
  all_goals rfl

/-- What the lowering leaves is the result of the instruction iff it `fits`; for a call, iff it is
    what the callee returns. -/
theorem Inst.leaves_iff {x : Inst} {w : ℕ} (hwt : x.wellTyped) (hx : x.ty = some (.int w))
    (hw : checkSrcType (.int w) = true) {A : Answer} {m : Machine} {args : List Word} {ret r : Word}
    (hext : List.Forall₂ Operand.ZeroExt x.operands args)
    (hr : x.eval m.mem ret args = some r) :
    ∃ r', x.leaves A m args r' ∧ (r' = r ↔ x.fits args ∧ x.Answered A ret) := by
  have hw64 : w ≤ 64 := by
    obtain ⟨size, -, rfl⟩ := sizeOfBw_of_checkSrcType hw
    exact bwOf_le size
  cases x with
  | sext a bw =>
    cases hx
    obtain ⟨y, rfl, hy⟩ := args_one hext
    obtain ⟨v, hv, hlt⟩ := hwt
    refine ⟨_, rfl, ?_⟩
    rw [← Option.some.inj hr]
    refine Iff.trans ?_ (and_iff_left trivial).symm
    refine sext_eq_zext_signExtend ?_ hw64 _
    rw [hv]
    exact hlt
  | ptrtoint a bw =>
    cases hx
    obtain ⟨y, rfl, -⟩ := args_one hext
    refine ⟨y, rfl, ?_⟩
    rw [← Option.some.inj hr]
    refine Iff.trans ?_ (and_iff_left trivial).symm
    constructor
    · intro h
      show y.toNat < 2 ^ w
      rw [h, zext_toNat hw64]
      exact BitVec.isLt _
    · exact fun h => (zext_setWidth h).symm
  | call f ops ty =>
    cases hx
    simp only [Inst.eval, Option.ite_none_right_eq_some, Option.some.injEq] at hr
    exact ⟨A.value, rfl, by simp [Inst.fits, Inst.Answered, hr.2]⟩
  | _ =>
    rw [Inst.eval_ret (by simp) ret A.value] at hr
    exact ⟨r, hr, by simp [Inst.fits, Inst.Answered]⟩

/-- The result of an instruction is below `2 ^ w`. -/
theorem Inst.eval_lt {x : Inst} {w : ℕ} (hwt : x.wellTyped) (hx : x.ty = some (.int w))
    (hw : checkSrcType (.int w) = true) {mem : Word → BitVec 8} {ret : Word} {args : List Word}
    {r : Word} (hext : List.Forall₂ Operand.ZeroExt x.operands args)
    (hr : x.eval mem ret args = some r) : r.toNat < 2 ^ w := by
  have hw64 : w ≤ 64 := by
    obtain ⟨size, -, rfl⟩ := sizeOfBw_of_checkSrcType hw
    exact bwOf_le size
  have hzext : ∀ y : BitVec w, (Interp.zext y).toNat < 2 ^ w := fun y => by
    rw [zext_toNat hw64]
    exact y.isLt
  cases x with
  | load p =>
    obtain ⟨a, rfl, -⟩ := args_one hext
    obtain ⟨val, ty⟩ := p
    cases ty with
    | ptr elem =>
      cases hx
      simp only [Inst.eval, Option.ite_none_right_eq_some, Option.some.injEq] at hr
      exact hr.2 ▸ hr.1
    | _ => cases hx
  | binary op a b =>
    obtain ⟨x, y, rfl, -⟩ := args_two hext
    obtain ⟨val, ty⟩ := a
    cases hx
    obtain ⟨z, -, rfl⟩ := Option.map_eq_some_iff.mp hr
    exact hzext z
  | icmp p a b =>
    cases hx
    obtain ⟨x, y, rfl, -⟩ := args_two hext
    rw [← Option.some.inj hr]
    cases p.eval (x.setWidth a.ty.width) (y.setWidth a.ty.width) <;> decide
  | select z a b =>
    obtain ⟨c, x, y, rfl, -, hx', hy⟩ := args_three hext
    obtain ⟨val, ty⟩ := a
    cases hx
    rw [Operand.ZeroExt, ← hwt.2] at hy
    rw [← Option.some.inj hr]
    split_ifs
    · exact hx'
    · exact hy
  | bitcast a ty =>
    obtain ⟨x, rfl, hx'⟩ := args_one hext
    cases hx
    obtain hty | ⟨elem, helem⟩ := hwt
    · rw [Operand.ZeroExt, hty] at hx'
      rw [← Option.some.inj hr]
      exact hx'
    · cases helem
  | sext a bw =>
    cases hx
    obtain ⟨x, rfl, -⟩ := args_one hext
    rw [← Option.some.inj hr]
    exact hzext _
  | zext a bw =>
    cases hx
    obtain ⟨x, rfl, -⟩ := args_one hext
    rw [← Option.some.inj hr]
    exact hzext _
  | trunc a bw =>
    cases hx
    obtain ⟨x, rfl, -⟩ := args_one hext
    rw [← Option.some.inj hr]
    exact hzext _
  | ptrtoint a bw =>
    cases hx
    obtain ⟨x, rfl, -⟩ := args_one hext
    rw [← Option.some.inj hr]
    exact hzext _
  | call f ops ty =>
    cases hx
    simp only [Inst.eval, Option.ite_none_right_eq_some, Option.some.injEq] at hr
    exact hr.2 ▸ hr.1
  | _ => cases hr

/-- **Zero extension.** The lines that are emitted for the result of an instruction of width `w`
    leave a word for it, and this is the zero-extended LLVM result, a value below `2 ^ w`, iff the
    instruction is not a sign extension of a negative value to fewer than 64 bits, nor a `ptrtoint`
    of an address that does not fit, and the word that the callee of a call returns is its result. A
    `ret` returns exactly the word of its operand, and a PHI node gets exactly the word that was
    stored for it. -/
theorem zeroExtension_iff {c : Ctx} {b n w : ℕ} {s s' : State} {x : Inst}
    (hs : Reaches c (.inst b n) s) (hwt : x.wellTyped) (hx : x.ty = some (.int w))
    (hw : checkSrcType (.int w) = true) (h : visitInst c ⟨b, n⟩ x s = .ok ((), s')) :
    (∃ vals lines v, Lowered c ⟨b, n⟩ x.operands s s' vals lines v ∧
      ∀ A m args ret r, List.Forall₂ (EmitVal.Holds m) vals args →
        List.Forall₂ Operand.ZeroExt x.operands args → x.eval m.mem ret args = some r →
        r.toNat < 2 ^ w ∧ ∃ m', execLines A m lines = some m' ∧
          (v.read m' = r ↔ x.fits args ∧ x.Answered A ret)) ∧
    (∀ U B V s1 s1', B.term = .ret (some V) → visitTerm c U B s1 = .ok ((), s1') →
      ∃ v moves, OperandRead c s1 moves V v ∧ (∀ l ∈ moves, l.isMove = true) ∧
        s1'.code = s1.code ++ moves ++ [.ret v]) ∧
    ∀ P V U s1 s1' s2 s2', processPHIs c U [(P, some V)] s1 = .ok ((), s1') →
      visitPHINode c P s2 = .ok ((), s2') →
      ∃ v k moves1 moves2, OperandRead c s1 moves1 V v ∧ (∀ l ∈ moves1 ++ moves2, l.isMove = true) ∧
        s1'.code = s1.code ++ moves1 ++ [.storePhi v P] ∧
        s2'.code = s2.code ++ moves2 ++ [.loadPhi k P] ++ [.value P (.reg k)] ∧
        s2'.sourceToEmitMap P = some (.reg k) ∧
        ∀ A m1 m2 m3 m4 a, v.Holds m1 a → (Line.storePhi v P).exec A m1 = some m2 →
          m3.phiSlot P = m2.phiSlot P → (Line.loadPhi k P).exec A m3 = some m4 →
          (EmitVal.reg k).Holds m4 a := by
  refine ⟨?_, fun U B V s1 s1' hterm h1 => ?_, fun P V U s1 s1' s2 s2' h1 h2 => ?_⟩
  · obtain ⟨vals, lines, v, hlow, hexec⟩ := visitInst_lowers hwt hx hs.ownership h
    refine ⟨vals, lines, v, hlow, fun A m args ret r hargs hext hr => ?_⟩
    obtain ⟨r', hr', hiff⟩ := Inst.leaves_iff (A := A) hwt hx hw hext hr
    obtain ⟨m', hm', hv⟩ := hexec A m args r' hargs hext hr'
    exact ⟨Inst.eval_lt hwt hx hw hext hr, m', hm', by rw [hv.2]; exact hiff⟩
  · simp only [visitTerm, hterm, bind_ok_iff, emit_ok] at h1
    obtain ⟨⟨v, k⟩, s2, hv, rfl⟩ := h1
    obtain ⟨moves, hmoves, hcode, hread⟩ := translate_operandRead hv
    exact ⟨v, moves, hread, hmoves, by simp [hcode]⟩
  · simp only [processPHIs, bind_ok_iff, emit_ok, pure_ok_iff] at h1
    obtain ⟨⟨v, kv⟩, s3, hv, ⟨⟩, s4, rfl, -, rfl⟩ := h1
    simp only [visitPHINode, bind_ok_iff, emit_ok, define_ok] at h2
    obtain ⟨k, s5, hreq, ⟨⟩, s6, rfl, rfl⟩ := h2
    obtain ⟨moves1, hm1, hcode1, hread⟩ := translate_operandRead hv
    obtain ⟨moves2, hm2, hcode2⟩ := requestRegister_moves hreq
    refine ⟨v, k, moves1, moves2, hread,
      fun l hl => (List.mem_append.mp hl).elim (hm1 l) (hm2 l), by simp [hcode1], by simp [hcode2],
      Function.update_self .., fun A m1 m2 m3 m4 a ha h12 h23 h34 => ⟨by simp, ?_⟩⟩
    cases h12
    cases h34
    rw [read_reg_setReg, h23]
    exact (Function.update_self ..).trans ha.2

/-- A loaded byte, extended to 32 bits. -/
def signExtended : Ctx where
  F :=
    { name := "f"
      blocks :=
        [ { phis := []
            body :=
              [ .load ⟨.global 0, .ptr (.int 8)⟩,
                .sext ⟨.inst ⟨0, 0⟩, .int 8⟩ 32 ]
            term := .ret none } ] }
  gvMap := fun _ => 10232
  heapSize := 0

/-- Extending the byte 5 gives 5. -/
theorem zeroExtension_iff_signExtended : ∃ s s' vals lines v,
    Lowered signExtended ⟨0, 1⟩ [⟨.inst ⟨0, 0⟩, .int 8⟩] s s' vals lines v ∧
    ∀ A m, List.Forall₂ (EmitVal.Holds m) vals [5] →
      ∃ m', execLines A m lines = some m' ∧ v.read m' = 5 := by
  have hrun : ((entryState? signExtended 1).any fun s =>
      (visitInst signExtended ⟨0, 1⟩ (.sext ⟨.inst ⟨0, 0⟩, .int 8⟩ 32) s).isOk) = true := by
    decide +kernel
  obtain ⟨s, hs, hok⟩ := (Option.any_eq_true _ _).mp hrun
  cases hv : visitInst signExtended ⟨0, 1⟩ (.sext ⟨.inst ⟨0, 0⟩, .int 8⟩ 32) s with
  | error f =>
    rw [hv] at hok
    cases hok
  | ok p =>
    obtain ⟨⟨⟩, s'⟩ := p
    obtain ⟨⟨vals, lines, v, hlow, hexec⟩, -⟩ :=
      zeroExtension_iff (x := .sext ⟨.inst ⟨0, 0⟩, .int 8⟩ 32)
        (reaches_entryState rfl rfl (by decide) hs) ⟨8, rfl, by decide⟩ rfl (by decide) hv
    refine ⟨s, s', vals, lines, v, hlow, fun A m hargs => ?_⟩
    have hfive : Interp.zext (((5 : Word).setWidth 8).signExtend 32) = 5 := by decide +kernel
    obtain ⟨-, m', hm', hiff⟩ := hexec A m [5] 0 5 hargs
      (.cons (show (5 : Word).toNat < 2 ^ 8 by decide) .nil) (congrArg some hfive)
    have hmsb : ((5 : Word).setWidth 8).msb = false := by decide +kernel
    exact ⟨m', hm', hiff.mpr ⟨Or.inr hmsb, trivial⟩⟩

/-- Extending the byte `0xFF`, which is −1, fills all 64 bits; the 32-bit result is `0xFFFFFFFF`. -/
theorem not_zeroExtension_signExtended : ∃ s s',
    Reaches signExtended (.inst 0 1) s ∧
    visitInst signExtended ⟨0, 1⟩ (.sext ⟨.inst ⟨0, 0⟩, .int 8⟩ 32) s = .ok ((), s') ∧
    s.sourceToEmitMap ⟨0, 0⟩ = some (.reg 1) ∧ s'.sourceToEmitMap ⟨0, 1⟩ = some (.reg 2) ∧
    ∀ (A : Answer) (m : Machine) (ret : Word), m.reg 1 = 0xFF →
      (Inst.sext ⟨.inst ⟨0, 0⟩, .int 8⟩ 32).eval m.mem ret [m.reg 1] = some 0xFFFFFFFF ∧
      ∃ m', execLines A m (s'.code.drop s.code.length) = some m' ∧
        m'.reg 2 = 0xFFFFFFFFFFFFFFFF := by
  let lines : List Line := [.bop 2 .mul (.reg 1) (.const (2 ^ 56)) 64,
    .bop 2 .ashr (.reg 2) (.const 56) 64, .value ⟨0, 1⟩ (.reg 2)]
  have hrun : ((entryState? signExtended 1).any fun s =>
      match visitInst signExtended ⟨0, 1⟩ (.sext ⟨.inst ⟨0, 0⟩, .int 8⟩ 32) s with
      | .ok (_, s') =>
        s.sourceToEmitMap ⟨0, 0⟩ = some (.reg 1) && s'.sourceToEmitMap ⟨0, 1⟩ = some (.reg 2) &&
          s'.code.drop s.code.length = lines
      | .error _ => false) = true := by
    decide +kernel
  obtain ⟨s, hs, hrun⟩ := (Option.any_eq_true _ _).mp hrun
  cases hv : visitInst signExtended ⟨0, 1⟩ (.sext ⟨.inst ⟨0, 0⟩, .int 8⟩ 32) s with
  | error f =>
    rw [hv] at hrun
    cases hrun
  | ok p =>
    obtain ⟨⟨⟩, s'⟩ := p
    simp only [hv, Bool.and_eq_true, decide_eq_true_eq] at hrun
    obtain ⟨⟨h1, h2⟩, hcode⟩ := hrun
    refine ⟨s, s', reaches_entryState rfl rfl (by decide) hs, hv, h1, h2, fun A m ret hm => ?_⟩
    rw [hm, hcode]
    have heval : Interp.zext (((0xFF : Word).setWidth 8).signExtend 32) = 0xFFFFFFFF := by
      decide +kernel
    refine ⟨congrArg some heval, ?_⟩
    have hmul : compute .mul .size64 0xFF (2 ^ 56) = .ok (0xFF * 2 ^ 56) := by decide +kernel
    have hshift : compute .ashr .size64 (0xFF * 2 ^ 56) 56 = .ok 0xFFFFFFFFFFFFFFFF := by
      decide +kernel
    have h1 : (Line.bop 2 .mul (.reg 1) (.const (2 ^ 56)) 64).exec A m =
        some (m.setReg 2 (0xFF * 2 ^ 56)) := by
      simp only [Line.exec, sizeOfBw, Option.bind_some, EmitVal.read, hm, hmul]
    have h2 : (Line.bop 2 .ashr (.reg 2) (.const 56) 64).exec A (m.setReg 2 (0xFF * 2 ^ 56)) =
        some ((m.setReg 2 (0xFF * 2 ^ 56)).setReg 2 0xFFFFFFFFFFFFFFFF) := by
      simp only [Line.exec, sizeOfBw, Option.bind_some, EmitVal.read, Machine.setReg_reg_self,
        hshift]
    refine ⟨(m.setReg 2 (0xFF * 2 ^ 56)).setReg 2 0xFFFFFFFFFFFFFFFF, ?_,
      Machine.setReg_reg_self⟩
    rw [execLines_cons, h1, Option.bind_some, execLines_cons, h2, Option.bind_some,
      execLines_singleton]
    rfl

end SwppCompiler.Backend
