import SwppCompiler.Backend.ConstExpr
import SwppCompiler.Backend.IR
import SwppCompiler.Lib.Masks

/-!
# `WeirdArithmetic`

Model of `WeirdArithmetic::run` (`src/passes/WeirdArithmetic.cpp`), which replaces `sub`, `and`, `shl`
and `lshr` by cheaper multiplications, divisions and remainders. A divisor is computed as a `uint64_t`
and cut down to the width of the instruction: 2^8 is not zero when it is tested (line 34), and zero as
an `i8`.

* `weirdArithmetic_eq`: replacing one instruction after the other, and its uses with it, replaces all
  of them at once.
* `preserved_iff`: the pass preserves the values, and divides by zero nowhere, iff no mask of an `and`
  is all ones, with what the pass adds to it, and no `lshr` shifts everything out.
-/

namespace SwppCompiler.Passes.WeirdArithmetic

open Backend (BinaryOps)
open Backend.ConstExpr Interp Lib.Masks

/-! ## Functions -/

/-- What instructions and constant expressions compute: a binary operator on `iw`, or anything else. -/
inductive Opcode (O : Type)
  | binary (op : BinaryOps) (w : ℕ)
  | other (x : O)

/-- A constant of type `iw`, or anything else. -/
inductive Leaf (L : Type)
  | int (w : ℕ) (c : BitVec w)
  | other (x : L)

section Syntax

variable (O Other L ι : Type)

/-- An operand, an instruction, and the instructions of the blocks of a function. -/
abbrev Val := Operand (Opcode O) (Leaf L) ι
@[inherit_doc Val] abbrev Inst := Instruction (Opcode O) Other (Leaf L) ι
@[inherit_doc Val] abbrev Body := List (List (Inst O Other L ι))

end Syntax

variable {O Other L ι : Type}

/-- `ConstantInt::get`. -/
def constantInt (w : ℕ) (c : BitVec w) : Val O L ι := .const (.leaf (.int w c))

/-- `dyn_cast<ConstantInt>`, and its `getZExtValue()`. -/
def constantInt? : Val O L ι → Option Word
  | .const (.leaf (.int _ c)) => some (c.setWidth 64)
  | _ => none

/-- The instruction that an operand is. -/
def instruction? (body : Body O Other L ℕ) : Val O L ℕ → Option (Inst O Other L ℕ)
  | .inst n => body.flatten.find? fun I => I.id = n
  | .const _ => none

/-- The operand has type `iw` if it is a number, or what a binary operator computes. -/
def HasWidth (body : Body O Other L ℕ) (w : ℕ) (V : Val O L ℕ) : Prop :=
  (∀ v c, V = constantInt v c → v = w) ∧
    ∀ J op v, instruction? body V = some J → J.code = .expr (.binary op v) → v = w

variable (O Other L) in
/-- A function that `verifyModule` accepts. -/
structure Func where
  body : Body O Other L ℕ
  ids : (body.flatten.map Instruction.id).Nodup
  width_le : ∀ I ∈ body.flatten, ∀ op w, I.code = .expr (.binary op w) → w ≤ 64
  operands : ∀ I ∈ body.flatten, ∀ op w, I.code = .expr (.binary op w) →
    ∃ lhs rhs, I.operands = [lhs, rhs] ∧ HasWidth body w lhs ∧ HasWidth body w rhs

/-! ## The scan -/

section Scan

variable (beyond : Word → Word)

/-- `1ULL << N`; C++ does not define it from 64 on, and it is `beyond` there. -/
def shifted (N : Word) : Word := if N.toNat < 64 then 1#64 <<< N.toNat else beyond N

/-- `m_c_And(m_Value(X), m_ConstantInt(C))`. -/
def matchAnd (lhs rhs : Val O L ℕ) : Option (Val O L ℕ × Word) :=
  match constantInt? rhs with
  | some C => some (lhs, C)
  | none => (constantInt? lhs).map (rhs, ·)

/-- `M`, if `X` is `shl ?, M`. -/
def shlAmount? (body : Body O Other L ℕ) (X : Val O L ℕ) : Option Word :=
  match instruction? body X with
  | some ⟨_, .expr (.binary .shl _), [_, M], _⟩ => constantInt? M
  | _ => none

/-- The mask, and ones for the bits that `shl` has cleared (`WeirdArithmetic.cpp`, lines 23–29). -/
def mask (C : Word) : Option Word → Word
  | some M => C ||| (shifted beyond M - 1)
  | none => C

/-- A `BinaryOperator` that is created, of type `iw`. -/
structure NewI (O L : Type) where
  op : BinaryOps
  w : ℕ
  lhs : Val O L ℕ
  rhs : Val O L ℕ

/-- What replaces an instruction (`WeirdArithmetic.cpp`, lines 13–60). The branches are for
    different opcodes. -/
def newI? (body : Body O Other L ℕ) (I : Inst O Other L ℕ) : Option (NewI O L) :=
  match I.code, I.operands with
  | .expr (.binary .sub w), [lhs, X] =>
    if constantInt? lhs = some 0 then some ⟨.mul, w, X, constantInt w (-1)⟩ else none
  | .expr (.binary .and w), [lhs, rhs] =>
    match matchAnd lhs rhs with
    | some (X, C) =>
      let N := mask beyond C (shlAmount? body X)
      if N &&& (N + 1) = 0 then some ⟨.urem, w, X, constantInt w ((N + 1).setWidth w)⟩ else none
    | none => if w = 1 then some ⟨.mul, w, lhs, rhs⟩ else none
  | .expr (.binary .shl w), [X, rhs] =>
    (constantInt? rhs).map fun N => ⟨.mul, w, X, constantInt w ((shifted beyond N).setWidth w)⟩
  | .expr (.binary .lshr w), [X, rhs] =>
    (constantInt? rhs).map fun N => ⟨.udiv, w, X, constantInt w ((shifted beyond N).setWidth w)⟩
  | _, _ => none

end Scan

/-! ## The replacement -/

/-- An operand, and an instruction, whose instructions have other names. -/
def mapVal {κ : Type} (f : ι → κ) : Val O L ι → Val O L κ
  | .inst n => .inst (f n)
  | .const c => .const c

@[inherit_doc mapVal]
def mapInst {κ : Type} (f : ι → κ) (I : Inst O Other L ι) : Inst O Other L κ :=
  ⟨f I.id, I.code, I.operands.map (mapVal f), I.succs⟩

/-- The new instruction; it takes the place of the `n`-th one. -/
def NewI.create (N : NewI O L) (n : ℕ) : Inst O Other L NewId :=
  ⟨.inr n, .expr (.binary N.op N.w), [mapVal .inl N.lhs, mapVal .inl N.rhs], []⟩

/-- The pairs that the scan collects. -/
def worklist (beyond : Word → Word) (F : Func O Other L) : List (NewId × Inst O Other L NewId) :=
  F.body.flatten.filterMap fun I => (newI? beyond F.body I).map fun N => (.inl I.id, N.create I.id)

/-- `From->replaceAllUsesWith(To)`, in one instruction. -/
def replaceUses (From To : NewId) (I : Inst O Other L NewId) : Inst O Other L NewId :=
  { I with operands := I.operands.map (mapVal fun n => if n = From then To else n) }

/-- `ReplaceInstWithInst`. -/
def replaceInstWithInst (From : NewId) (To : Inst O Other L NewId) (body : Body O Other L NewId) :
    Body O Other L NewId :=
  body.map fun B => B.map fun I => replaceUses From To.id (if I.id = From then To else I)

/-- The loop over the worklist. Instructions that have not been inserted yet are users as well. -/
def replaceAll (pairs : List (NewId × Inst O Other L NewId)) (body : Body O Other L NewId) :
    Body O Other L NewId :=
  match pairs with
  | [] => body
  | (From, To) :: rest =>
    replaceAll (rest.map fun p => (p.1, replaceUses From To.id p.2)) (replaceInstWithInst From To body)
termination_by pairs.length

/-- `WeirdArithmetic::run`, for a function. -/
def weirdArithmetic (beyond : Word → Word) (F : Func O Other L) : Body O Other L NewId :=
  replaceAll (worklist beyond F) (F.body.map fun B => B.map (mapInst .inl))

/-! ## What instructions compute -/

/-- The value of an instruction: a number, or anything else. -/
inductive Result (V : Type)
  | int (n : ℕ)
  | other (v : V)

/-- A binary operator; its numbers are unsigned. -/
def evalBinary {V : Type} (op : BinaryOps) (w : ℕ) : List (Result V) → Option (Result V)
  | [.int a, .int b] =>
    (op.eval (BitVec.ofNat w a) (BitVec.ofNat w b)).map fun r => .int r.toNat
  | _ => none

variable {V S : Type}

/-- The meaning of numbers and binary operators, with that of the rest. -/
def arithmetic (rest : Sem O Other L (Result V) S) :
    Sem (Opcode O) Other (Leaf L) (Result V) S where
  leaf
    | .int _ c => .int c.toNat
    | .other x => rest.leaf x
  expr
    | .binary op w => evalBinary op w
    | .other x => rest.expr x
  other := rest.other

/-- The value of an instruction that computes one from its operands. -/
def value (rest : Sem O Other L (Result V) S) (env : ι → Option (Result V)) (I : Inst O Other L ι) :
    Option (Result V) :=
  match I.code with
  | .expr op => (I.operands.mapM (Operand.eval (arithmetic rest) env)).bind ((arithmetic rest).expr op)
  | _ => none

/-- The values of instructions are values that they compute, from whatever operands. -/
def Computed (rest : Sem O Other L (Result V) S) (body : Body O Other L ι)
    (env : ι → Option (Result V)) : Prop :=
  ∀ I ∈ body.flatten, ∀ op, I.code = .expr op → ∀ v, env I.id = some v →
    ∃ env', value rest env' I = some v

/-- The value of the instruction that is created. -/
def NewI.value (N : NewI O L) (rest : Sem O Other L (Result V) S) (env : ℕ → Option (Result V)) :
    Option (Result V) :=
  ([N.lhs, N.rhs].mapM (Operand.eval (arithmetic rest) env)).bind (evalBinary N.op N.w)

/-- A division or a remainder by zero. -/
def NewI.DividesByZero (N : NewI O L) : Prop :=
  (N.op = .udiv ∨ N.op = .urem) ∧ constantInt? N.rhs = some 0

/-- The instruction of the new function that has the place of `n`. -/
def newId (beyond : Word → Word) (F : Func O Other L) (n : ℕ) : NewId :=
  if F.body.flatten.any fun I => I.id = n ∧ (newI? beyond F.body I).isSome then .inr n else .inl n

/-- What the pass should do. -/
structure Preserved (beyond : Word → Word) (F : Func O Other L) : Prop where
  /-- A new instruction computes the value of the old one, if that has one, whatever the operands. -/
  value : ∀ I ∈ F.body.flatten, ∀ N, newI? beyond F.body I = some N →
    ∀ (V S : Type) (rest : Sem O Other L (Result V) S) (env : ℕ → Option (Result V)),
      Computed rest F.body env → ∀ v, value rest env I = some v → N.value rest env = some v
  /-- No new instruction divides by zero. -/
  divisor : ∀ I ∈ F.body.flatten, ∀ N, newI? beyond F.body I = some N → ¬ N.DividesByZero
  /-- The new function does in each run what the old one does, and all values are the same. -/
  run : ∀ (V S : Type) (rest : Sem O Other L (Result V) S) (state : S) (n : ℕ) (prev : Option ℕ)
      (c : Config ℕ (Result V) S),
    run (arithmetic rest) F.body state n = some (prev, c) →
      ∃ env', run (arithmetic rest) (weirdArithmetic beyond F) state n =
          some (prev, ⟨env', c.state, c.next⟩) ∧
        ∀ m, env' (newId beyond F m) = c.env m

/-- All bits of `iw` are in the mask, or a `shl` by `M` clears them. -/
def AllOnes (w : ℕ) (C : Word) (M : Option Word) : Prop :=
  ∀ i < w, C.getLsbD i = true ∨ ∃ m, M = some m ∧ i < m.toNat

/-- No mask of an `and` is all ones, with what the pass adds to it, and no `lshr` shifts all bits out. -/
structure Restricted (body : Body O Other L ℕ) : Prop where
  and : ∀ I ∈ body.flatten, ∀ w lhs rhs X C, I.code = .expr (.binary .and w) →
    I.operands = [lhs, rhs] → matchAnd lhs rhs = some (X, C) → ¬ AllOnes w C (shlAmount? body X)
  lshr : ∀ I ∈ body.flatten, ∀ w X rhs N, I.code = .expr (.binary .lshr w) →
    I.operands = [X, rhs] → constantInt? rhs = some N → N.toNat < w

/-! ## Values of the new instructions -/

section Values

variable {rest : Sem O Other L (Result V) S} {body : Body O Other L ℕ} {beyond : Word → Word} {w : ℕ}

/-- A constant of the right type, as a 64-bit number. -/
theorem HasWidth.constantInt {X : Val O L ℕ} (h : HasWidth body w X) (hw : w ≤ 64) {C : Word}
    (hC : constantInt? X = some C) :
    ∃ c : BitVec w, X = constantInt w c ∧ C = c.setWidth 64 ∧ C.toNat = c.toNat := by
  unfold constantInt? at hC
  split at hC
  · next v c =>
    obtain rfl := h.1 v c rfl
    refine ⟨c, rfl, (Option.some.inj hC).symm, ?_⟩
    rw [← Option.some.inj hC, BitVec.toNat_setWidth]
    exact Nat.mod_eq_of_lt (c.isLt.trans_le (Nat.pow_le_pow_right (by decide) hw))
  · cases hC

theorem evalBinary_eq_some {op : BinaryOps} {vs : List (Result V)} {v : Result V}
    (h : evalBinary op w vs = some v) :
    ∃ a b r, vs = [.int a, .int b] ∧ op.eval (BitVec.ofNat w a) (BitVec.ofNat w b) = some r ∧
      v = .int r.toNat := by
  unfold evalBinary at h
  split at h
  · next a b =>
    obtain ⟨r, hr, hv⟩ := Option.map_eq_some_iff.mp h
    exact ⟨a, b, r, rfl, hr, hv.symm⟩
  · cases h

/-- A binary operator that has a value. -/
theorem value_binary {env : ι → Option (Result V)} {I : Inst O Other L ι} {op : BinaryOps}
    {lhs rhs : Val O L ι} (hcode : I.code = .expr (.binary op w)) (hops : I.operands = [lhs, rhs])
    {v : Result V} (h : value rest env I = some v) :
    ∃ a b r, lhs.eval (arithmetic rest) env = some (.int a) ∧
      rhs.eval (arithmetic rest) env = some (.int b) ∧
      op.eval (BitVec.ofNat w a) (BitVec.ofNat w b) = some r ∧ v = .int r.toNat := by
  unfold value at h
  rw [hcode, hops] at h
  obtain ⟨vs, hvs, h⟩ := Option.bind_eq_some_iff.mp h
  obtain ⟨a, b, r, rfl, hr, rfl⟩ := evalBinary_eq_some h
  simp only [List.mapM_cons, List.mapM_nil, Option.pure_def, Option.bind_eq_bind,
    Option.bind_eq_some_iff, Option.some.injEq] at hvs
  obtain ⟨x, hx, ys, ⟨y, hy, zs, rfl, rfl⟩, heq⟩ := hvs
  obtain ⟨hxa, heq'⟩ := List.cons_eq_cons.mp heq
  obtain ⟨hyb, -⟩ := List.cons_eq_cons.mp heq'
  rw [hxa] at hx
  rw [hyb] at hy
  exact ⟨a, b, r, hx, hy, hr, rfl⟩

theorem NewI.value_eq {env : ℕ → Option (Result V)} {N : NewI O L} {a b : ℕ}
    (hlhs : N.lhs.eval (arithmetic rest) env = some (.int a))
    (hrhs : N.rhs.eval (arithmetic rest) env = some (.int b)) {r : BitVec N.w}
    (hr : N.op.eval (BitVec.ofNat N.w a) (BitVec.ofNat N.w b) = some r) :
    N.value rest env = some (.int r.toNat) := by
  simp [NewI.value, hlhs, hrhs, evalBinary, hr]

@[simp] theorem eval_constantInt (env : ι → Option (Result V)) (c : BitVec w) :
    (constantInt w c : Val O L ι).eval (arithmetic rest) env = some (.int c.toNat) := rfl

theorem ofNat_toNat (c : BitVec w) : BitVec.ofNat w c.toNat = c := by
  rw [BitVec.ofNat_toNat, BitVec.setWidth_eq]

/-- A value of `shl ?, M` ends in `M` zeros. -/
theorem Computed.shl (F : Func O Other L) {env : ℕ → Option (Result V)}
    (henv : Computed rest F.body env) {X : Val O L ℕ} (hX : HasWidth F.body w X) {M : Word}
    (hM : shlAmount? F.body X = some M) {a : ℕ} (ha : X.eval (arithmetic rest) env = some (.int a))
    {i : ℕ} (hi : i < M.toNat) : (BitVec.ofNat w a).getLsbD i = false := by
  unfold shlAmount? at hM
  split at hM
  · next n v Y K succs hJ =>
    obtain rfl : v = w := hX.2 _ _ _ hJ rfl
    cases X with
    | const c => cases hJ
    | inst m =>
      have hmem := List.mem_of_find?_eq_some hJ
      have hid : n = m := by simpa using List.find?_some hJ
      subst hid
      have hle := F.width_le _ hmem _ _ rfl
      obtain ⟨lhs, rhs, hops, -, hrhs⟩ := F.operands _ hmem _ _ rfl
      obtain ⟨rfl, rfl⟩ : Y = lhs ∧ K = rhs := by simpa using hops
      obtain ⟨c, rfl, -, hc⟩ := hrhs.constantInt hle hM
      obtain ⟨env', hvalue⟩ := henv _ hmem _ rfl _ ha
      obtain ⟨y, b, r, -, hb, hr, heq⟩ := value_binary rfl rfl hvalue
      obtain rfl : c.toNat = b := by simpa using hb
      rw [ofNat_toNat] at hr
      have hlt : c.toNat < v ∧ BitVec.ofNat v y <<< c.toNat = r := by
        simpa [BinaryOps.eval] using hr
      obtain rfl : a = r.toNat := Result.int.inj heq
      rw [ofNat_toNat, ← hlt.2, BitVec.getLsbD_shiftLeft]
      have hi' : i < c.toNat := hc ▸ hi
      simp [hi']
  · cases hM

theorem shifted_toNat {N : Word} (h : N.toNat < 64) : (shifted beyond N).toNat = 2 ^ N.toNat := by
  unfold shifted
  rw [if_pos h]
  exact BitVec.toNat_twoPow_of_lt h

/-- What the pass adds to a mask of an `and`: the bits that are `0` in `X` anyway. -/
theorem mask_getLsbD {C : Word} {M : Option Word} (hM : ∀ m, M = some m → m.toNat < 64) (i : ℕ) :
    (mask beyond C M).getLsbD i = (C.getLsbD i || decide (∃ m, M = some m ∧ i < m.toNat)) := by
  cases M with
  | none => simp [mask]
  | some m =>
    have hlt := hM m rfl
    have hmask : IsMask (shifted beyond m - 1#64) m.toNat := by
      have hpow : (shifted beyond m).toNat = 2 ^ m.toNat := shifted_toNat hlt
      have hle : 1#64 ≤ shifted beyond m := by
        rw [BitVec.le_def, hpow]
        exact Nat.one_le_two_pow
      unfold IsMask
      rw [BitVec.toNat_sub_of_le hle, hpow]
      exact Nat.sub_add_cancel Nat.one_le_two_pow
    have hbits := isMask_iff_getLsbD.mp hmask i
    simp [mask, hbits]

/-- If some bit of `iw` stays `0`, then the divisor is a power of two of this type. -/
theorem isMask_of_not_allOnes {C : Word} {M : Option Word} (hw : w ≤ 64) (hC : ¬ AllOnes w C M)
    (htest : mask beyond C M &&& (mask beyond C M + 1) = 0) :
    ∃ k < w, IsMask (mask beyond C M) k ∧ (∀ m, M = some m → m.toNat < w) := by
  obtain ⟨i, hi, hbit⟩ : ∃ i < w, ¬ (C.getLsbD i = true ∨ ∃ m, M = some m ∧ i < m.toNat) := by
    simpa [AllOnes] using hC
  obtain ⟨hCi, hMi⟩ := not_or.mp hbit
  have hM : ∀ m, M = some m → m.toNat ≤ i := fun m hm => not_lt.mp fun hlt => hMi ⟨m, hm, hlt⟩
  obtain ⟨k, hk⟩ := and_add_one_eq_zero_iff.mp htest
  have hki := isMask_iff_getLsbD.mp hk i
  rw [mask_getLsbD fun m hm => (hM m hm).trans_lt (hi.trans_le hw)] at hki
  have hle : ¬ i < k := by
    simpa [hCi, hMi] using hki
  exact ⟨k, by omega, hk, fun m hm => (hM m hm).trans_lt hi⟩

/-- If none does, then the mask passes the test, and the divisor is zero. -/
theorem isMask_of_allOnes {C : Word} {M : Option Word} (hw : w ≤ 64)
    (hhigh : ∀ i, w ≤ i → C.getLsbD i = false) (hC : AllOnes w C M) :
    ∃ k, w ≤ k ∧ IsMask (mask (fun _ => 0) C M) k := by
  by_cases hM : ∀ m, M = some m → m.toNat < 64
  · -- the low bits are those of the type, and those that the `shl` clears
    refine ⟨max w ((M.map BitVec.toNat).getD 0), Nat.le_max_left _ _, isMask_iff_getLsbD.mpr ?_⟩
    intro i
    rw [mask_getLsbD hM]
    cases M with
    | none =>
      by_cases hi : i < w
      · have hbit : C.getLsbD i = true := by simpa using hC i hi
        simp [hbit, hi]
      · simp [hhigh i (by omega), hi]
    | some m =>
      by_cases hi : i < w
      · have hbit := hC i hi
        simp [hi] at hbit ⊢
        exact hbit
      · simp [hhigh i (by omega), hi]
  · obtain ⟨m, hm⟩ := not_forall.mp hM
    obtain ⟨rfl, hge⟩ := Classical.not_imp.mp hm
    refine ⟨64, hw, ?_⟩
    have hall : mask (fun _ => 0) C (some m) = BitVec.allOnes 64 := by
      have hzero : shifted (fun _ => 0) m = 0 := if_neg hge
      rw [mask, hzero]
      show C ||| BitVec.allOnes 64 = _
      exact BitVec.or_allOnes
    rw [hall]
    rfl

/-- The instructions that are replaced. -/
theorem newI?_cases {I : Inst O Other L ℕ} {N : NewI O L} (h : newI? beyond body I = some N) :
    ∃ op w lhs rhs, I.code = .expr (.binary op w) ∧ I.operands = [lhs, rhs] ∧
      (op = .sub ∧ constantInt? lhs = some 0 ∧ N = ⟨.mul, w, rhs, constantInt w (-1)⟩ ∨
        (op = .and ∧ ∃ X C, matchAnd lhs rhs = some (X, C) ∧
          mask beyond C (shlAmount? body X) &&& (mask beyond C (shlAmount? body X) + 1) = 0 ∧
          N = ⟨.urem, w, X,
            constantInt w ((mask beyond C (shlAmount? body X) + 1).setWidth w)⟩) ∨
        op = .and ∧ w = 1 ∧ N = ⟨.mul, w, lhs, rhs⟩ ∨
        (op = .shl ∧ ∃ M, constantInt? rhs = some M ∧
          N = ⟨.mul, w, lhs, constantInt w ((shifted beyond M).setWidth w)⟩) ∨
        op = .lshr ∧ ∃ M, constantInt? rhs = some M ∧
          N = ⟨.udiv, w, lhs, constantInt w ((shifted beyond M).setWidth w)⟩) := by
  unfold newI? at h
  split at h
  · next w lhs X hcode hops =>
    split at h
    · next hzero => exact ⟨_, w, lhs, X, hcode, hops, Or.inl ⟨rfl, hzero, (Option.some.inj h).symm⟩⟩
    · cases h
  · next w lhs rhs hcode hops =>
    refine ⟨_, w, lhs, rhs, hcode, hops, Or.inr ?_⟩
    split at h
    · next X C hmatch =>
      simp only at h
      split at h
      · next htest =>
        exact Or.inl ⟨rfl, X, C, hmatch, htest, (Option.some.inj h).symm⟩
      · cases h
    · split at h
      · next hone => exact Or.inr (Or.inl ⟨rfl, hone, (Option.some.inj h).symm⟩)
      · cases h
  · next w X rhs hcode hops =>
    obtain ⟨M, hM, rfl⟩ := Option.map_eq_some_iff.mp h
    exact ⟨_, w, X, rhs, hcode, hops, Or.inr (Or.inr (Or.inr (Or.inl ⟨rfl, M, hM, rfl⟩)))⟩
  · next w X rhs hcode hops =>
    obtain ⟨M, hM, rfl⟩ := Option.map_eq_some_iff.mp h
    exact ⟨_, w, X, rhs, hcode, hops, Or.inr (Or.inr (Or.inr (Or.inr ⟨rfl, M, hM, rfl⟩)))⟩
  · cases h

/-- `2 ^ N`, in the type of an instruction with fewer bits than the `64` of the pass. -/
theorem shifted_setWidth {N : Word} (hw : w ≤ 64) (h : N.toNat < w) :
    (shifted beyond N).setWidth w = BitVec.twoPow w N.toNat := by
  apply BitVec.eq_of_toNat_eq
  rw [BitVec.toNat_setWidth, shifted_toNat (h.trans_le hw), BitVec.toNat_twoPow]

/-- A shift that shifts everything out. -/
theorem shifted_setWidth_of_le {N : Word} (h : w ≤ N.toNat) :
    (shifted (fun _ => 0) N).setWidth w = 0 := by
  apply BitVec.eq_of_toNat_eq
  rw [BitVec.toNat_setWidth]
  by_cases hlt : N.toNat < 64
  · rw [shifted_toNat hlt]
    exact Nat.mod_eq_zero_of_dvd (Nat.pow_dvd_pow 2 h)
  · rw [shifted, if_neg hlt]
    exact Nat.zero_mod _

/-- The operands of an `and` with a constant, in either order. -/
theorem matchAnd_cases {lhs rhs X : Val O L ℕ} {C : Word} (h : matchAnd lhs rhs = some (X, C)) :
    constantInt? rhs = some C ∧ X = lhs ∨ constantInt? lhs = some C ∧ X = rhs := by
  unfold matchAnd at h
  split at h
  · next c hc =>
    obtain ⟨rfl, rfl⟩ := Prod.mk.inj (Option.some.inj h)
    exact Or.inl ⟨hc, rfl⟩
  · obtain ⟨c, hc, heq⟩ := Option.map_eq_some_iff.mp h
    obtain ⟨rfl, rfl⟩ := Prod.mk.inj heq
    exact Or.inr ⟨hc, rfl⟩

/-- A conjunction with a mask that lacks only bits that are `0` anyway. -/
theorem and_eq_umod {x c : BitVec w} {M : Option Word} {k : ℕ} (hk : k < w) (hw : w ≤ 64)
    (hx : ∀ m, M = some m → ∀ i < m.toNat, x.getLsbD i = false)
    (hM : ∀ m, M = some m → m.toNat < 64) (hmask : IsMask (mask beyond (c.setWidth 64) M) k) :
    x &&& c = x % (mask beyond (c.setWidth 64) M + 1).setWidth w := by
  apply BitVec.eq_of_toNat_eq
  rw [BitVec.toNat_and, BitVec.toNat_umod, hmask.setWidth_add_one hw, if_pos hk]
  refine and_eq_mod fun i hi => ?_
  have hbit : x.getLsbD i = true := hi
  have hlt : i < w := BitVec.lt_of_getLsbD hbit
  have hclear : ¬ ∃ m, M = some m ∧ i < m.toNat := by
    rintro ⟨m, hm, him⟩
    rw [hx m hm i him] at hbit
    cases hbit
  have hki := isMask_iff_getLsbD.mp hmask i
  rw [mask_getLsbD hM, decide_eq_false hclear, Bool.or_false, BitVec.getLsbD_setWidth,
    decide_eq_true (hlt.trans_le hw), Bool.true_and] at hki
  exact hki

/-- `and X, C` is `urem X, N + 1`. -/
theorem value_and (F : Func O Other L) {env : ℕ → Option (Result V)}
    (henv : Computed rest F.body env) {X : Val O L ℕ} (hX : HasWidth F.body w X) (hw : w ≤ 64)
    {c : BitVec w} (hC : ¬ AllOnes w (c.setWidth 64) (shlAmount? F.body X))
    (htest : mask beyond (c.setWidth 64) (shlAmount? F.body X) &&&
      (mask beyond (c.setWidth 64) (shlAmount? F.body X) + 1) = 0) {a : ℕ}
    (ha : X.eval (arithmetic rest) env = some (.int a)) :
    NewI.value ⟨.urem, w, X,
        constantInt w ((mask beyond (c.setWidth 64) (shlAmount? F.body X) + 1).setWidth w)⟩ rest env =
      some (.int (BitVec.ofNat w a &&& c).toNat) := by
  obtain ⟨k, hk, hmask, hM⟩ := isMask_of_not_allOnes hw hC htest
  have hne : (mask beyond (c.setWidth 64) (shlAmount? F.body X) + 1).setWidth w ≠ 0 := by
    intro hzero
    have hpow := hmask.setWidth_add_one hw
    rw [hzero, if_pos hk] at hpow
    exact Nat.ne_of_lt (Nat.two_pow_pos k) hpow
  refine NewI.value_eq ha (eval_constantInt env _) ?_
  rw [ofNat_toNat, and_eq_umod hk hw (fun m hm i hi => henv.shl F hX hm ha hi)
    (fun m hm => (hM m hm).trans_le hw) hmask]
  exact if_neg hne

/-- **A new instruction computes the value of the old one.** -/
theorem value_eq_of_restricted (F : Func O Other L) (hF : Restricted F.body)
    {env : ℕ → Option (Result V)} (henv : Computed rest F.body env) {I : Inst O Other L ℕ}
    (hI : I ∈ F.body.flatten) {N : NewI O L} (hN : newI? beyond F.body I = some N) {v : Result V}
    (hv : value rest env I = some v) : N.value rest env = some v := by
  obtain ⟨op, w, lhs, rhs, hcode, hops, hcase⟩ := newI?_cases hN
  obtain ⟨a, b, r, ha, hb, hr, rfl⟩ := value_binary hcode hops hv
  have hw := F.width_le I hI op w hcode
  obtain ⟨lhs', rhs', hops', hlhs, hrhs⟩ := F.operands I hI op w hcode
  obtain ⟨rfl, rfl⟩ : lhs = lhs' ∧ rhs = rhs' := by
    rw [hops] at hops'
    simpa using hops'
  obtain ⟨rfl, hzero, rfl⟩ | ⟨rfl, X, C, hmatch, htest, rfl⟩ | ⟨rfl, rfl, rfl⟩ |
    ⟨rfl, M, hM, rfl⟩ | ⟨rfl, M, hM, rfl⟩ := hcase
  · -- `sub 0, X`
    obtain ⟨c, rfl, -, hc⟩ := hlhs.constantInt hw hzero
    have hc0 : c = 0 := BitVec.eq_of_toNat_eq (by rw [← hc]; rfl)
    obtain rfl : c.toNat = a := by simpa using ha
    refine NewI.value_eq hb (eval_constantInt env _) ?_
    rw [ofNat_toNat]
    rw [ofNat_toNat, hc0] at hr
    have hneg : (0 : BitVec w) - BitVec.ofNat w b = BitVec.ofNat w b * -1 := by
      rw [BitVec.mul_comm]
      exact (BitVec.zero_sub _).trans (BitVec.neg_eq_neg_one_mul _)
    simpa [BinaryOps.eval, ← hneg] using hr
  · -- `and X, C`
    have hand : some (BitVec.ofNat w a &&& BitVec.ofNat w b) = some r := hr
    obtain rfl := Option.some.inj hand
    have hall := hF.and I hI w lhs rhs X C hcode hops hmatch
    obtain ⟨hC, rfl⟩ | ⟨hC, rfl⟩ := matchAnd_cases hmatch
    · obtain ⟨c, rfl, rfl, -⟩ := hrhs.constantInt hw hC
      obtain rfl : c.toNat = b := by simpa using hb
      rw [ofNat_toNat]
      exact value_and F henv hlhs hw hall htest ha
    · obtain ⟨c, rfl, rfl, -⟩ := hlhs.constantInt hw hC
      obtain rfl : c.toNat = a := by simpa using ha
      rw [ofNat_toNat, BitVec.and_comm]
      exact value_and F henv hrhs hw hall htest hb
  · -- `and i1 X, Y`
    refine NewI.value_eq ha hb ?_
    have hand : some (BitVec.ofNat 1 a &&& BitVec.ofNat 1 b) = some r := hr
    have hmul : ∀ x y : BitVec 1, x * y = x &&& y := by decide
    exact (congrArg some (hmul _ _)).trans hand
  · -- `shl X, M`
    obtain ⟨c, rfl, -, hc⟩ := hrhs.constantInt hw hM
    obtain rfl : c.toNat = b := by simpa using hb
    rw [ofNat_toNat] at hr
    have hlt : c.toNat < w ∧ BitVec.ofNat w a <<< c.toNat = r := by
      simpa [BinaryOps.eval] using hr
    refine NewI.value_eq ha (eval_constantInt env _) ?_
    rw [ofNat_toNat, shifted_setWidth hw (hc ▸ hlt.1), hc, ← hlt.2, BitVec.shiftLeft_eq_mul_twoPow]
    rfl
  · -- `lshr X, M`
    obtain ⟨c, rfl, -, hc⟩ := hrhs.constantInt hw hM
    obtain rfl : c.toNat = b := by simpa using hb
    rw [ofNat_toNat] at hr
    have hlt : c.toNat < w ∧ BitVec.ofNat w a >>> c.toNat = r := by
      simpa [BinaryOps.eval] using hr
    have hne : BitVec.twoPow w c.toNat ≠ 0 := by
      intro hzero
      have hpow := BitVec.toNat_twoPow_of_lt hlt.1
      rw [hzero] at hpow
      exact Nat.ne_of_lt (Nat.two_pow_pos _) hpow
    refine NewI.value_eq ha (eval_constantInt env _) ?_
    rw [ofNat_toNat, shifted_setWidth hw (hc ▸ hlt.1), hc, ← hlt.2,
      ← BitVec.udiv_twoPow_eq_of_lt hlt.1]
    exact if_neg hne

/-- **A new instruction divides by no zero.** -/
theorem not_dividesByZero_of_restricted (F : Func O Other L) (hF : Restricted F.body)
    {I : Inst O Other L ℕ} (hI : I ∈ F.body.flatten) {N : NewI O L}
    (hN : newI? beyond F.body I = some N) : ¬ N.DividesByZero := by
  obtain ⟨op, w, lhs, rhs, hcode, hops, hcase⟩ := newI?_cases hN
  have hw := F.width_le I hI op w hcode
  have hconst : ∀ d : BitVec w, d ≠ 0 → constantInt? (constantInt w d : Val O L ℕ) ≠ some 0 := by
    intro d hd hzero
    have hzero' : d.setWidth 64 = 0 := Option.some.inj hzero
    refine hd (BitVec.eq_of_toNat_eq ?_)
    have hnat := congrArg BitVec.toNat hzero'
    rw [BitVec.toNat_setWidth, Nat.mod_eq_of_lt (d.isLt.trans_le
      (Nat.pow_le_pow_right (by decide) hw))] at hnat
    exact hnat
  rintro ⟨hdiv, hzero⟩
  obtain ⟨rfl, -, rfl⟩ | ⟨rfl, X, C, hmatch, htest, rfl⟩ | ⟨rfl, rfl, rfl⟩ |
    ⟨rfl, M, hM, rfl⟩ | ⟨rfl, M, hM, rfl⟩ := hcase
  · exact hdiv.elim nofun nofun
  · obtain ⟨k, hk, hmask, -⟩ :=
      isMask_of_not_allOnes hw (hF.and I hI w lhs rhs X C hcode hops hmatch) htest
    refine hconst _ (fun h => ?_) hzero
    have hpow := hmask.setWidth_add_one hw
    rw [h, if_pos hk] at hpow
    exact Nat.ne_of_lt (Nat.two_pow_pos k) hpow
  · exact hdiv.elim nofun nofun
  · exact hdiv.elim nofun nofun
  · have hlt := hF.lshr I hI w lhs rhs M hcode hops hM
    refine hconst _ (fun h => ?_) hzero
    rw [shifted_setWidth hw hlt] at h
    have hpow := BitVec.toNat_twoPow_of_lt hlt
    rw [h] at hpow
    exact Nat.ne_of_lt (Nat.two_pow_pos _) hpow

/-- **Where a mask is all ones, or a shift too long, a new instruction divides by zero.** -/
theorem restricted_of_divisor (F : Func O Other L)
    (h : ∀ I ∈ F.body.flatten, ∀ N, newI? (fun _ => 0) F.body I = some N → ¬ N.DividesByZero) :
    Restricted F.body := by
  constructor
  · intro I hI w lhs rhs X C hcode hops hmatch hall
    have hw := F.width_le I hI .and w hcode
    obtain ⟨lhs', rhs', hops', hlhs, hrhs⟩ := F.operands I hI .and w hcode
    obtain ⟨rfl, rfl⟩ : lhs = lhs' ∧ rhs = rhs' := by
      rw [hops] at hops'
      simpa using hops'
    obtain ⟨c, hc⟩ : ∃ c : BitVec w, C = c.setWidth 64 := by
      obtain ⟨hC, -⟩ | ⟨hC, -⟩ := matchAnd_cases hmatch
      · obtain ⟨c, -, hc, -⟩ := hrhs.constantInt hw hC
        exact ⟨c, hc⟩
      · obtain ⟨c, -, hc, -⟩ := hlhs.constantInt hw hC
        exact ⟨c, hc⟩
    have hhigh : ∀ i, w ≤ i → C.getLsbD i = false := by
      intro i hi
      rw [hc, BitVec.getLsbD_setWidth, BitVec.getLsbD_of_ge c i hi, Bool.and_false]
    obtain ⟨k, hk, hmask⟩ := isMask_of_allOnes hw hhigh hall
    have htest := and_add_one_eq_zero_iff.mpr ⟨k, hmask⟩
    refine h I hI ⟨.urem, w, X, constantInt w
      ((mask (fun _ => 0) C (shlAmount? F.body X) + 1).setWidth w)⟩ ?_ ⟨Or.inr rfl, ?_⟩
    · unfold newI?
      rw [hcode, hops]
      simp only [hmatch]
      exact if_pos htest
    · have hpow := hmask.setWidth_add_one hw
      rw [if_neg (not_lt.mpr hk)] at hpow
      have hzero : (mask (fun _ => 0) C (shlAmount? F.body X) + 1).setWidth w = 0 :=
        BitVec.eq_of_toNat_eq hpow
      show constantInt? (constantInt w _) = _
      rw [hzero]
      simp [constantInt?, constantInt]
  · intro I hI w X rhs N hcode hops hN
    by_contra hle
    refine h I hI ⟨.udiv, w, X, constantInt w ((shifted (fun _ => 0) N).setWidth w)⟩ ?_
      ⟨Or.inl rfl, ?_⟩
    · unfold newI?
      rw [hcode, hops]
      simp only [hN, Option.map_some]
    · show constantInt? (constantInt w _) = _
      rw [shifted_setWidth_of_le (not_lt.mp hle)]
      simp [constantInt?, constantInt]

end Values

/-! ## All replacements at once -/

section Replacement

/-- An instruction whose operands have other names. -/
def uses (ρ : NewId → NewId) (I : Inst O Other L NewId) : Inst O Other L NewId :=
  { I with operands := I.operands.map (mapVal ρ) }

@[simp] theorem uses_id (ρ : NewId → NewId) (I : Inst O Other L NewId) : (uses ρ I).id = I.id := rfl

theorem uses_uses (ρ τ : NewId → NewId) (I : Inst O Other L NewId) :
    uses ρ (uses τ I) = uses (fun n => ρ (τ n)) I := by
  have hval : ∀ V : Val O L NewId, mapVal ρ (mapVal τ V) = mapVal (fun n => ρ (τ n)) V := by
    intro V
    cases V <;> rfl
  simp [uses, hval]

/-- What a list of pairs makes of an instruction, and of its uses. -/
def substitute (pairs : List (NewId × Inst O Other L NewId)) (I : Inst O Other L NewId) :
    Inst O Other L NewId :=
  ((pairs.find? fun p => p.1 = I.id).map Prod.snd).getD I

@[inherit_doc substitute]
def substituteId (pairs : List (NewId × Inst O Other L NewId)) (n : NewId) : NewId :=
  ((pairs.find? fun p => p.1 = n).map fun p => p.2.id).getD n

variable {pairs : List (NewId × Inst O Other L NewId)}

theorem find?_of_not_mem {n : NewId} (h : n ∉ pairs.map Prod.fst) :
    pairs.find? (fun p => p.1 = n) = none := by
  rw [List.find?_eq_none]
  intro p hp heq
  exact h (List.mem_map.mpr ⟨p, hp, of_decide_eq_true heq⟩)

/-- Instructions that have not been inserted yet change with their uses. -/
theorem find?_map_uses (ρ : NewId → NewId) (n : NewId) :
    (pairs.map fun p => (p.1, uses ρ p.2)).find? (fun p => p.1 = n) =
      (pairs.find? fun p => p.1 = n).map fun p => (p.1, uses ρ p.2) := by
  rw [List.find?_map]
  rfl

theorem replaceAll_eq (hnew : ∀ p ∈ pairs, p.2.id ∉ pairs.map Prod.fst)
    (body : Body O Other L NewId) :
    replaceAll pairs body =
      body.map fun B => B.map fun I => uses (substituteId pairs) (substitute pairs I) := by
  induction hn : pairs.length generalizing pairs body with
  | zero =>
    obtain rfl := List.length_eq_zero_iff.mp hn
    have hid : ∀ V : Val O L NewId,
        mapVal (substituteId ([] : List (NewId × Inst O Other L NewId))) V = V := by
      intro V
      cases V <;> rfl
    have huses : ∀ I : Inst O Other L NewId, uses (substituteId ([] : List (NewId × Inst O Other L NewId)))
        (substitute [] I) = I := by
      intro I
      show { I with operands := I.operands.map _ } = I
      rw [funext hid, List.map_id']
    rw [replaceAll]
    simp [huses]
  | succ n ih =>
    obtain ⟨⟨From, To⟩, rest, rfl⟩ := List.exists_cons_of_length_eq_add_one hn
    have hTo : To.id ∉ rest.map Prod.fst := fun hmem =>
      hnew _ List.mem_cons_self (List.mem_cons_of_mem From hmem)
    let ρ : NewId → NewId := fun n => if n = From then To.id else n
    let rest' := rest.map fun p => (p.1, uses ρ p.2)
    have hfst : rest'.map Prod.fst = rest.map Prod.fst := by
      simp [rest', Function.comp_def]
    have hnew' : ∀ p ∈ rest', p.2.id ∉ rest'.map Prod.fst := by
      intro p hp
      obtain ⟨p', hp', rfl⟩ := List.mem_map.mp hp
      rw [hfst]
      exact fun hmem => hnew p' (List.mem_cons_of_mem _ hp') (List.mem_cons_of_mem From hmem)
    have hlength : rest'.length = n := by
      rw [List.length_map]
      exact Nat.succ.inj hn
    -- a use of `From` is one of `To` from now on, and that is not replaced again
    have hid : ∀ m, substituteId rest' (ρ m) = substituteId ((From, To) :: rest) m := by
      intro m
      unfold substituteId
      rw [find?_map_uses]
      by_cases hm : m = From
      · have hρ : ρ m = To.id := if_pos hm
        rw [hρ, find?_of_not_mem hTo]
        simp [hm]
      · have hρ : ρ m = m := if_neg hm
        have hm' : ¬ From = m := fun h => hm h.symm
        rw [hρ, List.find?_cons_of_neg (by simpa using hm'), Option.map_map]
        rfl
    have hinst : ∀ I,
        uses (substituteId rest') (substitute rest' (uses ρ (if I.id = From then To else I))) =
        uses (substituteId ((From, To) :: rest)) (substitute ((From, To) :: rest) I) := by
      intro I
      have hstep : substitute rest' (uses ρ (if I.id = From then To else I)) =
          uses ρ (substitute ((From, To) :: rest) I) := by
        unfold substitute
        rw [uses_id, find?_map_uses]
        by_cases hI : I.id = From
        · rw [if_pos hI, find?_of_not_mem hTo]
          simp [hI]
        · have hI' : ¬ From = I.id := fun h => hI h.symm
          rw [if_neg hI, List.find?_cons_of_neg (by simpa using hI')]
          cases rest.find? fun p => p.1 = I.id <;> rfl
      rw [hstep, uses_uses, funext hid]
    rw [replaceAll]
    show replaceAll rest' (replaceInstWithInst From To body) = _
    rw [ih hnew' _ hlength, replaceInstWithInst, List.map_map]
    refine List.map_congr_left fun B _ => ?_
    show (B.map _).map _ = _
    rw [List.map_map]
    exact List.map_congr_left fun I _ => hinst I

variable (beyond : Word → Word) (F : Func O Other L)

/-- Two instructions with one name are one. -/
theorem Func.inst_unique {I J : Inst O Other L ℕ} (hI : I ∈ F.body.flatten)
    (hJ : J ∈ F.body.flatten) (h : I.id = J.id) : I = J :=
  List.inj_on_of_nodup_map F.ids hI hJ h

/-- The pair of an instruction in the worklist. -/
theorem find?_worklist {I : Inst O Other L ℕ} (hI : I ∈ F.body.flatten) :
    (worklist beyond F).find? (fun p => p.1 = .inl I.id) =
      (newI? beyond F.body I).map fun N => (.inl I.id, N.create I.id) := by
  cases hN : newI? beyond F.body I with
  | none =>
    rw [Option.map_none, List.find?_eq_none]
    intro p hp heq
    obtain ⟨J, hJ, hpair⟩ := List.mem_filterMap.mp hp
    obtain ⟨N, hN', rfl⟩ := Option.map_eq_some_iff.mp hpair
    have hid : J.id = I.id := Sum.inl.inj (of_decide_eq_true heq)
    rw [F.inst_unique hJ hI hid, hN] at hN'
    cases hN'
  | some N =>
    have hmem : ((.inl I.id, N.create I.id) : NewId × Inst O Other L NewId) ∈ worklist beyond F :=
      List.mem_filterMap.mpr ⟨I, hI, by rw [hN]; rfl⟩
    cases hfind : (worklist beyond F).find? (fun p => p.1 = .inl I.id) with
    | none =>
      have hne := List.find?_eq_none.mp hfind _ hmem
      simp at hne
    | some p =>
      obtain ⟨J, hJ, hpair⟩ := List.mem_filterMap.mp (List.mem_of_find?_eq_some hfind)
      obtain ⟨N', hN', rfl⟩ := Option.map_eq_some_iff.mp hpair
      have hid : J.id = I.id := by simpa using List.find?_some hfind
      obtain rfl := F.inst_unique hJ hI hid
      rw [hN] at hN'
      rw [Option.some.inj hN']
      rfl

/-- New instructions are not in the worklist to be replaced. -/
theorem inr_not_mem_worklist (n : ℕ) : (.inr n : NewId) ∉ (worklist beyond F).map Prod.fst := by
  intro hmem
  obtain ⟨p, hp, heq⟩ := List.mem_map.mp hmem
  obtain ⟨J, -, hpair⟩ := List.mem_filterMap.mp hp
  obtain ⟨N, -, rfl⟩ := Option.map_eq_some_iff.mp hpair
  cases heq

theorem substituteId_worklist (n : NewId) :
    substituteId (worklist beyond F) n = n.elim (newId beyond F) .inr := by
  cases n with
  | inr n =>
    unfold substituteId
    rw [find?_of_not_mem (inr_not_mem_worklist beyond F n)]
    rfl
  | inl n =>
    show substituteId (worklist beyond F) (.inl n) = newId beyond F n
    unfold newId
    split
    · next hany =>
      obtain ⟨I, hI, h⟩ := List.any_eq_true.mp hany
      obtain ⟨rfl, hN⟩ := of_decide_eq_true h
      obtain ⟨N, hN⟩ := Option.isSome_iff_exists.mp hN
      unfold substituteId
      rw [find?_worklist beyond F hI, hN]
      rfl
    · next hany =>
      have hmem : (.inl n : NewId) ∉ (worklist beyond F).map Prod.fst := by
        intro hmem
        obtain ⟨p, hp, heq⟩ := List.mem_map.mp hmem
        obtain ⟨J, hJ, hpair⟩ := List.mem_filterMap.mp hp
        obtain ⟨N, hN, rfl⟩ := Option.map_eq_some_iff.mp hpair
        refine hany (List.any_eq_true.mpr ⟨J, hJ, decide_eq_true ⟨Sum.inl.inj heq, ?_⟩⟩)
        rw [hN]
        rfl
      unfold substituteId
      rw [find?_of_not_mem hmem]
      rfl

/-- What becomes of an instruction. -/
def replaced (I : Inst O Other L ℕ) : Inst O Other L NewId :=
  uses (Sum.elim (newId beyond F) .inr)
    (match newI? beyond F.body I with
      | some N => N.create I.id
      | none => mapInst .inl I)

/-- **Chains included, the pass replaces all instructions of its worklist at once.** -/
theorem weirdArithmetic_eq :
    weirdArithmetic beyond F = F.body.map fun B => B.map (replaced beyond F) := by
  have hnew : ∀ p ∈ worklist beyond F, p.2.id ∉ (worklist beyond F).map Prod.fst := by
    intro p hp
    obtain ⟨J, -, hpair⟩ := List.mem_filterMap.mp hp
    obtain ⟨N, -, rfl⟩ := Option.map_eq_some_iff.mp hpair
    exact inr_not_mem_worklist beyond F J.id
  rw [weirdArithmetic, replaceAll_eq hnew, List.map_map]
  refine List.map_congr_left fun B hB => ?_
  show (B.map _).map _ = _
  rw [List.map_map]
  refine List.map_congr_left fun I hI => ?_
  have hmem : I ∈ F.body.flatten := List.mem_flatten.mpr ⟨B, hB, hI⟩
  show uses _ (substitute (worklist beyond F) (mapInst .inl I)) = replaced beyond F I
  have hinst : substitute (worklist beyond F) (mapInst .inl I) =
      match newI? beyond F.body I with
      | some N => N.create I.id
      | none => mapInst .inl I := by
    unfold substitute
    show (((worklist beyond F).find? fun p => p.1 = .inl I.id).map Prod.snd).getD _ = _
    rw [find?_worklist beyond F hmem]
    cases newI? beyond F.body I <;> rfl
  rw [hinst, replaced]
  congr 1
  exact funext (substituteId_worklist beyond F)

theorem newId_injective {m n : ℕ} (h : newId beyond F m = newId beyond F n) : m = n := by
  unfold newId at h
  split at h <;> split at h
  · exact Sum.inr.inj h
  · cases h
  · cases h
  · exact Sum.inl.inj h

end Replacement

/-! ## Runs -/

section Runs

variable (beyond : Word → Word) (F : Func O Other L) (rest : Sem O Other L (Result V) S)

/-- The new values are the old ones. -/
def Same (env' : NewId → Option (Result V)) (env : ℕ → Option (Result V)) : Prop :=
  ∀ m, env' (newId beyond F m) = env m

variable {beyond F rest} {env' : NewId → Option (Result V)} {env : ℕ → Option (Result V)}

theorem Same.update (h : Same beyond F env' env) (n : ℕ) (v : Option (Result V)) :
    Same beyond F (Function.update env' (newId beyond F n) v) (Function.update env n v) := by
  intro m
  by_cases hm : m = n
  · rw [hm, Function.update_self, Function.update_self]
  · have hne : newId beyond F m ≠ newId beyond F n := fun heq => hm (newId_injective beyond F heq)
    rw [Function.update_of_ne hne, Function.update_of_ne hm]
    exact h m

/-- An operand has the value that it had. -/
theorem Same.eval (h : Same beyond F env' env) (X : Val O L ℕ) :
    (mapVal (Sum.elim (newId beyond F) .inr) (mapVal .inl X)).eval (arithmetic rest) env' =
      X.eval (arithmetic rest) env := by
  cases X with
  | const c => rfl
  | inst n => exact h n

theorem Same.mapM_eval (h : Same beyond F env' env) (Xs : List (Val O L ℕ)) :
    ((Xs.map (mapVal .inl)).map (mapVal (Sum.elim (newId beyond F) .inr))).mapM
        (Operand.eval (arithmetic rest) env') =
      Xs.mapM (Operand.eval (arithmetic rest) env) := by
  induction Xs with
  | nil => rfl
  | cons X Xs ih =>
    simp only [List.map_cons, List.mapM_cons, h.eval X, ih]

/-- An instruction computes the value that it computed. -/
theorem value_replaced (hF : Restricted F.body) (h : Same beyond F env' env)
    (henv : Computed rest F.body env) {I : Inst O Other L ℕ} (hI : I ∈ F.body.flatten)
    {v : Result V} (hv : value rest env I = some v) :
    value rest env' (replaced beyond F I) = some v := by
  unfold replaced
  cases hN : newI? beyond F.body I with
  | none =>
    rw [← hv]
    unfold value
    show (match I.code with | .expr op => _ | _ => none) = _
    cases I.code with
    | expr op => exact congrArg (fun vs => Option.bind vs _) (h.mapM_eval I.operands)
    | other x => rfl
    | phi incoming => rfl
  | some N =>
    rw [← value_eq_of_restricted F hF henv hI hN hv]
    exact congrArg (fun vs => Option.bind vs _) (h.mapM_eval [N.lhs, N.rhs])

theorem replaced_id {I : Inst O Other L ℕ} (hI : I ∈ F.body.flatten) :
    (replaced beyond F I).id = newId beyond F I.id := by
  unfold replaced newId
  cases hN : newI? beyond F.body I with
  | some N =>
    have hany : (F.body.flatten.any fun J => J.id = I.id ∧ (newI? beyond F.body J).isSome) = true := by
      refine List.any_eq_true.mpr ⟨I, hI, decide_eq_true ⟨rfl, ?_⟩⟩
      rw [hN]
      rfl
    rw [if_pos hany]
    rfl
  | none =>
    have hany : ¬ (F.body.flatten.any fun J => J.id = I.id ∧ (newI? beyond F.body J).isSome) = true := by
      intro h
      obtain ⟨J, hJ, h⟩ := List.any_eq_true.mp h
      obtain ⟨hid, hsome⟩ := of_decide_eq_true h
      rw [F.inst_unique hJ hI hid, hN] at hsome
      cases hsome
    rw [if_neg hany]
    rfl

/-- What is replaced, and what replaces it, computes a value from its operands. -/
theorem replaced_expr {I : Inst O Other L ℕ} {op : Opcode O} (hcode : I.code = .expr op) :
    ∃ op', (replaced beyond F I).code = .expr op' := by
  unfold replaced
  cases newI? beyond F.body I with
  | some N => exact ⟨_, rfl⟩
  | none => exact ⟨op, hcode⟩

/-- Other instructions stay. -/
theorem replaced_of_ne {I : Inst O Other L ℕ} (hcode : ∀ op, I.code ≠ .expr op) :
    replaced beyond F I = uses (Sum.elim (newId beyond F) .inr) (mapInst .inl I) := by
  unfold replaced
  cases hN : newI? beyond F.body I with
  | none => rfl
  | some N =>
    obtain ⟨op, w, lhs, rhs, hcode', -⟩ := newI?_cases hN
    exact absurd hcode' (hcode _)

theorem exec_expr [DecidableEq ι] {I : Inst O Other L ι} {op : Opcode O} (hcode : I.code = .expr op)
    (c : Config ι (Result V) S) :
    I.exec (arithmetic rest) c =
      (value rest c.env I).map fun v => { c with env := Function.update c.env I.id (some v) } := by
  unfold Instruction.exec value
  rw [hcode]
  cases I.operands.mapM (Operand.eval (arithmetic rest) c.env) with
  | none => rfl
  | some vs =>
    show ((arithmetic rest).expr op vs).bind _ = ((arithmetic rest).expr op vs).map _
    cases (arithmetic rest).expr op vs <;> rfl

theorem exec_phi [DecidableEq ι] {I : Inst O Other L ι} {incoming : List ℕ}
    (hcode : I.code = .phi incoming) (c : Config ι (Result V) S) :
    I.exec (arithmetic rest) c = some c := by
  unfold Instruction.exec
  rw [hcode]

theorem exec_other [DecidableEq ι] {I : Inst O Other L ι} {x : Other} (hcode : I.code = .other x)
    (c : Config ι (Result V) S) :
    I.exec (arithmetic rest) c =
      (I.operands.mapM (Operand.eval (arithmetic rest) c.env)).bind fun vs =>
        (rest.other x vs c.state).map fun r =>
          ⟨Function.update c.env I.id (some r.1), r.2.1, r.2.2.bind (I.succs[·]?)⟩ := by
  unfold Instruction.exec
  rw [hcode]
  cases I.operands.mapM (Operand.eval (arithmetic rest) c.env) with
  | none => rfl
  | some vs =>
    show (rest.other x vs c.state).bind _ = (rest.other x vs c.state).map _
    cases rest.other x vs c.state <;> rfl

/-- One instruction of the new function does what the old one does. -/
theorem exec_replaced (hF : Restricted F.body) {c c₁ : Config ℕ (Result V) S}
    (h : Same beyond F env' c.env) (henv : Computed rest F.body c.env) {I : Inst O Other L ℕ}
    (hI : I ∈ F.body.flatten) (hexec : I.exec (arithmetic rest) c = some c₁) :
    ∃ env₁, (replaced beyond F I).exec (arithmetic rest) ⟨env', c.state, c.next⟩ =
      some ⟨env₁, c₁.state, c₁.next⟩ ∧ Same beyond F env₁ c₁.env := by
  have hid : (replaced beyond F I).id = newId beyond F I.id := replaced_id hI
  cases hcode : I.code with
  | expr op =>
    obtain ⟨op', hcode'⟩ : ∃ op', (replaced beyond F I).code = .expr op' := replaced_expr hcode
    rw [exec_expr hcode] at hexec
    obtain ⟨v, hv, rfl⟩ := Option.map_eq_some_iff.mp hexec
    rw [exec_expr hcode', value_replaced hF h henv hI hv, hid]
    exact ⟨_, rfl, h.update I.id (some v)⟩
  | phi incoming =>
    have hcode' : (uses (Sum.elim (newId beyond F) .inr) (mapInst .inl I)).code = .phi incoming := hcode
    rw [replaced_of_ne (by rw [hcode]; exact nofun), exec_phi hcode']
    rw [exec_phi hcode] at hexec
    obtain rfl := Option.some.inj hexec
    exact ⟨env', rfl, h⟩
  | other x =>
    have hcode' : (uses (Sum.elim (newId beyond F) .inr) (mapInst .inl I)).code = .other x := hcode
    rw [replaced_of_ne (by rw [hcode]; exact nofun)] at hid ⊢
    rw [exec_other hcode] at hexec
    obtain ⟨vs, hvs, hexec⟩ := Option.bind_eq_some_iff.mp hexec
    obtain ⟨r, hother, rfl⟩ := Option.map_eq_some_iff.mp hexec
    have hvs' := (h.mapM_eval I.operands).trans hvs
    rw [exec_other hcode', hid]
    refine ⟨_, ?_, h.update I.id (some r.1)⟩
    show Option.bind (List.mapM _ ((I.operands.map (mapVal Sum.inl)).map _)) _ = _
    rw [hvs']
    show (rest.other x vs c.state).map _ = _
    rw [hother]
    rfl

/-- Values stay values that the instructions compute. -/
theorem exec_computed {c c₁ : Config ℕ (Result V) S} (henv : Computed rest F.body c.env)
    {I : Inst O Other L ℕ} (hI : I ∈ F.body.flatten)
    (hexec : I.exec (arithmetic rest) c = some c₁) : Computed rest F.body c₁.env := by
  intro J hJ op hJcode v hv
  cases hcode : I.code with
  | expr op' =>
    rw [exec_expr hcode] at hexec
    obtain ⟨v', hv', rfl⟩ := Option.map_eq_some_iff.mp hexec
    by_cases hid : J.id = I.id
    · obtain rfl := F.inst_unique hJ hI hid
      have hval : v' = v := by simpa using hv
      exact ⟨c.env, hval ▸ hv'⟩
    · exact henv J hJ op hJcode v ((Function.update_of_ne hid _ _).symm.trans hv)
  | phi incoming =>
    rw [exec_phi hcode] at hexec
    obtain rfl := Option.some.inj hexec
    exact henv J hJ op hJcode v hv
  | other x =>
    rw [exec_other hcode] at hexec
    obtain ⟨vs, -, hexec⟩ := Option.bind_eq_some_iff.mp hexec
    obtain ⟨r, -, rfl⟩ := Option.map_eq_some_iff.mp hexec
    have hid : J.id ≠ I.id := by
      intro hid
      rw [F.inst_unique hJ hI hid, hcode] at hJcode
      cases hJcode
    exact henv J hJ op hJcode v ((Function.update_of_ne hid _ _).symm.trans hv)

theorem execBody_replaced (hF : Restricted F.body) {B : List (Inst O Other L ℕ)}
    (hB : ∀ I ∈ B, I ∈ F.body.flatten) {c c₁ : Config ℕ (Result V) S}
    (h : Same beyond F env' c.env) (henv : Computed rest F.body c.env)
    (hexec : execBody (arithmetic rest) B c = some c₁) :
    ∃ env₁, execBody (arithmetic rest) (B.map (replaced beyond F)) ⟨env', c.state, c.next⟩ =
      some ⟨env₁, c₁.state, c₁.next⟩ ∧ Same beyond F env₁ c₁.env ∧ Computed rest F.body c₁.env := by
  induction B generalizing c env' with
  | nil =>
    obtain rfl := Option.some.inj hexec
    exact ⟨env', rfl, h, henv⟩
  | cons I B ih =>
    obtain ⟨c₂, hI, hrest⟩ := Option.bind_eq_some_iff.mp hexec
    have hmem := hB I List.mem_cons_self
    obtain ⟨env₂, hI', h₂⟩ := exec_replaced hF h henv hmem hI
    obtain ⟨env₁, hrest', h₁⟩ := ih (fun J hJ => hB J (List.mem_cons_of_mem I hJ)) h₂
      (exec_computed henv hmem hI) hrest
    refine ⟨env₁, ?_, h₁⟩
    show ((replaced beyond F I).exec (arithmetic rest) _).bind _ = _
    rw [hI']
    exact hrest'

/-- What a PHI node takes, or what another instruction keeps, when its block is entered. -/
theorem incoming?_replaced (h : Same beyond F env' env) {I : Inst O Other L ℕ}
    (hI : I ∈ F.body.flatten) (prev : Option ℕ) :
    (replaced beyond F I).incoming? (arithmetic rest) prev env' =
      I.incoming? (arithmetic rest) prev env := by
  have hid : (replaced beyond F I).id = newId beyond F I.id := replaced_id hI
  unfold Instruction.incoming?
  cases hcode : I.code with
  | expr op =>
    obtain ⟨op', hcode'⟩ : ∃ op', (replaced beyond F I).code = .expr op' := replaced_expr hcode
    rw [hcode', hid]
    exact h I.id
  | other x =>
    have hcode' : (replaced beyond F I).code = .other x := by
      rw [replaced_of_ne (by rw [hcode]; exact nofun)]
      exact hcode
    rw [hcode', hid]
    exact h I.id
  | phi incoming =>
    have hreplaced : replaced beyond F I = uses (Sum.elim (newId beyond F) .inr) (mapInst .inl I) :=
      replaced_of_ne (by rw [hcode]; exact nofun)
    have hcode' : (replaced beyond F I).code = .phi incoming := by
      rw [hreplaced]
      exact hcode
    rw [hcode', hreplaced]
    show prev.bind _ = prev.bind _
    cases prev with
    | none => rfl
    | some P =>
      show ((I.operands.map (mapVal Sum.inl)).map _)[_]?.bind _ = I.operands[_]?.bind _
      rw [List.getElem?_map, List.getElem?_map]
      cases I.operands[incoming.idxOf P]? with
      | none => rfl
      | some X => exact h.eval X

theorem enter_replaced {B : List (Inst O Other L ℕ)} (hB : ∀ I ∈ B, I ∈ F.body.flatten)
    (h : Same beyond F env' env) (prev : Option ℕ) :
    Same beyond F (enter (arithmetic rest) prev (B.map (replaced beyond F)) env')
      (enter (arithmetic rest) prev B env) := by
  -- all are computed from the values before; those that are there already agree
  have hfold : ∀ (B : List (Inst O Other L ℕ)) (acc' acc), (∀ I ∈ B, I ∈ F.body.flatten) →
      Same beyond F acc' acc → Same beyond F
        ((B.map (replaced beyond F)).foldl (fun e I => Function.update e I.id
          (I.incoming? (arithmetic rest) prev env')) acc')
        (B.foldl (fun e I => Function.update e I.id
          (I.incoming? (arithmetic rest) prev env)) acc) := by
    intro B
    induction B with
    | nil => exact fun _ _ _ hacc => hacc
    | cons I B ih =>
      intro acc' acc hB hacc
      have hI := hB I List.mem_cons_self
      refine ih _ _ (fun J hJ => hB J (List.mem_cons_of_mem I hJ)) ?_
      show Same beyond F (Function.update acc' _ _) (Function.update acc _ _)
      rw [incoming?_replaced h hI, replaced_id hI]
      exact hacc.update I.id _
  exact hfold B env' env hB h

theorem enter_computed {B : List (Inst O Other L ℕ)} (hB : ∀ I ∈ B, I ∈ F.body.flatten)
    (henv : Computed rest F.body env) (prev : Option ℕ) :
    Computed rest F.body (enter (arithmetic rest) prev B env) := by
  intro J hJ op hcode v hv
  have hfold : ∀ (B : List (Inst O Other L ℕ)) (acc : ℕ → Option (Result V)),
      (∀ I ∈ B, I ∈ F.body.flatten) → acc J.id = env J.id →
      (B.foldl (fun e I => Function.update e I.id (I.incoming? (arithmetic rest) prev env)) acc) J.id =
        env J.id := by
    intro B
    induction B with
    | nil => exact fun _ _ hacc => hacc
    | cons I B ih =>
      intro acc hB hacc
      refine ih _ (fun K hK => hB K (List.mem_cons_of_mem I hK)) ?_
      show Function.update acc I.id _ J.id = _
      by_cases hid : J.id = I.id
      · rw [← F.inst_unique hJ (hB I List.mem_cons_self) hid, Function.update_self]
        unfold Instruction.incoming?
        rw [hcode]
      · rw [Function.update_of_ne hid]
        exact hacc
  exact henv J hJ op hcode v ((hfold B env hB rfl).symm.trans hv)

/-- **The new function does in each run what the old one does.** -/
theorem run_replaced (hF : Restricted F.body) (state : S) {n : ℕ} {prev : Option ℕ}
    {c : Config ℕ (Result V) S} (h : run (arithmetic rest) F.body state n = some (prev, c)) :
    (∃ env', run (arithmetic rest) (F.body.map fun B => B.map (replaced beyond F)) state n =
      some (prev, ⟨env', c.state, c.next⟩) ∧ Same beyond F env' c.env) ∧
    Computed rest F.body c.env := by
  induction n generalizing prev c with
  | zero =>
    obtain ⟨rfl, rfl⟩ := Prod.mk.inj (Option.some.inj h)
    exact ⟨⟨_, rfl, fun _ => rfl⟩, fun _ _ _ _ _ hv => by cases hv⟩
  | succ n ih =>
    obtain ⟨⟨prev₀, c₀⟩, hrun, h⟩ := Option.bind_eq_some_iff.mp h
    obtain ⟨c₁, hblock, h⟩ := Option.bind_eq_some_iff.mp h
    obtain ⟨rfl, rfl⟩ := Prod.mk.inj (Option.some.inj h)
    obtain ⟨⟨env₀, hrun', hsame⟩, henv⟩ := ih hrun
    obtain ⟨cur, hcur, hblock⟩ := Option.bind_eq_some_iff.mp hblock
    obtain ⟨B, hB, hbody⟩ := Option.bind_eq_some_iff.mp hblock
    have hmem : ∀ I ∈ B, I ∈ F.body.flatten := fun I hI =>
      List.mem_flatten.mpr ⟨B, List.mem_of_getElem? hB, hI⟩
    obtain ⟨env₁, hbody', hsame', henv'⟩ := execBody_replaced hF hmem
      (enter_replaced hmem hsame prev₀) (enter_computed hmem henv prev₀) hbody
    refine ⟨⟨env₁, ?_, hsame'⟩, henv'⟩
    show Option.bind (run _ _ _ _) _ = _
    rw [hrun']
    show Option.bind (execBlock _ _ _ _) _ = _
    unfold execBlock
    show Option.bind (Option.bind c₀.next _) _ = _
    rw [hcur]
    show Option.bind (Option.bind (List.map _ F.body)[cur]? _) _ = _
    rw [List.getElem?_map, hB]
    show Option.bind (execBody _ _ _) _ = _
    rw [hbody']
    rfl

end Runs

/-- **The pass preserves all values, and divides by zero nowhere, iff no mask is all ones and no `lshr`
    shifts everything out.** -/
theorem preserved_iff (F : Func O Other L) :
    (∀ beyond, Preserved beyond F) ↔ Restricted F.body := by
  constructor
  · exact fun h => restricted_of_divisor F (h fun _ => 0).divisor
  · intro hF beyond
    refine ⟨?_, ?_, ?_⟩
    · intro I hI N hN V S rest env henv v hv
      exact value_eq_of_restricted F hF henv hI hN hv
    · exact fun I hI N hN => not_dividesByZero_of_restricted F hF hI hN
    · intro V S rest state n prev c hrun
      rw [weirdArithmetic_eq]
      exact (run_replaced hF state hrun).1

/-- `and i8 X, -1`, of the result of a call. -/
def andMinusOne : Func Unit Unit Unit where
  body := [[⟨0, .other (), [], []⟩, ⟨1, .expr (.binary .and 8), [.inst 0, constantInt 8 255], []⟩,
    ⟨2, .other (), [.inst 1], []⟩]]
  ids := by decide
  width_le := by
    intro I hI op w hcode
    simp only [List.flatten_cons, List.flatten_nil, List.append_nil, List.mem_cons,
      List.not_mem_nil, or_false] at hI
    obtain rfl | rfl | rfl := hI
    · cases hcode
    · cases hcode
      decide
    · cases hcode
  operands := by
    intro I hI op w hcode
    simp only [List.flatten_cons, List.flatten_nil, List.append_nil, List.mem_cons,
      List.not_mem_nil, or_false] at hI
    obtain rfl | rfl | rfl := hI
    · cases hcode
    · cases hcode
      refine ⟨_, _, rfl, ⟨nofun, fun J op v hJ hJcode => ?_⟩, fun v c hc => ?_, nofun⟩
      · cases hJ
        cases hJcode
      · cases hc
        rfl
    · cases hcode

/-- `255 + 1` is not zero in 64 bits; the test accepts it, and in `i8` it is zero. -/
theorem not_preserved_andMinusOne : ¬ ∀ beyond, Preserved beyond andMinusOne := by
  intro h
  refine (h fun _ => 0).divisor ⟨1, .expr (.binary .and 8), [.inst 0, constantInt 8 255], []⟩ ?_
    ⟨.urem, 8, .inst 0, constantInt 8 0⟩ rfl ⟨Or.inr rfl, rfl⟩
  exact List.mem_cons_of_mem _ List.mem_cons_self

end SwppCompiler.Passes.WeirdArithmetic
