import SwppCompiler.Interp.Bop

/-!
# The source IR of the backend

The part of LLVM IR that `Backend::run` accepts (`src/core/Backend.cpp`): integers, pointers and
arrays; the instructions that `DepromoteRegisters` has a visitor for; blocks in layout order.

An `Instruction *` is an `InstRef`, the position of the instruction: block and index. `getParent()`
is a projection, and no two instructions share an `InstRef`. A `BasicBlock *` is the block's
position in the layout; block 0 is the entry block.

The meaning of an arithmetic instruction is `BinaryOps.eval` and `Predicate.eval`; `none` is
undefined behaviour or a poison value.
-/

namespace SwppCompiler.Backend

open Interp

/-- The types that `checkSrcType` and `getAccessSize` know. -/
inductive Ty
  | int (bw : ℕ)
  | ptr (elem : Ty)
  | array (n : ℕ) (elem : Ty)
deriving DecidableEq, Repr

/-- `isIntegerTy()`. -/
def Ty.isInteger : Ty → Bool
  | .int _ => true
  | _ => false

/-- `isArrayTy()`. -/
def Ty.isArray : Ty → Bool
  | .array _ _ => true
  | _ => false

/-- `i8 *`. -/
abbrev i8Ptr : Ty := .ptr (.int 8)

/-- `getAccessSize` (`Backend.cpp`, lines 21–31), an `unsigned`. -/
def getAccessSize : Ty → ℕ
  | .ptr _ => 8
  | .int bw => if bw = 1 then 1 else bw / 8
  | .array n elem => getAccessSize elem * n % 2 ^ 32

/-- `checkSrcType` (`Backend.cpp`, lines 79–88) holds. -/
def checkSrcType : Ty → Bool
  | .int bw => bw = 1 || bw = 8 || bw = 16 || bw = 32 || bw = 64
  | .array _ elem => checkSrcType elem
  | .ptr _ => true

/-- An instruction, by its block and its index there. -/
structure InstRef where
  parent : ℕ
  idx : ℕ
deriving DecidableEq, Repr

/-- The values an operand can be: `dyn_cast` in `translateSrcOperandToTgt` distinguishes them. A
    `ConstantInt` is its `getZExtValue()`. -/
inductive Value
  | inst (I : InstRef)
  | arg (n : ℕ)
  | constInt (v : Word)
  | null
  | undefValue
  | global (g : ℕ)
deriving DecidableEq, Repr

/-- A typed operand. -/
structure Operand where
  val : Value
  ty : Ty
deriving DecidableEq, Repr

/-- The instruction that an operand is, if any. -/
def Operand.inst? (V : Operand) : Option InstRef :=
  match V.val with
  | .inst I => some I
  | _ => none

/-- The binary operators that `visitBinaryOperator` accepts. -/
inductive BinaryOps
  | udiv | urem | mul | shl | lshr | and | or | xor | add | sub | sdiv | srem | ashr
deriving DecidableEq, Repr

/-- `CmpInst::Predicate`. -/
inductive Predicate
  | eq | ne | ugt | uge | ult | ule | sgt | sge | slt | sle
deriving DecidableEq, Repr

/-- The operator the assembly emitter prints and the interpreter reads back. -/
def BinaryOps.bopKind : BinaryOps → BopKind
  | .udiv => .udiv | .urem => .urem | .mul => .mul | .shl => .shl | .lshr => .lshr
  | .and => .and | .or => .or | .xor => .xor | .add => .add | .sub => .sub
  | .sdiv => .sdiv | .srem => .srem | .ashr => .ashr

/-- The comparison the assembly emitter prints and the interpreter reads back. -/
def Predicate.bopKind : Predicate → BopKind
  | .eq => .eq | .ne => .ne | .ugt => .ugt | .uge => .uge | .ult => .ult | .ule => .ule
  | .sgt => .sgt | .sge => .sge | .slt => .slt | .sle => .sle

/-- The value of a binary operator on `iN` operands. -/
def BinaryOps.eval {w : ℕ} (op : BinaryOps) (x y : BitVec w) : Option (BitVec w) :=
  match op with
  | .udiv => if y = 0 then none else some (x / y)
  | .urem => if y = 0 then none else some (x % y)
  | .sdiv => if y = 0 ∨ (x = BitVec.intMin w ∧ y = -1) then none else some (x.sdiv y)
  | .srem => if y = 0 ∨ (x = BitVec.intMin w ∧ y = -1) then none else some (x.srem y)
  | .mul => some (x * y)
  | .shl => if y.toNat < w then some (x <<< y.toNat) else none
  | .lshr => if y.toNat < w then some (x >>> y.toNat) else none
  | .ashr => if y.toNat < w then some (x.sshiftRight y.toNat) else none
  | .and => some (x &&& y)
  | .or => some (x ||| y)
  | .xor => some (x ^^^ y)
  | .add => some (x + y)
  | .sub => some (x - y)

/-- The value of a comparison of `iN` operands. -/
def Predicate.eval {w : ℕ} (p : Predicate) (x y : BitVec w) : Bool :=
  match p with
  | .eq => x = y
  | .ne => x ≠ y
  | .ugt => y.ult x
  | .uge => y.ule x
  | .ult => x.ult y
  | .ule => x.ule y
  | .sgt => y.slt x
  | .sge => y.sle x
  | .slt => x.slt y
  | .sle => x.sle y

/-- An instruction that is neither a PHI node nor a terminator. A cast, and a call with a result,
    carry their result type. -/
inductive Inst
  | alloca (allocated : Ty) (arraySize : Operand)
  | load (ptr : Operand)
  | store (value ptr : Operand)
  | binary (op : BinaryOps) (lhs rhs : Operand)
  | icmp (pred : Predicate) (lhs rhs : Operand)
  | select (cond ifTrue ifFalse : Operand)
  | gep (ptr : Operand) (indices : List Operand) (ty : Ty)
  | bitcast (src : Operand) (ty : Ty)
  | sext (src : Operand) (destBw : ℕ)
  | zext (src : Operand) (destBw : ℕ)
  | trunc (src : Operand) (destBw : ℕ)
  | ptrtoint (src : Operand) (destBw : ℕ)
  | inttoptr (src : Operand) (ty : Ty)
  | call (callee : String) (args : List Operand) (ty : Option Ty)
deriving DecidableEq, Repr

/-- The operands, in LLVM's order. The callee is a function, not an instruction. -/
def Inst.operands : Inst → List Operand
  | .alloca _ n => [n]
  | .load p => [p]
  | .store v p => [v, p]
  | .binary _ a b => [a, b]
  | .icmp _ a b => [a, b]
  | .select c a b => [c, a, b]
  | .gep p idxs _ => p :: idxs
  | .bitcast a _ => [a]
  | .sext a _ => [a]
  | .zext a _ => [a]
  | .trunc a _ => [a]
  | .ptrtoint a _ => [a]
  | .inttoptr a _ => [a]
  | .call _ args _ => args

/-- The result type; `none` is `void`. -/
def Inst.ty : Inst → Option Ty
  | .alloca ty _ => some (.ptr ty)
  | .load p =>
    match p.ty with
    | .ptr elem => some elem
    | _ => none
  | .store _ _ => none
  | .binary _ a _ => some a.ty
  | .icmp _ _ _ => some (.int 1)
  | .select _ a _ => some a.ty
  | .gep _ _ ty => some ty
  | .bitcast _ ty => some ty
  | .sext _ bw => some (.int bw)
  | .zext _ bw => some (.int bw)
  | .trunc _ bw => some (.int bw)
  | .ptrtoint _ bw => some (.int bw)
  | .inttoptr _ ty => some ty
  | .call _ _ ty => ty

/-- `hasName()` after `InstNamer`: everything that is not void has a name. -/
def Inst.hasName (x : Inst) : Bool := x.ty.isSome

/-- A PHI node: its incoming values, each with its block. -/
structure Phi where
  ty : Ty
  incoming : List (Operand × ℕ)
deriving DecidableEq, Repr

/-- `getIncomingValueForBlock`. -/
def Phi.incomingFor (P : Phi) (b : ℕ) : Option Operand :=
  (P.incoming.find? (fun p => p.2 = b)).map Prod.fst

/-- A terminator. -/
inductive Term
  | ret (value : Option Operand)
  | br (dest : ℕ)
  | condBr (cond : Operand) (ifTrue ifFalse : ℕ)
  | switch (cond : Operand) (default : ℕ) (cases : List (Word × ℕ))
deriving DecidableEq, Repr

/-- The operands that are not blocks or case values. -/
def Term.operands : Term → List Operand
  | .ret v => v.toList
  | .br _ => []
  | .condBr c _ _ => [c]
  | .switch c _ _ => [c]

/-- `getSuccessor(0)`, `getSuccessor(1)`, …, with repetitions. -/
def Term.successors : Term → List ℕ
  | .ret _ => []
  | .br d => [d]
  | .condBr _ t f => [t, f]
  | .switch _ d cases => d :: cases.map Prod.snd

/-- `isa<ReturnInst>`. -/
def Term.isReturn : Term → Bool
  | .ret _ => true
  | _ => false

/-- A verified block: PHI nodes first, one terminator, last. -/
structure Block where
  phis : List Phi
  body : List Inst
  term : Term
deriving DecidableEq, Repr

/-- The index of the terminator. -/
def Block.termIdx (B : Block) : ℕ := B.phis.length + B.body.length

/-- The operands of the instructions other than PHI nodes, each with its user's index. -/
def Block.uses (B : Block) : List (ℕ × Operand) :=
  (B.body.zipIdx B.phis.length).flatMap (fun p => p.1.operands.map (fun V => (p.2, V))) ++
    B.term.operands.map (fun V => (B.termIdx, V))

/-- A function: its blocks in layout order. -/
structure Func where
  name : String
  blocks : List Block
deriving DecidableEq, Repr

/-- The PHI nodes of a block. -/
def Func.phis (F : Func) (b : ℕ) : List Phi :=
  match F.blocks[b]? with
  | some B => B.phis
  | none => []

/-- `checkSrcType` and `SrcToTgtType` accept the type of every named instruction (`Backend.cpp`,
    lines 308–316), so each gets a slot. -/
def Func.slotTypesOk (F : Func) : Bool :=
  F.blocks.all fun B =>
    (B.phis.map Phi.ty ++ B.body.filterMap Inst.ty).all fun ty => checkSrcType ty && !ty.isArray

/-- In each block an instruction's own value is used after it only (a PHI node's use is at the end of
    the incoming block). -/
def Func.defBeforeUse (F : Func) : Bool :=
  F.blocks.zipIdx.all fun p => p.1.uses.all fun u =>
    match u.2.inst? with
    | some I => I.parent ≠ p.2 || I.idx < u.1
    | none => true

theorem Func.lt_of_defBeforeUse {F : Func} (h : F.defBeforeUse = true) {b : ℕ} {B : Block}
    (hB : F.blocks[b]? = some B) {n : ℕ} {V : Operand} (hV : (n, V) ∈ B.uses) {I : InstRef}
    (hI : V.inst? = some I) (hb : I.parent = b) : I.idx < n := by
  have hmem : (B, b) ∈ F.blocks.zipIdx := List.mem_zipIdx_iff_getElem?.mpr hB
  have huse := List.all_eq_true.mp (List.all_eq_true.mp h _ hmem) _ hV
  simp only [hI, hb, ne_eq, not_true_eq_false, decide_false, Bool.false_or,
    decide_eq_true_eq] at huse
  exact huse

/-- The operands of the instruction at position `i` of the body are uses of the block. -/
theorem Block.mem_uses {B : Block} {i : ℕ} {x : Inst} (hx : B.body[i]? = some x) {V : Operand}
    (hV : V ∈ x.operands) : (B.phis.length + i, V) ∈ B.uses := by
  refine List.mem_append_left _ (List.mem_flatMap.mpr ⟨(x, B.phis.length + i), ?_, ?_⟩)
  · rw [List.mk_mem_zipIdx_iff_le_and_getElem?_sub]
    exact ⟨by omega, by simpa using hx⟩
  · exact List.mem_map.mpr ⟨V, hV, rfl⟩

theorem Block.mem_uses_term {B : Block} {V : Operand} (hV : V ∈ B.term.operands) :
    (B.termIdx, V) ∈ B.uses :=
  List.mem_append_right _ (List.mem_map.mpr ⟨V, hV, rfl⟩)

/-- The values that the terminator of block `b` passes to the PHI nodes of its successors: for each
    successor in turn, each PHI node's incoming value for `b`. -/
def Func.phiInputs (F : Func) (b : ℕ) (B : Block) : List (InstRef × Option Operand) :=
  B.term.successors.flatMap fun S =>
    (F.phis S).zipIdx.map fun p => (⟨S, p.2⟩, p.1.incomingFor b)

/-! ## `RAHelper` -/

/-- The instruction at a position. -/
inductive Node
  | phi (P : Phi)
  | inst (i : Inst)
  | term (t : Term)

/-- The instruction that an `InstRef` names. -/
def Func.node? (F : Func) (I : InstRef) : Option Node :=
  match F.blocks[I.parent]? with
  | none => none
  | some B =>
    if h : I.idx < B.phis.length then some (.phi B.phis[I.idx])
    else if h : I.idx - B.phis.length < B.body.length then
      some (.inst B.body[I.idx - B.phis.length])
    else if I.idx = B.termIdx then some (.term B.term) else none

/-- `I->hasName()`. -/
def Func.hasName (F : Func) (I : InstRef) : Bool :=
  match F.node? I with
  | some (.phi _) => true
  | some (.inst i) => i.hasName
  | _ => false

/-- An instruction of block `b`, PHI nodes aside, has the operand `I`. -/
def Func.usedIn (F : Func) (I : InstRef) (b : ℕ) : Bool :=
  match F.blocks[b]? with
  | some B => B.uses.any fun u => u.2.inst? = some I
  | none => false

/-- A PHI node has the incoming value `I` for block `b`. -/
def Func.phiUsedFrom (F : Func) (I : InstRef) (b : ℕ) : Bool :=
  F.blocks.any fun B => B.phis.any fun P => P.incoming.any fun p => p.1.inst? = some I ∧ p.2 = b

/-- `AdventBlocks[I]` of `RAHelper::visit` (`Backend.cpp`, lines 857–874), in layout order. -/
def Func.adventBlocks (F : Func) (I : InstRef) : List ℕ :=
  (List.range F.blocks.length).filter fun b =>
    (F.hasName I && I.parent = b) || F.usedIn I b || F.phiUsedFrom I b

/-- The block ends in a `ReturnInst`. -/
def Func.isReturnBlock (F : Func) (b : ℕ) : Bool :=
  match F.blocks[b]? with
  | some B => B.term.isReturn
  | none => false

/-- `FinalUses[b].count(I)` after `RAHelper::visit` (`Backend.cpp`, lines 854–880). -/
def Func.finalUses (F : Func) (b : ℕ) (I : InstRef) : Bool :=
  (F.isReturnBlock b && F.usedIn I b) || F.adventBlocks I = [b]

/-! ## Paths and SSA form -/

/-- A path from the entry block to a block: the blocks that were left, the last one first. -/
inductive Path (F : Func) : List ℕ → ℕ → Prop
  | entry : Path F [] 0
  | edge {left : List ℕ} {b t : ℕ} {B : Block} (hp : Path F left b) (hB : F.blocks[b]? = some B)
      (ht : t ∈ B.term.successors) : Path F (b :: left) t

/-- The function is in SSA form: operands and incoming values are named instructions, and on every
    path the definition comes before the use. An incoming value is used at the end of its block. -/
structure SSA (F : Func) : Prop where
  uses : ∀ {left b B n V I}, Path F left b → F.blocks[b]? = some B → (n, V) ∈ B.uses →
    V.inst? = some I → F.hasName I = true ∧ (I.parent = b ∧ I.idx < n ∨ I.parent ≠ b ∧ I.parent ∈ left)
  inputs : ∀ {left b B P V I}, Path F left b → F.blocks[b]? = some B →
    (P, some V) ∈ F.phiInputs b B → V.inst? = some I →
    F.hasName I = true ∧ (I.parent = b ∨ I.parent ∈ left)

/-- A block that a path has left ends in a jump. -/
theorem Path.isReturnBlock {F : Func} {left : List ℕ} {b : ℕ} (h : Path F left b) :
    ∀ d ∈ left, F.isReturnBlock d = false := by
  induction h with
  | entry => intro d hd; cases hd
  | @edge left b t B hp hB ht ih =>
    intro d hd
    rcases List.mem_cons.mp hd with rfl | hd
    · rw [Func.isReturnBlock, hB]
      cases hterm : B.term with
      | ret V => rw [hterm] at ht; cases ht
      | _ => simp [Term.isReturn, hterm]
    · exact ih d hd

/-- A named instruction is no terminator. -/
theorem Func.idx_lt_of_hasName {F : Func} {I : InstRef} (h : F.hasName I = true) :
    ∃ B, F.blocks[I.parent]? = some B ∧ I.idx < B.termIdx := by
  unfold hasName node? at h
  cases hB : F.blocks[I.parent]? with
  | none => simp [hB] at h
  | some B =>
    refine ⟨B, rfl, ?_⟩
    simp only [hB] at h
    split_ifs at h with h1 h2 h3
    · unfold Block.termIdx; omega
    · unfold Block.termIdx; omega

theorem Func.hasName_body {F : Func} {b i : ℕ} {B : Block} {x : Inst}
    (hB : F.blocks[b]? = some B) (hx : B.body[i]? = some x) :
    F.hasName ⟨b, B.phis.length + i⟩ = x.hasName := by
  obtain ⟨hi, rfl⟩ := List.getElem?_eq_some_iff.mp hx
  have h1 : ¬B.phis.length + i < B.phis.length := by omega
  have h2 : B.phis.length + i - B.phis.length = i := by omega
  simp [hasName, node?, hB, h1, h2, hi]

/-- An operand is used in its block. -/
theorem Func.usedIn_of_mem {F : Func} {b n : ℕ} {B : Block} {V : Operand} {I : InstRef}
    (hB : F.blocks[b]? = some B) (hV : (n, V) ∈ B.uses) (hI : V.inst? = some I) :
    F.usedIn I b = true := by
  unfold usedIn
  rw [hB]
  exact List.any_eq_true.mpr ⟨(n, V), hV, by simpa using hI⟩

/-- An incoming value that the terminator of a block passes is used from this block. -/
theorem Func.phiUsedFrom_of_mem {F : Func} {b : ℕ} {B : Block} {P : InstRef} {V : Operand}
    {I : InstRef} (hV : (P, some V) ∈ F.phiInputs b B) (hI : V.inst? = some I) :
    F.phiUsedFrom I b = true := by
  obtain ⟨S, -, hS⟩ := List.mem_flatMap.mp hV
  obtain ⟨⟨Q, i⟩, hQ, heq⟩ := List.mem_map.mp hS
  have hin : Q.incomingFor b = some V := (Prod.ext_iff.mp heq).2
  obtain ⟨⟨W, b'⟩, hfind, hW⟩ := Option.map_eq_some_iff.mp hin
  have hW : W = V := hW
  have hmem := List.mem_of_find?_eq_some hfind
  have hb' : b' = b := by simpa using List.find?_some hfind
  have hphis : Q ∈ F.phis S := List.fst_mem_of_mem_zipIdx hQ
  unfold phis at hphis
  cases hblock : F.blocks[S]? with
  | none => simp [hblock] at hphis
  | some BS =>
    rw [hblock] at hphis
    refine List.any_eq_true.mpr ⟨BS, List.mem_of_getElem? hblock, List.any_eq_true.mpr
      ⟨Q, hphis, List.any_eq_true.mpr ⟨(W, b'), hmem, ?_⟩⟩⟩
    simp [hW, hb', hI]

/-- A value that another block uses is live out of its own block, unless that block returns. -/
theorem Func.not_finalUses {F : Func} {I : InstRef} {b : ℕ} (hb : b < F.blocks.length)
    (hne : I.parent ≠ b) (hused : F.usedIn I b = true ∨ F.phiUsedFrom I b = true)
    (hret : F.isReturnBlock I.parent = false) : F.finalUses I.parent I = false := by
  have hmem : b ∈ F.adventBlocks I := by
    refine List.mem_filter.mpr ⟨List.mem_range.mpr hb, ?_⟩
    rcases hused with h | h <;> simp [h]
  have hadv : F.adventBlocks I ≠ [I.parent] := by
    intro heq
    rw [heq, List.mem_singleton] at hmem
    exact hne hmem.symm
  simp [finalUses, hret, hadv]

end SwppCompiler.Backend
