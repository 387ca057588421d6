import SwppCompiler.Backend.IR
import SwppCompiler.Backend.RegisterAllocator

/-!
# `DepromoteRegisters`

Model of `class DepromoteRegisters` (`src/core/Backend.cpp`, lines 35–767): the register allocation
of one function, block by block. Each visitor is a program over the allocator, `AdventMap`,
`SourceToEmitMap` and the code emitted for the current block.

An emitted `Value *` is an `EmitVal`: a constant, a function argument, or an emitted instruction,
which carries the register `k` of its name `__rk__`. An emitted instruction is a `Line`, which is at
the same time what `AssemblyEmitter` prints for it: `fill`, `spill`, `loadPhi` and `storePhi` access
the slots `I_slot` and `P_phi_tmp_slot`; a wrapper that prints nothing (a truncation, a zero
extension merged into a load or an operation) is not a `Line`. `Line.value I v` prints nothing
either: it marks the point where a visitor sets `SourceToEmitMap[I] = v`, so where the definition of
`I` has been executed.
-/

namespace SwppCompiler.Backend

open Interp

/-- An emitted value. Pointer constants are their addresses. -/
inductive EmitVal
  | const (w : Word)
  | undefValue
  | arg (n : ℕ)
  | reg (k : ℕ)
deriving DecidableEq, Repr

/-- `isa<Constant>`. -/
def EmitVal.isConst : EmitVal → Bool
  | .const _ | .undefValue => true
  | _ => false

/-- An emitted instruction; `dest` is the register of its name. -/
inductive Line
  | alloca (dest : ℕ) (I : InstRef) (allocated : Ty) (arraySize : Operand)
  | fill (dest : ℕ) (I : InstRef)
  | spill (v : EmitVal) (I : InstRef)
  | loadPhi (dest : ℕ) (P : InstRef)
  | storePhi (v : EmitVal) (P : InstRef)
  | load (dest : ℕ) (size : ℕ) (ptr : EmitVal)
  | store (size : ℕ) (v ptr : EmitVal)
  | bop (dest : ℕ) (kind : BopKind) (a b : EmitVal) (bw : ℕ)
  | select (dest : ℕ) (c a b : EmitVal)
  | copy (dest : ℕ) (a : EmitVal)
  | call (dest : Option ℕ) (callee : String) (args : List EmitVal)
  | ret (v : EmitVal)
  | br (dest : ℕ)
  | condBr (c : EmitVal) (ifTrue ifFalse : ℕ)
  | switch (c : EmitVal) (default : ℕ) (cases : List (Word × ℕ))
  | value (I : InstRef) (v : EmitVal)
deriving DecidableEq, Repr

/-- `AllocaBytesName`, `SetRefName`, `SpillRefName`, `RefSPId` (`Backend.h`, lines 11–17). -/
def setRefName : String := "__set_ref__"
@[inherit_doc setRefName] def spillRefName : String := "__spill_ref__"
@[inherit_doc setRefName] def allocaBytesName : String := "__alloca_bytes__"
@[inherit_doc setRefName] def refSPId : ℕ := 16

/-- What the visitors read: the function, the addresses of the global variables (`GVMap`), and the
    number of bytes that `main` allocates for them in the heap. -/
structure Ctx where
  F : Func
  gvMap : ℕ → Word
  heapSize : Word

/-- The data members that change while a function is translated. `adventMap I` is the queue
    `AdventMap[I]`; `code` is the block being emitted and `emitted` the blocks before it. -/
structure State where
  ra : RegisterAllocator InstRef
  adventMap : InstRef → List ℕ
  sourceToEmitMap : InstRef → Option EmitVal
  refSet : Bool
  refSpilled : Bool
  currentBlock : ℕ
  code : List Line
  emitted : List (List Line)

/-- A visitor: it changes the state or aborts. -/
abbrev M := StateT State (Except Fault)

/-! ## Actions on the members -/

/-- Run one method of the register allocator. -/
def withRA {α : Type} (f : RegisterAllocator InstRef → Except Fault (α × RegisterAllocator InstRef)) :
    M α := fun s => (f s.ra).map fun p => (p.1, { s with ra := p.2 })

/-- `Builder->Create…`: emit one instruction. -/
def emit (l : Line) : M Unit := modify fun s => { s with code := s.code ++ [l] }

/-- `SourceToEmitMap[I] = v`. -/
def setEmitVal (I : InstRef) (v : EmitVal) : M Unit :=
  modify fun s => { s with sourceToEmitMap := Function.update s.sourceToEmitMap I (some v) }

/-- `SourceToEmitMap[I] = v` at the end of the visitor of `I`. -/
def define (I : InstRef) (v : EmitVal) : M Unit := do
  setEmitVal I v
  emit (.value I v)

/-- `assert(b)`. -/
def require (b : Bool) : M Unit := if b then pure () else throw .unsupported

/-- `RA->reportUser`. -/
def reportUser (U : Option InstRef) : M Unit := withRA fun ra => .ok ((), ra.reportUser U)

/-! ## RA actions (lines 121–167) -/

/-- `AdventMap[source].pop()`. -/
def popAdvent (source : InstRef) : M Unit := fun s =>
  match s.adventMap source with
  | [] => .error .popEmpty
  | _ :: q => .ok ((), { s with adventMap := Function.update s.adventMap source q })

/-- The next use of `source` in the block, or `NO_MORE_ADVENT`. -/
def State.nextAdvent (s : State) (source : InstRef) : ℕ :=
  (s.adventMap source).head?.getD noMoreAdvent

/-- `reportUse(source, user, false)` (`Backend.cpp`, lines 122–127). -/
def reportUseNoPop (source : InstRef) (user : Option InstRef) : M Unit := fun s =>
  (s.ra.update source user (s.nextAdvent source)).map fun ra => ((), { s with ra := ra })

/-- `reportUse(source, user)` (`Backend.cpp`, lines 122–127). -/
def reportUse (source : InstRef) (user : Option InstRef) : M Unit := do
  popAdvent source
  reportUseNoPop source user

/-- The condition of `evict` (`Backend.cpp`, lines 131–133): the victim's slot has to be written. -/
def mustSpill (c : Ctx) (s : State) (a : Allocation InstRef) : Bool :=
  a.source.parent = s.currentBlock &&
    (!(s.adventMap a.source).isEmpty ||
      match a.lastUser with
      | none => true
      | some U => !c.F.finalUses U.parent a.source)

/-- `evict` (`Backend.cpp`, lines 128–135). -/
def evict (c : Ctx) : Option (Allocation InstRef) → M Unit
  | none => throw .nullEvicted
  | some a => fun s =>
    if mustSpill c s a then
      match s.sourceToEmitMap a.source with
      | none => .error .nullValue
      | some v => emit (.spill v a.source) s
    else .ok ((), s)

/-- `evict(RA->evict(targetId))`. -/
def evictOne (c : Ctx) (targetId : ℕ) : M Unit := do
  evict c (← withRA (·.evict targetId))

/-- The second request, after an eviction: a zero violates the assertion. -/
def orFault (m : M ℕ) : M ℕ := do
  let regId ← m
  if regId = 0 then throw .requestAfterEvict else pure regId

/-- A request that evicts when there is no register. -/
def requestOrEvict (c : Ctx) (targetId : ℕ) (m : M ℕ) : M ℕ := do
  let regId ← m
  if regId = 0 then do
    evictOne c targetId
    orFault m
  else pure regId

/-- `requestRegister` (`Backend.cpp`, lines 136–145). -/
def requestRegister (c : Ctx) (I : InstRef) : M ℕ := do
  let regId ← requestOrEvict c 0 (withRA (·.request I))
  reportUseNoPop I none
  pure regId

/-- The filling branch of `getRegister`. -/
def fillRegister (c : Ctx) (I : InstRef) : M ℕ := do
  let regId ← requestRegister c I
  emit (.fill regId I)
  setEmitVal I (.reg regId)
  pure regId

/-- `getRegister` (`Backend.cpp`, lines 146–153). -/
def getRegister (c : Ctx) (I : InstRef) : M ℕ := fun s =>
  if s.ra.get I = 0 then fillRegister c I s else .ok (s.ra.get I, s)

/-- `requestTempRegister` (`Backend.cpp`, lines 154–162). -/
def requestTempRegister (c : Ctx) (targetId : ℕ) : M ℕ :=
  requestOrEvict c targetId (withRA (·.requestTempRegister targetId))

/-- `RA->giveUpTempRegister`. -/
def giveUpTempRegister (regId : ℕ) : M Unit :=
  withRA fun ra => (ra.giveUpTempRegister regId).map fun ra => ((), ra)

/-- At most `fuel` iterations of the loop of `clearRA`. -/
def clearLoop (c : Ctx) : (fuel : ℕ) → M Unit
  | 0 => pure ()
  | fuel + 1 => do
    match ← withRA (·.evict 0) with
    | none => pure ()
    | some a => do
      evict c (some a)
      clearLoop c fuel

/-- `clearRA` (`Backend.cpp`, lines 163–166). Every iteration but the last removes an allocation. -/
def clearRA (c : Ctx) : M Unit := fun s => clearLoop c (s.ra.activeSet.length + 1) s

/-- `SourceToEmitMap[I]`, used as an operand. -/
def emitVal (I : InstRef) : M EmitVal := fun s =>
  match s.sourceToEmitMap I with
  | some v => .ok (v, s)
  | none => .error .nullValue

/-- `translateSrcOperandToTgt` (`Backend.cpp`, lines 172–204): the emitted value, and the register
    of an instruction (`*AllocId`), which is 0 for the other operands. -/
def translateSrcOperandToTgt (c : Ctx) (V : Operand) (U : InstRef) : M (EmitVal × ℕ) := do
  require (checkSrcType V.ty)
  match V.val with
  | .arg n => pure (.arg n, 0)
  | .constInt v => pure (.const v, 0)
  | .null => pure (.const 0, 0)
  | .undefValue => pure (.undefValue, 0)
  | .global g => pure (.const (c.gvMap g), 0)
  | .inst I =>
    let regId ← getRegister c I
    reportUse I (some U)
    let v ← emitVal I
    pure (v, regId)

/-- Translate operands from left to right. -/
def translateAll (c : Ctx) (U : InstRef) : List Operand → M (List (EmitVal × ℕ))
  | [] => pure []
  | V :: Vs => do
    let v ← translateSrcOperandToTgt c V U
    let vs ← translateAll c U Vs
    pure (v :: vs)

/-! ## What `IRBuilder` emits -/

/-- The constant folded from two constants. The constant that LLVM picks for an undefined result is
    not modelled. -/
def foldBinary (op : BinaryOps) (bw : ℕ) (a b : EmitVal) : EmitVal :=
  match a, b with
  | .const x, .const y =>
    match op.eval (x.setWidth bw) (y.setWidth bw) with
    | some r => .const (Interp.zext r)
    | none => .undefValue
  | _, _ => .undefValue

/-- `CreateBinOp` on `iN` operands and, below 64 bits, `CreateZExt` of the result. -/
def createBinOp (dest : ℕ) (op : BinaryOps) (bw : ℕ) (a b : EmitVal) : M EmitVal :=
  if a.isConst && b.isConst then pure (foldBinary op bw a b)
  else do
    emit (.bop dest op.bopKind a b bw)
    pure (.reg dest)

/-- `CreateICmp` and `CreateZExt` of the result. -/
def createICmp (dest : ℕ) (p : Predicate) (bw : ℕ) (a b : EmitVal) : M EmitVal :=
  match a, b with
  | .const x, .const y => pure (.const (ofCond (p.eval (x.setWidth bw) (y.setWidth bw))))
  | a, b =>
    if a.isConst && b.isConst then pure .undefValue
    else do
      emit (.bop dest p.bopKind a b bw)
      pure (.reg dest)

/-- `CreateSelect`. -/
def createSelect (dest : ℕ) (cond a b : EmitVal) : M EmitVal :=
  if cond.isConst && a.isConst && b.isConst then
    match cond with
    | .const x => pure (if x.setWidth 1 = 1#1 then a else b)
    | _ => pure .undefValue
  else do
    emit (.select dest cond a b)
    pure (.reg dest)

/-- `CreateBitCast`, which returns its operand when the type does not change. -/
def createBitCast (dest : ℕ) (v : EmitVal) (src ty : Ty) : M EmitVal :=
  if src = ty || v.isConst then pure v
  else do
    emit (.copy dest v)
    pure (.reg dest)

/-- `CreatePtrToInt` and `CreateIntToPtr`. -/
def createPtrCast (dest : ℕ) (v : EmitVal) : M EmitVal :=
  if v.isConst then pure v
  else do
    emit (.copy dest v)
    pure (.reg dest)

/-! ## Visitors -/

/-- `visitAllocaInst` (`Backend.cpp`, lines 375–385). -/
def visitAllocaInst (c : Ctx) (I : InstRef) (allocated : Ty) (arraySize : Operand) : M Unit := do
  require (I.parent = 0)
  require (checkSrcType allocated)
  let regId ← requestRegister c I
  emit (.alloca regId I allocated arraySize)
  define I (.reg regId)

/-- `visitLoadInst` (`Backend.cpp`, lines 386–405). -/
def visitLoadInst (c : Ctx) (I : InstRef) (ptr : Operand) : M Unit := do
  match ptr.ty with
  | .ptr elem =>
    require (checkSrcType elem && !elem.isArray)
    let (p, _) ← translateSrcOperandToTgt c ptr I
    let regId ← requestRegister c I
    emit (.load regId (getAccessSize elem) p)
    define I (.reg regId)
  | _ => throw .unsupported

/-- `visitStoreInst` (`Backend.cpp`, lines 406–427). -/
def visitStoreInst (c : Ctx) (I : InstRef) (value ptr : Operand) : M Unit := do
  require (checkSrcType value.ty)
  reportUser (some I)
  let (v, _) ← translateSrcOperandToTgt c value I
  require (v ≠ .undefValue || value.ty.isInteger)
  let (p, _) ← translateSrcOperandToTgt c ptr I
  emit (.store (getAccessSize value.ty) v p)
  reportUser none

/-- `visitBinaryOperator` (`Backend.cpp`, lines 430–473). -/
def visitBinaryOperator (c : Ctx) (I : InstRef) (op : BinaryOps) (lhs rhs : Operand) : M Unit := do
  match lhs.ty with
  | .int bw =>
    require (checkSrcType (.int bw))
    reportUser (some I)
    let (op1, _) ← translateSrcOperandToTgt c lhs I
    let (op2, _) ← translateSrcOperandToTgt c rhs I
    reportUser none
    let regId ← requestRegister c I
    let res ← createBinOp regId op bw op1 op2
    define I res
  | _ => throw .unsupported

/-- The width of the operands of an `icmp`. -/
def icmpWidth : Ty → ℕ
  | .int bw => bw
  | _ => 64

/-- `visitICmpInst` (`Backend.cpp`, lines 474–497). -/
def visitICmpInst (c : Ctx) (I : InstRef) (pred : Predicate) (lhs rhs : Operand) : M Unit := do
  require (checkSrcType lhs.ty)
  reportUser (some I)
  let (op1, _) ← translateSrcOperandToTgt c lhs I
  let (op2, _) ← translateSrcOperandToTgt c rhs I
  reportUser none
  let regId ← requestRegister c I
  let res ← createICmp regId pred (icmpWidth lhs.ty) op1 op2
  define I res

/-- `visitSelectInst` (`Backend.cpp`, lines 498–513). -/
def visitSelectInst (c : Ctx) (I : InstRef) (cond ifTrue ifFalse : Operand) : M Unit := do
  reportUser (some I)
  let (opCond, _) ← translateSrcOperandToTgt c cond I
  let (opLeft, _) ← translateSrcOperandToTgt c ifTrue I
  let (opRight, _) ← translateSrcOperandToTgt c ifFalse I
  reportUser none
  let regId ← requestRegister c I
  let res ← createSelect regId opCond opLeft opRight
  define I res

/-- The index times the element size (`Backend.cpp`, lines 533–543). A product with an argument is
    named `__r0__`: only an instruction's index gets a register, which is given up at once. -/
def scaleIndex (c : Ctx) (sz : ℕ) (idx : EmitVal) (idxRegId : ℕ) : M EmitVal :=
  if sz = 1 then pure idx
  else do
    require (sz ≠ 0)
    if idxRegId = 0 then createBinOp 0 .mul 64 idx (.const (BitVec.ofNat 64 sz))
    else do
      let r ← requestTempRegister c 0
      giveUpTempRegister r
      createBinOp r .mul 64 idx (.const (BitVec.ofNat 64 sz))

/-- `CreateGEP` on an `i8 *`, an addition; an index that is the constant 0 is skipped (lines
    545–550). -/
def addIndex (dest : ℕ) (ptr idx : EmitVal) : M EmitVal :=
  if idx = .const 0 then pure ptr else createBinOp dest .add 64 ptr idx

/-- The loop of `visitGetElementPtrInst` (`Backend.cpp`, lines 524–558): `ptr` is `PtrI8Op`,
    `elemTy` the type that the next index steps over. -/
def gepLoop (c : Ctx) (I : InstRef) (ptrRegId : ℕ) :
    List Operand → (elemTy : Option Ty) → (ptr : EmitVal) → M EmitVal
  | [], _, ptr => pure ptr
  | _ :: _, none, _ => throw .unsupported
  | idx :: idxs, some elemTy, ptr => do
    require (idx.ty = .int 64)
    let (idxValue, idxRegId) ← translateSrcOperandToTgt c idx I
    let idxValue ← scaleIndex c (getAccessSize elemTy) idxValue idxRegId
    let ptr ← addIndex ptrRegId ptr idxValue
    let next :=
      match elemTy with
      | .array _ elem => some elem
      | _ => none
    gepLoop c I ptrRegId idxs next ptr

/-- `visitGetElementPtrInst` (`Backend.cpp`, lines 514–564). -/
def visitGetElementPtrInst (c : Ctx) (I : InstRef) (ptr : Operand) (indices : List Operand)
    (ty : Ty) : M Unit := do
  match ptr.ty with
  | .ptr elem =>
    reportUser (some I)
    let (ptrOp, _) ← translateSrcOperandToTgt c ptr I
    let ptrRegId ← requestTempRegister c 0
    let ptrI8Op ← createBitCast ptrRegId ptrOp ptr.ty i8Ptr
    let ptrI8Op ← gepLoop c I ptrRegId indices (some elem) ptrI8Op
    reportUser none
    giveUpTempRegister ptrRegId
    let regId ← requestRegister c I
    let ptrOp ← createBitCast regId ptrI8Op i8Ptr ty
    define I ptrOp
  | _ => throw .unsupported

/-- `visitBitCastInst` (`Backend.cpp`, lines 565–571). -/
def visitBitCastInst (c : Ctx) (I : InstRef) (src : Operand) (ty : Ty) : M Unit := do
  let (op, _) ← translateSrcOperandToTgt c src I
  let regId ← requestRegister c I
  let castedOp ← createBitCast regId op src.ty ty
  define I castedOp

/-- The result of `visitSExtInst`: shifted left by multiplying, then shifted right. -/
def createSExt (dest bw : ℕ) (op : EmitVal) : M EmitVal :=
  if bw < 64 then do
    let op ← createBinOp dest .mul 64 op (.const (BitVec.ofNat 64 (2 ^ (64 - bw))))
    createBinOp dest .ashr 64 op (.const (BitVec.ofNat 64 (64 - bw)))
  else createBinOp dest .mul 64 op (.const 1)

/-- `visitSExtInst` (`Backend.cpp`, lines 572–583). -/
def visitSExtInst (c : Ctx) (I : InstRef) (src : Operand) : M Unit := do
  match src.ty with
  | .int bw =>
    let (op, _) ← translateSrcOperandToTgt c src I
    let regId ← requestRegister c I
    let op ← createSExt regId bw op
    define I op
  | _ => throw .unsupported

/-- `visitZExtInst` (`Backend.cpp`, lines 584–590). -/
def visitZExtInst (c : Ctx) (I : InstRef) (src : Operand) : M Unit := do
  let (op, _) ← translateSrcOperandToTgt c src I
  let regId ← requestRegister c I
  let res ← createBinOp regId .mul 64 op (.const 1)
  define I res

/-- `visitTruncInst` (`Backend.cpp`, lines 591–597). -/
def visitTruncInst (c : Ctx) (I : InstRef) (src : Operand) (destBw : ℕ) : M Unit := do
  let (op, _) ← translateSrcOperandToTgt c src I
  let regId ← requestRegister c I
  let res ← createBinOp regId .urem 64 op (.const (BitVec.ofNat 64 (2 ^ destBw)))
  define I res

/-- `visitPtrToIntInst` (`Backend.cpp`, lines 598–602) and `visitIntToPtrInst` (lines 603–607). -/
def visitPtrCast (c : Ctx) (I : InstRef) (src : Operand) : M Unit := do
  let (op, _) ← translateSrcOperandToTgt c src I
  let regId ← requestRegister c I
  let res ← createPtrCast regId op
  define I res

/-- The reference stack pointer before a call (`Backend.cpp`, lines 615–625): reserved by
    `__set_ref__`, spilled by `__spill_ref__`, given up for the call after that. -/
def handOverRef (c : Ctx) (callee : String) : M Unit := fun s =>
  if !s.refSet && callee = setRefName then
    (requestTempRegister c refSPId { s with refSet := true }).map fun p => ((), p.2)
  else if s.refSet && callee = spillRefName then .ok ((), { s with refSpilled := true })
  else if s.refSpilled then giveUpTempRegister refSPId s
  else .ok ((), s)

/-- The emitted call (`Backend.cpp`, lines 631–637). -/
def emitCall (c : Ctx) (I : InstRef) (callee : String) (args : List EmitVal) (named : Bool) :
    M Unit :=
  if named then do
    let regId ← requestRegister c I
    emit (.call (some regId) callee args)
    define I (.reg regId)
  else emit (.call none callee args)

/-- The reference stack pointer after a call (`Backend.cpp`, lines 639–642). -/
def takeBackRef (c : Ctx) (callee : String) : M Unit := fun s =>
  if s.refSpilled && callee ≠ spillRefName then
    (requestTempRegister c refSPId s).map fun p => ((), { p.2 with refSpilled := false })
  else .ok ((), s)

/-- `visitCallInst` (`Backend.cpp`, lines 610–643). -/
def visitCallInst (c : Ctx) (I : InstRef) (callee : String) (args : List Operand)
    (ty : Option Ty) : M Unit := do
  handOverRef c callee
  let vs ← translateAll c I args
  emitCall c I callee (vs.map Prod.fst) ty.isSome
  takeBackRef c callee

/-- The visitor of an instruction that is neither a PHI node nor a terminator. -/
def visitInst (c : Ctx) (I : InstRef) : Inst → M Unit
  | .alloca allocated n => visitAllocaInst c I allocated n
  | .load p => visitLoadInst c I p
  | .store v p => visitStoreInst c I v p
  | .binary op a b => visitBinaryOperator c I op a b
  | .icmp p a b => visitICmpInst c I p a b
  | .select x a b => visitSelectInst c I x a b
  | .gep p idxs ty => visitGetElementPtrInst c I p idxs ty
  | .bitcast a ty => visitBitCastInst c I a ty
  | .sext a _ => visitSExtInst c I a
  | .zext a _ => visitZExtInst c I a
  | .trunc a bw => visitTruncInst c I a bw
  | .ptrtoint a _ => visitPtrCast c I a
  | .inttoptr a _ => visitPtrCast c I a
  | .call f args ty => visitCallInst c I f args ty

/-- `visitPHINode` (`Backend.cpp`, lines 719–726). -/
def visitPHINode (c : Ctx) (I : InstRef) : M Unit := do
  let regId ← requestRegister c I
  emit (.loadPhi regId I)
  define I (.reg regId)

/-- `processPHIsInSuccessor` (`Backend.cpp`, lines 692–717), for the PHI nodes `inputs` of the
    successors. -/
def processPHIs (c : Ctx) (U : InstRef) : List (InstRef × Option Operand) → M Unit
  | [] => pure ()
  | (_, none) :: _ => throw .unsupported
  | (P, some V) :: inputs => do
    let (v, _) ← translateSrcOperandToTgt c V U
    emit (.storePhi v P)
    processPHIs c U inputs

/-- `visitReturnInst` (`Backend.cpp`, lines 646–653), `visitBranchInst` (lines 654–674) and
    `visitSwitchInst` (lines 675–690) of the terminator of block `B`. -/
def visitTerm (c : Ctx) (U : InstRef) (B : Block) : M Unit :=
  match B.term with
  | .ret (some V) => do
    let (v, _) ← translateSrcOperandToTgt c V U
    emit (.ret v)
  | .ret none => emit (.ret (.const 0))
  | .br d => do
    processPHIs c U (c.F.phiInputs U.parent B)
    clearRA c
    emit (.br d)
  | .condBr cond t f => do
    processPHIs c U (c.F.phiInputs U.parent B)
    let (v, _) ← translateSrcOperandToTgt c cond U
    clearRA c
    emit (.condBr v t f)
  | .switch cond d cases => do
    processPHIs c U (c.F.phiInputs U.parent B)
    let (v, _) ← translateSrcOperandToTgt c cond U
    clearRA c
    emit (.switch v d cases)

/-! ## Blocks and functions -/

/-- The pushes into `AdventMap` (`Backend.cpp`, lines 347–362): the timesteps at which the block
    uses `I`. `timestep` is an `unsigned`, which does not wrap in a block of fewer than 2^32 - 1
    instructions. -/
def advents (F : Func) (b : ℕ) (B : Block) (I : InstRef) : List ℕ :=
  ((B.uses.filter fun u => u.2.inst? = some I).map Prod.fst) ++
    (((F.phiInputs b B).filter fun p => p.2.bind Operand.inst? = some I).map fun _ => B.termIdx)

/-- `visitBasicBlock` (`Backend.cpp`, lines 301–367): the block's maps are reset. In the entry block
    every named instruction gets a slot, and in that of `main` the globals in the heap are
    allocated. -/
def visitBasicBlock (c : Ctx) (b : ℕ) (B : Block) : M Unit := do
  require (b ≠ 0 || c.F.slotTypesOk)
  modify fun s =>
    { s with
      adventMap := advents c.F b B
      sourceToEmitMap := fun _ => none
      currentBlock := b
      code :=
        if b = 0 ∧ c.F.name = "main" ∧ c.heapSize ≠ 0 then
          [.call (some 1) "malloc" [.const c.heapSize]]
        else [] }

/-- The visitors of the PHI nodes from index `i` on. -/
def visitPhis (c : Ctx) (b : ℕ) : (i : ℕ) → List Phi → M Unit
  | _, [] => pure ()
  | i, _ :: phis => do
    visitPHINode c ⟨b, i⟩
    visitPhis c b (i + 1) phis

/-- The visitors of the instructions from index `i` on. -/
def visitBody (c : Ctx) (b : ℕ) : (i : ℕ) → List Inst → M Unit
  | _, [] => pure ()
  | i, x :: body => do
    visitInst c ⟨b, i⟩ x
    visitBody c b (i + 1) body

/-- The visitors of one block. -/
def visitBlock (c : Ctx) (b : ℕ) (B : Block) : M Unit := do
  visitBasicBlock c b B
  visitPhis c b 0 B.phis
  visitBody c b B.phis.length B.body
  visitTerm c ⟨b, B.termIdx⟩ B
  modify fun s => { s with emitted := s.emitted ++ [s.code] }

/-- The blocks from position `b` on, in layout order. -/
def visitBlocks (c : Ctx) : (b : ℕ) → List Block → M Unit
  | _, [] => pure ()
  | b, B :: blocks => do
    visitBlock c b B
    visitBlocks c (b + 1) blocks

/-- `visitFunction` (`Backend.cpp`, lines 279–299): a new allocator, no reference stack pointer. -/
def initState : State where
  ra := .init
  adventMap := fun _ => []
  sourceToEmitMap := fun _ => none
  refSet := false
  refSpilled := false
  currentBlock := 0
  code := []
  emitted := []

/-- The translation of a function: the final state, with the code of every block. -/
def visitFunction (c : Ctx) : Except Fault State :=
  ((visitBlocks c 0 c.F.blocks).run initState).map Prod.snd

end SwppCompiler.Backend
