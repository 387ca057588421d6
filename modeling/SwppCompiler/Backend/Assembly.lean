import SwppCompiler.Backend.GetElementPtr
import SwppCompiler.Backend.ProgramText
import SwppCompiler.Backend.StackFrame

/-!
# The assembly of the emitted code

Model of what `AssemblyEmitterImpl` makes of the code that `DepromoteRegisters` emits: the places of
the `alloca`s (`src/core/AssemblyEmitter.cpp`, lines 139–160, 284–297), and the lines of the
instructions (lines 205–257, 298–535). Which `alloca`s there are is in `src/core/Backend.cpp` (lines
307–318, 375–385); `GarbageSlotEliminator` (lines 772–790) leaves out those that are not used.

The calls that change `sp` or the registers around a call (`__set_ref__`, `__alloca_bytes__` and so
on), and those of the library functions `read` and `write`, are not modelled: a function with one of
them has no assembly here.

* `frame_eq`: the frame that `addAlloca` makes. `slot_inside`, `slot_apart`: the places of the slots.
* `emitFunction_block`: the assembly of each block.
-/

namespace SwppCompiler.Backend.Assembly

open Interp Printing

/-! ## Objects of a frame -/

/-- What an `alloca` of the depromoted function is: `RegToAllocaMap[I]`, `PhiToTempAllocaMap[P]`, or
    the one that a source `alloca` becomes. -/
inductive Object
  | slot (I : InstRef)
  | phiTmpSlot (P : InstRef)
  | source (I : InstRef)
deriving DecidableEq, Repr

/-- The slots for block `b` (`Backend.cpp`, lines 309–317). The type of each is an integer of 64
    bits or a pointer, which has as many bytes. -/
def blockSlots (b : ℕ) (B : Block) : List (Object × Ty) :=
  (List.range B.phis.length).flatMap
      (fun i => [(.slot ⟨b, i⟩, .int 64), (.phiTmpSlot ⟨b, i⟩, .int 64)]) ++
    ((B.body.zipIdx B.phis.length).filter fun p => p.1.hasName).map
      fun p => (.slot ⟨b, p.2⟩, .int 64)

/-- The `alloca`s of the depromoted function in order, with their types. -/
def objects (F : Func) (codes : List (List Line)) : List (Object × Ty) :=
  (F.blocks.zipIdx.flatMap fun p => blockSlots p.2 p.1) ++
    codes.flatten.filterMap fun l =>
      match l with
      | .alloca _ I allocated _ => some (.source I, allocated)
      | _ => none

/-- Register `k` is read before something else is put into it. -/
def isRead (k : ℕ) : List Line → Bool
  | [] => false
  | l :: ls => l.reads.contains (.reg k) || (l.dest? ≠ some k && isRead k ls)

/-- `getNumUses() != 0`. -/
def isUsed (codes : List (List Line)) : Object → Bool
  | .slot I => codes.flatten.any fun l =>
    match l with
    | .fill _ J | .spill _ J => J = I
    | _ => false
  | .phiTmpSlot P => codes.flatten.any fun l =>
    match l with
    | .loadPhi _ Q | .storePhi _ Q => Q = P
    | _ => false
  | .source I => codes.any fun code => code.tails.any fun ls =>
    match ls with
    | .alloca k J _ _ :: ls => J = I && isRead k ls
    | _ => false

/-- The `alloca`s that `addAlloca` is called for. -/
def framed (F : Func) (codes : List (List Line)) : List (Object × Ty) :=
  (objects F codes).filter fun p => isUsed codes p.1

/-- `addAlloca` is called for the objects from position `k` on. -/
def addAllocas (f : Backend.Frame.StackFrame) (k : ℕ) (os : List (Object × Ty)) :
    Option Backend.Frame.StackFrame :=
  (os.zipIdx k).foldlM (fun f p => f.addAlloca p.2 ⟨p.1.2, 1, none⟩) f

/-- `AllocaStackOffset` and `UsedStackSize` after these calls. -/
def frame (F : Func) (codes : List (List Line)) : Option Backend.Frame.StackFrame :=
  addAllocas ⟨[], 0⟩ 0 (framed F codes)

/-- `getStackOffset`. -/
def getStackOffset (F : Func) (codes : List (List Line)) (o : Object) : Option (BitVec 32) :=
  (frame F codes).bind fun f =>
    (((framed F codes).map Prod.fst).zip
      (f.allocaStackOffset.map Backend.Frame.Slot.offset)).lookup o

@[inherit_doc frame]
def usedStackSize (F : Func) (codes : List (List Line)) : BitVec 32 :=
  ((frame F codes).map Backend.Frame.StackFrame.usedStackSize).getD 0

/-! ## Operands -/

/-- `r1`, …, `r16` (`AssemblyEmitter.cpp`, lines 122–137). -/
def instReg (regid : ℕ) : Option AsmReg :=
  if h : 1 ≤ regid ∧ regid ≤ 16 then some ⟨.r ⟨regid - 1, by omega⟩, Reg.noConfusion⟩ else none

/-- `arg1`, …, of a function with `argSize` arguments (`AssemblyEmitter.cpp`, lines 80–96). -/
def argReg (argSize : Fin 17) (n : ℕ) : Option AsmReg :=
  if h : n < argSize then some ⟨.a ⟨n, by omega⟩, Reg.noConfusion⟩ else none

/-- `sp`. -/
def spReg : AsmReg := ⟨.sp, Reg.noConfusion⟩

/-- `getOperand` (`AssemblyEmitter.cpp`, lines 205–257). -/
def getOperand (argSize : Fin 17) : EmitVal → Option AsmOperand
  | .const w => some (.const w)
  | .undefValue => (instReg 1).map .reg
  | .arg n => (argReg argSize n).map .reg
  | .reg k => (instReg k).map .reg

/-- A constant operand is one of `bw` bits. -/
def truncOperand (bw : ℕ) : AsmOperand → AsmOperand
  | .const w => .const (zext (w.setWidth bw))
  | .reg r => .reg r

/-- `MSize` of the number of bytes. -/
def msizeOfBytes : ℕ → Option MSize
  | 1 => some .size1
  | 2 => some .size2
  | 4 => some .size4
  | 8 => some .size8
  | _ => none

/-- The instruction whose operator is `kind`: a `BinaryOperator` or an `ICmpInst`. -/
def opcode : BopKind → BinaryOps ⊕ Predicate
  | .udiv => .inl .udiv | .sdiv => .inl .sdiv | .urem => .inl .urem | .srem => .inl .srem
  | .mul => .inl .mul | .shl => .inl .shl | .lshr => .inl .lshr | .ashr => .inl .ashr
  | .and => .inl .and | .or => .inl .or | .xor => .inl .xor | .add => .inl .add | .sub => .inl .sub
  | .eq => .inr .eq | .ne => .inr .ne | .ugt => .inr .ugt | .uge => .inr .uge | .ult => .inr .ult
  | .ule => .inr .ule | .sgt => .inr .sgt | .sge => .inr .sge | .slt => .inr .slt | .sle => .inr .sle

/-- `visitBinaryOperator`, `visitICmpInst` and `visitGetElementPtrInst` (`AssemblyEmitter.cpp`,
    lines 320–361, 370–384). -/
def bopInst (dest : AsmReg) (kind : BopKind) (op1 op2 : AsmOperand) (sz : Size) : AsmInst :=
  match opcode kind with
  | .inl op => .binary dest op op1 op2 sz
  | .inr pred => .icmp dest pred op1 op2 sz

/-- `emitCopy` (`AssemblyEmitter.cpp`, lines 194–197). -/
def emitCopy (dest : AsmReg) (val : AsmOperand) : List AsmInst :=
  match val with
  | .reg r => if r = dest then [] else [.binary dest .mul val (.const 1) .size64]
  | .const _ => [.binary dest .mul val (.const 1) .size64]

/-! ## Lines -/

/-- What the emitter reads of a function: its name, the number of its arguments, and the names of its
    blocks. -/
structure Signature where
  name : Callee
  argSize : Fin 17
  bbNames : List Name

/-- The functions that the emitter or the interpreter treats specially, apart from `malloc` and
    `free`. -/
def specialNames : List String :=
  [setRefName, spillRefName, allocaBytesName, AllocaBytes.freeBytesName, AllocaBytes.resetStackName,
    AllocaBytes.resetHeapName, AllocaBytes.getSPName, "read", "write"]

/-- A function that is called by its name. -/
def calleeOf (callee : String) : Option Callee :=
  if h : (callee.toList ≠ [] ∧ callee.toList.all isNameChar = true) ∧
      callee.toList ≠ "read".toList ∧ callee.toList ≠ "write".toList then
    some ⟨⟨callee.toList, h.1.imp_right List.all_eq_true.mp⟩, h.2⟩
  else none

/-- `visitCallInst` (`AssemblyEmitter.cpp`, lines 411–495). -/
def emitCall (dest : Option AsmReg) (callee : String) (args : List AsmOperand) : Option AsmInst :=
  if callee ∈ specialNames then none
  else if callee = "malloc" then
    match dest, args with
    | some dest, [size] => some (.malloc dest size)
    | _, _ => none
  else if callee = "free" then
    match dest, args with
    | none, [ptr] => some (.free ptr)
    | _, _ => none
  else (calleeOf callee).map fun fn => .call dest fn args

/-- The lines of an instruction that does not end the block (`AssemblyEmitter.cpp`, lines 283–495),
    where `ofs` is `getStackOffset`. A constant that is selected by is 0 or 1. -/
def emitLine (argSize : Fin 17) (ofs : Object → Option (BitVec 32)) : Line → Option (List AsmInst)
  | .alloca k I _ _ =>
    match ofs (.source I) with
    | some o => (instReg k).map fun r =>
      [.binary r .add (.reg spReg) (.const (o.setWidth 64)) .size64]
    | none => some []
  | .fill k I => (instReg k).bind fun r => (ofs (.slot I)).map fun o =>
    [.load r .size8 (.reg spReg) (o.setWidth 64)]
  | .spill v I => (getOperand argSize v).bind fun v => (ofs (.slot I)).map fun o =>
    [.store .size8 v (.reg spReg) (o.setWidth 64)]
  | .loadPhi k P => (instReg k).bind fun r => (ofs (.phiTmpSlot P)).map fun o =>
    [.load r .size8 (.reg spReg) (o.setWidth 64)]
  | .storePhi v P => (getOperand argSize v).bind fun v => (ofs (.phiTmpSlot P)).map fun o =>
    [.store .size8 v (.reg spReg) (o.setWidth 64)]
  | .load k size p => (instReg k).bind fun r => (msizeOfBytes size).bind fun sz =>
    (getOperand argSize p).map fun p => [.load r sz p 0]
  | .store size v p => (msizeOfBytes size).bind fun sz => (getOperand argSize v).bind fun v =>
    (getOperand argSize p).map fun p => [.store sz (truncOperand (8 * msizeOf sz) v) p 0]
  | .bop k kind a b bw => (instReg k).bind fun r => (sizeOfBw bw).bind fun sz =>
    (getOperand argSize a).bind fun a => (getOperand argSize b).map fun b =>
      [bopInst r kind (truncOperand bw a) (truncOperand bw b) sz]
  | .select k c a b => (instReg k).bind fun r => (getOperand argSize c).bind fun c =>
    (getOperand argSize a).bind fun a => (getOperand argSize b).bind fun b =>
      match c with
      | .const w => if w = 0 ∨ w = 1 then some [.select r c a b] else none
      | .reg _ => some [.select r c a b]
  | .copy k a => (instReg k).bind fun r => (getOperand argSize a).map fun a => emitCopy r a
  | .call none callee args => (args.mapM (getOperand argSize)).bind fun args =>
    (emitCall none callee args).map fun i => [i]
  | .call (some k) callee args => (instReg k).bind fun r =>
    (args.mapM (getOperand argSize)).bind fun args =>
      (emitCall (some r) callee args).map fun i => [i]
  | .value _ _ => some []
  | .ret _ | .br _ | .condBr _ _ _ | .switch _ _ _ => none

/-- The line of a terminator (`AssemblyEmitter.cpp`, lines 498–534). A branch on a constant is on
    whether it is not 0. -/
def emitTerm (sig : Signature) : Line → Option AsmInst
  | .ret v => (getOperand sig.argSize v).map .ret
  | .br d => (sig.bbNames[d]?).map .br
  | .condBr c t f => (getOperand sig.argSize c).bind fun c => (sig.bbNames[t]?).bind fun t =>
    (sig.bbNames[f]?).map fun f =>
      match c with
      | .const w => .condBr (.const (ofCond (w ≠ 0))) t f
      | .reg r => .condBr (.reg r) t f
  | .switch c d cases => (getOperand sig.argSize c).bind fun c => (sig.bbNames[d]?).bind fun d =>
    (cases.mapM fun p => (sig.bbNames[p.2]?).map fun name => (p.1, name)).bind fun cases =>
      if h : (cases.map Prod.fst).Nodup then some (.switch c ⟨cases, h⟩ d) else none
  | _ => none

/-- The lines of a block, and its last one. -/
def emitBody (sig : Signature) (ofs : Object → Option (BitVec 32)) :
    List Line → Option (List AsmInst × AsmInst)
  | [] => none
  | l :: ls =>
    if l.endsBlock then
      if ls = [] then (emitTerm sig l).map fun t => ([], t) else none
    else (emitLine sig.argSize ofs l).bind fun is =>
      (emitBody sig ofs ls).map fun r => (is ++ r.1, r.2)

/-- A block in the assembly. No line before the last one ends it. -/
def asmBlock (name : Name) (r : List AsmInst × AsmInst) : Option AsmBlock :=
  if h : (∀ i ∈ r.1, i.stmt.isTerminator = false) ∧ r.2.stmt.isTerminator = true then
    some
      { name := name
        body := r.1.map .inst
        term := r.2
        normal := fun i hi => by
          obtain ⟨j, hj, heq⟩ := List.mem_map.mp hi
          exact BodyLine.inst.inj heq ▸ h.1 j hj
        last := h.2 }
  else none

/-- The blocks from position `b` on. -/
def emitBlocks (sig : Signature) (ofs : Object → Option (BitVec 32)) :
    ℕ → List (List Line) → Option (List AsmBlock)
  | _, [] => some []
  | b, code :: codes => (sig.bbNames[b]?).bind fun name => (emitBody sig ofs code).bind fun r =>
    (asmBlock name r).bind fun B => (emitBlocks sig ofs (b + 1) codes).map fun Bs => B :: Bs

/-- `Em.visit(F)`, for the function that `F` becomes. -/
def emitFunction (sig : Signature) (F : Func) (codes : List (List Line)) : Option AsmFunction :=
  (emitBlocks sig (getStackOffset F codes) 0 codes).bind fun blocks =>
    if h : (blocks.map AsmBlock.name).Nodup then
      some ⟨sig.name, sig.argSize, blocks, usedStackSize F codes, h⟩
    else none

/-! ## The frame -/

section Frame

variable {F : Func} {codes : List (List Line)} {o o' : Object} {ofs ofs' used : BitVec 32}
  {os : List (Object × Ty)}

/-- The offsets of the objects, if the ones before them have `used` bytes. -/
def place (used : BitVec 32) : List (Object × Ty) → List (Object × BitVec 32)
  | [] => []
  | (o, ty) :: os => (o, used) :: place (used + roundedSize ty) os

theorem place_fst : (place used os).map Prod.fst = os.map Prod.fst := by
  induction os generalizing used with
  | nil => rfl
  | cons p os ih => rw [place, List.map_cons, List.map_cons, ih]

theorem addAllocas_eq {f : Backend.Frame.StackFrame} {k : ℕ} (hk : ∀ s ∈ f.allocaStackOffset, s.id < k) :
    ∃ f', addAllocas f k os = some f' ∧
      f'.allocaStackOffset.map Backend.Frame.Slot.offset =
        f.allocaStackOffset.map Backend.Frame.Slot.offset ++ (place f.usedStackSize os).map Prod.snd ∧
      f'.usedStackSize = os.foldl (fun used p => used + roundedSize p.2) f.usedStackSize := by
  induction os generalizing f k with
  | nil => exact ⟨f, rfl, (List.append_nil _).symm, rfl⟩
  | cons p os ih =>
    have hnew : (f.allocaStackOffset.any fun s => s.id = k) = false := by
      rw [List.any_eq_false]
      intro s hs
      have hlt := hk s hs
      simp
      omega
    let f1 : Backend.Frame.StackFrame :=
      ⟨f.allocaStackOffset ++ [⟨k, ⟨p.2, 1, none⟩, f.usedStackSize⟩], f.usedStackSize + roundedSize p.2⟩
    have hadd : f.addAlloca k ⟨p.2, 1, none⟩ = some f1 := by
      rw [Backend.Frame.StackFrame.addAlloca, hnew]
      rfl
    have hk1 : ∀ s ∈ f1.allocaStackOffset, s.id < k + 1 := by
      intro s hs
      rcases List.mem_append.mp hs with hs | hs
      · exact Nat.lt_succ_of_lt (hk s hs)
      · rw [List.mem_singleton.mp hs]
        exact Nat.lt_succ_self k
    obtain ⟨f', hf', hoffsets, hused⟩ := ih hk1
    refine ⟨f', ?_, ?_, hused⟩
    · rw [addAllocas, List.zipIdx_cons, List.foldlM_cons, hadd]
      exact hf'
    · rw [hoffsets]
      simp [f1, place]

/-- **`addAlloca` puts the objects one after the other.** -/
theorem frame_eq : ∃ f, frame F codes = some f ∧
      f.allocaStackOffset.map Backend.Frame.Slot.offset = (place 0 (framed F codes)).map Prod.snd ∧
      f.usedStackSize = (framed F codes).foldl (fun used p => used + roundedSize p.2) 0 := by
  have hnone : ∀ s ∈ ([] : List Backend.Frame.Slot), s.id < 0 := by simp
  exact addAllocas_eq hnone

theorem getStackOffset_eq : getStackOffset F codes o = (place 0 (framed F codes)).lookup o := by
  obtain ⟨f, hf, hoffsets, -⟩ := @frame_eq F codes
  have hzip : ((place 0 (framed F codes)).map Prod.fst).zip ((place 0 (framed F codes)).map Prod.snd) =
      place 0 (framed F codes) := (List.zip_of_prod rfl rfl).symm
  rw [getStackOffset, hf, Option.bind_some, hoffsets, ← place_fst, hzip]

theorem usedStackSize_eq :
    usedStackSize F codes = (framed F codes).foldl (fun used p => used + roundedSize p.2) 0 := by
  obtain ⟨f, hf, -, hused⟩ := @frame_eq F codes
  rw [usedStackSize, hf, Option.map_some, Option.getD_some, hused]

/-- The bytes of the objects before `o`. -/
theorem place_lookup (h : (place used os).lookup o = some ofs) :
    ∃ before ty after, os = before ++ (o, ty) :: after ∧ o ∉ before.map Prod.fst ∧
      ofs = before.foldl (fun used p => used + roundedSize p.2) used := by
  induction os generalizing used with
  | nil => cases h
  | cons p os ih =>
    obtain ⟨o1, ty⟩ := p
    rw [place, List.lookup_cons] at h
    by_cases heq : o = o1
    · subst heq
      rw [beq_self_eq_true] at h
      exact ⟨[], ty, os, rfl, by simp, (Option.some.inj h).symm⟩
    · rw [beq_false_of_ne heq] at h
      obtain ⟨before, ty', after, rfl, hnew, hofs⟩ := ih h
      refine ⟨(o1, ty) :: before, ty', after, rfl, ?_, hofs⟩
      rw [List.map_cons, List.mem_cons, not_or]
      exact ⟨heq, hnew⟩

/-- The bytes of the objects. -/
def bytes (os : List (Object × Ty)) : ℕ := (os.map fun p => (roundedSize p.2).toNat).sum

theorem foldl_toNat (h : used.toNat + bytes os < 2 ^ 32) :
    (os.foldl (fun used p => used + roundedSize p.2) used).toNat = used.toNat + bytes os := by
  induction os generalizing used with
  | nil => rfl
  | cons p os ih =>
    have hcons : bytes (p :: os) = (roundedSize p.2).toNat + bytes os := rfl
    rw [hcons] at h
    have hadd : (used + roundedSize p.2).toNat = used.toNat + (roundedSize p.2).toNat := by
      rw [BitVec.toNat_add]
      omega
    rw [List.foldl_cons, ih (by omega), hadd, hcons]
    omega

theorem bytes_append (os os' : List (Object × Ty)) : bytes (os ++ os') = bytes os + bytes os' := by
  simp [bytes]

theorem roundedSize_mod (ty : Ty) : (roundedSize ty).toNat % 8 = 0 := by
  unfold roundedSize
  have h8 : (8 : BitVec 32).toNat = 8 := rfl
  rw [BitVec.toNat_mul, BitVec.toNat_udiv, h8]
  omega

theorem bytes_mod (os : List (Object × Ty)) : bytes os % 8 = 0 := by
  induction os with
  | nil => rfl
  | cons p os ih =>
    have hp := roundedSize_mod p.2
    have hcons : bytes (p :: os) = (roundedSize p.2).toNat + bytes os := rfl
    omega

theorem usedStackSize_toNat (h : bytes (framed F codes) < 2 ^ 32) :
    (usedStackSize F codes).toNat = bytes (framed F codes) := by
  have hzero : (0 : BitVec 32).toNat = 0 := rfl
  rw [usedStackSize_eq, foldl_toNat (by omega), hzero, Nat.zero_add]

/-- The slots have 8 bytes. -/
theorem ty_of_mem_objects {ty : Ty} (h : (o, ty) ∈ objects F codes) :
    ty = .int 64 ∨ ∃ I, o = .source I := by
  rcases List.mem_append.mp h with h | h
  · left
    obtain ⟨p, -, h⟩ := List.mem_flatMap.mp h
    rcases List.mem_append.mp h with h | h
    · obtain ⟨i, -, h⟩ := List.mem_flatMap.mp h
      rcases List.mem_pair.mp h with h | h
      · exact (Prod.mk.inj h).2
      · exact (Prod.mk.inj h).2
    · obtain ⟨q, -, h⟩ := List.mem_map.mp h
      exact (Prod.mk.inj h).2.symm
  · right
    obtain ⟨l, -, h⟩ := List.mem_filterMap.mp h
    cases l with
    | alloca k I allocated n => exact ⟨I, (Prod.mk.inj (Option.some.inj h)).1.symm⟩
    | _ => cases h

/-- A slot or a temporary slot. -/
def Object.isSlot : Object → Bool
  | .slot _ | .phiTmpSlot _ => true
  | .source _ => false

/-- The offset of a slot is the number of bytes before it. -/
theorem slot_split (hfits : bytes (framed F codes) < 2 ^ 32) (hslot : o.isSlot = true)
    (h : getStackOffset F codes o = some ofs) :
    ∃ before after, framed F codes = before ++ (o, .int 64) :: after ∧ ofs.toNat = bytes before := by
  obtain ⟨before, ty, after, heq, -, rfl⟩ := place_lookup (getStackOffset_eq.symm.trans h)
  have hmem : (o, ty) ∈ objects F codes := by
    have hframed : (o, ty) ∈ framed F codes := by
      rw [heq]
      simp
    exact (List.mem_filter.mp hframed).1
  obtain rfl : ty = .int 64 := by
    obtain rfl | ⟨I, rfl⟩ := ty_of_mem_objects hmem
    · rfl
    · cases hslot
  rw [heq, bytes_append] at hfits
  have hzero : (0 : BitVec 32).toNat = 0 := rfl
  refine ⟨before, after, heq, ?_⟩
  rw [foldl_toNat (by omega), hzero, Nat.zero_add]

theorem bytes_slot (os : List (Object × Ty)) : bytes ((o, .int 64) :: os) = 8 + bytes os := by
  have hsize : (roundedSize (.int 64)).toNat = 8 := by decide
  exact congrArg (· + bytes os) hsize

/-- **The slots lie in the frame, at multiples of 8.** -/
theorem slot_inside (hfits : bytes (framed F codes) < 2 ^ 32) (hslot : o.isSlot = true)
    (h : getStackOffset F codes o = some ofs) :
    ofs.toNat % 8 = 0 ∧ ofs.toNat + 8 ≤ (usedStackSize F codes).toNat := by
  obtain ⟨before, after, heq, hofs⟩ := slot_split hfits hslot h
  rw [usedStackSize_toNat hfits, heq, bytes_append, bytes_slot, hofs]
  refine ⟨bytes_mod before, ?_⟩
  omega

/-- What is between two slots begins with the first one. -/
theorem bytes_between {mid after after' : List (Object × Ty)} (hne : o ≠ o')
    (h : (o, Ty.int 64) :: after = mid ++ (o', Ty.int 64) :: after') : 8 ≤ bytes mid := by
  cases mid with
  | nil => exact absurd (Prod.mk.inj (List.cons.inj h).1).1 hne
  | cons p mid =>
    rw [← (List.cons.inj h).1, bytes_slot]
    omega

/-- **Different slots do not overlap.** -/
theorem slot_apart (hfits : bytes (framed F codes) < 2 ^ 32) (hslot : o.isSlot = true)
    (hslot' : o'.isSlot = true) (hne : o ≠ o') (h : getStackOffset F codes o = some ofs)
    (h' : getStackOffset F codes o' = some ofs') :
    ofs.toNat + 8 ≤ ofs'.toNat ∨ ofs'.toNat + 8 ≤ ofs.toNat := by
  obtain ⟨before, after, heq, hofs⟩ := slot_split hfits hslot h
  obtain ⟨before', after', heq', hofs'⟩ := slot_split hfits hslot' h'
  rw [hofs, hofs']
  obtain ⟨mid, rfl, hmid⟩ | ⟨mid, rfl, hmid⟩ := List.append_eq_append_iff.mp (heq.symm.trans heq')
  · have hmid := bytes_between hne hmid
    rw [bytes_append]
    omega
  · have hmid := bytes_between hne.symm hmid
    rw [bytes_append]
    omega

end Frame

/-! ## The blocks of the assembly -/

section Blocks

variable {F : Func} {codes : List (List Line)} {code : List Line} {sig : Signature} {b d : ℕ}
  {ofs : Object → Option (BitVec 32)} {Bs : List AsmBlock} {name : Name} {B : AsmBlock}
  {r : List AsmInst × AsmInst} {fn : AsmFunction} {used : BitVec 32}

theorem asmBlock_ok (h : asmBlock name r = some B) :
    B.name = name ∧ B.stmts = r.1.map AsmInst.stmt ++ [r.2.stmt] := by
  unfold asmBlock at h
  split_ifs at h with hterm
  obtain rfl := Option.some.inj h
  refine ⟨rfl, ?_⟩
  have hmap : ∀ is : List AsmInst, ((is.map BodyLine.inst).map BodyLine.stmt?).reduceOption =
      is.map AsmInst.stmt := by
    intro is
    induction is with
    | nil => rfl
    | cons i is ih => exact congrArg (i.stmt :: ·) ih
  exact congrArg (· ++ [r.2.stmt]) (hmap r.1)

theorem emitBlocks_ok (h : emitBlocks sig ofs b codes = some Bs) (hcode : codes[d]? = some code) :
    ∃ B name r, Bs[d]? = some B ∧ sig.bbNames[b + d]? = some name ∧ emitBody sig ofs code = some r ∧
      B.name = name ∧ B.stmts = r.1.map AsmInst.stmt ++ [r.2.stmt] := by
  induction codes generalizing b d Bs with
  | nil => simp at hcode
  | cons code' codes ih =>
    obtain ⟨name, hname, h⟩ := Option.bind_eq_some_iff.mp h
    obtain ⟨r, hr, h⟩ := Option.bind_eq_some_iff.mp h
    obtain ⟨B, hB, h⟩ := Option.bind_eq_some_iff.mp h
    obtain ⟨Bs', hBs, rfl⟩ := Option.map_eq_some_iff.mp h
    cases d with
    | zero =>
      obtain rfl := Option.some.inj hcode
      exact ⟨B, name, r, rfl, hname, hr, asmBlock_ok hB⟩
    | succ d =>
      obtain ⟨B', name', r', hB', hname', hr'⟩ := ih hBs hcode
      refine ⟨B', name', r', hB', ?_, hr'⟩
      rw [← hname']
      congr 1
      omega

/-- The block that the code at position `d` becomes. -/
theorem emitFunction_block (h : emitFunction sig F codes = some fn) (hcode : codes[d]? = some code) :
    ∃ B name r, fn.blocks[d]? = some B ∧ sig.bbNames[d]? = some name ∧
      emitBody sig (getStackOffset F codes) code = some r ∧ B.name = name ∧
      B.stmts = r.1.map AsmInst.stmt ++ [r.2.stmt] := by
  obtain ⟨blocks, hblocks, h⟩ := Option.bind_eq_some_iff.mp h
  split_ifs at h with hnames
  obtain rfl := Option.some.inj h
  have hok := emitBlocks_ok hblocks hcode
  rwa [Nat.zero_add] at hok

theorem emitFunction_ok (h : emitFunction sig F codes = some fn) :
    fn.name = sig.name ∧ fn.argSize = sig.argSize ∧ fn.usedStackSize = usedStackSize F codes := by
  obtain ⟨blocks, hblocks, h⟩ := Option.bind_eq_some_iff.mp h
  split_ifs at h with hnames
  obtain rfl := Option.some.inj h
  exact ⟨rfl, rfl, rfl⟩

end Blocks

end SwppCompiler.Backend.Assembly
