import SwppCompiler.Backend.IR
import SwppCompiler.Interp.Grammar

/-!
# The assembly emitter

Model of the lines that `AssemblyEmitterImpl` appends to `FnBody` (`src/core/AssemblyEmitter.cpp`,
lines 171–535): `emitAssembly`, the texts of the operands, and what each visitor prints. The operands
are those that `getOperand` has found: a register, or the number that a constant, a null pointer or a
stack offset is.
-/

namespace SwppCompiler.Backend

open Interp Lib

/-- A register that a line can name. -/
abbrev AsmReg := {reg : Reg // reg ≠ .none}

/-- What `getOperand` returns (`AssemblyEmitter.cpp`, lines 205–257). -/
inductive AsmOperand
  | reg (r : AsmReg)
  | const (w : Word)

/-- The name of a function, or of a source block. -/
abbrev Name := {s : Text // s ≠ [] ∧ ∀ c ∈ s, isNameChar c = true}

/-- A function that a `call` line can call; the interpreter has `read` and `write` of its own. -/
abbrev Callee := {f : Name // f.val ≠ "read".toList ∧ f.val ≠ "write".toList}

/-- The cases of a `switch`; no two have the same value. -/
abbrev Cases := {cases : List (Word × Name) // (cases.map Prod.fst).Nodup}

/-- An instruction that the emitter prints as a line, with its operands. -/
inductive AsmInst
  | load (dest : AsmReg) (sz : MSize) (ptr : AsmOperand) (ofs : Word)
  | store (sz : MSize) (val ptr : AsmOperand) (ofs : Word)
  | binary (dest : AsmReg) (op : BinaryOps) (op1 op2 : AsmOperand) (sz : Size)
  | icmp (dest : AsmReg) (pred : Predicate) (op1 op2 : AsmOperand) (sz : Size)
  | select (dest : AsmReg) (op1 op2 op3 : AsmOperand)
  | malloc (dest : AsmReg) (size : AsmOperand)
  | free (ptr : AsmOperand)
  | call (dest : Option AsmReg) (fn : Callee) (args : List AsmOperand)
  | resetStack
  | resetHeap
  | ret (val : AsmOperand)
  | br (succ : Name)
  | condBr (cond : AsmOperand) (succ0 succ1 : Name)
  | switch (cond : AsmOperand) (cases : Cases) (default : Name)

/-- `to_string` of a constant (`AssemblyEmitter.cpp`, lines 19–21). -/
def constText (w : Word) : Text := Interp.toString w.toNat

/-- The text of an operand. -/
def AsmOperand.print : AsmOperand → Text
  | .reg r => printReg r
  | .const w => constText w

/-- The name of the block in the assembly (`src/core/Backend.cpp`, line 293). -/
def Name.bb (name : Name) : Text := '.' :: name.val

/-- `emitAssembly` (`AssemblyEmitter.cpp`, lines 172–191), with a destination and without. -/
def emitAssembly (cmd : Text) (ops : List Text) : Text := cmd ++ ops.flatMap (' ' :: ·)
@[inherit_doc emitAssembly] def emitAssemblyTo (dest cmd : Text) (ops : List Text) : Text :=
  dest ++ " = ".toList ++ emitAssembly cmd ops

/-- The command of a binary operator (`AssemblyEmitter.cpp`, lines 327–343). -/
def BinaryOps.cmd : BinaryOps → String
  | .udiv => "udiv" | .sdiv => "sdiv" | .urem => "urem" | .srem => "srem" | .mul => "mul"
  | .shl => "shl" | .ashr => "ashr" | .lshr => "lshr" | .and => "and" | .or => "or" | .xor => "xor"
  | .add => "add" | .sub => "sub"

/-- `getPredicateName`. -/
def Predicate.name : Predicate → String
  | .eq => "eq" | .ne => "ne" | .ugt => "ugt" | .uge => "uge" | .ult => "ult" | .ule => "ule"
  | .sgt => "sgt" | .sge => "sge" | .slt => "slt" | .sle => "sle"

/-- The line that the visitor of the instruction emits. -/
def AsmInst.emit : AsmInst → Text
  | .load dest sz ptr ofs =>
    emitAssemblyTo (printReg dest) "load".toList
      [Interp.toString (msizeOf sz), ptr.print, constText ofs]
  | .store sz val ptr ofs =>
    emitAssembly "store".toList [Interp.toString (msizeOf sz), val.print, ptr.print, constText ofs]
  | .binary dest op op1 op2 sz =>
    emitAssemblyTo (printReg dest) op.cmd.toList [op1.print, op2.print, Interp.toString (bwOf sz)]
  | .icmp dest pred op1 op2 sz =>
    emitAssemblyTo (printReg dest) "icmp".toList
      [pred.name.toList, op1.print, op2.print, Interp.toString (bwOf sz)]
  | .select dest op1 op2 op3 =>
    emitAssemblyTo (printReg dest) "select".toList [op1.print, op2.print, op3.print]
  | .malloc dest size => emitAssemblyTo (printReg dest) "malloc".toList [size.print]
  | .free ptr => emitAssembly "free".toList [ptr.print]
  | .call (some dest) fn args =>
    emitAssemblyTo (printReg dest) "call".toList (fn.val.val :: args.map AsmOperand.print)
  | .call none fn args => emitAssembly "call".toList (fn.val.val :: args.map AsmOperand.print)
  | .resetStack => emitAssembly "reset".toList ["stack".toList]
  | .resetHeap => emitAssembly "reset".toList ["heap".toList]
  | .ret val => emitAssembly "ret".toList [val.print]
  | .br succ => emitAssembly "br".toList [succ.bb]
  | .condBr cond succ0 succ1 => emitAssembly "br".toList [cond.print, succ0.bb, succ1.bb]
  | .switch cond cases default =>
    emitAssembly "switch".toList
      (cond.print :: (cases.val.flatMap (fun c : Word × Name => [constText c.1, c.2.bb]) ++
        [default.bb]))

/-- The line of a call of `read` or `write`, which is printed as any other. -/
def emitLibraryCall (dest : Option AsmReg) (fn : String) (args : List AsmOperand) : Text :=
  match dest with
  | some dest =>
    emitAssemblyTo (printReg dest) "call".toList (fn.toList :: args.map AsmOperand.print)
  | none => emitAssembly "call".toList (fn.toList :: args.map AsmOperand.print)

/-- The value that the operand stands for. -/
def AsmOperand.value : AsmOperand → Interp.Value
  | .reg r => .reg r
  | .const w => .literal w

/-- The statement that the instruction stands for. -/
def AsmInst.stmt : AsmInst → Stmt
  | .load dest sz ptr ofs => .load dest sz ptr.value ofs
  | .store sz val ptr ofs => .store sz val.value ptr.value ofs
  | .binary dest op op1 op2 sz => .bop dest op.bopKind op1.value op2.value sz
  | .icmp dest pred op1 op2 sz => .bop dest pred.bopKind op1.value op2.value sz
  | .select dest op1 op2 op3 => .select dest op1.value op2.value op3.value
  | .malloc dest size => .malloc dest size.value
  | .free ptr => .free ptr.value
  | .call dest fn args =>
    .call ((dest.map Subtype.val).getD .none) fn.val.val (args.map AsmOperand.value)
  | .resetStack => .resetStack
  | .resetHeap => .resetHeap
  | .ret val => .ret val.value
  | .br succ => .brUncond succ.bb
  | .condBr cond succ0 succ1 => .brCond cond.value succ0.bb succ1.bb
  | .switch cond cases default =>
    .switch cond.value (cases.val.map fun c : Word × Name => (c.1, c.2.bb)) default.bb

end SwppCompiler.Backend
