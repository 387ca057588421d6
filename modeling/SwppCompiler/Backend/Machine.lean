import SwppCompiler.Backend.Depromote

/-!
# Executing the emitted code

The interpreter's semantics (`interpreter/src/stmt.cpp`, `memory.cpp`) of the lines that
`DepromoteRegisters` emits. The slots of a function are kept apart from the memory that its pointers
reach. What a line reads from outside (the address of an `alloca`, what a callee returns and does to
the memory) is an `Answer`.
-/

namespace SwppCompiler.Backend

open Interp

/-- `load_little_endian` (`memory.cpp`, lines 29–39), on a memory of bytes. -/
def loadLittleEndian (mem : Word → BitVec 8) : (size : ℕ) → (addr : Word) → Word
  | 0, _ => 0
  | size + 1, addr => (loadLittleEndian mem size (addr + 1) <<< 8) + (mem addr).setWidth 64

/-- `store_little_endian` (`memory.cpp`, lines 54–61). -/
def storeLittleEndian (mem : Word → BitVec 8) : (size : ℕ) → (addr val : Word) → Word → BitVec 8
  | 0, _, _ => mem
  | size + 1, addr, val =>
    storeLittleEndian (Function.update mem addr (val.setWidth 8)) size (addr + 1) (val >>> 8)

/-- The registers, the arguments, the slots of instructions and PHI nodes, and the memory. -/
structure Machine where
  reg : ℕ → Word
  arg : ℕ → Word
  slot : InstRef → Word
  phiSlot : InstRef → Word
  mem : Word → BitVec 8

/-- What a line reads from outside the function. -/
structure Answer where
  value : Word
  mem : Word → BitVec 8

/-- The word that an operand of a line is; an undefined one is printed as `r1`. -/
def EmitVal.read (m : Machine) : EmitVal → Word
  | .const w => w
  | .undefValue => m.reg 1
  | .arg n => m.arg n
  | .reg k => m.reg k

/-- `regfile.write_reg`. -/
def Machine.setReg (m : Machine) (k : ℕ) (w : Word) : Machine :=
  { m with reg := Function.update m.reg k w }

/-- The `Size` that is written as a bit width. -/
def sizeOfBw : ℕ → Option Size
  | 1 => some .size1
  | 8 => some .size8
  | 16 => some .size16
  | 32 => some .size32
  | 64 => some .size64
  | _ => none

/-- One line; `none` is a runtime error. A line that ends a block changes no state. -/
def Line.exec (A : Answer) (m : Machine) : Line → Option Machine
  | .alloca k _ _ _ => some (m.setReg k A.value)
  | .fill k I => some (m.setReg k (m.slot I))
  | .spill v I => some { m with slot := Function.update m.slot I (v.read m) }
  | .loadPhi k P => some (m.setReg k (m.phiSlot P))
  | .storePhi v P => some { m with phiSlot := Function.update m.phiSlot P (v.read m) }
  | .load k size p => some (m.setReg k (loadLittleEndian m.mem size (p.read m)))
  | .store size v p =>
    some { m with mem := storeLittleEndian m.mem size (p.read m) (v.read m) }
  | .bop k kind a b bw =>
    (sizeOfBw bw).bind fun size =>
      match compute kind size (a.read m) (b.read m) with
      | .ok r => some (m.setReg k r)
      | .error _ => none
  | .select k c a b => some (m.setReg k (if c.read m ≠ 0 then a.read m else b.read m))
  | .copy k a => some (m.setReg k (a.read m))
  | .call (some k) _ _ => some ({ m with mem := A.mem }.setReg k A.value)
  | .call none _ _ => some { m with mem := A.mem }
  | .ret _ | .br _ | .condBr _ _ _ | .switch _ _ _ | .value _ _ => some m

/-- A sequence of lines that read the same answer. -/
def execLines (A : Answer) (m : Machine) (lines : List Line) : Option Machine :=
  lines.foldlM (Line.exec A) m

section

variable {A : Answer} {m : Machine} {k j : ℕ} {w : Word}

@[simp] theorem Machine.setReg_reg_self : (m.setReg k w).reg k = w := Function.update_self ..

theorem Machine.setReg_reg_of_ne (h : j ≠ k) : (m.setReg k w).reg j = m.reg j :=
  Function.update_of_ne h ..

@[simp] theorem read_reg_setReg : (EmitVal.reg k).read (m.setReg k w) = w := m.setReg_reg_self

@[simp] theorem execLines_nil : execLines A m [] = some m := rfl

theorem execLines_cons {l : Line} {lines : List Line} :
    execLines A m (l :: lines) = (l.exec A m).bind fun m' => execLines A m' lines := rfl

theorem execLines_singleton {l : Line} : execLines A m [l] = l.exec A m := by
  rw [execLines_cons]
  cases l.exec A m <;> rfl

theorem execLines_append {l1 l2 : List Line} :
    execLines A m (l1 ++ l2) = (execLines A m l1).bind fun m' => execLines A m' l2 :=
  List.foldlM_append

/-- The widths that `checkSrcType` accepts are those that the interpreter knows. -/
theorem sizeOfBw_of_checkSrcType {bw : ℕ} (h : checkSrcType (.int bw) = true) :
    ∃ size, sizeOfBw bw = some size ∧ bwOf size = bw := by
  simp only [checkSrcType, Bool.or_eq_true, decide_eq_true_eq] at h
  obtain (((rfl | rfl) | rfl) | rfl) | rfl := h
  exacts [⟨.size1, rfl, rfl⟩, ⟨.size8, rfl, rfl⟩, ⟨.size16, rfl, rfl⟩, ⟨.size32, rfl, rfl⟩,
    ⟨.size64, rfl, rfl⟩]

end

end SwppCompiler.Backend
