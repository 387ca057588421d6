import SwppCompiler.Backend.Assembly
import SwppCompiler.Backend.Region
import SwppCompiler.Backend.Semantics
import SwppCompiler.Interp.Stepping

/-!
# Activations

A function in the interpreter, between its call and its `ret`: the state of the interpreter has the
registers, the arguments and the slots of a `Machine`, and the bytes of its memory that are known.

* `Matches`: the relation. `Matches.setReg`, `Matches.setSlot`, `Matches.setView`: an assignment on both
  sides.
* `executes_quiet`: the assembly of a line that acts on registers and slots only.
-/

namespace SwppCompiler.Backend.Assembly

open Interp Lib Simulation

/-! ## Views -/

/-- What is known of the memory: the blocks of the heap, and the bytes at some addresses. -/
structure View where
  heap : Heap
  known : Set ℕ
  mem : Word → Byte

/-- The memory is as the view says. -/
structure View.Shown (V : View) (m : Memory) : Prop where
  heap : m.heap = V.heap
  shows : Shows m V.known V.mem

/-- A function whose frame is from `lo` on, below the bytes `R` that its callers keep for themselves,
    may know what the view has. -/
structure View.Proper (V : View) (lo : ℕ) (R : Set ℕ) : Prop where
  tiled : V.heap.Tiled
  known : V.known ⊆ Visible V.heap lo R

/-- The memory after operations that change no byte. -/
theorem View.Shown.of_eq {V : View} {m m' : Memory} (h : V.Shown m) (hheap : m'.heap = m.heap)
    (hbytes : ∀ x, m'.byteAt x = m.byteAt x) : V.Shown m' :=
  ⟨hheap.trans h.heap, fun x hx => (hbytes x).trans (h.shows x hx)⟩

/-- What is known is there. -/
theorem View.Proper.live {V : View} {lo : ℕ} {R : Set ℕ} {m : Memory} (h : V.Proper lo R)
    (hs : V.Shown m) : ∀ x ∈ V.known, m.Live x := by
  intro x hx
  have hx := h.known hx
  rw [← hs.heap] at hx
  exact Visible.live hx

/-! ## Activations -/

/-- The place of an activation: what its function is translated with, `sp`, and the bytes that its
    callers keep for themselves. The slots are words in the stack that do not overlap. -/
structure Activation where
  argSize : Fin 17
  ofs : Object → Option (BitVec 32)
  sp : Word
  reserved : Set ℕ
  inStack : ∀ {o : Object} {k : BitVec 32}, o.isSlot = true → ofs o = some k →
    sp.toNat + k.toNat + 8 ≤ stackMax
  aligned : ∀ {o : Object} {k : BitVec 32}, o.isSlot = true → ofs o = some k →
    (sp.toNat + k.toNat) % 8 = 0
  apart : ∀ {o o' : Object} {k k' : BitVec 32}, o.isSlot = true → o'.isSlot = true → o ≠ o' →
    ofs o = some k → ofs o' = some k' → k.toNat + 8 ≤ k'.toNat ∨ k'.toNat + 8 ≤ k.toNat
  free : ∀ {o : Object} {k : BitVec 32} {x : ℕ}, o.isSlot = true → ofs o = some k →
    sp.toNat + k.toNat ≤ x → x < sp.toNat + k.toNat + 8 → x ∉ reserved
  below : ∀ x ∈ reserved, x < stackMax

/-- The bytes of the slots. -/
def Activation.slotBytes (A : Activation) : Set ℕ :=
  {x | ∃ o k, o.isSlot = true ∧ A.ofs o = some k ∧ A.sp.toNat + k.toNat ≤ x ∧
    x < A.sp.toNat + k.toNat + 8}

/-- The bytes that the functions which are called from here do not see. -/
def Activation.kept (A : Activation) : Set ℕ := A.reserved ∪ A.slotBytes

theorem Activation.lt_of_kept {A : Activation} {x : ℕ} (h : x ∈ A.kept) : x < stackMax := by
  obtain h | ⟨o, k, hslot, hofs, -, hlt⟩ := h
  · exact A.below x h
  · have hin := A.inStack hslot hofs
    omega

/-- The word in a slot. -/
def object (m : Machine) : Object → Word
  | .slot I => m.slot I
  | .phiTmpSlot P => m.phiSlot P
  | .source _ => 0

/-- The state of the interpreter has what the machine has; the reserved bytes are as in `orig`. -/
structure Matches (A : Activation) (orig : ℕ → Option Byte) (V : View) (m : Machine)
    (s : Interp.State) : Prop where
  regs : ∀ {k : ℕ} {reg : AsmReg}, instReg k = some reg → s.regfile.regfile reg = m.reg k
  args : ∀ {n : ℕ} {reg : AsmReg}, argReg A.argSize n = some reg → s.regfile.regfile reg = m.arg n
  nargs : s.regfile.nargs = A.argSize
  sp : s.regfile.regfile .sp = A.sp
  shown : V.Shown s.memory
  mem : V.mem = m.mem
  proper : V.Proper A.sp.toNat A.kept
  slots : ∀ {o : Object} {k : BitVec 32}, o.isSlot = true → A.ofs o = some k →
    HoldsWord s.memory (A.sp.toNat + k.toNat) (object m o)
  reserved : ∀ x ∈ A.reserved, s.memory.byteAt x = orig x

section Registers

variable {k j n : ℕ} {reg reg' : AsmReg} {argSize : Fin 17}

theorem instReg_eq (h : instReg k = some reg) : ∃ i : Fin 16, reg.val = .r i ∧ k = i.val + 1 := by
  unfold instReg at h
  split_ifs at h with hk
  obtain rfl := Option.some.inj h
  refine ⟨⟨k - 1, by omega⟩, rfl, ?_⟩
  show k = k - 1 + 1
  omega

theorem argReg_eq (h : argReg argSize n = some reg) :
    ∃ i : Fin 16, reg.val = .a i ∧ n = i.val ∧ n < argSize := by
  unfold argReg at h
  split_ifs at h with hn
  obtain rfl := Option.some.inj h
  exact ⟨⟨n, by omega⟩, rfl, rfl, hn⟩

/-- A register that a line can write. -/
theorem instReg_writable (h : instReg k = some reg) : reg.val ≠ .none ∧ ∀ i, reg.val ≠ .a i := by
  obtain ⟨i, hi, -⟩ := instReg_eq h
  rw [hi]
  exact ⟨Reg.noConfusion, fun _ => Reg.noConfusion⟩

theorem instReg_injective (h : instReg k = some reg) (h' : instReg j = some reg') (hkj : k ≠ j) :
    reg'.val ≠ reg.val := by
  obtain ⟨i, hi, hk⟩ := instReg_eq h
  obtain ⟨i', hi', hj⟩ := instReg_eq h'
  rw [hi, hi']
  intro heq
  apply hkj
  rw [hk, hj, Reg.r.inj heq]

end Registers

section Matches

variable {A : Activation} {orig : ℕ → Option Byte} {V : View} {m : Machine} {s s' : Interp.State}
  {k : ℕ} {reg : AsmReg} {v : EmitVal} {a : AsmOperand} {w : Word} {o : Object} {ofs : BitVec 32}

/-- The value of an operand. -/
theorem Matches.getValue (hm : Matches A orig V m s) (h : getOperand A.argSize v = some a) :
    a.value.getValue s.regfile = .ok (v.read m) := by
  cases v with
  | const w =>
    obtain rfl := Option.some.inj h
    rfl
  | undefValue =>
    obtain rfl := Option.some.inj h
    have hreg : instReg 1 = some ⟨.r 0, Reg.noConfusion⟩ := rfl
    show s.regfile.readReg (.r 0) = .ok (m.reg 1)
    rw [readReg_ok Reg.noConfusion fun _ => Reg.noConfusion]
    exact congrArg _ (hm.regs hreg)
  | arg n =>
    obtain ⟨reg, hreg, rfl⟩ := Option.map_eq_some_iff.mp h
    have hval := hm.args hreg
    obtain ⟨i, hi, rfl, hn⟩ := argReg_eq hreg
    show s.regfile.readReg reg.val = .ok (m.arg i)
    rw [hi] at hval ⊢
    rw [readReg_arg (hm.nargs ▸ hn), hval]
  | reg k =>
    obtain ⟨reg, hreg, rfl⟩ := Option.map_eq_some_iff.mp h
    obtain ⟨hne, harg⟩ := instReg_writable hreg
    show s.regfile.readReg reg.val = .ok (m.reg k)
    rw [readReg_ok hne harg]
    exact congrArg _ (hm.regs hreg)

theorem Matches.getSP (hm : Matches A orig V m s) :
    (AsmOperand.reg spReg).value.getValue s.regfile = .ok A.sp := by
  show s.regfile.readReg .sp = .ok A.sp
  rw [readReg_ok Reg.noConfusion fun _ => Reg.noConfusion, hm.sp]

/-- A register is written. -/
theorem Matches.setReg (hm : Matches A orig V m s) (h : instReg k = some reg)
    (hregs : s'.regfile = { s.regfile with regfile := Function.update s.regfile.regfile reg w })
    (hheap : s'.memory.heap = s.memory.heap) (hbytes : ∀ x, s'.memory.byteAt x = s.memory.byteAt x) :
    Matches A orig V (m.setReg k w) s' where
  regs := by
    intro j reg' h'
    rw [hregs]
    by_cases hkj : k = j
    · subst hkj
      obtain rfl := Option.some.inj (h.symm.trans h')
      rw [Machine.setReg_reg_self]
      exact Function.update_self ..
    · rw [Machine.setReg_reg_of_ne (Ne.symm hkj), ← hm.regs h']
      exact Function.update_of_ne (instReg_injective h h' hkj) ..
  args := by
    intro n reg' h'
    rw [hregs]
    obtain ⟨i, hi, -⟩ := argReg_eq h'
    refine (Function.update_of_ne ?_ ..).trans (hm.args h')
    rw [hi]
    exact ((instReg_writable h).2 i).symm
  nargs := by
    rw [hregs]
    exact hm.nargs
  sp := by
    rw [hregs]
    obtain ⟨i, hi, -⟩ := instReg_eq h
    refine (Function.update_of_ne ?_ ..).trans hm.sp
    rw [hi]
    exact Reg.noConfusion
  shown := hm.shown.of_eq hheap hbytes
  mem := hm.mem
  proper := hm.proper
  slots := by
    intro o ofs hslot hofs i hi
    rw [hbytes]
    have hobject : object (m.setReg k w) o = object m o := by cases o <;> rfl
    rw [hobject]
    exact hm.slots hslot hofs i hi
  reserved x hx := (hbytes x).trans (hm.reserved x hx)

/-- A slot or a temporary slot is written. -/
def setObject (m : Machine) : Object → Word → Machine
  | .slot I, w => { m with slot := Function.update m.slot I w }
  | .phiTmpSlot P, w => { m with phiSlot := Function.update m.phiSlot P w }
  | .source _, _ => m

theorem object_setObject_self (h : o.isSlot = true) : object (setObject m o w) o = w := by
  cases o with
  | slot I => exact Function.update_self ..
  | phiTmpSlot P => exact Function.update_self ..
  | source I => cases h

theorem object_setObject_of_ne {o' : Object} (h : o' ≠ o) :
    object (setObject m o w) o' = object m o' := by
  cases o with
  | slot I =>
    cases o' with
    | slot J => exact Function.update_of_ne (fun heq => h (congrArg Object.slot heq)) ..
    | _ => rfl
  | phiTmpSlot P =>
    cases o' with
    | phiTmpSlot Q => exact Function.update_of_ne (fun heq => h (congrArg Object.phiTmpSlot heq)) ..
    | _ => rfl
  | source I => cases o' <;> rfl

theorem Activation.sp_add (A : Activation) (hslot : o.isSlot = true) (hofs : A.ofs o = some ofs) :
    (A.sp + ofs.setWidth 64).toNat = A.sp.toNat + ofs.toNat := by
  have hin := A.inStack hslot hofs
  have hlt := ofs.isLt
  unfold stackMax at hin
  rw [BitVec.toNat_add, BitVec.toNat_setWidth]
  omega

theorem Matches.setSlot (hm : Matches A orig V m s) (hslot : o.isSlot = true)
    (hofs : A.ofs o = some ofs) (hregs : s'.regfile = s.regfile)
    (hheap : s'.memory.heap = s.memory.heap)
    (hword : HoldsWord s'.memory (A.sp.toNat + ofs.toNat) w)
    (hother : ∀ x, x < A.sp.toNat + ofs.toNat ∨ A.sp.toNat + ofs.toNat + 8 ≤ x →
      s'.memory.byteAt x = s.memory.byteAt x) :
    Matches A orig V (setObject m o w) s' where
  regs := by
    intro k reg h
    rw [hregs, hm.regs h]
    cases o <;> rfl
  args := by
    intro n reg h
    rw [hregs, hm.args h]
    cases o <;> rfl
  nargs := hregs ▸ hm.nargs
  sp := hregs ▸ hm.sp
  shown := by
    refine ⟨hheap.trans hm.shown.heap, fun x hx => ?_⟩
    rw [hother, hm.shown.shows x hx]
    -- the slot is not known
    by_contra hin
    apply (hm.proper.known hx).1
    exact Or.inr ⟨o, ofs, hslot, hofs, by omega, by omega⟩
  mem := by
    rw [hm.mem]
    cases o <;> rfl
  proper := hm.proper
  slots := by
    intro o' ofs' hslot' hofs'
    by_cases heq : o' = o
    · subst heq
      obtain rfl := Option.some.inj (hofs.symm.trans hofs')
      rwa [object_setObject_self hslot]
    · rw [object_setObject_of_ne heq]
      intro i hi
      have hapart := A.apart hslot hslot' (Ne.symm heq) hofs hofs'
      rw [hother _ (by omega)]
      exact hm.slots hslot' hofs' i hi
  reserved x hx := by
    rw [hother, hm.reserved x hx]
    by_contra hin
    exact A.free hslot hofs (by omega) (by omega) hx

/-- The memory changes, but for the bytes that only the function and its callers see. -/
theorem Matches.setView {V' : View} (hm : Matches A orig V m s) (hregs : s'.regfile = s.regfile)
    (hshown : V'.Shown s'.memory) (hproper : V'.Proper A.sp.toNat A.kept)
    (hkept : ∀ x ∈ A.kept, s'.memory.byteAt x = s.memory.byteAt x) :
    Matches A orig V' { m with mem := V'.mem } s' where
  regs h := hregs ▸ hm.regs h
  args h := hregs ▸ hm.args h
  nargs := hregs ▸ hm.nargs
  sp := hregs ▸ hm.sp
  shown := hshown
  mem := rfl
  proper := hproper
  slots := by
    intro o ofs hslot hofs i hi
    rw [hkept _ (Or.inr ⟨o, ofs, hslot, hofs, by omega, by omega⟩)]
    have hobject : object { m with mem := V'.mem } o = object m o := by cases o <;> rfl
    rw [hobject]
    exact hm.slots hslot hofs i hi
  reserved x hx := (hkept x (Or.inl hx)).trans (hm.reserved x hx)

end Matches

/-! ## Instructions -/

/-- The function executes the instructions, whatever comes after them, and `Q` holds then. -/
def Executes (calloc : Heap → Word → Bool) (P : Program) (f : Interp.Function) (frames : List Interp.Frame)
    (is : List AsmInst) (s : Interp.State) (Q : Interp.State → Prop) : Prop :=
  ∀ p rest, rest ≠ [] → P.Chain p (is.map AsmInst.stmt ++ rest) →
    ∃ s', Interp.Advances calloc P f frames p s rest s' ∧ Q s'

section Executes

variable {calloc : Heap → Word → Bool} {P : Program} {f : Interp.Function} {frames : List Interp.Frame}
  {is is' : List AsmInst} {i : AsmInst} {s s' : Interp.State} {Q R : Interp.State → Prop}

theorem Executes.nil (h : Q s) : Executes calloc P f frames [] s Q :=
  fun _ _ _ hchain => ⟨s, Interp.Advances.refl hchain, h⟩

theorem Executes.append (h : Executes calloc P f frames is s R)
    (h' : ∀ s1, R s1 → Executes calloc P f frames is' s1 Q) :
    Executes calloc P f frames (is ++ is') s Q := by
  intro p rest hrest hchain
  rw [List.map_append, List.append_assoc] at hchain
  obtain ⟨s1, ⟨q, hq, hstar⟩, hR⟩ := h p _ (List.append_ne_nil_of_right_ne_nil _ hrest) hchain
  obtain ⟨s', ⟨q', hq', hstar'⟩, hQ⟩ := h' s1 hR q rest hrest hq
  exact ⟨s', ⟨q', hq', hstar.trans hstar'⟩, hQ⟩

theorem Executes.weaken (h : Executes calloc P f frames is s R) (hR : ∀ s', R s' → Q s') :
    Executes calloc P f frames is s Q := by
  intro p rest hrest hchain
  obtain ⟨s', hadv, hs'⟩ := h p rest hrest hchain
  exact ⟨s', hadv, hR s' hs'⟩

/-- An instruction that is neither a terminator nor a call. -/
theorem Executes.exec (hterm : i.stmt.isTerminator = false)
    (hcall : ∀ lhs g args, i.stmt ≠ .call lhs g args)
    (hrun : (i.stmt.exec calloc).run s = (.ok (), s')) (h : Q s') :
    Executes calloc P f frames [i] s Q := by
  intro p rest hrest hchain
  exact ⟨s', advances_exec hchain hrest hterm hcall hrun, h⟩

end Executes

/-! ## Operands of fewer bits -/

section Operands

variable {kind : BopKind} {size : Size} {a b a' b' w : Word}

theorem bwOf_of_sizeOfBw {bw : ℕ} (h : sizeOfBw bw = some size) : bwOf size = bw := by
  unfold sizeOfBw at h
  split at h <;> cases h <;> rfl

/-- Only the low bits of the operands count. -/
theorem getOp2_congr (h : b.setWidth (bwOf size) = b'.setWidth (bwOf size)) :
    getOp2 kind size b = getOp2 kind size b' := by
  have hlow : b.toNat % 2 ^ bwOf size = b'.toNat % 2 ^ bwOf size := by
    have hnat := congrArg BitVec.toNat h
    rwa [BitVec.toNat_setWidth, BitVec.toNat_setWidth] at hnat
  have hdvd : bwOf size ∣ 2 ^ bwOf size := by cases size <;> decide
  have hmod : b.toNat % bwOf size = b'.toNat % bwOf size := by
    rw [← Nat.mod_mod_of_dvd b.toNat hdvd, hlow, Nat.mod_mod_of_dvd b'.toNat hdvd]
  have hbw : (BitVec.ofNat 64 (bwOf size)).toNat = bwOf size := by cases size <;> rfl
  unfold getOp2
  split_ifs
  · apply BitVec.eq_of_toNat_eq
    rw [BitVec.toNat_umod, BitVec.toNat_umod, hbw, hmod]
  · rw [getOp1_eq, getOp1_eq, h]

theorem compute_congr (ha : a.setWidth (bwOf size) = a'.setWidth (bwOf size))
    (hb : b.setWidth (bwOf size) = b'.setWidth (bwOf size)) :
    compute kind size a b = compute kind size a' b' := by
  rw [compute, compute, getOp1_eq, getOp1_eq, ha, getOp2_congr hb]

/-- A constant that is printed with fewer bits has the same low bits. -/
theorem getValue_truncOperand {f : RegFile} {v : AsmOperand} {bw : ℕ} (hbw : bw ≤ 64)
    (h : v.value.getValue f = .ok w) : ∃ w', (truncOperand bw v).value.getValue f = .ok w' ∧
      w'.setWidth bw = w.setWidth bw := by
  cases v with
  | reg r => exact ⟨w, h, rfl⟩
  | const u =>
    obtain rfl : u = w := Except.ok.inj h
    exact ⟨_, rfl, setWidth_zext hbw _⟩

end Operands

/-! ## Lines inside the function -/

section Lines

variable {calloc : Heap → Word → Bool} {P : Program} {f : Interp.Function} {frames : List Interp.Frame}
  {A : Activation} {orig : ℕ → Option Byte} {V : View} {m m' : Machine} {s : Interp.State} {k : ℕ}
  {reg : AsmReg} {w : Word} {o : Object} {ofs : BitVec 32} {is : List AsmInst} {l : Line}
  {v : EmitVal} {ans : Answer}

/-- `write_reg` of a register that a line can write. -/
theorem writeReg_instReg (h : instReg k = some reg) (g : RegFile) :
    g.writeReg reg w = .ok { g with regfile := Function.update g.regfile reg w } := by
  obtain ⟨hne, harg⟩ := instReg_writable h
  exact writeReg_ok hne harg

/-- An operation whose result goes to a register. -/
theorem executes_bop (hm : Matches A orig V m s) (hreg : instReg k = some reg) {kind : BopKind}
    {size : Size} {a b : AsmOperand} {x y : Word} (hx : a.value.getValue s.regfile = .ok x)
    (hy : b.value.getValue s.regfile = .ok y) (hw : compute kind size x y = .ok w) :
    Executes calloc P f frames [bopInst reg kind a b size] s (Matches A orig V (m.setReg k w)) := by
  have hstmt : (bopInst reg kind a b size).stmt = .bop reg kind a.value b.value size := by
    cases kind <;> rfl
  obtain ⟨s', hrun, hm'⟩ : ∃ s', ((bopInst reg kind a b size).stmt.exec calloc).run s = (.ok (), s') ∧
      Matches A orig V (m.setReg k w) s' := by
    rw [hstmt]
    exact ⟨_, run_bop hx hy hw (writeReg_instReg hreg _), hm.setReg hreg rfl rfl fun _ => rfl⟩
  refine Executes.exec ?_ ?_ hrun hm'
  · rw [hstmt]
    rfl
  · rw [hstmt]
    exact fun _ _ _ => Stmt.noConfusion

/-- A copy, which is nothing if the value is there already. -/
theorem executes_copy (hm : Matches A orig V m s) (hreg : instReg k = some reg) {a : AsmOperand}
    (ha : a.value.getValue s.regfile = .ok w) :
    Executes calloc P f frames (emitCopy reg a) s (Matches A orig V (m.setReg k w)) := by
  have hone : (AsmOperand.const 1).value.getValue s.regfile = .ok 1 := rfl
  have hmul : compute .mul .size64 w 1 = .ok w := congrArg Except.ok (BitVec.mul_one w)
  have hbop : Executes calloc P f frames [bopInst reg .mul a (.const 1) .size64] s
      (Matches A orig V (m.setReg k w)) := executes_bop hm hreg ha hone hmul
  cases a with
  | const u => exact hbop
  | reg r =>
    by_cases heq : r = reg
    · subst heq
      have hcopy : emitCopy r (.reg r) = [] := if_pos rfl
      obtain ⟨hne, harg⟩ := instReg_writable hreg
      have hval : s.regfile.readReg r.val = .ok w := ha
      rw [readReg_ok hne harg, hm.regs hreg] at hval
      have hset : m.setReg k w = m := by
        rw [← Except.ok.inj hval]
        unfold Machine.setReg
        rw [Function.update_eq_self]
      rw [hcopy, hset]
      exact .nil hm
    · have hcopy : emitCopy reg (.reg r) = [bopInst reg .mul (.reg r) (.const 1) .size64] := if_neg heq
      rw [hcopy]
      exact hbop

/-- A slot is loaded. -/
theorem executes_loadSlot (hm : Matches A orig V m s) (hreg : instReg k = some reg)
    (hslot : o.isSlot = true) (hofs : A.ofs o = some ofs) :
    Executes calloc P f frames [.load reg .size8 (.reg spReg) (ofs.setWidth 64)] s
      (Matches A orig V (m.setReg k (object m o))) := by
  have haddr := A.sp_add hslot hofs
  have htiled : s.memory.heap.Tiled := hm.shown.heap ▸ hm.proper.tiled
  have hin := A.inStack hslot hofs
  have halign := A.aligned hslot hofs
  rw [← haddr] at hin halign
  obtain ⟨q, hq, hval, hheap, hbytes⟩ := execLoad_word htiled (haddr ▸ hm.slots hslot hofs) halign
    (Or.inl (by omega))
  apply Executes.exec rfl (fun _ _ _ => Stmt.noConfusion)
    (run_load hm.getSP hq (writeReg_instReg hreg _))
  apply hm.setReg hreg _ hheap hbytes
  rw [hval]

/-- A slot is stored. -/
theorem executes_storeSlot (hm : Matches A orig V m s) {a : AsmOperand}
    (ha : a.value.getValue s.regfile = .ok w) (hslot : o.isSlot = true) (hofs : A.ofs o = some ofs) :
    Executes calloc P f frames [.store .size8 a (.reg spReg) (ofs.setWidth 64)] s
      (Matches A orig V (setObject m o w)) := by
  have haddr := A.sp_add hslot hofs
  have htiled : s.memory.heap.Tiled := hm.shown.heap ▸ hm.proper.tiled
  have hin := A.inStack hslot hofs
  have halign := A.aligned hslot hofs
  rw [← haddr] at hin halign
  obtain ⟨r, hr, hheap, hword, hother⟩ := execStore_word htiled halign (Or.inl (by omega)) w
  rw [haddr] at hword hother
  apply Executes.exec rfl (fun _ _ _ => Stmt.noConfusion) (run_store ha hm.getSP hr)
  exact hm.setSlot hslot hofs rfl hheap hword hother

/-- The lines that neither access the memory nor call a function. -/
theorem executes_quiet (hm : Matches A orig V m s) (hl : isQuiet l = true)
    (hemit : emitLine A.argSize A.ofs l = some is) (hexec : l.exec ans m = some m') :
    Executes calloc P f frames is s (Matches A orig V m') := by
  cases l with
  | fill k I =>
    obtain ⟨reg, hreg, hemit⟩ := Option.bind_eq_some_iff.mp hemit
    obtain ⟨ofs, hofs, rfl⟩ := Option.map_eq_some_iff.mp hemit
    obtain rfl := Option.some.inj hexec
    exact executes_loadSlot hm hreg (o := .slot I) rfl hofs
  | loadPhi k Q =>
    obtain ⟨reg, hreg, hemit⟩ := Option.bind_eq_some_iff.mp hemit
    obtain ⟨ofs, hofs, rfl⟩ := Option.map_eq_some_iff.mp hemit
    obtain rfl := Option.some.inj hexec
    exact executes_loadSlot hm hreg (o := .phiTmpSlot Q) rfl hofs
  | spill v I =>
    obtain ⟨a, ha, hemit⟩ := Option.bind_eq_some_iff.mp hemit
    obtain ⟨ofs, hofs, rfl⟩ := Option.map_eq_some_iff.mp hemit
    obtain rfl := Option.some.inj hexec
    exact executes_storeSlot hm (hm.getValue ha) (o := .slot I) rfl hofs
  | storePhi v Q =>
    obtain ⟨a, ha, hemit⟩ := Option.bind_eq_some_iff.mp hemit
    obtain ⟨ofs, hofs, rfl⟩ := Option.map_eq_some_iff.mp hemit
    obtain rfl := Option.some.inj hexec
    exact executes_storeSlot hm (hm.getValue ha) (o := .phiTmpSlot Q) rfl hofs
  | bop k kind a b bw =>
    obtain ⟨reg, hreg, hemit⟩ := Option.bind_eq_some_iff.mp hemit
    obtain ⟨size, hsize, hemit⟩ := Option.bind_eq_some_iff.mp hemit
    obtain ⟨a', ha, hemit⟩ := Option.bind_eq_some_iff.mp hemit
    obtain ⟨b', hb, rfl⟩ := Option.map_eq_some_iff.mp hemit
    obtain rfl := bwOf_of_sizeOfBw hsize
    obtain ⟨size', hsize', hcompute⟩ := Option.bind_eq_some_iff.mp hexec
    obtain rfl := Option.some.inj (hsize.symm.trans hsize')
    obtain ⟨x, hx, hxa⟩ := getValue_truncOperand (bwOf_le size) (hm.getValue ha)
    obtain ⟨y, hy, hyb⟩ := getValue_truncOperand (bwOf_le size) (hm.getValue hb)
    split at hcompute
    · next r hr =>
      obtain rfl := Option.some.inj hcompute
      rw [← compute_congr hxa hyb] at hr
      exact executes_bop hm hreg hx hy hr
    · cases hcompute
  | select k c a b =>
    obtain ⟨reg, hreg, hemit⟩ := Option.bind_eq_some_iff.mp hemit
    obtain ⟨c', hc, hemit⟩ := Option.bind_eq_some_iff.mp hemit
    obtain ⟨a', ha, hemit⟩ := Option.bind_eq_some_iff.mp hemit
    obtain ⟨b', hb, hemit⟩ := Option.bind_eq_some_iff.mp hemit
    obtain rfl := Option.some.inj hexec
    have his : is = [.select reg c' a' b'] := by
      cases c' with
      | const w =>
        obtain ⟨-, h⟩ := Option.ite_none_right_eq_some.mp hemit
        exact (Option.some.inj h).symm
      | reg r => exact (Option.some.inj hemit).symm
    subst his
    apply Executes.exec rfl (fun _ _ _ => Stmt.noConfusion)
      (run_select (hm.getValue hc) (hm.getValue ha) (hm.getValue hb) (writeReg_instReg hreg _))
    exact hm.setReg hreg rfl rfl fun _ => rfl
  | copy k a =>
    obtain ⟨reg, hreg, hemit⟩ := Option.bind_eq_some_iff.mp hemit
    obtain ⟨a', ha, rfl⟩ := Option.map_eq_some_iff.mp hemit
    obtain rfl := Option.some.inj hexec
    exact executes_copy hm hreg (hm.getValue ha)
  | _ => cases hl

end Lines

end SwppCompiler.Backend.Assembly
