import SwppCompiler.Interp.Execution

/-!
# What C++ leaves undefined

Two statements may do what C++ does not define: a division of -2^63 by -1, and an access whose end
wraps to 0. `Stmt.exec_ensures`: a statement that does neither succeeds or is reported, and keeps the
heap in order.
-/

namespace SwppCompiler.Interp

open Lib Lib.StateExcept

/-- What the statement does in the state is not defined. -/
def Stmt.Undefined (s : State) : Stmt → Prop
  | .bop _ kind val1 val2 size => (kind = .sdiv ∨ kind = .srem) ∧ size = .size64 ∧
    val1.getValue s.regfile = .ok (BitVec.intMin 64) ∧ val2.getValue s.regfile = .ok (-1)
  | .load _ size ptr ofs =>
    ∃ w, ptr.getValue s.regfile = .ok w ∧ (w + ofs).toNat + msizeOf size = 2 ^ 64
  | .store size val ptr ofs =>
    ∃ w, ptr.getValue s.regfile = .ok w ∧ (w + ofs).toNat + msizeOf size = 2 ^ 64 ∧
      ∃ v, val.getValue s.regfile = .ok v
  | _ => False

/-! ## Operations that stop -/

theorem RegFile.readReg_ne {f : RegFile} {reg : Reg} : f.readReg reg ≠ .error .undefined := by
  unfold readReg
  split_ifs <;> exact fun h => by cases h

theorem RegFile.writeReg_ne {f : RegFile} {reg : Reg} {val : Word} :
    f.writeReg reg val ≠ .error .undefined := by
  unfold writeReg
  split_ifs <;> exact fun h => by cases h

theorem Value.getValue_ne {f : RegFile} {v : Value} : v.getValue f ≠ .error .undefined := by
  cases v with
  | reg r => exact RegFile.readReg_ne
  | literal w => exact fun h => by cases h

theorem Memory.execMalloc_ne {calloc : Heap → Word → Bool} {m : Memory} {size : Word} :
    m.execMalloc calloc size ≠ .error .undefined := by
  unfold execMalloc
  cases m.heap.execMalloc size.toNat with
  | none => split_ifs <;> exact fun h => by cases h
  | some q => split_ifs <;> exact fun h => by cases h

theorem Memory.execFree_ne {m : Memory} {addr : Word} : m.execFree addr ≠ .error .undefined := by
  unfold execFree
  intro h
  simp only at h
  split at h <;> cases h

theorem Heap.Tiled.execLoad_undefined {m : Memory} (ht : m.heap.Tiled) {size : MSize} {addr : Word}
    (h : m.execLoad size addr = .error .undefined) : addr.toNat + msizeOf size = 2 ^ 64 := by
  by_contra hwrap
  have hchecked := ht.accessChecked hwrap
  by_cases hin : m.InBounds size addr
  · obtain ⟨⟨r, hr⟩, -⟩ := hchecked.accepts hin
    rw [h] at hr
    cases hr
  · obtain ⟨⟨msg, hr⟩, -⟩ := hchecked.reports hin
    rw [h] at hr
    cases hr

theorem Heap.Tiled.execStore_undefined {m : Memory} (ht : m.heap.Tiled) {size : MSize}
    {addr val : Word} (h : m.execStore size addr val = .error .undefined) :
    addr.toNat + msizeOf size = 2 ^ 64 := by
  by_contra hwrap
  have hchecked := ht.accessChecked hwrap
  by_cases hin : m.InBounds size addr
  · obtain ⟨r, hr⟩ := (hchecked.accepts hin).2 val
    rw [h] at hr
    cases hr
  · obtain ⟨msg, hr⟩ := (hchecked.reports hin).2 val
    rw [h] at hr
    cases hr

/-- Only the host's signed division overflows. -/
theorem computeStop_undefined {kind : BopKind} {size : Size} {op1 op2 : Word}
    (h : computeStop kind size op1 op2 = .error .undefined) :
    (kind = .sdiv ∨ kind = .srem) ∧ size = .size64 ∧ op1 = BitVec.intMin 64 ∧ op2 = -1 := by
  have hover : compute kind size op1 op2 = .error .hostOverflow := by
    unfold computeStop at h
    split at h
    · cases h
    · cases h
    · assumption
  rw [compute_eq] at hover
  have hsigned : ∀ {w : ℕ} {f : BitVec w → BitVec w → BitVec w} {x y : BitVec w},
      (signedDiv f x y).map zext = .error .hostOverflow → w = 64 ∧ x = BitVec.intMin w ∧ y = -1 := by
    intro w f x y h
    unfold signedDiv at h
    split_ifs at h with h0 hmin
    · cases h
    · exact hmin
    · cases h
  have hsize : ∀ {x y : Word}, (bwOf size = 64 ∧ x.setWidth (bwOf size) = BitVec.intMin (bwOf size) ∧
      y.setWidth (bwOf size) = -1) → size = .size64 ∧ x = BitVec.intMin 64 ∧ y = -1 := by
    rintro x y ⟨hw, hx, hy⟩
    cases size <;> cases hw
    exact ⟨rfl, by simpa [bwOf] using hx, by simpa [bwOf] using hy⟩
  cases kind
  case sdiv => exact ⟨Or.inl rfl, hsize (hsigned hover)⟩
  case srem => exact ⟨Or.inr rfl, hsize (hsigned hover)⟩
  case udiv | urem =>
    unfold bvCompute at hover
    simp only at hover
    split_ifs at hover
    all_goals cases hover
  all_goals cases hover

/-! ## Statements -/

section

variable {err : Stop → Prop} {p : State → Prop} {s₀ : State} {calloc : Heap → Word → Bool}

theorem ensures_look {α : Type} {f : State → Except Stop α} {q : α → State → Prop}
    (h : ∀ s, p s → Post err (fun a => q a s) (f s)) : Ensures err p (look f) q := by
  intro s hs
  rw [run_look]
  exact h s hs

/-- A part of a statement that is reported when it fails. -/
theorem ensures_reported {α : Type} {f : State → Except Stop α} {q : α → State → Prop}
    (herr : ∀ e, e ≠ .undefined → err e) (hne : ∀ s, f s ≠ .error .undefined)
    (h : ∀ s a, p s → f s = .ok a → q a s) : Ensures err p (look f) q := by
  refine ensures_look fun s hs => ?_
  cases hf : f s with
  | error e => exact herr e fun he => hne s (he ▸ hf)
  | ok a => exact h s a hs hf

theorem ensures_getValue (herr : ∀ e, e ≠ .undefined → err e) (v : Value) :
    Ensures err p (getValue v) fun w s => p s ∧ v.getValue s.regfile = .ok w :=
  ensures_reported herr (fun _ => Value.getValue_ne) fun _ _ hs hf => ⟨hs, hf⟩

/-- The end of a statement: what fails is reported, and the heap stays. -/
abbrev Finishes (m : Exec Unit) : Prop :=
  Ensures (· ≠ .undefined) (fun s => s.memory.heap.Tiled) m fun _ s => s.memory.heap.Tiled

theorem finishes_addCost (c : ℚ) : Finishes (addCost c) := .modify fun _ hs => hs

theorem finishes_writeReg (reg : Reg) (val : Word) : Finishes (writeReg reg val) := by
  refine Ensures.bind (q := fun _ s => s.memory.heap.Tiled) ?_ fun f => .modify fun _ hs => hs
  exact ensures_reported (fun _ h => h) (fun _ => RegFile.writeReg_ne) fun _ _ hs _ => hs

/-- The result and the cost of a statement. -/
theorem finishes_result (reg : Reg) (val : Word) (c : ℚ) :
    Finishes (do writeReg reg val; addCost c) :=
  (finishes_writeReg reg val).bind fun _ => finishes_addCost c

/-- The end of a statement that has found the memory after it. -/
theorem finishes_setMemory {m : Exec Unit} {memory : Memory} (hm : Finishes m) :
    Ensures (· ≠ .undefined) (fun _ => memory.heap.Tiled) (do setMemory memory; m)
      fun _ s => s.memory.heap.Tiled :=
  Ensures.bind (q := fun _ s => s.memory.heap.Tiled) (.modify fun _ hs => hs) fun _ => hm

/-- From `s₀`, the statement does what is not defined, or keeps the heap in order. -/
abbrev Stmt.Keeps (calloc : Heap → Word → Bool) (stmt : Stmt) (s₀ : State) : Prop :=
  Ensures (fun e => e = .undefined → stmt.Undefined s₀) (fun s => s = s₀) (stmt.exec calloc)
    fun _ s => s.memory.heap.Tiled

/-- What is reported is defined. -/
theorem Stmt.reported {stmt : Stmt} : ∀ e : Stop, e ≠ .undefined → e = .undefined → stmt.Undefined s₀ :=
  fun _ hne he => absurd he hne

theorem Stmt.keeps_malloc {lhs : Reg} {val : Value} (ht : s₀.memory.heap.Tiled) :
    Stmt.Keeps calloc (.malloc lhs val) s₀ := by
  refine (ensures_getValue Stmt.reported val).bind fun size => ?_
  refine Ensures.bind (q := fun r _ => r.2.2.heap.Tiled) ?_ fun r =>
    (finishes_setMemory (finishes_result lhs r.1 r.2.1)).weaken Stmt.reported fun _ hs => hs
  refine ensures_reported Stmt.reported (fun _ => Memory.execMalloc_ne) ?_
  rintro s r ⟨rfl, -⟩ hr
  obtain ⟨addr, hheap, -⟩ := Memory.execMalloc_cases hr
  exact ht.execMalloc hheap

theorem Stmt.keeps_free {ptr : Value} (ht : s₀.memory.heap.Tiled) :
    Stmt.Keeps calloc (.free ptr) s₀ := by
  refine (ensures_getValue Stmt.reported ptr).bind fun addr => ?_
  refine Ensures.bind (q := fun r _ => r.2.heap.Tiled) ?_ fun r =>
    (finishes_setMemory (finishes_addCost r.1)).weaken Stmt.reported fun _ hs => hs
  refine ensures_reported Stmt.reported (fun _ => Memory.execFree_ne) ?_
  rintro s r ⟨rfl, -⟩ hr
  obtain ⟨b, -, hheap, -⟩ := Memory.execFree_cases hr
  exact ht.execFree hheap

theorem Stmt.keeps_load {lhs : Reg} {size : MSize} {ptr : Value} {ofs : Word}
    (ht : s₀.memory.heap.Tiled) :
    Stmt.Keeps calloc (.load lhs size ptr ofs) s₀ := by
  refine (ensures_getValue Stmt.reported ptr).bind fun w => ?_
  refine Ensures.bind (q := fun r _ => r.2.2.heap.Tiled) ?_ fun r =>
    (finishes_setMemory (finishes_result lhs r.1 r.2.1)).weaken Stmt.reported fun _ hs => hs
  refine ensures_look ?_
  rintro s ⟨rfl, hw⟩
  cases hr : s.memory.execLoad size (w + ofs) with
  | error e =>
    rintro rfl
    exact ⟨w, hw, ht.execLoad_undefined hr⟩
  | ok r =>
    show r.2.2.heap.Tiled
    rw [Memory.execLoad_cases hr]
    exact ht

theorem Stmt.keeps_store {size : MSize} {val ptr : Value} {ofs : Word} (ht : s₀.memory.heap.Tiled) :
    Stmt.Keeps calloc (.store size val ptr ofs) s₀ := by
  refine (ensures_getValue Stmt.reported ptr).bind fun w => ?_
  refine (ensures_getValue Stmt.reported val).bind fun v => ?_
  refine Ensures.bind (q := fun r _ => r.2.heap.Tiled) ?_ fun r =>
    (finishes_setMemory (finishes_addCost r.1)).weaken Stmt.reported fun _ hs => hs
  refine ensures_look ?_
  rintro s ⟨⟨rfl, hw⟩, hv⟩
  cases hr : s.memory.execStore size (w + ofs) v with
  | error e =>
    rintro rfl
    exact ⟨w, hw, ht.execStore_undefined hr, v, hv⟩
  | ok r =>
    obtain ⟨stack, contents, heq⟩ := Memory.execStore_cases hr
    show r.2.heap.Tiled
    rw [heq]
    exact ht

theorem Stmt.keeps_bop {lhs : Reg} {kind : BopKind} {val1 val2 : Value} {size : Size}
    (ht : s₀.memory.heap.Tiled) :
    Stmt.Keeps calloc (.bop lhs kind val1 val2 size) s₀ := by
  refine (ensures_getValue Stmt.reported val1).bind fun op1 => ?_
  refine (ensures_getValue Stmt.reported val2).bind fun op2 => ?_
  refine Ensures.bind (q := fun _ s => s.memory.heap.Tiled) ?_ fun res =>
    (finishes_result lhs res (costOf kind)).weaken Stmt.reported fun _ hs => hs
  refine ensures_look ?_
  rintro s ⟨⟨rfl, h1⟩, h2⟩
  cases hr : computeStop kind size op1 op2 with
  | error e =>
    rintro rfl
    obtain ⟨hkind, hsize, rfl, rfl⟩ := computeStop_undefined hr
    exact ⟨hkind, hsize, h1, h2⟩
  | ok res => exact ht

theorem Stmt.keeps_select {lhs : Reg} {cond valTrue valFalse : Value} (ht : s₀.memory.heap.Tiled) :
    Stmt.Keeps calloc (.select lhs cond valTrue valFalse) s₀ := by
  refine (ensures_getValue Stmt.reported cond).bind fun vCond => ?_
  refine (ensures_getValue Stmt.reported valTrue).bind fun vTrue => ?_
  refine (ensures_getValue Stmt.reported valFalse).bind fun vFalse => ?_
  refine (finishes_result lhs _ Cost.ternary).weaken Stmt.reported ?_
  rintro s ⟨⟨⟨rfl, -⟩, -⟩, -⟩
  exact ht

theorem Stmt.keeps_assert {op1 op2 : Value} (ht : s₀.memory.heap.Tiled) :
    Stmt.Keeps calloc (.assert op1 op2) s₀ := by
  refine (ensures_getValue Stmt.reported op1).bind fun val1 => ?_
  refine (ensures_getValue Stmt.reported op2).bind fun val2 => ?_
  split_ifs
  · refine (finishes_addCost Cost.assert).weaken Stmt.reported ?_
    rintro s ⟨⟨rfl, -⟩, -⟩
    exact ht
  · exact .throw (Stmt.reported _ fun h => by cases h)

theorem Stmt.keeps_read {lhs : Reg} (ht : s₀.memory.heap.Tiled) :
    Stmt.Keeps calloc (.read lhs) s₀ := by
  refine Ensures.bind (q := fun _ s => s = s₀) (ensures_look fun s hs => hs) fun r => ?_
  refine Ensures.bind (q := fun _ s => s.memory.heap.Tiled) (.modify ?_) fun _ => ?_
  · rintro s rfl
    exact ht
  · cases stoull r.1 with
    | some result => exact (finishes_result lhs result Cost.call).weaken Stmt.reported fun _ hs => hs
    | none => exact .throw (Stmt.reported _ fun h => by cases h)

theorem Stmt.keeps_write {lhs : Reg} {val : Value} (ht : s₀.memory.heap.Tiled) :
    Stmt.Keeps calloc (.write lhs val) s₀ := by
  refine (ensures_getValue Stmt.reported val).bind fun result => ?_
  refine Ensures.bind (q := fun _ s => s.memory.heap.Tiled) (.modify ?_) fun _ =>
    (finishes_result lhs 0 _).weaken Stmt.reported fun _ hs => hs
  rintro s ⟨rfl, -⟩
  exact ht

/-- **Every statement does what is not defined, or keeps the heap in order.** -/
theorem Stmt.exec_ensures (calloc : Heap → Word → Bool) (stmt : Stmt) (ht : s₀.memory.heap.Tiled) :
    stmt.Keeps calloc s₀ := by
  cases stmt with
  | malloc => exact keeps_malloc ht
  | free => exact keeps_free ht
  | load => exact keeps_load ht
  | store => exact keeps_store ht
  | bop => exact keeps_bop ht
  | select => exact keeps_select ht
  | assert => exact keeps_assert ht
  | read => exact keeps_read ht
  | write => exact keeps_write ht
  | resetStack | resetHeap =>
    refine Ensures.bind (q := fun r _ => r.2.heap.Tiled) (ensures_look ?_) fun r =>
      (finishes_setMemory (finishes_addCost r.1)).weaken reported fun _ hs => hs
    rintro s rfl
    exact ht
  | ret | brUncond | brCond | switch | call =>
    refine .pure ?_
    rintro s rfl
    exact ht

theorem run_getValue {v : Value} {s : State} {w : Word} (h : v.getValue s.regfile = .ok w) :
    (getValue v).run s = (.ok w, s) := by
  unfold getValue
  rw [run_look, h]

/-- A statement that does what is not defined does not end. -/
theorem Stmt.Undefined.exec {stmt : Stmt} {s : State} (h : stmt.Undefined s)
    (calloc : Heap → Word → Bool) : ((stmt.exec calloc).run s).1 = .error .undefined := by
  cases stmt with
  | load lhs size ptr ofs =>
    obtain ⟨w, hw, hwrap⟩ := h
    unfold Stmt.exec
    rw [run_bind, run_getValue hw]
    dsimp only
    rw [run_bind, run_look, Memory.execLoad_wrap hwrap]
  | store size val ptr ofs =>
    obtain ⟨w, hw, hwrap, v, hv⟩ := h
    unfold Stmt.exec
    rw [run_bind, run_getValue hw]
    dsimp only
    rw [run_bind, run_getValue hv]
    dsimp only
    rw [run_bind, run_look, Memory.execStore_wrap hwrap]
  | bop lhs kind val1 val2 size =>
    obtain ⟨hkind, rfl, h1, h2⟩ := h
    have hstop : computeStop kind .size64 (BitVec.intMin 64) (-1) = .error .undefined := by
      rcases hkind with rfl | rfl <;> rfl
    unfold Stmt.exec
    rw [run_bind, run_getValue h1]
    dsimp only
    rw [run_bind, run_getValue h2]
    dsimp only
    rw [run_bind, run_look, hstop]
  | malloc | free | select | assert | read | write | resetStack | resetHeap | ret | brUncond | brCond
  | switch | call => exact h.elim

end

end SwppCompiler.Interp
