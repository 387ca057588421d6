import SwppCompiler.Interp.Execution
import SwppCompiler.Interp.Undefined

/-!
# Running the statements of a block

What the interpreter does with a statement whose operands can be read, and with a chain of them.

* `Advances`: control goes from a place of a function to another one.
* `advances_exec`: a statement that is neither a terminator nor a call.
* `step_call`, `step_ret`: the way into a callee, and the way back from its `ret`.
-/

namespace SwppCompiler.Interp

open Lib Lib.StateExcept

/-! ## Registers -/

section Registers

variable {f : RegFile} {reg : Reg} {val : Word}

/-- `write_reg` of a register that may be written. -/
theorem writeReg_ok (hne : reg ≠ .none) (h : ∀ i, reg ≠ .a i) :
    f.writeReg reg val = .ok { f with regfile := Function.update f.regfile reg val } := by
  have hindex : ¬(16 ≤ reg.index ∧ reg.index ≤ 31) := by
    cases reg with
    | a i => exact absurd rfl (h i)
    | none => exact absurd rfl hne
    | r i =>
      show ¬(16 ≤ i.val ∧ i.val ≤ 31)
      omega
    | sp => decide
  rw [RegFile.writeReg, if_neg hne, if_neg hindex]

/-- `read_reg` of a register that is not an argument. -/
theorem readReg_ok (hne : reg ≠ .none) (h : ∀ i, reg ≠ .a i) : f.readReg reg = .ok (f.regfile reg) := by
  have hindex : ¬(16 + f.nargs ≤ reg.index ∧ reg.index ≤ 31) := by
    cases reg with
    | a i => exact absurd rfl (h i)
    | none => exact absurd rfl hne
    | r i =>
      show ¬(16 + f.nargs ≤ i.val ∧ i.val ≤ 31)
      omega
    | sp =>
      show ¬(16 + f.nargs ≤ 32 ∧ 32 ≤ 31)
      omega
  rw [RegFile.readReg, if_neg hindex, if_neg hne]

theorem readReg_arg {i : Fin 16} (h : i.val < f.nargs) : f.readReg (.a i) = .ok (f.regfile (.a i)) := by
  have hindex : ¬(16 + f.nargs ≤ (Reg.a i).index ∧ (Reg.a i).index ≤ 31) := by
    show ¬(16 + f.nargs ≤ 16 + i.val ∧ 16 + i.val ≤ 31)
    omega
  rw [RegFile.readReg, if_neg hindex, if_neg (by simp)]

end Registers

/-! ## Statements -/

section Statements

variable {calloc : Heap → Word → Bool} {s : State} {f : RegFile} {lhs : Reg} {v v1 v2 v3 : Value}
  {a b r : Word} {size : Size} {msize : MSize} {kind : BopKind} {ofs : Word}

theorem run_writeReg (h : s.regfile.writeReg lhs r = .ok f) :
    (writeReg lhs r).run s = (.ok (), { s with regfile := f }) := by
  unfold writeReg
  rw [run_bind, run_look, h]
  rfl

theorem run_bop (h1 : v1.getValue s.regfile = .ok a) (h2 : v2.getValue s.regfile = .ok b)
    (h : compute kind size a b = .ok r) (hf : s.regfile.writeReg lhs r = .ok f) :
    ((Stmt.bop lhs kind v1 v2 size).exec calloc).run s =
      (.ok (), { s with regfile := f, cost := s.cost + costOf kind }) := by
  have hstop : computeStop kind size a b = .ok r := by
    unfold computeStop
    rw [h]
  unfold Stmt.exec
  rw [run_bind, run_getValue h1]
  dsimp only
  rw [run_bind, run_getValue h2]
  dsimp only
  rw [run_bind, run_look, hstop]
  dsimp only
  rw [run_bind, run_writeReg hf]
  rfl

theorem run_select {c : Word} (h1 : v1.getValue s.regfile = .ok c)
    (h2 : v2.getValue s.regfile = .ok a) (h3 : v3.getValue s.regfile = .ok b)
    (hf : s.regfile.writeReg lhs (if c ≠ 0 then a else b) = .ok f) :
    ((Stmt.select lhs v1 v2 v3).exec calloc).run s =
      (.ok (), { s with regfile := f, cost := s.cost + Cost.ternary }) := by
  unfold Stmt.exec
  rw [run_bind, run_getValue h1]
  dsimp only
  rw [run_bind, run_getValue h2]
  dsimp only
  rw [run_bind, run_getValue h3]
  dsimp only
  rw [run_bind, run_writeReg hf]
  rfl

theorem run_load {q : Word × ℚ × Memory} (h : v.getValue s.regfile = .ok a)
    (hq : s.memory.execLoad msize (a + ofs) = .ok q) (hf : s.regfile.writeReg lhs q.1 = .ok f) :
    ((Stmt.load lhs msize v ofs).exec calloc).run s =
      (.ok (), { s with regfile := f, memory := q.2.2, cost := s.cost + q.2.1 }) := by
  unfold Stmt.exec
  rw [run_bind, run_getValue h]
  dsimp only
  rw [run_bind, run_look, hq]
  dsimp only
  rw [run_bind]
  show (ExceptT.run (do writeReg lhs q.1; addCost q.2.1) { s with memory := q.2.2 }) = _
  have hw : ({ s with memory := q.2.2 } : State).regfile.writeReg lhs q.1 = .ok f := hf
  rw [run_bind, run_writeReg hw]
  rfl

theorem run_store {q : ℚ × Memory} (h1 : v1.getValue s.regfile = .ok r)
    (h2 : v2.getValue s.regfile = .ok a) (hq : s.memory.execStore msize (a + ofs) r = .ok q) :
    ((Stmt.store msize v1 v2 ofs).exec calloc).run s =
      (.ok (), { s with memory := q.2, cost := s.cost + q.1 }) := by
  unfold Stmt.exec
  rw [run_bind, run_getValue h2]
  dsimp only
  rw [run_bind, run_getValue h1]
  dsimp only
  rw [run_bind, run_look, hq]
  rfl

theorem run_malloc {q : Word × ℚ × Memory} (h : v.getValue s.regfile = .ok a)
    (hq : s.memory.execMalloc calloc a = .ok q) (hf : s.regfile.writeReg lhs q.1 = .ok f) :
    ((Stmt.malloc lhs v).exec calloc).run s =
      (.ok (), { s with regfile := f, memory := q.2.2, cost := s.cost + q.2.1 }) := by
  unfold Stmt.exec
  rw [run_bind, run_getValue h]
  dsimp only
  rw [run_bind, run_look, hq]
  dsimp only
  rw [run_bind]
  show (ExceptT.run (do writeReg lhs q.1; addCost q.2.1) { s with memory := q.2.2 }) = _
  have hw : ({ s with memory := q.2.2 } : State).regfile.writeReg lhs q.1 = .ok f := hf
  rw [run_bind, run_writeReg hw]
  rfl

theorem run_free {q : ℚ × Memory} (h : v.getValue s.regfile = .ok a)
    (hq : s.memory.execFree a = .ok q) :
    ((Stmt.free v).exec calloc).run s =
      (.ok (), { s with memory := q.2, cost := s.cost + q.1 }) := by
  unfold Stmt.exec
  rw [run_bind, run_getValue h]
  dsimp only
  rw [run_bind, run_look, hq]
  rfl

end Statements

/-! ## Places -/

/-- Control goes from place `p` in state `s` to the statements `rest` in state `s'`, in a function that
    is called by `frames`. -/
def Advances (calloc : Heap → Word → Bool) (P : Program) (f : Function) (frames : List Frame) (p : ℕ)
    (s : State) (rest : List Stmt) (s' : State) : Prop :=
  ∃ q, P.Chain q rest ∧ Star (step calloc P) ⟨f, some p, frames, s⟩ ⟨f, some q, frames, s'⟩

section Places

variable {calloc : Heap → Word → Bool} {P : Program} {f : Function} {frames : List Frame} {p : ℕ}
  {s s' : State} {stmt : Stmt} {rest : List Stmt}

theorem Advances.refl (h : P.Chain p rest) : Advances calloc P f frames p s rest s := ⟨p, h, .refl⟩

/-- The first statement of a chain that goes on. -/
theorem Program.Chain.head (h : P.Chain p (stmt :: rest)) (hrest : rest ≠ []) :
    ∃ node q, P.nodes[p]? = some node ∧ node.stmt = stmt ∧ node.next = some q ∧ P.Chain q rest := by
  obtain ⟨node, hnode, hstmt, ⟨-, hnil⟩ | ⟨q, hnext, hq⟩⟩ := Program.chain_cons_iff.mp h
  · exact absurd hnil hrest
  · exact ⟨node, q, hnode, hstmt, hnext, hq⟩

/-- A statement that neither ends the block nor is a call. -/
theorem advances_exec (h : P.Chain p (stmt :: rest)) (hrest : rest ≠ [])
    (hterm : stmt.isTerminator = false) (hcall : ∀ lhs g args, stmt ≠ .call lhs g args)
    (hrun : (stmt.exec calloc).run s = (.ok (), s')) :
    Advances calloc P f frames p s rest s' := by
  obtain ⟨node, q, hnode, rfl, hnext, hq⟩ := h.head hrest
  refine ⟨q, hq, .single ?_⟩
  have hcurr : ((some p).bind fun p => P.nodes[p]?) = some node := hnode
  unfold step
  dsimp only
  rw [hcurr]
  dsimp only
  cases hstmt : node.stmt with
  | ret | brUncond | brCond | switch =>
    rw [hstmt] at hterm
    cases hterm
  | call lhs g args => exact absurd hstmt (hcall lhs g args)
  | _ =>
    rw [hstmt] at hrun
    dsimp only
    rw [hrun, hnext]

/-- The argument registers of a callee. -/
theorem setupArgs_ok {old : RegFile} {args : List Value} {ws : List Word} {k : ℕ} {g : RegFile}
    (h : List.Forall₂ (fun v w => v.getValue old = .ok w) args ws) (hk : k + ws.length ≤ 16) :
    ∃ g', setupArgs old (16 + k) args g = .ok g' ∧ g'.nargs = g.nargs ∧
      (∀ reg, (∀ i, reg ≠ .a i) → g'.regfile reg = g.regfile reg) ∧
      (∀ i : Fin 16, i.val < k → g'.regfile (.a i) = g.regfile (.a i)) ∧
      ∀ (n : ℕ) (hn : n < ws.length), g'.regfile (.a ⟨k + n, by omega⟩) = ws[n] := by
  induction h generalizing k g with
  | nil => exact ⟨g, rfl, rfl, fun _ _ => rfl, fun _ _ => rfl, fun n hn => by simp at hn⟩
  | @cons v w args ws hv _ ih =>
    rw [List.length_cons] at hk
    have hreg : Reg.ofIndex (16 + k) = some (.a ⟨k, by omega⟩) := by
      have h1 : ¬16 + k < 16 := by omega
      have h2 : 16 + k - 16 < 16 := by omega
      rw [Reg.ofIndex, dif_neg h1, dif_pos h2]
      simp
    obtain ⟨g', hg, hnargs, hother, hbefore, hargs⟩ :=
      ih (k := k + 1) (g := g.setValue (.a ⟨k, by omega⟩) w) (by omega)
    have hset : (g.setValue (.a ⟨k, by omega⟩) w).regfile =
        Function.update g.regfile (.a ⟨k, by omega⟩) w := by
      rw [RegFile.setValue, if_neg (by simp)]
    refine ⟨g', ?_, ?_, fun reg h => ?_, fun i hi => ?_, fun n hn => ?_⟩
    · rw [setupArgs, hv]
      simp only [bind, Except.bind, hreg]
      exact hg
    · rw [hnargs, RegFile.setValue, if_neg (by simp)]
    · rw [hother reg h, hset, Function.update_of_ne (h _)]
    · rw [hbefore i (by omega), hset, Function.update_of_ne]
      intro heq
      have hval := congrArg Fin.val (Reg.a.inj heq)
      simp only at hval
      omega
    · cases n with
      | zero =>
        have hlast := hbefore ⟨k, by omega⟩ (by simp)
        rw [hset, Function.update_self] at hlast
        exact hlast
      | succ n =>
        have hrest := hargs n (by simpa using hn)
        rw [List.getElem_cons_succ, ← hrest]
        congr 2
        apply Fin.ext
        show k + (n + 1) = k + 1 + n
        omega

/-- The step into a callee. -/
theorem step_call {lhs : Reg} {fname : Text} {args : List Value} {ws : List Word} {callee : Function}
    {node : Node} {p' : ℕ} (hnode : P.nodes[p]? = some node) (hstmt : node.stmt = .call lhs fname args)
    (hcallee : P.getFunction fname = some callee) (hnargs : callee.nargs = ws.length)
    (hargs : List.Forall₂ (fun v w => v.getValue s.regfile = .ok w) args ws) (hlen : ws.length ≤ 16)
    (hfirst : callee.getFirstBB = some p') :
    ∃ g, step calloc P ⟨f, some p, frames, s⟩ = .inl ⟨callee, some p',
        ⟨f, lhs, node.next, s.regfile⟩ :: frames,
        { s with regfile := g, cost := s.cost + (Cost.call + callee.nargs * Cost.perArg) }⟩ ∧
      g.nargs = ws.length ∧ g.regfile .sp = s.regfile.regfile .sp ∧
      ∀ (n : ℕ) (hn : n < ws.length), g.regfile (.a ⟨n, by omega⟩) = ws[n] := by
  obtain ⟨g, hg, hgn, hother, -, hgargs⟩ :=
    setupArgs_ok (k := 0) (g := s.regfile.setNargs callee.nargs) hargs (by omega)
  refine ⟨g, ?_, hgn.trans hnargs, hother .sp (by simp), fun n hn => ?_⟩
  · have hcurr : ((some p).bind fun p => P.nodes[p]?) = some node := hnode
    have hcount : ¬callee.nargs ≠ args.length := by
      rw [not_not, hnargs, hargs.length_eq]
    unfold step
    dsimp only
    rw [hcurr]
    dsimp only
    rw [hstmt]
    dsimp only
    unfold Config.call
    rw [hcallee]
    dsimp only
    rw [if_neg hcount, show setupArgs s.regfile 16 args _ = .ok g from hg]
    dsimp only
    unfold enter
    rw [hfirst]
  · have hn' := hgargs n hn
    rw [← hn']
    congr 2
    apply Fin.ext
    show n = 0 + n
    omega

/-- The step back to the caller. -/
theorem step_ret {v : Value} {w : Word} {q : ℕ} {frame : Frame} {g : RegFile} {callee : Function}
    (h : P.Chain q [.ret v]) (hv : v.getValue s.regfile = .ok w)
    (hg : frame.old.writeReg frame.lhs w = .ok g) :
    step calloc P ⟨callee, some q, frame :: frames, s⟩ =
      .inl ⟨frame.function, frame.next, frames,
        { s with regfile := g, cost := s.cost + Cost.terminator }⟩ := by
  obtain ⟨node, hnode, hstmt, -⟩ := Program.chain_cons_iff.mp h
  have hcurr : ((some q).bind fun p => P.nodes[p]?) = some node := hnode
  unfold step
  dsimp only
  rw [hcurr]
  dsimp only
  rw [hstmt]
  dsimp only
  rw [hv]
  dsimp only
  unfold Config.ret
  dsimp only
  rw [hg]

/-- The end of the execution, when nothing waits. -/
theorem step_return {v : Value} {w : Word} {q : ℕ} (h : P.Chain q [.ret v])
    (hv : v.getValue s.regfile = .ok w) :
    step calloc P ⟨f, some q, [], s⟩ =
      .inr (.returned w, { s with cost := s.cost + Cost.terminator }) := by
  obtain ⟨node, hnode, hstmt, -⟩ := Program.chain_cons_iff.mp h
  have hcurr : ((some q).bind fun p => P.nodes[p]?) = some node := hnode
  unfold step
  dsimp only
  rw [hcurr]
  dsimp only
  rw [hstmt]
  dsimp only
  rw [hv]
  rfl

/-- The jump to a block. -/
theorem step_jump {bb : Text} {q : ℕ} (hbb : f.getBB bb = some q)
    (h : P.Chain p (stmt :: rest))
    (hstmt : stmt = .brUncond bb ∨
      (∃ v w t e, stmt = .brCond v t e ∧ v.getValue s.regfile = .ok w ∧ bb = if w ≠ 0 then t else e) ∨
      ∃ v w cases d, stmt = .switch v cases d ∧ v.getValue s.regfile = .ok w ∧
        bb = switchBB cases d w) :
    step calloc P ⟨f, some p, frames, s⟩ =
      .inl ⟨f, some q, frames, { s with cost := s.cost + Cost.terminator }⟩ := by
  obtain ⟨node, hnode, hnodestmt, -⟩ := Program.chain_cons_iff.mp h
  have hcurr : ((some p).bind fun p => P.nodes[p]?) = some node := hnode
  unfold step
  dsimp only
  rw [hcurr]
  dsimp only
  rw [hnodestmt]
  obtain rfl | ⟨v, w, t, e, rfl, hv, rfl⟩ | ⟨v, w, cases, d, rfl, hv, rfl⟩ := hstmt
  · dsimp only
    unfold Config.jump
    rw [hbb]
  · dsimp only
    rw [hv]
    dsimp only
    unfold Config.jump
    rw [hbb]
  · dsimp only
    rw [hv]
    dsimp only
    unfold Config.jump
    rw [hbb]

end Places

end SwppCompiler.Interp
