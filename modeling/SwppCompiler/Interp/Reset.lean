import SwppCompiler.Interp.Execution

/-!
# Resets cost, and nothing else

`ResetPointer` (`src/passes/ResetPointer.cpp`, lines 60–100) inserts `reset stack` and `reset heap`
before statements. They move the head of the memory, and the head only decides what accesses cost.

* `Stmt.exec_related`: what a statement does depends on neither the head nor the cost.
* `reset_costOnly`: wherever resets are inserted, the program ends in the same way.
-/

namespace SwppCompiler.Interp

open Lib

/-- The memories differ in the head at most. -/
structure Memory.SameBytes (m m' : Memory) : Prop where
  stack : m'.stack = m.stack
  heap : m'.heap = m.heap
  contents : m'.contents = m.contents
  allocedSize : m'.allocedSize = m.allocedSize
  maxAllocedSize : m'.maxAllocedSize = m.maxAllocedSize

/-- The states differ in the head and the cost at most. -/
structure State.SameButCost (s s' : State) : Prop where
  regfile : s'.regfile = s.regfile
  memory : s.memory.SameBytes s'.memory
  input : s'.input = s.input
  output : s'.output = s.output

/-! ## Operations of the memory -/

section

variable {m m' : Memory}

/-- A memory is the other one with its own head. -/
theorem Memory.SameBytes.eq (h : m.SameBytes m') : m' = { m with head := m'.head } := by
  obtain ⟨h1, h2, h3, h4, h5⟩ := h
  cases m'
  cases m
  simp only at h1 h2 h3 h4 h5
  rw [h1, h2, h3, h4, h5]

theorem Memory.SameBytes.head (h : Word) (m : Memory) : m.SameBytes { m with head := h } :=
  ⟨rfl, rfl, rfl, rfl, rfl⟩

theorem Memory.SameBytes.execLoad (h : m.SameBytes m') (size : MSize) (addr : Word) :
    ExceptRel (fun r r' => r'.1 = r.1 ∧ r.2.2.SameBytes r'.2.2) (m.execLoad size addr)
      (m'.execLoad size addr) := by
  rw [h.eq]
  unfold Memory.execLoad
  split_ifs
  · show ExceptRel _ (m.loadStack size addr >>= _) (m.loadStack size addr >>= _)
    cases m.loadStack size addr with
    | error e => exact .error e
    | ok w => exact .ok ⟨rfl, .head addr _⟩
  · show ExceptRel _ (m.loadHeap size addr >>= _) (m.loadHeap size addr >>= _)
    cases m.loadHeap size addr with
    | error e => exact .error e
    | ok w => exact .ok ⟨rfl, .head addr _⟩
  · exact .error _
  · exact .error _

theorem Memory.SameBytes.execStore (h : m.SameBytes m') (size : MSize) (addr val : Word) :
    ExceptRel (fun r r' => r.2.SameBytes r'.2) (m.execStore size addr val)
      (m'.execStore size addr val) := by
  rw [h.eq]
  unfold Memory.execStore
  split_ifs
  · unfold Memory.storeStack
    cases storeLittleEndian stackMax m.stack size addr.toNat val with
    | error e => exact .error e
    | ok stack => exact .ok (.head addr _)
  · unfold Memory.storeHeap
    have hfind : Memory.findBlock { m with head := m'.head } addr = m.findBlock addr := rfl
    rw [hfind]
    cases m.findBlock addr with
    | error e => exact .error e
    | ok b =>
      show ExceptRel _ ((storeLittleEndian _ (m.contents b) _ _ _ >>= _) >>= _)
        ((storeLittleEndian _ (m.contents b) _ _ _ >>= _) >>= _)
      cases storeLittleEndian (b.hi - b.lo) (m.contents b) size (addr.toNat - b.lo) val with
      | error e => exact .error e
      | ok bytes => exact .ok (.head addr _)
  · exact .error _
  · exact .error _

theorem Memory.SameBytes.execMalloc (h : m.SameBytes m') (calloc : Heap → Word → Bool)
    (size : Word) :
    ExceptRel (fun r r' => r'.1 = r.1 ∧ r.2.2.SameBytes r'.2.2) (m.execMalloc calloc size)
      (m'.execMalloc calloc size) := by
  rw [h.eq]
  unfold Memory.execMalloc
  by_cases h0 : size = 0
  · rw [if_pos h0, if_pos h0]
    exact .error _
  by_cases h8 : size.toNat % 8 ≠ 0
  · rw [if_neg h0, if_pos h8, if_neg h0, if_pos h8]
    exact .error _
  rw [if_neg h0, if_neg h8, if_neg h0, if_neg h8]
  cases m.heap.execMalloc size.toNat with
  | none => exact .error _
  | some q =>
    simp only
    split_ifs
    · exact .ok ⟨rfl, rfl, rfl, rfl, rfl, rfl⟩
    · exact .ok ⟨rfl, rfl, rfl, rfl, rfl, rfl⟩
    · exact .error _

theorem Memory.SameBytes.execFree (h : m.SameBytes m') (addr : Word) :
    ExceptRel (fun r r' => r.2.SameBytes r'.2) (m.execFree addr) (m'.execFree addr) := by
  rw [h.eq]
  unfold Memory.execFree
  simp only
  split
  · exact .ok ⟨rfl, rfl, rfl, rfl, rfl⟩
  · exact .error _

end

/-! ## Statements -/

/-- Programs that depend on neither the head nor the cost. -/
abbrev RelatedExec {α β : Type} (R : α → β → Prop) (m : Exec α) (m' : Exec β) : Prop :=
  Related State.SameButCost R m m'

theorem related_look {α β : Type} {R : α → β → Prop} {f : State → Except Stop α}
    {f' : State → Except Stop β} (h : ∀ s s', s.SameButCost s' → ExceptRel R (f s) (f' s')) :
    RelatedExec R (look f) (look f') := by
  intro s s' hs
  rw [run_look, run_look]
  exact ⟨h s s' hs, hs⟩

theorem related_getValue (v : Value) : RelatedExec Eq (getValue v) (getValue v) :=
  related_look fun s s' hs => by
    rw [hs.regfile]
    cases v.getValue s.regfile with
    | error e => exact .error e
    | ok w => exact .ok rfl

theorem related_modify {f f' : State → State}
    (h : ∀ s s', s.SameButCost s' → (f s).SameButCost (f' s')) :
    RelatedExec Eq (modify f : Exec Unit) (modify f') := fun s s' hs => ⟨.ok rfl, h s s' hs⟩

theorem related_addCost (c c' : ℚ) : RelatedExec Eq (addCost c) (addCost c') :=
  related_modify fun _ _ hs => ⟨hs.regfile, hs.memory, hs.input, hs.output⟩

theorem related_setMemory {m m' : Memory} (h : m.SameBytes m') :
    RelatedExec Eq (setMemory m) (setMemory m') :=
  related_modify fun _ _ hs => ⟨hs.regfile, h, hs.input, hs.output⟩

theorem related_writeReg (reg : Reg) (val : Word) :
    RelatedExec Eq (writeReg reg val) (writeReg reg val) := by
  refine Related.bind (R := Eq) (related_look fun s s' hs => ?_) fun f f' hf =>
    related_modify fun _ _ hs => ?_
  · rw [hs.regfile]
    cases s.regfile.writeReg reg val with
    | error e => exact .error e
    | ok f => exact .ok rfl
  · exact ⟨hf.symm, hs.memory, hs.input, hs.output⟩

/-- What a statement does depends on neither the head nor the cost. -/
theorem Stmt.exec_related (calloc : Heap → Word → Bool) (stmt : Stmt) :
    RelatedExec Eq (stmt.exec calloc) (stmt.exec calloc) := by
  cases stmt with
  | malloc lhs val =>
    refine (related_getValue val).bind ?_
    rintro size _ rfl
    refine Related.bind (related_look fun s s' hs => hs.memory.execMalloc calloc size) ?_
    rintro ⟨_, cost, m⟩ ⟨addr, cost', m'⟩ ⟨rfl, hm⟩
    refine (related_setMemory hm).bind fun _ _ _ => ?_
    exact (related_writeReg lhs addr).bind fun _ _ _ => related_addCost cost cost'
  | free ptr =>
    refine (related_getValue ptr).bind ?_
    rintro addr _ rfl
    refine Related.bind (related_look fun s s' hs => hs.memory.execFree addr) ?_
    rintro ⟨cost, m⟩ ⟨cost', m'⟩ hm
    exact (related_setMemory hm).bind fun _ _ _ => related_addCost cost cost'
  | load lhs size ptr ofs =>
    refine (related_getValue ptr).bind ?_
    rintro addr _ rfl
    refine Related.bind (related_look fun s s' hs => hs.memory.execLoad size (addr + ofs)) ?_
    rintro ⟨_, cost, m⟩ ⟨result, cost', m'⟩ ⟨rfl, hm⟩
    refine (related_setMemory hm).bind fun _ _ _ => ?_
    exact (related_writeReg lhs result).bind fun _ _ _ => related_addCost cost cost'
  | store size val ptr ofs =>
    refine (related_getValue ptr).bind ?_
    rintro addr _ rfl
    refine (related_getValue val).bind ?_
    rintro v _ rfl
    refine Related.bind (related_look fun s s' hs => hs.memory.execStore size (addr + ofs) v) ?_
    rintro ⟨cost, m⟩ ⟨cost', m'⟩ hm
    exact (related_setMemory hm).bind fun _ _ _ => related_addCost cost cost'
  | resetStack => exact fun s s' hs => ⟨.ok rfl, hs.regfile, ⟨hs.memory.stack, hs.memory.heap,
      hs.memory.contents, hs.memory.allocedSize, hs.memory.maxAllocedSize⟩, hs.input, hs.output⟩
  | resetHeap => exact fun s s' hs => ⟨.ok rfl, hs.regfile, ⟨hs.memory.stack, hs.memory.heap,
      hs.memory.contents, hs.memory.allocedSize, hs.memory.maxAllocedSize⟩, hs.input, hs.output⟩
  | bop lhs kind val1 val2 size =>
    refine (related_getValue val1).bind ?_
    rintro op1 _ rfl
    refine (related_getValue val2).bind ?_
    rintro op2 _ rfl
    refine Related.bind (R := Eq) (related_look fun s s' hs => ?_) ?_
    · cases computeStop kind size op1 op2 with
      | error e => exact .error e
      | ok w => exact .ok rfl
    · rintro res _ rfl
      exact (related_writeReg lhs res).bind fun _ _ _ => related_addCost _ _
  | select lhs cond valTrue valFalse =>
    refine (related_getValue cond).bind ?_
    rintro vCond _ rfl
    refine (related_getValue valTrue).bind ?_
    rintro vTrue _ rfl
    refine (related_getValue valFalse).bind ?_
    rintro vFalse _ rfl
    exact (related_writeReg lhs _).bind fun _ _ _ => related_addCost _ _
  | assert op1 op2 =>
    refine (related_getValue op1).bind ?_
    rintro val1 _ rfl
    refine (related_getValue op2).bind ?_
    rintro val2 _ rfl
    split_ifs
    · exact related_addCost _ _
    · exact .throw _
  | read lhs =>
    refine Related.bind (R := Eq) (related_look fun s s' hs => ?_) ?_
    · rw [hs.input]
      exact .ok rfl
    · rintro ⟨token, input⟩ _ rfl
      refine Related.bind (R := Eq) (related_modify fun _ _ hs => ?_) fun _ _ _ => ?_
      · exact ⟨hs.regfile, hs.memory, rfl, hs.output⟩
      · cases stoull token with
        | none => exact .throw _
        | some result => exact (related_writeReg lhs result).bind fun _ _ _ => related_addCost _ _
  | write lhs val =>
    refine (related_getValue val).bind ?_
    rintro result _ rfl
    refine Related.bind (R := Eq) (related_modify fun _ _ hs => ?_) fun _ _ _ => ?_
    · exact ⟨hs.regfile, hs.memory, hs.input, by rw [hs.output]⟩
    · exact (related_writeReg lhs 0).bind fun _ _ _ => related_addCost _ _
  | ret | brUncond | brCond | switch | call => exact .pure rfl

/-! ## Programs with resets inserted -/

/-- Resets are inserted before statements. -/
inductive Inserted : List Stmt → List Stmt → Prop
  | nil : Inserted [] []
  | keep {l l' : List Stmt} (stmt : Stmt) (h : Inserted l l') : Inserted (stmt :: l) (stmt :: l')
  | reset {r stmt : Stmt} {l l' : List Stmt} (hr : r = .resetStack ∨ r = .resetHeap)
      (h : Inserted (stmt :: l) l') : Inserted (stmt :: l) (r :: l')

/-- The statements from `p` on in `P`, with resets inserted, are those from `p'` on in `P'`. -/
def InsertedAt (P P' : Program) (p p' : ℕ) : Prop :=
  ∃ l l', P.Chain p l ∧ P'.Chain p' l' ∧ Inserted l l'

/-- The blocks of `f`, with resets inserted, are those of `f'`. -/
structure FunctionInserts (P P' : Program) (f f' : Function) : Prop where
  fname : f'.fname = f.fname
  nargs : f'.nargs = f.nargs
  firstBB : f'.firstBB = f.firstBB
  blocks : ∀ bb, Option.Rel (InsertedAt P P') (f.getBB bb) (f'.getBB bb)

/-- `P'` is `P` with resets inserted. -/
def Inserts (P P' : Program) : Prop :=
  List.Forall₂ (FunctionInserts P P') P.functions P'.functions

/-- Frames that wait for related calls. -/
structure FrameRel (P P' : Program) (c c' : Frame) : Prop where
  function : FunctionInserts P P' c.function c'.function
  lhs : c'.lhs = c.lhs
  next : Option.Rel (InsertedAt P P') c.next c'.next
  old : c'.old = c.old

/-- Executions at related statements, in states that differ in the head and the cost. -/
structure ConfigRel (P P' : Program) (c c' : Config) : Prop where
  function : FunctionInserts P P' c.function c'.function
  curr : Option.Rel (InsertedAt P P') c.curr c'.curr
  frames : List.Forall₂ (FrameRel P P') c.frames c'.frames
  state : c.state.SameButCost c'.state

/-- One outcome, in states that differ in the head and the cost. -/
def ResultRel (r r' : Outcome × State) : Prop := r'.1 = r.1 ∧ r.2.SameButCost r'.2

section

variable {P P' : Program} {c c' : Config} {calloc : Heap → Word → Bool}

/-- Either related executions, or related results. -/
abbrev StepRel (P P' : Program) :
    Config ⊕ (Outcome × State) → Config ⊕ (Outcome × State) → Prop :=
  Sum.LiftRel (ConfigRel P P') ResultRel

theorem State.SameButCost.cost {s s' : State} (h : s.SameButCost s') (a b : ℚ) :
    State.SameButCost { s with cost := a } { s' with cost := b } :=
  ⟨h.regfile, h.memory, h.input, h.output⟩

theorem State.SameButCost.regfile_cost {s s' : State} (h : s.SameButCost s') (f : RegFile)
    (a b : ℚ) :
    State.SameButCost { s with regfile := f, cost := a } { s' with regfile := f, cost := b } :=
  ⟨rfl, h.memory, h.input, h.output⟩

theorem stopped_rel {s s' : State} (h : s.SameButCost s') (e : Stop) :
    StepRel P P' (.inr (.stopped e, s)) (.inr (.stopped e, s')) := .inr ⟨rfl, h⟩

theorem ConfigRel.jump (h : ConfigRel P P' c c') (bb : Text) :
    StepRel P P' (c.jump bb) (c'.jump bb) := by
  have hbb := h.function.blocks bb
  unfold Config.jump
  generalize c.function.getBB bb = p at hbb
  generalize c'.function.getBB bb = p' at hbb
  cases hbb with
  | none => exact stopped_rel h.state _
  | some hp => exact .inl ⟨h.function, .some hp, h.frames, h.state.cost _ _⟩

theorem enter_rel {f f' : Function} {frames frames' : List Frame} {s s' : State}
    (hf : FunctionInserts P P' f f') (hframes : List.Forall₂ (FrameRel P P') frames frames')
    (hs : s.SameButCost s') : StepRel P P' (enter f frames s) (enter f' frames' s') := by
  have hbb := hf.blocks f.firstBB
  unfold enter Function.getFirstBB
  rw [hf.firstBB]
  generalize f.getBB f.firstBB = p at hbb
  generalize f'.getBB f.firstBB = p' at hbb
  cases hbb with
  | none => exact stopped_rel hs _
  | some hp => exact .inl ⟨hf, .some hp, hframes, hs⟩

theorem ConfigRel.ret (h : ConfigRel P P' c c') (val : Word) :
    StepRel P P' (c.ret val) (c'.ret val) := by
  have hframes := h.frames
  unfold Config.ret
  generalize c.frames = fs at hframes
  generalize c'.frames = fs' at hframes
  cases hframes with
  | nil => exact .inr ⟨rfl, h.state.cost _ _⟩
  | @cons fr fr' fs fs' hfr hrest =>
    simp only
    rw [hfr.old, hfr.lhs]
    cases fr.old.writeReg fr.lhs val with
    | error e => exact stopped_rel (h.state.regfile_cost _ _ _) e
    | ok f => exact .inl ⟨hfr.function, hfr.next, hrest, h.state.regfile_cost _ _ _⟩

theorem Inserts.getFunction (hP : Inserts P P') (fname : Text) :
    Option.Rel (FunctionInserts P P') (P.getFunction fname) (P'.getFunction fname) := by
  have hfind : ∀ {fs fs' : List Function}, List.Forall₂ (FunctionInserts P P') fs fs' →
      Option.Rel (FunctionInserts P P') (fs.find? fun f => f.fname = fname)
        (fs'.find? fun f => f.fname = fname) := by
    intro fs fs' h
    induction h with
    | nil => exact .none
    | @cons f f' fs fs' hf _ ih =>
      rw [List.find?_cons, List.find?_cons, hf.fname]
      cases decide (f.fname = fname) with
      | true => exact .some hf
      | false => exact ih
  exact hfind hP

theorem ConfigRel.call (hP : Inserts P P') (h : ConfigRel P P' c c') {next next' : Option ℕ}
    (hnext : Option.Rel (InsertedAt P P') next next') (lhs : Reg) (fname : Text)
    (args : List Value) :
    StepRel P P' (c.call P next lhs fname args) (c'.call P' next' lhs fname args) := by
  have hfun := hP.getFunction fname
  unfold Config.call
  generalize P.getFunction fname = f at hfun
  generalize P'.getFunction fname = f' at hfun
  cases hfun with
  | none => exact stopped_rel h.state _
  | some hf =>
    simp only
    rw [hf.nargs, h.state.regfile]
    split_ifs
    · exact stopped_rel h.state _
    · cases setupArgs c.state.regfile 16 args (c.state.regfile.setNargs _) with
      | error e => exact stopped_rel h.state _
      | ok g =>
        refine enter_rel hf (.cons ⟨h.function, rfl, hnext, rfl⟩ h.frames) ?_
        exact h.state.regfile_cost g _ _

theorem ConfigRel.getValue (h : ConfigRel P P' c c') (v : Value)
    {k k' : Word → Config ⊕ (Outcome × State)} (hk : ∀ w, StepRel P P' (k w) (k' w)) :
    StepRel P P'
      (match v.getValue c.state.regfile with
        | .error e => .inr (.stopped e, c.state)
        | .ok w => k w)
      (match v.getValue c'.state.regfile with
        | .error e => .inr (.stopped e, c'.state)
        | .ok w => k' w) := by
  rw [h.state.regfile]
  cases v.getValue c.state.regfile with
  | error e => exact stopped_rel h.state e
  | ok w => exact hk w

theorem ConfigRel.exec (h : ConfigRel P P' c c') (calloc : Heap → Word → Bool) (stmt : Stmt)
    {next next' : Option ℕ} (hnext : Option.Rel (InsertedAt P P') next next') :
    StepRel P P'
      (match (stmt.exec calloc).run c.state with
        | (.error e, s) => .inr (.stopped e, s)
        | (.ok _, s) => .inl { c with curr := next, state := s })
      (match (stmt.exec calloc).run c'.state with
        | (.error e, s) => .inr (.stopped e, s)
        | (.ok _, s) => .inl { c' with curr := next', state := s }) := by
  obtain ⟨hres, hs⟩ := stmt.exec_related calloc c.state c'.state h.state
  generalize (stmt.exec calloc).run c.state = r at hres hs
  generalize (stmt.exec calloc).run c'.state = r' at hres hs
  obtain ⟨r, s⟩ := r
  obtain ⟨r', s'⟩ := r'
  simp only at hres hs
  cases hres with
  | ok _ => exact .inl ⟨h.function, hnext, h.frames, hs⟩
  | error e => exact stopped_rel hs e

/-- The statements are the same, and what follows is related. -/
theorem ConfigRel.sameStmt (hP : Inserts P P') (h : ConfigRel P P' c c') {p p' : ℕ}
    {node node' : Node} (hc : c.curr = some p) (hc' : c'.curr = some p')
    (hp : P.nodes[p]? = some node) (hp' : P'.nodes[p']? = some node')
    (hstmt : node'.stmt = node.stmt)
    (hnext : Option.Rel (InsertedAt P P') node.next node'.next) :
    StepRel P P' (step calloc P c) (step calloc P' c') := by
  unfold step
  rw [hc, hc', Option.bind_some, Option.bind_some, hp, hp']
  simp only
  rw [hstmt]
  have hexec := h.exec calloc node.stmt hnext
  cases hcase : node.stmt with
  | ret val => exact h.getValue val fun w => h.ret w
  | brUncond bb => exact h.jump bb
  | brCond cond trueBB falseBB => exact h.getValue cond fun w => h.jump _
  | switch cond bbMap defaultBB => exact h.getValue cond fun w => h.jump _
  | call lhs fname args => exact h.call hP hnext lhs fname args
  | malloc | free | load | store | resetStack | resetHeap | bop | select | assert | read | write =>
    rw [hcase] at hexec
    exact hexec

theorem Inserted.ne_nil {stmt : Stmt} {l l' : List Stmt} (h : Inserted (stmt :: l) l') :
    l' ≠ [] := by
  cases h <;> exact List.cons_ne_nil _ _

/-- A reset moves the head, at a cost. -/
theorem exec_reset (calloc : Heap → Word → Bool) {r : Stmt}
    (hr : r = .resetStack ∨ r = .resetHeap) {s s' : State}
    (hs : s.SameButCost s') :
    ∃ s'', (r.exec calloc).run s' = (.ok (), s'') ∧ s.SameButCost s'' := by
  have hmem : ∀ h : Word, s.memory.SameBytes { s'.memory with head := h } := fun h =>
    ⟨hs.memory.stack, hs.memory.heap, hs.memory.contents, hs.memory.allocedSize,
      hs.memory.maxAllocedSize⟩
  rcases hr with rfl | rfl
  · exact ⟨_, rfl, hs.regfile, hmem _, hs.input, hs.output⟩
  · exact ⟨_, rfl, hs.regfile, hmem _, hs.input, hs.output⟩

/-- The second execution makes a reset, and is still related to the first one. -/
theorem ConfigRel.reset {r stmt : Stmt} {l l' : List Stmt} {p p' : ℕ}
    (hr : r = .resetStack ∨ r = .resetHeap) (h : ConfigRel P P' c c') (hc : c.curr = some p)
    (hc' : c'.curr = some p') (hl : P.Chain p (stmt :: l)) (hl' : P'.Chain p' (r :: l'))
    (hins : Inserted (stmt :: l) l') :
    ∃ q c'', P'.Chain q l' ∧ step calloc P' c' = .inl c'' ∧ ConfigRel P P' c c'' ∧
      c''.curr = some q := by
  obtain ⟨s, hrun, hs⟩ := exec_reset calloc hr h.state
  obtain ⟨node, hnode, hstmt, hend | ⟨q, hn, hq⟩⟩ := Program.chain_cons_iff.mp hl'
  · exact absurd hend.2 hins.ne_nil
  · refine ⟨q, { c' with curr := node.next, state := s }, hq, ?_, ?_, hn⟩
    · unfold step
      rw [hc', Option.bind_some, hnode]
      rcases hr with hr | hr
      · simp only [hstmt, hr]
        rw [← hr, hrun]
      · simp only [hstmt, hr]
        rw [← hr, hrun]
    · refine ⟨h.function, ?_, h.frames, hs⟩
      rw [hc, hn]
      exact .some ⟨_, _, hl, hq, hins⟩

/-- At a statement, the second execution makes a reset or the same step. -/
theorem ConfigRel.step (hP : Inserts P P') {p p' : ℕ} {l l' : List Stmt} (hl : P.Chain p l)
    (hl' : P'.Chain p' l') (hins : Inserted l l') (h : ConfigRel P P' c c') (hc : c.curr = some p)
    (hc' : c'.curr = some p') (calloc : Heap → Word → Bool) :
    (∃ q c'' l'', P'.Chain q l'' ∧ l''.length < l'.length ∧ Inserted l l'' ∧
      Interp.step calloc P' c' = .inl c'' ∧ ConfigRel P P' c c'' ∧ c''.curr = some q) ∨
    StepRel P P' (Interp.step calloc P c) (Interp.step calloc P' c') := by
  cases hins with
  | nil => cases hl
  | keep stmt hins =>
    refine Or.inr ?_
    obtain ⟨node, hn, rfl, hrest⟩ := Program.chain_cons_iff.mp hl
    obtain ⟨node', hn', hstmt, hrest'⟩ := Program.chain_cons_iff.mp hl'
    refine h.sameStmt hP hc hc' hn hn' hstmt ?_
    rcases hrest with ⟨hnext, rfl⟩ | ⟨q, hnext, hq⟩
    · cases hins
      rcases hrest' with ⟨hnext', -⟩ | ⟨q', -, hq'⟩
      · rw [hnext, hnext']
        exact .none
      · cases hq'
    · rcases hrest' with ⟨-, rfl⟩ | ⟨q', hnext', hq'⟩
      · cases hins
        cases hq
      · rw [hnext, hnext']
        exact .some ⟨_, _, hq, hq', hins⟩
  | reset hr hins =>
    obtain ⟨q, d, hq, hstep, hrel, hd⟩ := h.reset hr hc hc' hl hl' hins
    exact Or.inl ⟨q, d, _, hq, Nat.lt_succ_self _, hins, hstep, hrel, hd⟩

/-- Before each statement the second execution makes the resets that are inserted there. -/
theorem ConfigRel.catchUp (hP : Inserts P P') {p p' : ℕ} {l l' : List Stmt} (hl : P.Chain p l)
    (hl' : P'.Chain p' l') (hins : Inserted l l') (h : ConfigRel P P' c c') (hc : c.curr = some p)
    (hc' : c'.curr = some p') :
    ∃ c'', Star (Interp.step calloc P') c' c'' ∧
      StepRel P P' (Interp.step calloc P c) (Interp.step calloc P' c'') := by
  induction hn : l'.length using Nat.strong_induction_on generalizing p' c' l' with
  | _ n ih =>
    rcases h.step hP hl hl' hins hc hc' calloc with ⟨q, d, l'', hq, hlt, hins', hstep, hrel, hd⟩ | hfinal
    · obtain ⟨c'', hstar, hfinal⟩ := ih _ (hn ▸ hlt) hq hins' hrel hd rfl
      exact ⟨c'', .next hstep hstar, hfinal⟩
    · exact ⟨c', .refl, hfinal⟩

/-- Related executions are at related statements, or both at the null pointer. -/
theorem ConfigRel.curr_cases (h : ConfigRel P P' c c') (calloc : Heap → Word → Bool) :
    (∃ p p' l l', c.curr = some p ∧ c'.curr = some p' ∧ P.Chain p l ∧ P'.Chain p' l' ∧
      Inserted l l') ∨
    StepRel P P' (Interp.step calloc P c) (Interp.step calloc P' c') := by
  have hcurr := h.curr
  cases hc : c.curr with
  | none =>
    cases hc' : c'.curr with
    | none =>
      refine Or.inr ?_
      unfold Interp.step
      rw [hc, hc']
      exact .inr ⟨rfl, h.state⟩
    | some p' => rw [hc, hc'] at hcurr; cases hcurr
  | some p =>
    cases hc' : c'.curr with
    | none => rw [hc, hc'] at hcurr; cases hcurr
    | some p' =>
      rw [hc, hc'] at hcurr
      cases hcurr with
      | some hp =>
        obtain ⟨l, l', hl, hl', hins⟩ := hp
        exact Or.inl ⟨p, p', l, l', rfl, rfl, hl, hl', hins⟩

theorem simulates (hP : Inserts P P') (calloc : Heap → Word → Bool) :
    Simulates (step calloc P) (step calloc P') (ConfigRel P P') ResultRel := by
  intro c c' h
  rcases h.curr_cases calloc with ⟨p, p', l, l', hc, hc', hl, hl', hins⟩ | hfinal
  · exact h.catchUp hP hl hl' hins hc hc'
  · exact ⟨c', .refl, hfinal⟩

theorem follows (hP : Inserts P P') (calloc : Heap → Word → Bool) :
    Follows (step calloc P) (step calloc P') (ConfigRel P P') := by
  intro c c' d' h hstep
  have hfinal : StepRel P P' (step calloc P c) (step calloc P' c') →
      ∃ d, step calloc P c = .inl d ∧ ConfigRel P P' d d' := by
    intro hrel
    rw [hstep] at hrel
    cases hc : step calloc P c with
    | inl d =>
      rw [hc] at hrel
      cases hrel with
      | inl h => exact ⟨d, rfl, h⟩
    | inr r => rw [hc] at hrel; cases hrel
  rcases h.curr_cases calloc with ⟨p, p', l, l', hc, hc', hl, hl', hins⟩ | hrel
  · rcases h.step hP hl hl' hins hc hc' calloc with
      ⟨q, d, l'', -, -, -, hstep', hrel, -⟩ | hrel
    · rw [hstep] at hstep'
      cases hstep'
      exact Or.inl hrel
    · exact Or.inr (hfinal hrel)
  · exact Or.inr (hfinal hrel)

theorem start_rel (hP : Inserts P P') (input : List Text) :
    StepRel P P' (start P input) (start P' input) := by
  have hsame : (State.init input).SameButCost (State.init input) :=
    ⟨rfl, ⟨rfl, rfl, rfl, rfl, rfl⟩, rfl, rfl⟩
  have hfun := hP.getFunction "main".toList
  unfold start
  generalize P.getFunction "main".toList = f at hfun
  generalize P'.getFunction "main".toList = f' at hfun
  cases hfun with
  | none => exact stopped_rel hsame _
  | some hf => exact enter_rel hf .nil hsame

/-- **Resets are cost-only.** Wherever resets are inserted, on every input the program ends iff the
    original one ends, with the same outcome and the same output, registers, stack bytes, heap bytes
    and allocator state. On the way the two reach the same states, up to the head and the cost. -/
theorem reset_costOnly (hP : Inserts P P') (calloc : Heap → Word → Bool) (input : List Text) :
    (∀ o s, P.Ends calloc input o s → ∃ s', P'.Ends calloc input o s' ∧ s.SameButCost s') ∧
    (∀ o s', P'.Ends calloc input o s' → ∃ s, P.Ends calloc input o s ∧ s.SameButCost s') ∧
    (∀ c, P.Reaches calloc input c →
      ∃ c', P'.Reaches calloc input c' ∧ c.state.SameButCost c'.state) ∧
    ∀ c', P'.Reaches calloc input c' →
      ∃ c, P.Reaches calloc input c ∧ c.state.SameButCost c'.state := by
  have hstart := start_rel hP input
  unfold Program.Ends Program.Reaches
  generalize start P input = r at hstart
  generalize start P' input = r' at hstart
  cases hstart with
  | @inr r r' h =>
    obtain ⟨o₁, s₁⟩ := r
    obtain ⟨o₂, s₂⟩ := r'
    obtain ⟨ho, hs⟩ := h
    cases ho
    refine ⟨fun o s heq => ?_, fun o s heq => ?_, fun c hc => ?_, fun c' hc' => ?_⟩
    · cases heq
      exact ⟨s₂, rfl, hs⟩
    · cases heq
      exact ⟨s₁, rfl, hs⟩
    · obtain ⟨c₀, hc₀, -⟩ := hc
      cases hc₀
    · obtain ⟨c₀, hc₀, -⟩ := hc'
      cases hc₀
  | inl h =>
    refine ⟨fun o s hends => ?_, fun o s' hends' => ?_, fun c hc => ?_, fun c' hc' => ?_⟩
    · obtain ⟨⟨o', s'⟩, hends', ho, hs⟩ := halts_of_simulation (simulates hP calloc) h hends
      cases ho
      exact ⟨s', hends', hs⟩
    · obtain ⟨⟨o', s⟩, hends, ho, hs⟩ := halts_of_simulation' (simulates hP calloc) h hends'
      cases ho
      exact ⟨s, hends, hs⟩
    · obtain ⟨c₀, heq, hstar⟩ := hc
      cases heq
      obtain ⟨c', hstar', hrel⟩ := (simulates hP calloc).star h hstar
      exact ⟨c', ⟨_, rfl, hstar'⟩, hrel.state⟩
    · obtain ⟨c₀, heq, hstar⟩ := hc'
      cases heq
      obtain ⟨c, hstar', hrel⟩ := (follows hP calloc).star h hstar
      exact ⟨c, ⟨_, rfl, hstar'⟩, hrel.state⟩

end

/-- A program that stores 5 into a new block and returns what it loads from there. -/
def stores : Program where
  nodes := [⟨3, .malloc (.r 0) (.literal 8), some 1⟩,
    ⟨4, .store .size8 (.literal 5) (.reg (.r 0)) 0, some 2⟩,
    ⟨5, .load (.r 1) .size8 (.reg (.r 0)) 0, some 3⟩, ⟨6, .ret (.reg (.r 1)), none⟩]
  functions := [⟨"main".toList, 0, ".entry".toList, [(".entry".toList, 0)]⟩]

/-- `stores`, with a reset before each of the two accesses. -/
def resets : Program where
  nodes := [⟨3, .malloc (.r 0) (.literal 8), some 1⟩, ⟨4, .resetHeap, some 2⟩,
    ⟨5, .store .size8 (.literal 5) (.reg (.r 0)) 0, some 3⟩, ⟨6, .resetStack, some 4⟩,
    ⟨7, .load (.r 1) .size8 (.reg (.r 0)) 0, some 5⟩, ⟨8, .ret (.reg (.r 1)), none⟩]
  functions := stores.functions

theorem stores_inserts : Inserts stores resets := by
  have hp : stores.Chain 0 _ := .next rfl rfl (.next rfl rfl (.next rfl rfl (.last rfl rfl)))
  have hp' : resets.Chain 0 _ :=
    .next rfl rfl (.next rfl rfl (.next rfl rfl (.next rfl rfl (.next rfl rfl (.last rfl rfl)))))
  have hins : InsertedAt stores resets 0 0 :=
    ⟨_, _, hp, hp', .keep _ (.reset (Or.inr rfl)
      (.keep _ (.reset (Or.inl rfl) (.keep _ (.keep _ .nil)))))⟩
  refine .cons ⟨rfl, rfl, rfl, fun bb => ?_⟩ .nil
  unfold Function.getBB
  cases h : List.lookup bb [(".entry".toList, 0)] with
  | none => exact .none
  | some p =>
    have hp0 : p = 0 := by
      rw [List.lookup_cons] at h
      split at h
      · exact (Option.some.inj h).symm
      · cases h
    exact .some (hp0 ▸ hins)

theorem reset_costOnly_stores : ∃ s, resets.Ends (fun _ _ => true) [] (.returned 5) s := by
  have hends : stores.Ends (fun _ _ => true) [] (.returned 5) _ :=
    ⟨3, .next rfl (.next rfl (.next rfl (.done rfl)))⟩
  obtain ⟨s, hs, -⟩ := (reset_costOnly stores_inserts (fun _ _ => true) []).1 _ _ hends
  exact ⟨s, hs⟩

end SwppCompiler.Interp
