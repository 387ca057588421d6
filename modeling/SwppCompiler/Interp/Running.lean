import SwppCompiler.Interp.Structure
import SwppCompiler.Interp.Undefined

/-!
# Runs of accepted programs

An accepted program ends with a value, or what goes wrong is reported; but for a division of -2^63 by -1
(`interpreter/src/stmt.cpp`, lines 250 and 264) and an access whose end wraps to 0 the behaviour is
undefined.

* `Program.Linked`: in an accepted program the successors of statements lead to a terminator.
* `parse_running`: no run of an accepted program meets the null pointer, and a run that does not
  compute what is undefined in C++ ends with a value or with a report.
-/

namespace SwppCompiler.Interp

open Lib Lib.StateExcept

/-- The successor of the statement at `p`, among `n` statements. -/
def Node.Linked (node : Node) (n p : ℕ) : Prop :=
  if node.stmt.isTerminator then node.next = none else node.next = some (p + 1) ∧ p + 1 < n

/-- Every statement but a terminator has a successor. -/
def Ready (nodes : List Node) : Prop :=
  ∀ (p : ℕ) (node : Node), nodes[p]? = some node → node.Linked nodes.length p

/-- The same, but for the last statement, which waits for its successor. -/
def Waiting (nodes : List Node) : Prop :=
  ∃ l last, nodes = l ++ [last] ∧ last.stmt.isTerminator = false ∧
    ∀ (p : ℕ) (node : Node), l[p]? = some node → node.Linked nodes.length p

/-- A program that `parse` returns. -/
structure Program.Linked (P : Program) : Prop where
  ready : Ready P.nodes
  blocks : ∀ f ∈ P.functions, ∀ e ∈ f.bbMap, e.2 < P.nodes.length
  first : ∀ f ∈ P.functions, (f.getBB f.firstBB).isSome = true
  nargs : ∀ f ∈ P.functions, f.nargs ≤ 16

section

variable {nodes : List Node} {line : ℕ} {stmt : Stmt}

theorem Node.Linked.mono {node : Node} {n m p : ℕ} (h : node.Linked n p) (hle : n ≤ m) :
    node.Linked m p := by
  unfold Node.Linked at h ⊢
  split_ifs at h ⊢ with hterm
  · exact h
  · exact ⟨h.1, h.2.trans_le hle⟩

theorem getElem?_concat_cases {l : List Node} {last node : Node} {p : ℕ}
    (h : (l ++ [last])[p]? = some node) : l[p]? = some node ∨ p = l.length ∧ node = last := by
  rw [List.getElem?_append] at h
  split_ifs at h with hp
  · exact Or.inl h
  · obtain ⟨hlt, heq⟩ := List.getElem?_eq_some_iff.mp h
    have hlen : p - l.length < 1 := hlt
    have hp' : p = l.length := by omega
    subst hp'
    refine Or.inr ⟨rfl, ?_⟩
    simpa using heq.symm

/-- A statement after complete ones. -/
theorem Ready.waiting (h : Ready nodes) (hstmt : stmt.isTerminator = false) :
    Waiting (nodes ++ [⟨line, stmt, none⟩]) :=
  ⟨nodes, _, rfl, hstmt, fun p node hp => (h p node hp).mono (by simp)⟩

theorem ready_concat {l : List Node} (hstmt : stmt.isTerminator = true)
    (h : ∀ (p : ℕ) (node : Node), l[p]? = some node → node.Linked (l.length + 1) p) :
    Ready (l ++ [⟨line, stmt, none⟩]) := by
  intro p node hp
  rw [List.length_append, List.length_singleton]
  rcases getElem?_concat_cases hp with hp | ⟨rfl, rfl⟩
  · exact h p node hp
  · unfold Node.Linked
    rw [if_pos hstmt]

/-- A terminator after complete ones. -/
theorem Ready.ready (h : Ready nodes) (hstmt : stmt.isTerminator = true) :
    Ready (nodes ++ [⟨line, stmt, none⟩]) :=
  ready_concat hstmt fun p node hp => (h p node hp).mono (Nat.le_succ _)

theorem modify_length {l r : List Node} {last : Node} (f : Node → Node) :
    (l ++ last :: r).modify l.length f = l ++ f last :: r := by
  induction l with
  | nil => rfl
  | cons a l ih => exact congrArg (a :: ·) ih

/-- What waited has its successor now. -/
theorem Waiting.linked {p : ℕ} (h : Waiting nodes) (line : ℕ) (stmt : Stmt) (hp : p + 1 = nodes.length) :
    ∃ l : List Node, (nodes ++ [(⟨line, stmt, none⟩ : Node)]).modify p
        (fun n => { n with next := some nodes.length }) = l ++ [⟨line, stmt, none⟩] ∧
      l.length = nodes.length ∧
      ∀ (p : ℕ) (node : Node), l[p]? = some node → node.Linked (l.length + 1) p := by
  obtain ⟨l, last, rfl, hlast, hl⟩ := h
  have hlen : p = l.length := by
    rw [List.length_append, List.length_singleton] at hp
    exact Nat.succ.inj hp
  subst hlen
  refine ⟨l ++ [{ last with next := some (l ++ [last]).length }], ?_, by simp, ?_⟩
  · rw [List.append_assoc, List.singleton_append, modify_length, List.append_assoc]
    rfl
  · intro p node hp
    rcases getElem?_concat_cases hp with hp | ⟨rfl, rfl⟩
    · exact (hl p node hp).mono (by simp)
    · unfold Node.Linked
      rw [if_neg (by rw [hlast]; exact Bool.false_ne_true)]
      simp

end

/-! ## What the lines keep -/

/-- `parse` between two lines. -/
structure Parsing.Linked (c : Parsing) : Prop where
  begun : c.state = .psBegin ∨ c.functions ≠ []
  waiting : c.state = .psNormal → Waiting c.nodes ∧ c.prevStmt + 1 = c.nodes.length
  ready : c.state ≠ .psNormal → Ready c.nodes
  blocks : ∀ f ∈ c.functions, ∀ e ∈ f.bbMap, e.2 < c.nodes.length
  nargs : ∀ f ∈ c.functions, f.nargs ≤ 16
  first : ∀ f ∈ c.functions.tail, (f.getBB f.firstBB).isSome = true
  started : c.state = .psStartFunction → ∀ f ∈ c.functions.head?, f.bbMap = []
  current : c.state ≠ .psStartFunction → ∀ f ∈ c.functions.head?,
    (f.getBB f.firstBB).isSome = true ∨
      (c.state = .psStartBB ∧ f.bbMap = [] ∧ f.firstBB = c.currBB)

theorem linked_init : Parsing.init.Linked where
  begun := Or.inl rfl
  waiting h := by cases h
  ready _ p node h := by cases h
  blocks _ h := absurd h List.not_mem_nil
  nargs _ h := absurd h List.not_mem_nil
  first _ h := absurd h List.not_mem_nil
  started _ _ h := by cases h
  current _ _ h := by cases h

section

variable {c c' : Parsing} {line : ℕ} {instr : Text} {stmt : Stmt}

theorem isTerminator_of_parseNormalStmt (h : parseNormalStmt instr = .ok (some stmt)) :
    stmt.isTerminator = false := by
  rcases (parseNormalStmt_post instr).of_ok h with ⟨h', -⟩ | ⟨stmt', h', hterm, -⟩
  · cases h'
  · cases h'
    exact hterm

theorem isTerminator_of_parseTerminator (h : parseTerminator instr = .ok (some stmt)) :
    stmt.isTerminator = true := by
  rcases (parseTerminator_post instr).of_ok h with ⟨h', -⟩ | ⟨stmt', h', hterm, -⟩
  · cases h'
  · cases h'
    exact hterm

/-- When no function is being started, the function that is read is complete so far. -/
theorem Parsing.Linked.first_head (h : c.Linked) (hstart : c.state ≠ .psStartFunction)
    (hbb : c.state ≠ .psStartBB) : ∀ f ∈ c.functions, (f.getBB f.firstBB).isSome = true := by
  intro f hf
  cases hfs : c.functions with
  | nil =>
    rw [hfs] at hf
    cases hf
  | cons g fs =>
    have hcurrent := h.current hstart
    have hfirst := h.first
    rw [hfs] at hf hcurrent hfirst
    rcases List.mem_cons.mp hf with rfl | hf
    · exact (hcurrent f rfl).resolve_right fun h' => hbb h'.1
    · exact hfirst f hf

theorem isSome_setBB {f f' : Function} {bb : Text} {p : ℕ} (h : f.setBB bb p = some f')
    (hfirst : (f.getBB f.firstBB).isSome = true ∨ (f.bbMap = [] ∧ f.firstBB = bb)) :
    (f'.getBB f'.firstBB).isSome = true := by
  unfold Function.setBB at h
  split at h
  · cases h
  · cases h
    unfold Function.getBB at hfirst ⊢
    dsimp only
    rw [List.lookup_append]
    rcases hfirst with hsome | ⟨hnil, rfl⟩
    · rw [Option.isSome_or, hsome]
      rfl
    · rw [hnil]
      simp

/-- The first statement of a block. -/
theorem Parsing.Linked.add {f f' : Function} {fs : List Function} (h : c.Linked)
    (hs : c.state = .psStartBB) (hf : c.functions = f :: fs)
    (hset : f.setBB c.currBB c.nodes.length = some f') :
    (∀ g ∈ f' :: fs, ∀ e ∈ g.bbMap, e.2 < c.nodes.length + 1) ∧ (∀ g ∈ f' :: fs, g.nargs ≤ 16) ∧
      (∀ g ∈ fs, (g.getBB g.firstBB).isSome = true) ∧ (f'.getBB f'.firstBB).isSome = true := by
  have hblocks := h.blocks
  have hnargs := h.nargs
  have hfirst := h.first
  have hcurrent := h.current (hs.trans_ne nofun)
  rw [hf] at hblocks hnargs hfirst hcurrent
  obtain ⟨hblock, hblocks⟩ := List.forall_mem_cons.mp hblocks
  obtain ⟨hnarg, hnargs⟩ := List.forall_mem_cons.mp hnargs
  have hsome : (f'.getBB f'.firstBB).isSome = true :=
    isSome_setBB hset ((hcurrent f rfl).imp_right fun h' => h'.2)
  unfold Function.setBB at hset
  split at hset
  · cases hset
  · cases hset
    refine ⟨List.forall_mem_cons.mpr ⟨fun e he => ?_, fun g hg e he => ?_⟩,
      List.forall_mem_cons.mpr ⟨hnarg, hnargs⟩, hfirst, hsome⟩
    · rcases List.mem_append.mp he with he | he
      · exact (hblock e he).trans (Nat.lt_succ_self _)
      · rw [List.mem_singleton.mp he]
        exact Nat.lt_succ_self _
    · exact (hblocks g hg e he).trans (Nat.lt_succ_self _)

/-- A block that is not registered is not the first of its function. -/
theorem Parsing.Linked.skip {f : Function} {fs : List Function} (h : c.Linked)
    (hs : c.state = .psStartBB) (hf : c.functions = f :: fs)
    (hset : f.setBB c.currBB c.nodes.length = none) : (f.getBB f.firstBB).isSome = true := by
  have hcurrent := h.current (hs.trans_ne nofun)
  rw [hf] at hcurrent
  rcases hcurrent f rfl with hok | ⟨-, hnil, -⟩
  · exact hok
  · rw [Function.setBB, Function.getBB, hnil] at hset
    cases hset

/-- The blocks stay in range when statements are added. -/
theorem Parsing.Linked.blocks_mono {n : ℕ} (h : c.Linked) (hn : c.nodes.length ≤ n) :
    ∀ f ∈ c.functions, ∀ e ∈ f.bbMap, e.2 < n := fun f hf e he => (h.blocks f hf e he).trans_le hn

/-- A line that leaves the functions as they are, after which none is being started. -/
theorem Parsing.Linked.stay (h : c.Linked) (hs : c.state ≠ .psStartBB) (hs' : c.state ≠ .psStartFunction)
    (hb : c.state ≠ .psBegin) (hfunctions : c'.functions = c.functions)
    (hlen : c.nodes.length ≤ c'.nodes.length) (hstate : c'.state ≠ .psStartFunction)
    (hwaiting : c'.state = .psNormal → Waiting c'.nodes ∧ c'.prevStmt + 1 = c'.nodes.length)
    (hready : c'.state ≠ .psNormal → Ready c'.nodes) : c'.Linked where
  begun := Or.inr (hfunctions ▸ h.begun.resolve_left hb)
  waiting := hwaiting
  ready := hready
  blocks := by
    rw [hfunctions]
    exact h.blocks_mono hlen
  nargs := hfunctions ▸ h.nargs
  first := hfunctions ▸ h.first
  started h' := absurd h' hstate
  current _ f hf := by
    rw [hfunctions] at hf
    exact Or.inl (h.first_head hs' hs f (List.mem_of_mem_head? hf))

/-- A line that begins or ends a block, or begins a function. -/
theorem Parsing.Linked.renew {f : Function} {fs : List Function}
    (hfunctions : c'.functions = f :: fs) (hstate : c'.state ≠ .psStartFunction)
    (hwaiting : c'.state = .psNormal → Waiting c'.nodes ∧ c'.prevStmt + 1 = c'.nodes.length)
    (hready : c'.state ≠ .psNormal → Ready c'.nodes)
    (hblocks : ∀ g ∈ f :: fs, ∀ e ∈ g.bbMap, e.2 < c'.nodes.length)
    (hnargs : ∀ g ∈ f :: fs, g.nargs ≤ 16) (hfirst : ∀ g ∈ fs, (g.getBB g.firstBB).isSome = true)
    (hhead : (f.getBB f.firstBB).isSome = true ∨
      (c'.state = .psStartBB ∧ f.bbMap = [] ∧ f.firstBB = c'.currBB)) : c'.Linked where
  begun := Or.inr (by rw [hfunctions]; exact List.cons_ne_nil _ _)
  waiting := hwaiting
  ready := hready
  blocks := hfunctions ▸ hblocks
  nargs := hfunctions ▸ hnargs
  first := by
    rw [hfunctions]
    exact hfirst
  started h' := absurd h' hstate
  current _ g hg := by
    rw [hfunctions] at hg
    cases hg
    exact hhead

/-- `start` begins a function. -/
theorem linked_start {n : ℕ} (h : c.Linked) (hs : c.state = .psBegin ∨ c.state = .psEndFunction)
    (hn : n ≤ 16) : Parsing.Linked { c with
      functions := ⟨functionName instr, n, [], []⟩ :: c.functions, state := .psStartFunction } := by
  have hne : ∀ s : ParserState, s ≠ .psBegin → s ≠ .psEndFunction → c.state ≠ s := by
    rintro s h1 h2 rfl
    exact hs.elim h1 h2
  refine ⟨Or.inr (List.cons_ne_nil _ _), (fun h' => by cases h'), fun _ => ?_, ?_, ?_, ?_, ?_,
    fun h' => absurd rfl h'⟩
  · exact h.ready (hne _ ParserState.noConfusion ParserState.noConfusion)
  · exact List.forall_mem_cons.mpr ⟨fun _ he => absurd he List.not_mem_nil, h.blocks⟩
  · exact List.forall_mem_cons.mpr ⟨hn, h.nargs⟩
  · exact h.first_head (hne _ ParserState.noConfusion ParserState.noConfusion)
      (hne _ ParserState.noConfusion ParserState.noConfusion)
  · intro _ f hf
    cases hf
    rfl

/-- The header of the first block. -/
theorem linked_header {f : Function} {fs : List Function} (h : c.Linked)
    (hs : c.state = .psStartFunction) (hf : c.functions = f :: fs) : Parsing.Linked { c with
      currBB := parseBBName instr, functions := { f with firstBB := parseBBName instr } :: fs,
      state := .psStartBB } := by
  have hblocks := h.blocks
  have hnargs := h.nargs
  have hfirst := h.first
  have hnil := h.started hs
  rw [hf] at hblocks hnargs hfirst hnil
  refine .renew rfl ParserState.noConfusion (fun h' => by cases h') (fun _ => ?_) ?_ ?_ hfirst
    (Or.inr ⟨rfl, hnil f rfl, rfl⟩)
  · exact h.ready (hs.trans_ne nofun)
  · exact List.forall_mem_cons.mpr (List.forall_mem_cons.mp hblocks)
  · exact List.forall_mem_cons.mpr (List.forall_mem_cons.mp hnargs)

/-- The first statement of a block. -/
theorem linked_first {f f' : Function} {fs : List Function} (h : c.Linked) (hs : c.state = .psStartBB)
    (hf : c.functions = f :: fs) (hstmt : parseNormalStmt instr = .ok (some stmt))
    (hset : f.setBB c.currBB c.nodes.length = some f') : Parsing.Linked { c with
      nodes := c.nodes ++ [⟨line, stmt, none⟩], functions := f' :: fs,
      prevStmt := c.nodes.length, state := .psNormal } := by
  obtain ⟨hblocks, hnargs, hfirst, hhead⟩ := h.add hs hf hset
  have hready := h.ready (hs.trans_ne nofun)
  refine .renew rfl ParserState.noConfusion (fun _ => ?_) (fun h' => absurd rfl h') ?_ hnargs hfirst
    (Or.inl hhead)
  · exact ⟨hready.waiting (isTerminator_of_parseNormalStmt hstmt), by simp⟩
  · rw [List.length_append]
    exact hblocks

/-- A block of one statement. -/
theorem linked_only {f : Function} {fs : List Function} (h : c.Linked) (hs : c.state = .psStartBB)
    (hf : c.functions = f :: fs) (hstmt : parseTerminator instr = .ok (some stmt)) :
    Parsing.Linked { c with
      nodes := c.nodes ++ [⟨line, stmt, none⟩],
      functions := (f.setBB c.currBB c.nodes.length).getD f :: fs, state := .psEndBB } := by
  have hready : Ready (c.nodes ++ [⟨line, stmt, none⟩]) :=
    (h.ready (hs.trans_ne nofun)).ready (isTerminator_of_parseTerminator hstmt)
  cases hset : f.setBB c.currBB c.nodes.length with
  | some f' =>
    obtain ⟨hblocks, hnargs, hfirst, hhead⟩ := h.add hs hf hset
    refine .renew rfl ParserState.noConfusion (fun h' => by cases h') (fun _ => hready) ?_ hnargs
      hfirst (Or.inl hhead)
    rw [List.length_append]
    exact hblocks
  | none =>
    have hblocks := h.blocks_mono (Nat.le_succ _)
    have hnargs := h.nargs
    have hfirst := h.first
    rw [hf] at hblocks hnargs hfirst
    refine .renew rfl ParserState.noConfusion (fun h' => by cases h') (fun _ => hready) ?_ hnargs
      hfirst (Or.inl (h.skip hs hf hset))
    rw [List.length_append]
    exact hblocks

/-- The statements when one more comes in a block. -/
theorem Parsing.Linked.follow (h : c.Linked) (hs : c.state = .psNormal) (line : ℕ) (stmt : Stmt) :
    ∃ l : List Node,
      ((c.create line stmt).setNext c.nodes.length).nodes = l ++ [⟨line, stmt, none⟩] ∧
      (l ++ [(⟨line, stmt, none⟩ : Node)]).length = c.nodes.length + 1 ∧ l.length = c.nodes.length ∧
      ∀ (p : ℕ) (node : Node), l[p]? = some node → node.Linked (l.length + 1) p := by
  obtain ⟨hwaiting, hprev⟩ := h.waiting hs
  obtain ⟨l, heq, hlen, hl⟩ := hwaiting.linked line stmt hprev
  exact ⟨l, heq, by simp [hlen], hlen, hl⟩

/-- A statement that is no terminator comes after another one. -/
theorem linked_next (h : c.Linked) (hs : c.state = .psNormal)
    (hstmt : parseNormalStmt instr = .ok (some stmt)) :
    Parsing.Linked { (c.create line stmt).setNext c.nodes.length with
      prevStmt := c.nodes.length, state := .psNormal } := by
  obtain ⟨l, hnodes, hlength, hlen, hl⟩ := h.follow hs line stmt
  refine h.stay (hs.trans_ne nofun) (hs.trans_ne nofun)
    (hs.trans_ne nofun) rfl ?_ ParserState.noConfusion (fun _ => ⟨?_, ?_⟩)
    fun h' => absurd rfl h'
  · rw [hnodes, hlength]
    exact Nat.le_succ _
  · rw [hnodes]
    refine ⟨l, _, rfl, isTerminator_of_parseNormalStmt hstmt, ?_⟩
    rw [hlength, ← hlen]
    exact hl
  · rw [hnodes, hlength]

/-- A terminator comes after another statement. -/
theorem linked_last (h : c.Linked) (hs : c.state = .psNormal)
    (hstmt : parseTerminator instr = .ok (some stmt)) :
    Parsing.Linked { (c.create line stmt).setNext c.nodes.length with state := .psEndBB } := by
  obtain ⟨l, hnodes, hlength, hlen, hl⟩ := h.follow hs line stmt
  refine h.stay (hs.trans_ne nofun) (hs.trans_ne nofun)
    (hs.trans_ne nofun) rfl ?_ ParserState.noConfusion (fun h' => by cases h')
    fun _ => ?_
  · rw [hnodes, hlength]
    exact Nat.le_succ _
  · rw [hnodes]
    exact ready_concat (isTerminator_of_parseTerminator hstmt) hl

theorem linked_read (h : c.Linked) (hread : Reads line instr c c') : c'.Linked := by
  cases hread with
  | start hs hmem hn hnew => exact linked_start h hs hn
  | header hs hmem hf => exact linked_header h hs hf
  | first hs hf hstmt hset => exact linked_first h hs hf hstmt hset
  | only hs hf hnot hstmt => exact linked_only h hs hf hstmt
  | next hs hstmt => exact linked_next h hs hstmt
  | last hs hnot hstmt => exact linked_last h hs hstmt
  | block hs hmem =>
    exact h.stay (hs.trans_ne nofun) (hs.trans_ne nofun)
      (hs.trans_ne nofun) rfl le_rfl ParserState.noConfusion
      (fun h' => by cases h') fun _ => h.ready (hs.trans_ne nofun)
  | ending hs hmem =>
    exact h.stay (hs.trans_ne nofun) (hs.trans_ne nofun)
      (hs.trans_ne nofun) rfl le_rfl ParserState.noConfusion
      (fun h' => by cases h') fun _ => h.ready (hs.trans_ne nofun)

/-- A text is reported, or its statements are linked. -/
theorem parse_linked (input : Text) :
    Post ParseError.Reported Program.Linked (parse input) := by
  refine parse_post (g := fun (_ : Unit) _ => ()) (R := fun _ c _ => c.Linked) (o := ())
    (fun h => h.begun) linked_read linked_init fun h hstate => ?_
  exact ⟨h.ready (hstate.trans_ne nofun), h.blocks,
    h.first_head (hstate.trans_ne nofun) (hstate.trans_ne nofun), h.nargs⟩

end

/-! ## Chains -/

/-- The statements from `p` on are finitely many, and the last one is the only terminator. -/
def Program.Terminates (P : Program) (p : ℕ) : Prop :=
  ∃ l last, P.Chain p (l ++ [last]) ∧ last.isTerminator = true ∧
    ∀ stmt ∈ l, stmt.isTerminator = false

variable {P : Program}

theorem Program.Linked.terminates (h : P.Linked) {p : ℕ} (hp : p < P.nodes.length) :
    P.Terminates p := by
  -- the successor is nearer to the end
  induction hn : P.nodes.length - p using Nat.strong_induction_on generalizing p with
  | _ n ih =>
    have hget : P.nodes[p]? = some P.nodes[p] := List.getElem?_eq_getElem hp
    have hlinked := h.ready p _ hget
    unfold Node.Linked at hlinked
    split_ifs at hlinked with hterm
    · exact ⟨[], _, .last hget hlinked, hterm, fun _ h => absurd h List.not_mem_nil⟩
    · obtain ⟨hnext, hlt⟩ := hlinked
      obtain ⟨l, last, hchain, hlast, hl⟩ := ih (P.nodes.length - (p + 1)) (by omega) hlt rfl
      exact ⟨_ :: l, last, .next hget hnext hchain, hlast,
        List.forall_mem_cons.mpr ⟨Bool.eq_false_iff.mpr hterm, hl⟩⟩

/-! ## Runs -/

/-- The pointer is that of a statement. -/
def Program.Points (P : Program) (curr : Option ℕ) : Prop := ∃ p, curr = some p ∧ p < P.nodes.length

/-- What every state of a run of an accepted program satisfies. -/
structure Config.Fine (P : Program) (c : Config) : Prop where
  function : c.function ∈ P.functions
  curr : P.Points c.curr
  frames : ∀ frame ∈ c.frames, frame.function ∈ P.functions ∧ P.Points frame.next
  tiled : c.state.memory.heap.Tiled

/-- What the statement at `curr` does is not defined. -/
def Config.Undefined (P : Program) (c : Config) : Prop :=
  ∃ p node, c.curr = some p ∧ P.nodes[p]? = some node ∧ node.stmt.Undefined c.state

/-- A `ret` of `main`, a reported error, or a failed assertion. -/
def Outcome.Regular : Outcome → Prop
  | .returned _ | .stopped (.runtimeError _) | .stopped .assertionFailed => True
  | .stopped .undefined | .nullPointer => False

theorem regular_stopped {e : Stop} (h : e ≠ .undefined) : (Outcome.stopped e).Regular := by
  cases e with
  | undefined => exact absurd rfl h
  | runtimeError | assertionFailed => exact trivial

/-- A step that keeps the run as it should be, or ends it so. -/
def Program.Safe (P : Program) : Config ⊕ (Outcome × State) → Prop
  | .inl c => c.Fine P
  | .inr r => r.1.Regular

section

variable {c : Config}

theorem safe_stopped {e : Stop} {s : State} (h : e ≠ .undefined) :
    P.Safe (.inr (.stopped e, s)) := regular_stopped h

theorem Program.Linked.points (h : P.Linked) {f : Function} (hf : f ∈ P.functions) {bb : Text}
    {p : ℕ} (hp : f.getBB bb = some p) : P.Points (some p) :=
  ⟨p, rfl, h.blocks f hf _ (mem_of_getBB hp)⟩

theorem Config.Fine.jump (h : P.Linked) (hc : c.Fine P) (bb : Text) : P.Safe (c.jump bb) := by
  unfold Config.jump
  cases hp : c.function.getBB bb with
  | none => exact trivial
  | some p => exact ⟨hc.function, h.points hc.function hp, hc.frames, hc.tiled⟩

theorem Config.Fine.ret (hc : c.Fine P) (val : Word) : P.Safe (c.ret val) := by
  unfold Config.ret
  have hframes := hc.frames
  cases hf : c.frames with
  | nil => exact trivial
  | cons frame frames =>
    rw [hf] at hframes
    obtain ⟨hframe, hframes⟩ := List.forall_mem_cons.mp hframes
    dsimp only
    cases hw : frame.old.writeReg frame.lhs val with
    | error e => exact safe_stopped fun he => RegFile.writeReg_ne (he ▸ hw)
    | ok f => exact ⟨hframe.1, hframe.2, hframes, hc.tiled⟩

theorem enter_safe (h : P.Linked) {f : Function} {frames : List Frame} {s : State}
    (hf : f ∈ P.functions)
    (hframes : ∀ frame ∈ frames, frame.function ∈ P.functions ∧ P.Points frame.next)
    (hs : s.memory.heap.Tiled) : P.Safe (enter f frames s) := by
  unfold enter
  cases hp : f.getFirstBB with
  | none => exact trivial
  | some p => exact ⟨hf, h.points hf hp, hframes, hs⟩

/-- At most 16 arguments: their registers exist. -/
theorem setupArgs_ne {old : RegFile} {r : ℕ} {args : List Value} {f : RegFile}
    (hr : r + args.length ≤ 32) : setupArgs old r args f ≠ .error .undefined := by
  induction args generalizing r f with
  | nil => exact fun h => by cases h
  | cons arg args ih =>
    rw [List.length_cons] at hr
    unfold setupArgs
    cases hval : arg.getValue old with
    | error e =>
      intro he
      cases he
      exact Value.getValue_ne hval
    | ok val =>
      have hreg : ∃ reg, Reg.ofIndex r = some reg := by
        unfold Reg.ofIndex
        split_ifs with h1 h2 <;> first | exact ⟨_, rfl⟩ | omega
      obtain ⟨reg, hreg⟩ := hreg
      rw [hreg]
      exact ih (by omega)

theorem Config.Fine.call (h : P.Linked) (hc : c.Fine P) {next : Option ℕ} (hnext : P.Points next)
    (lhs : Reg) (fname : Text) (args : List Value) : P.Safe (c.call P next lhs fname args) := by
  unfold Config.call
  cases hf : P.getFunction fname with
  | none => exact trivial
  | some callee =>
    have hmem : callee ∈ P.functions := List.mem_of_find?_eq_some hf
    dsimp only
    split_ifs with hargs
    · exact trivial
    have hlen : 16 + args.length ≤ 32 := by
      have hle := h.nargs callee hmem
      omega
    cases hsetup : setupArgs c.state.regfile 16 args (c.state.regfile.setNargs callee.nargs) with
    | error e => exact safe_stopped fun he => setupArgs_ne hlen (he ▸ hsetup)
    | ok f =>
      exact enter_safe h hmem (List.forall_mem_cons.mpr ⟨⟨hc.function, hnext⟩, hc.frames⟩) hc.tiled

theorem safe_getValue {s : State} (v : Value) {k : Word → Config ⊕ (Outcome × State)}
    (hk : ∀ w, P.Safe (k w)) :
    P.Safe (match v.getValue s.regfile with
      | .error e => .inr (.stopped e, s)
      | .ok w => k w) := by
  cases hv : v.getValue s.regfile with
  | error e => exact safe_stopped fun he => Value.getValue_ne (he ▸ hv)
  | ok w => exact hk w

theorem Config.Fine.exec (hc : c.Fine P) (calloc : Heap → Word → Bool) {stmt : Stmt}
    {next : Option ℕ} (hdef : ¬stmt.Undefined c.state) (hnext : P.Points next) :
    P.Safe (match (stmt.exec calloc).run c.state with
      | (.error e, s) => .inr (.stopped e, s)
      | (.ok _, s) => .inl { c with curr := next, state := s }) := by
  have hpost := Stmt.exec_ensures calloc stmt hc.tiled c.state rfl
  generalize (stmt.exec calloc).run c.state = r at hpost
  obtain ⟨⟨e⟩ | ⟨a⟩, s⟩ := r
  · exact safe_stopped fun he => hdef (hpost he)
  · exact ⟨hc.function, hnext, hc.frames, hpost⟩

/-- One iteration of the loop. -/
theorem Config.Fine.step (h : P.Linked) (hc : c.Fine P) (calloc : Heap → Word → Bool)
    (hdef : ¬c.Undefined P) : P.Safe (step calloc P c) := by
  obtain ⟨p, hcurr, hp⟩ := hc.curr
  have hget : P.nodes[p]? = some P.nodes[p] := List.getElem?_eq_getElem hp
  have hlinked := h.ready p _ hget
  have hdef : ¬P.nodes[p].stmt.Undefined c.state := fun hu => hdef ⟨p, _, hcurr, hget, hu⟩
  unfold Interp.step
  rw [hcurr, Option.bind_some, hget]
  dsimp only
  generalize P.nodes[p] = node at hlinked hdef
  obtain ⟨line, stmt, next⟩ := node
  cases stmt with
  | ret val => exact safe_getValue val hc.ret
  | brUncond bb => exact hc.jump h bb
  | brCond cond trueBB falseBB => exact safe_getValue cond fun _ => hc.jump h _
  | switch cond bbMap defaultBB => exact safe_getValue cond fun _ => hc.jump h _
  | call lhs fname args => exact hc.call h ⟨p + 1, hlinked⟩ lhs fname args
  | malloc | free | load | store | resetStack | resetHeap | bop | select | assert | read | write =>
    exact hc.exec calloc hdef ⟨p + 1, hlinked⟩

/-- Where it is not defined what a step does, the run ends. -/
theorem Config.Undefined.step (hu : c.Undefined P) (calloc : Heap → Word → Bool) :
    ∃ s, Interp.step calloc P c = .inr (.stopped .undefined, s) := by
  obtain ⟨p, ⟨line, stmt, next⟩, hcurr, hget, hstmt⟩ := hu
  have hexec := hstmt.exec calloc
  unfold Interp.step
  rw [hcurr, Option.bind_some, hget]
  dsimp only
  generalize hrun : (stmt.exec calloc).run c.state = r at hexec
  obtain ⟨x, s⟩ := r
  subst hexec
  cases stmt with
  | load | store | bop =>
    dsimp only
    rw [hrun]
    exact ⟨s, rfl⟩
  | malloc | free | select | assert | read | write | resetStack | resetHeap | ret | brUncond | brCond
  | switch | call => exact hstmt.elim

end

/-! ## Accepted programs -/

section

variable {calloc : Heap → Word → Bool} {tokens : List Text}

/-- The execution begins in a fine state, or is reported. -/
theorem Program.Linked.start (h : P.Linked) (tokens : List Text) : P.Safe (start P tokens) := by
  unfold Interp.start
  cases hf : P.getFunction "main".toList with
  | none => exact trivial
  | some f =>
    exact enter_safe h (List.mem_of_find?_eq_some hf) (fun _ hmem => absurd hmem List.not_mem_nil)
      Heap.Tiled.init

/-- Every state of a run is fine. -/
theorem Program.Linked.reaches (h : P.Linked) {c : Config} (hc : P.Reaches calloc tokens c) :
    c.Fine P := by
  obtain ⟨c₀, hstart, hstar⟩ := hc
  have hinit := h.start tokens
  rw [hstart] at hinit
  refine hstar.invariant (fun c c' hfine hstep => ?_) hinit
  have hdef : ¬c.Undefined P := fun hu => by
    obtain ⟨s, hs⟩ := hu.step calloc
    rw [hstep] at hs
    cases hs
  have hsafe := hfine.step h calloc hdef
  rw [hstep] at hsafe
  exact hsafe

/-- A run ends as it should just where all it does is defined. -/
theorem Program.Linked.ends (h : P.Linked) {o : Outcome} {s : State}
    (hends : P.Ends calloc tokens o s) :
    o.Regular ↔ ∀ c, P.Reaches calloc tokens c → ¬c.Undefined P := by
  unfold Program.Ends at hends
  have hinit := h.start tokens
  cases hstart : Interp.start P tokens with
  | inr r =>
    rw [hstart] at hends hinit
    subst hends
    refine ⟨?_, fun _ => hinit⟩
    rintro - c ⟨c₀, hc₀, -⟩
    rw [hstart] at hc₀
    cases hc₀
  | inl c₀ =>
    rw [hstart] at hends
    obtain ⟨n, hends⟩ := hends
    constructor
    · rintro hreg c ⟨c₁, hc₁, hstar⟩ hu
      rw [hstart] at hc₁
      cases hc₁
      obtain ⟨m, -, hm⟩ := hends.of_star hstar
      obtain ⟨s', hs'⟩ := hu.step calloc
      cases hm with
      | done hd =>
        rw [hs'] at hd
        cases hd
        exact hreg
      | next hd _ =>
        rw [hs'] at hd
        cases hd
    · intro hdef
      obtain ⟨c, hstar, hstep⟩ := hends.last
      have hreach : P.Reaches calloc tokens c := ⟨c₀, hstart, hstar⟩
      have hsafe := (h.reaches hreach).step h calloc (hdef c hreach)
      rw [hstep] at hsafe
      exact hsafe

end

/-- **Runs of accepted programs.** From every registered block on the statements lead to a terminator,
    the pointer is that of a statement in every state that is reached, and a run ends with the value of
    a `ret`, a reported error or a failed assertion just where all it does is defined. -/
theorem parse_running (input : Text) :
    Post ParseError.Reported (fun P =>
      (∀ f ∈ P.functions, ∀ e ∈ f.bbMap, P.Terminates e.2) ∧
      ∀ (calloc : Heap → Word → Bool) (tokens : List Text),
        (∀ c, P.Reaches calloc tokens c → P.Points c.curr) ∧
        ∀ o s, P.Ends calloc tokens o s →
          (o.Regular ↔ ∀ c, P.Reaches calloc tokens c → ¬c.Undefined P)) (parse input) := by
  refine (parse_linked input).weaken fun P h => ⟨fun f hf e he => ?_, fun calloc tokens => ?_⟩
  · exact h.terminates (h.blocks f hf e he)
  · exact ⟨fun c hc => (h.reaches hc).curr, fun o s => h.ends⟩

/-- -2^63 divided by -1. -/
def hostDivision : Text :=
  "start main 0:\n.a:\nr1 = sdiv 9223372036854775808 18446744073709551615 64\nret r1\nend main".toList

/-- The program is accepted, and the division ends its execution. -/
theorem not_regular_hostDivision : ∃ P s, parse hostDivision = .ok P ∧
    P.Ends (fun _ _ => true) [] (.stopped .undefined) s ∧ ¬(Outcome.stopped .undefined).Regular := by
  have hparse : parse hostDivision = .ok ⟨[⟨3, .bop (.r 0) .sdiv (.literal (BitVec.intMin 64))
        (.literal (-1)) .size64, some 1⟩, ⟨4, .ret (.reg (.r 0)), none⟩],
      [⟨"main".toList, 0, ".a".toList, [(".a".toList, 0)]⟩]⟩ := by
    decide +kernel
  exact ⟨_, _, hparse, ⟨0, .done rfl⟩, fun h => h⟩

end SwppCompiler.Interp
