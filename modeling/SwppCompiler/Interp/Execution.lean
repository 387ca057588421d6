import SwppCompiler.Interp.Stmt
import SwppCompiler.Lib.Simulation

/-!
# Programs and their execution

Model of `Program`, `Function` (`interpreter/src/program.cpp`, `function.cpp`) and
`State::exec_function` (`state.cpp`, lines 18–99). A `Stmt*` is the place of the statement in the
order of creation; `none` is the null pointer. A step is one iteration of the loop; a call pushes a
frame.
-/

namespace SwppCompiler.Interp

open Lib

/-- A statement with its line and its successor. -/
structure Node where
  line : ℕ
  stmt : Stmt
  next : Option ℕ
deriving DecidableEq

/-- `Function`. -/
structure Function where
  fname : Text
  nargs : ℕ
  firstBB : Text
  bbMap : List (Text × ℕ)
deriving DecidableEq

/-- `get_bb` (`function.cpp`, lines 20–25). -/
def Function.getBB (f : Function) (bbname : Text) : Option ℕ := f.bbMap.lookup bbname

theorem mem_of_getBB {f : Function} {bb : Text} {p : ℕ} (h : f.getBB bb = some p) :
    (bb, p) ∈ f.bbMap := by
  obtain ⟨l, l', heq, -⟩ := List.lookup_eq_some_iff.mp h
  rw [heq]
  exact List.mem_append_right _ List.mem_cons_self

/-- `get_first_bb` (`function.cpp`, lines 11–16). -/
def Function.getFirstBB (f : Function) : Option ℕ := f.getBB f.firstBB

/-- `set_bb` (`function.cpp`, lines 27–33); `none` stands for `false`. -/
def Function.setBB (f : Function) (bbname : Text) (stmt : ℕ) : Option Function :=
  match f.getBB bbname with
  | some _ => none
  | none => some { f with bbMap := f.bbMap ++ [(bbname, stmt)] }

/-- `Program`, with the statements. -/
structure Program where
  nodes : List Node
  functions : List Function
deriving DecidableEq

/-- `get_function` (`program.cpp`, lines 6–11). -/
def Program.getFunction (P : Program) (fname : Text) : Option Function :=
  P.functions.find? fun f => f.fname = fname

/-- What waits for a call to return: the caller, the call, and the registers before it. -/
structure Frame where
  function : Function
  lhs : Reg
  next : Option ℕ
  old : RegFile

/-- The function that is executed, `curr`, and the calls that wait. -/
structure Config where
  function : Function
  curr : Option ℕ
  frames : List Frame
  state : State

/-- How an execution ends. -/
inductive Outcome
  | returned (val : Word)
  | stopped (e : Stop)
  | nullPointer
deriving DecidableEq, Repr

/-- `setup_args` (`stmt.cpp`, lines 428–435), from the register number `r` on. A register outside the
    enumeration is outside the array of registers. -/
def setupArgs (old : RegFile) : (r : ℕ) → List Value → RegFile → Except Stop RegFile
  | _, [], f => .ok f
  | r, arg :: args, f => do
    let val ← arg.getValue old
    match Reg.ofIndex r with
    | some reg => setupArgs old (r + 1) args (f.setValue reg val)
    | none => .error .undefined

/-- `exec_function(function)` up to the loop (`state.cpp`, lines 19–21). -/
def enter (f : Function) (frames : List Frame) (s : State) : Config ⊕ (Outcome × State) :=
  match f.getFirstBB with
  | some p => .inl ⟨f, some p, frames, s⟩
  | none => .inr (.stopped (.runtimeError "missing first basic block"), s)

/-- The end of a branch (`state.cpp`, lines 35–43 and twice more). -/
def Config.jump (c : Config) (bb : Text) : Config ⊕ (Outcome × State) :=
  match c.function.getBB bb with
  | some p =>
    .inl { c with curr := some p, state := { c.state with cost := c.state.cost + Cost.terminator } }
  | none => .inr (.stopped (.runtimeError "branching to an undefined basic block"), c.state)

/-- `return ret`, to the caller (`state.cpp`, lines 31, 86–89). -/
def Config.ret (c : Config) (val : Word) : Config ⊕ (Outcome × State) :=
  let s := { c.state with cost := c.state.cost + Cost.terminator }
  match c.frames with
  | [] => .inr (.returned val, s)
  | frame :: frames =>
    match frame.old.writeReg frame.lhs val with
    | .error e => .inr (.stopped e, { s with regfile := frame.old })
    | .ok f => .inl ⟨frame.function, frame.next, frames, { s with regfile := f }⟩

/-- A call (`state.cpp`, lines 66–85). -/
def Config.call (P : Program) (c : Config) (next : Option ℕ) (lhs : Reg) (fname : Text)
    (args : List Value) : Config ⊕ (Outcome × State) :=
  match P.getFunction fname with
  | none => .inr (.stopped (.runtimeError "calling an undefined function"), c.state)
  | some callee =>
    if callee.nargs ≠ args.length then
      .inr (.stopped (.runtimeError "calling with incorrect number of arguments"), c.state)
    else
      let old := c.state.regfile
      match setupArgs old 16 args (old.setNargs callee.nargs) with
      | .error e => .inr (.stopped e, c.state)
      | .ok f =>
        let cost := c.state.cost + (Cost.call + callee.nargs * Cost.perArg)
        enter callee (⟨c.function, lhs, next, old⟩ :: c.frames)
          { c.state with regfile := f, cost := cost }

/-- `get_bb` of a `switch` (`stmt.cpp`, lines 109–114). -/
def switchBB (bbMap : List (Word × Text)) (defaultBB : Text) (w : Word) : Text :=
  (bbMap.lookup w).getD defaultBB

/-- One iteration of the loop (`state.cpp`, lines 23–98). -/
def step (calloc : Heap → Word → Bool) (P : Program) (c : Config) : Config ⊕ (Outcome × State) :=
  match c.curr.bind fun p => P.nodes[p]? with
  | none => .inr (.nullPointer, c.state)
  | some node =>
    match node.stmt with
    | .ret val =>
      match val.getValue c.state.regfile with
      | .error e => .inr (.stopped e, c.state)
      | .ok w => c.ret w
    | .brUncond bb => c.jump bb
    | .brCond cond trueBB falseBB =>
      match cond.getValue c.state.regfile with
      | .error e => .inr (.stopped e, c.state)
      | .ok w => c.jump (if w ≠ 0 then trueBB else falseBB)
    | .switch cond bbMap defaultBB =>
      match cond.getValue c.state.regfile with
      | .error e => .inr (.stopped e, c.state)
      | .ok w => c.jump (switchBB bbMap defaultBB w)
    | .call lhs fname args => c.call P node.next lhs fname args
    | stmt =>
      match (stmt.exec calloc).run c.state with
      | (.error e, s) => .inr (.stopped e, s)
      | (.ok _, s) => .inl { c with curr := node.next, state := s }

/-- `main` (`main.cpp`, lines 30–34): the execution of the function `main`. -/
def start (P : Program) (input : List Text) : Config ⊕ (Outcome × State) :=
  match P.getFunction "main".toList with
  | none => .inr (.stopped (.runtimeError "missing main function"), .init input)
  | some f => enter f [] (.init input)

/-- The execution of a program ends. -/
def Program.Ends (calloc : Heap → Word → Bool) (P : Program) (input : List Text) (o : Outcome)
    (s : State) : Prop :=
  match start P input with
  | .inr r => r = (o, s)
  | .inl c => Halts (step calloc P) c (o, s)

/-- The execution of a program comes by. -/
def Program.Reaches (calloc : Heap → Word → Bool) (P : Program) (input : List Text) (c : Config) :
    Prop :=
  ∃ c₀, start P input = .inl c₀ ∧ Star (step calloc P) c₀ c

/-- The chain of statements from a place on. -/
inductive Program.Chain (P : Program) : ℕ → List Stmt → Prop
  | last {p : ℕ} {node : Node} (h : P.nodes[p]? = some node) (hn : node.next = none) :
      Chain P p [node.stmt]
  | next {p q : ℕ} {node : Node} {l : List Stmt} (h : P.nodes[p]? = some node)
      (hn : node.next = some q) (hq : Chain P q l) : Chain P p (node.stmt :: l)

theorem Program.chain_cons_iff {P : Program} {p : ℕ} {stmt : Stmt} {l : List Stmt} :
    P.Chain p (stmt :: l) ↔ ∃ node, P.nodes[p]? = some node ∧ node.stmt = stmt ∧
      (node.next = none ∧ l = [] ∨ ∃ q, node.next = some q ∧ P.Chain q l) := by
  constructor
  · generalize hl : stmt :: l = l'
    rintro (⟨h, hn⟩ | ⟨h, hn, hq⟩)
    · cases hl
      exact ⟨_, h, rfl, Or.inl ⟨hn, rfl⟩⟩
    · cases hl
      exact ⟨_, h, rfl, Or.inr ⟨_, hn, hq⟩⟩
  · rintro ⟨node, h, rfl, ⟨hn, rfl⟩ | ⟨q, hn, hq⟩⟩
    · exact .last h hn
    · exact .next h hn hq

end SwppCompiler.Interp
