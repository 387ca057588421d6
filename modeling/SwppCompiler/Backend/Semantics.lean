import SwppCompiler.Backend.GetElementPtr
import SwppCompiler.Backend.PhiLowering

/-!
# Executing a function and its code

The meaning of a source function, and of the code that `DepromoteRegisters` emits for it, in the same
surroundings: a `World` has the addresses of the allocas and the answers of the callees. Both run
block by block; a run records the calls and the memory accesses that it makes.

* `exec`: the source. A run ends when LLVM leaves an instruction undefined.
* `execCode`: the emitted code, with the lines of `Line.exec`.
* `Runs`: some lines with the values of the instructions beside the machine, as in `MachineRun`.
-/

namespace SwppCompiler.Backend.Simulation

open Interp

/-! ## The surroundings -/

/-- What a function does outside: a call, with the memory that the callee finds, or an access of some
    bytes of the memory. -/
inductive Event
  | call (callee : String) (args : List Word) (mem : Word → BitVec 8)
  | load (size : ℕ) (addr : Word)
  | store (size : ℕ) (addr val : Word)

/-- What is outside the function: where its allocas are, and what a callee answers to a call that
    comes after others. -/
structure World where
  address : InstRef → Word
  answer : List Event → Event → Answer

/-- How a block is left. -/
inductive Exit
  | jump (b : ℕ)
  | ret (value : Option Word)
deriving DecidableEq, Repr

/-! ## The source -/

/-- The values of the instructions that were executed last, the memory, the events so far, and the
    instructions so far, each with the values of its operands. -/
structure Src where
  env : InstRef → Word
  mem : Word → BitVec 8
  events : List Event
  log : List (Inst × List Word)

/-- The values of operands; `none` if one is undefined. -/
def evalAll (c : Ctx) (env : InstRef → Word) (arg : ℕ → Word) : List Operand → Option (List Word)
  | [] => some []
  | V :: Vs => (V.eval c env arg).bind fun w => (evalAll c env arg Vs).map (w :: ·)

/-- The result of an instruction that is neither a load, a store nor a call. -/
def result (W : World) (I : InstRef) (x : Inst) (mem : Word → BitVec 8) (args : List Word) :
    Option Word :=
  match x, args with
  | .alloca _ _, _ => some (W.address I)
  | .gep p _ _, base :: indices =>
    match p.ty with
    | .ptr elem => some (elementAddress elem base indices)
    | _ => none
  | .inttoptr _ _, [a] => some a
  | x, args => x.eval mem 0 args

/-- Instruction `I`, executed. -/
def execInst (W : World) (c : Ctx) (arg : ℕ → Word) (I : InstRef) (x : Inst) (σ : Src) :
    Option Src :=
  (evalAll c σ.env arg x.operands).bind fun args =>
    let σ := { σ with log := σ.log ++ [(x, args)] }
    match x, args with
    | .load ⟨_, .ptr elem⟩, [a] =>
      (x.eval σ.mem 0 [a]).map fun w =>
        { σ with
          env := Function.update σ.env I w
          events := σ.events ++ [.load (getAccessSize elem) a] }
    | .store v _, [w, p] =>
      some { σ with
        mem := storeLittleEndian σ.mem (getAccessSize v.ty) p w
        events := σ.events ++ [.store (getAccessSize v.ty) p w] }
    | .call f _ none, args =>
      let e : Event := .call f args σ.mem
      some { σ with mem := (W.answer σ.events e).mem, events := σ.events ++ [e] }
    | .call f _ (some _), args =>
      let e : Event := .call f args σ.mem
      let A := W.answer σ.events e
      (x.eval σ.mem A.value args).map fun w =>
        { σ with env := Function.update σ.env I w, mem := A.mem, events := σ.events ++ [e] }
    | x, args =>
      (result W I x σ.mem args).map fun w => { σ with env := Function.update σ.env I w }

/-- The instructions of block `b` from index `i` on. -/
def execBody (W : World) (c : Ctx) (arg : ℕ → Word) (b : ℕ) : ℕ → List Inst → Src → Option Src
  | _, [], σ => some σ
  | i, x :: body, σ => (execInst W c arg ⟨b, i⟩ x σ).bind (execBody W c arg b (i + 1) body)

/-- The incoming values for block `a`. -/
def incoming (c : Ctx) (arg : ℕ → Word) (env : InstRef → Word) (a : ℕ) : List Phi → Option (List Word)
  | [] => some []
  | φ :: φs => (φ.incomingFor a).bind fun V => (V.eval c env arg).bind fun w =>
    (incoming c arg env a φs).map (w :: ·)

/-- The PHI nodes of block `b` take their values at once. -/
def assignPhis (env : InstRef → Word) (b : ℕ) (ws : List Word) (I : InstRef) : Word :=
  if I.parent = b then ws[I.idx]?.getD (env I) else env I

/-- Control enters block `b`: from block `a`, or at the start of the function. -/
def enter (c : Ctx) (arg : ℕ → Word) (b : ℕ) (B : Block) (a : Option ℕ) (σ : Src) : Option Src :=
  match a with
  | none => if B.phis = [] then some σ else none
  | some a => (incoming c arg σ.env a B.phis).map fun ws => { σ with env := assignPhis σ.env b ws }

/-- Where a terminator goes. -/
def execTerm (c : Ctx) (arg : ℕ → Word) (env : InstRef → Word) : Term → Option Exit
  | .ret none => some (.ret none)
  | .ret (some V) => (V.eval c env arg).map fun w => .ret (some w)
  | .br d => some (.jump d)
  | .condBr V t f => (V.eval c env arg).map fun w => .jump (if w ≠ 0 then t else f)
  | .switch V d cases => (V.eval c env arg).map fun w =>
    .jump (((cases.find? fun p => p.1 = w).map Prod.snd).getD d)

/-- Block `b`, from its first instruction on. -/
def execBlock (W : World) (c : Ctx) (arg : ℕ → Word) (b : ℕ) (B : Block) (σ : Src) :
    Option (Src × Exit) :=
  (execBody W c arg b B.phis.length B.body σ).bind fun σ =>
    (execTerm c arg σ.env B.term).map fun e => (σ, e)

/-- At most `fuel` blocks of the function, from block `b` on. -/
def exec (W : World) (c : Ctx) (arg : ℕ → Word) :
    (fuel : ℕ) → (a : Option ℕ) → (b : ℕ) → Src → Option (Option Word × Src)
  | 0, _, _, _ => none
  | fuel + 1, a, b, σ =>
    (c.F.blocks[b]?).bind fun B => (enter c arg b B a σ).bind fun σ =>
      (execBlock W c arg b B σ).bind fun r =>
        match r.2 with
        | .jump d => exec W c arg fuel (some b) d r.1
        | .ret w => some (w, r.1)

/-- The state in which the function starts. `main` has allocated the global variables that are in the
    heap before. -/
def startState (W : World) (c : Ctx) (mem : Word → BitVec 8) : Src :=
  if c.F.name = "main" ∧ c.heapSize ≠ 0 then
    let e : Event := .call "malloc" [c.heapSize] mem
    ⟨fun _ => 0, (W.answer [] e).mem, [e], []⟩
  else ⟨fun _ => 0, mem, [], []⟩

/-! ## The emitted code -/

/-- A machine, and the events so far. -/
structure Tgt where
  m : Machine
  events : List Event

/-- What a line does outside. -/
def event? (m : Machine) : Line → Option Event
  | .call _ f args => some (.call f (args.map (EmitVal.read m)) m.mem)
  | .load _ size p => some (.load size (p.read m))
  | .store size v p => some (.store size (p.read m) (v.read m))
  | _ => none

/-- What a line reads from outside. -/
def answer (W : World) (τ : Tgt) : Line → Answer
  | .alloca _ I _ _ => ⟨W.address I, τ.m.mem⟩
  | .call _ f args => W.answer τ.events (.call f (args.map (EmitVal.read τ.m)) τ.m.mem)
  | _ => ⟨0, τ.m.mem⟩

/-- One line. -/
def execLine (W : World) (τ : Tgt) (l : Line) : Option Tgt :=
  (l.exec (answer W τ l) τ.m).map fun m => ⟨m, τ.events ++ (event? τ.m l).toList⟩

/-- Where the last line of a block goes. -/
def leave (m : Machine) (l : Line) : Option Exit :=
  match l with
  | .ret v => some (.ret (some (v.read m)))
  | l => (l.next m).map .jump

/-- The code of a block. -/
def execLines (W : World) : List Line → Tgt → Option (Tgt × Exit)
  | [], _ => none
  | l :: ls, τ =>
    if l.endsBlock then (leave τ.m l).map fun e => (τ, e)
    else (execLine W τ l).bind (execLines W ls)

/-- At most `fuel` blocks of the code, from block `b` on. -/
def execCode (W : World) (codes : List (List Line)) :
    (fuel : ℕ) → (b : ℕ) → Tgt → Option (Option Word × Tgt)
  | 0, _, _ => none
  | fuel + 1, b, τ =>
    (codes[b]?).bind fun code => (execLines W code τ).bind fun r =>
      match r.2 with
      | .jump d => execCode W codes fuel d r.1
      | .ret w => some (w, r.1)

/-! ## Lines with values -/

/-- Some lines in a row, none of them the last of a block. The definition of an instruction gives it
    its value. -/
inductive Runs (W : World) : Tgt → (InstRef → Word) → List Line → Tgt → (InstRef → Word) → Prop
  | nil {τ : Tgt} {env : InstRef → Word} : Runs W τ env [] τ env
  | cons {τ τ1 τ' : Tgt} {env env' : InstRef → Word} {l : Line} {ls : List Line}
      (hl : l.endsBlock = false) (h : execLine W τ l = some τ1)
      (hs : Runs W τ1 (l.bind τ.m env) ls τ' env') : Runs W τ env (l :: ls) τ' env'

section Runs

variable {W : World} {τ τ1 τ' : Tgt} {env env1 env' : InstRef → Word} {l : Line} {ls ls' : List Line}

theorem Runs.append (h : Runs W τ env ls τ1 env1) (h' : Runs W τ1 env1 ls' τ' env') :
    Runs W τ env (ls ++ ls') τ' env' := by
  induction h with
  | nil => exact h'
  | cons hl hstep _ ih => exact .cons hl hstep (ih h')

theorem Runs.single (hl : l.endsBlock = false) (h : execLine W τ l = some τ') :
    Runs W τ env [l] τ' (l.bind τ.m env) := .cons hl h .nil

theorem Runs.split (h : Runs W τ env (ls ++ ls') τ' env') :
    ∃ τ1 env1, Runs W τ env ls τ1 env1 ∧ Runs W τ1 env1 ls' τ' env' := by
  induction ls generalizing τ env with
  | nil => exact ⟨τ, env, .nil, h⟩
  | cons l ls ih =>
    obtain _ | ⟨hl, hstep, hs⟩ := h
    obtain ⟨τ1, env1, h1, h2⟩ := ih hs
    exact ⟨τ1, env1, .cons hl hstep h1, h2⟩

theorem Runs.of_nil (h : Runs W τ env [] τ' env') : τ' = τ ∧ env' = env := by
  cases h
  exact ⟨rfl, rfl⟩

theorem Runs.of_single (h : Runs W τ env [l] τ' env') :
    execLine W τ l = some τ' ∧ env' = l.bind τ.m env := by
  obtain _ | ⟨-, hstep, hs⟩ := h
  obtain ⟨rfl, rfl⟩ := hs.of_nil
  exact ⟨hstep, rfl⟩

/-- A block that begins with some lines. -/
theorem Runs.execLines (h : Runs W τ env ls τ' env') :
    execLines W (ls ++ ls') τ = execLines W ls' τ' := by
  induction h with
  | nil => rfl
  | cons hl hstep _ ih =>
    rw [List.cons_append, Simulation.execLines, if_neg (by simp [hl]), hstep]
    exact ih

theorem execLine_exec (h : execLine W τ l = some τ') :
    l.exec (answer W τ l) τ.m = some τ'.m ∧ τ'.events = τ.events ++ (event? τ.m l).toList := by
  obtain ⟨m, hm, rfl⟩ := Option.map_eq_some_iff.mp h
  exact ⟨hm, rfl⟩

theorem forall₂_of_evalAll {c : Ctx} {arg : ℕ → Word} {Vs : List Operand} {ws : List Word}
    (h : evalAll c env arg Vs = some ws) :
    List.Forall₂ (fun V w => V.eval c env arg = some w) Vs ws := by
  induction Vs generalizing ws with
  | nil =>
    cases h
    exact .nil
  | cons V Vs ih =>
    obtain ⟨w, hw, h⟩ := Option.bind_eq_some_iff.mp h
    obtain ⟨ws', hws, rfl⟩ := Option.map_eq_some_iff.mp h
    exact .cons hw (ih hws)

end Runs

/-! ## Lines that only move and compute -/

/-- The line does nothing outside, and is neither a definition nor the last one of a block. -/
def isQuiet : Line → Bool
  | .fill _ _ | .spill _ _ | .loadPhi _ _ | .storePhi _ _ | .bop _ _ _ _ _ | .select _ _ _ _
  | .copy _ _ => true
  | _ => false

section Quiet

variable {W : World} {τ : Tgt} {env : InstRef → Word} {l : Line} {ls : List Line} {A A' : Answer}
  {m m' : Machine}

theorem exec_of_isQuiet (hl : isQuiet l = true) : l.exec A m = l.exec A' m := by
  cases l with
  | fill | spill | loadPhi | storePhi | bop | select | copy => rfl
  | _ => cases hl

theorem mem_of_isQuiet (hl : isQuiet l = true) (h : l.exec A m = some m') : m'.mem = m.mem := by
  cases l with
  | bop k kind a b bw =>
    obtain ⟨size, -, h⟩ := Option.bind_eq_some_iff.mp h
    split at h
    · cases h
      rfl
    · cases h
  | fill | spill | loadPhi | storePhi | select | copy =>
    cases h
    rfl
  | _ => cases hl

theorem execLine_of_isQuiet (hl : isQuiet l = true) (h : l.exec A τ.m = some m') :
    execLine W τ l = some ⟨m', τ.events⟩ ∧ l.endsBlock = false ∧ l.bind τ.m env = env := by
  have hevent : event? τ.m l = none := by
    cases l with
    | call | load | store => cases hl
    | _ => rfl
  refine ⟨?_, ?_, ?_⟩
  · rw [execLine, exec_of_isQuiet hl, h, hevent]
    simp
  · cases l with
    | ret | br | condBr | switch => cases hl
    | _ => rfl
  · cases l with
    | value => cases hl
    | _ => rfl

/-- Quiet lines, whatever is outside. -/
theorem runs_of_execLines (hls : ∀ l ∈ ls, isQuiet l = true)
    (h : Backend.execLines A τ.m ls = some m') :
    Runs W τ env ls ⟨m', τ.events⟩ env ∧ m'.mem = τ.m.mem := by
  induction ls generalizing τ with
  | nil =>
    cases h
    exact ⟨.nil, rfl⟩
  | cons l ls ih =>
    rw [execLines_cons] at h
    obtain ⟨m1, h1, h2⟩ := Option.bind_eq_some_iff.mp h
    have hl := hls l List.mem_cons_self
    obtain ⟨hstep, hends, hbind⟩ := execLine_of_isQuiet hl h1
    have hrest : Runs W ⟨m1, τ.events⟩ env ls ⟨m', τ.events⟩ env ∧ m'.mem = m1.mem :=
      ih (fun l' hl' => hls l' (List.mem_cons_of_mem l hl')) h2
    refine ⟨.cons hends hstep ?_, hrest.2.trans (mem_of_isQuiet hl h1)⟩
    rw [hbind]
    exact hrest.1

end Quiet

end SwppCompiler.Backend.Simulation
