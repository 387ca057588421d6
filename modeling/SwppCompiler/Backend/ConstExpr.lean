import Mathlib

/-!
# `ConstExprToInsts`

Model of `ConstExprToInsts` (`src/core/Backend.cpp`, lines 754–770), which turns the constant
expressions among the operands of an instruction into instructions before it. It does so for a PHI node
too: the new instruction stands before a PHI node then, and after the edge on which the node needs it.

* `convertOperands_computes`: the new instructions compute the values that the operands had.
* `expanded_iff`: the expansion is sound iff no PHI node has a constant expression as an operand.
-/

namespace SwppCompiler.Backend.ConstExpr

/-! ## Functions -/

section Syntax

variable (Op Other Leaf ι : Type)

/-- A constant: a leaf, such as a number, a function or an argument, or a `ConstantExpr`. -/
inductive Constant
  | leaf (c : Leaf)
  | expr (op : Op) (operands : List Constant)

/-- An operand of an instruction. -/
inductive Operand
  | const (c : Constant Op Leaf)
  | inst (I : ι)

/-- What an instruction does: what constant expressions do as well, or something else, or it is a PHI
    node, with an incoming block for each operand. -/
inductive Code
  | expr (op : Op)
  | other (x : Other)
  | phi (incoming : List ℕ)

/-- An instruction, and the blocks that it may go to. -/
structure Instruction where
  id : ι
  code : Code Op Other
  operands : List (Operand Op Leaf ι)
  succs : List ℕ

end Syntax

variable {Op Other Leaf ι : Type}

/-- `isa<PHINode>`. -/
def Instruction.isPhi (I : Instruction Op Other Leaf ι) : Bool :=
  match I.code with
  | .phi _ => true
  | _ => false

/-- The PHI nodes of a block are its first instructions. -/
def PhisFirst (B : List (Instruction Op Other Leaf ι)) : Prop :=
  B.Pairwise fun I J => J.isPhi = true → I.isPhi = true

instance (B : List (Instruction Op Other Leaf ι)) : Decidable (PhisFirst B) :=
  inferInstanceAs (Decidable (B.Pairwise fun I J => J.isPhi = true → I.isPhi = true))

variable (Op Other Leaf) in
/-- A function that `verifyModule` accepts. -/
structure Func where
  blocks : List (List (Instruction Op Other Leaf ℕ))
  phisFirst : ∀ B ∈ blocks, PhisFirst B

/-! ## The pass -/

/-- The instructions of the new function: old ones, and those that the pass creates, in this order. -/
abbrev NewId := ℕ ⊕ ℕ

/-- An instruction of the new function, and an operand. -/
abbrev NewInst (Op Other Leaf : Type) := Instruction Op Other Leaf NewId
@[inherit_doc NewInst] abbrev NewOperand (Op Leaf : Type) := Operand Op Leaf NewId

mutual

/-- `ConvertCEToInst` (`Backend.cpp`, lines 755–761), of an operand that may be a constant
    expression: the instructions that are inserted, and what the operand becomes. The next new
    instruction is `n`. -/
def convertConstant (n : ℕ) :
    Constant Op Leaf → List (NewInst Op Other Leaf) × NewOperand Op Leaf × ℕ
  | .leaf c => ([], .const (.leaf c), n)
  | .expr op operands =>
    let (before, operands, n') := convertConstants (n + 1) operands
    (before ++ [⟨.inr n, .expr op, operands, []⟩], .inst (.inr n), n')

/-- The operands of a new instruction are visited before it is used. -/
def convertConstants (n : ℕ) :
    List (Constant Op Leaf) → List (NewInst Op Other Leaf) × List (NewOperand Op Leaf) × ℕ
  | [] => ([], [], n)
  | c :: cs =>
    let (before, operand, n) := convertConstant n c
    let (before', operands, n) := convertConstants n cs
    (before ++ before', operand :: operands, n)

end

/-- The loop over the operands (`Backend.cpp`, lines 764–768). -/
def convertOperands (n : ℕ) :
    List (Operand Op Leaf ℕ) → List (NewInst Op Other Leaf) × List (NewOperand Op Leaf) × ℕ
  | [] => ([], [], n)
  | .inst I :: ops =>
    let (before, operands, n) := convertOperands n ops
    (before, .inst (.inl I) :: operands, n)
  | .const c :: ops =>
    let (before, operand, n) := convertConstant n c
    let (before', operands, n) := convertOperands n ops
    (before ++ before', operand :: operands, n)

/-- `visitInstruction`: what the instruction becomes. -/
def visitInstruction (n : ℕ) (I : Instruction Op Other Leaf ℕ) : List (NewInst Op Other Leaf) × ℕ :=
  let (before, operands, n) := convertOperands n I.operands
  (before ++ [⟨.inl I.id, I.code, operands, I.succs⟩], n)

/-- The instructions of a block. -/
def visitBlock (n : ℕ) : List (Instruction Op Other Leaf ℕ) → List (NewInst Op Other Leaf) × ℕ
  | [] => ([], n)
  | I :: B =>
    let (insts, n) := visitInstruction n I
    let (rest, n) := visitBlock n B
    (insts ++ rest, n)

/-- The blocks of a function. -/
def visitBlocks (n : ℕ) :
    List (List (Instruction Op Other Leaf ℕ)) → List (List (NewInst Op Other Leaf))
  | [] => []
  | B :: Bs =>
    let (B, n) := visitBlock n B
    B :: visitBlocks n Bs

/-- `CEI.visit(F)`. -/
def constExprToInsts (F : Func Op Other Leaf) : List (List (NewInst Op Other Leaf)) :=
  visitBlocks 0 F.blocks

/-! ## What a function does -/

/-- The meaning of opcodes: a value for each leaf, what an operation computes, if it does not trap, and
    what any other instruction does to the state `S`, which may choose a successor. -/
structure Sem (Op Other Leaf V S : Type) where
  leaf : Leaf → V
  expr : Op → List V → Option V
  other : Other → List V → S → Option (V × S × Option ℕ)

variable {V S : Type}

mutual

/-- The value of a constant. -/
def Constant.eval (sem : Sem Op Other Leaf V S) : Constant Op Leaf → Option V
  | .leaf c => some (sem.leaf c)
  | .expr op operands => (evalConstants sem operands).bind (sem.expr op)

/-- The values of some constants. -/
def evalConstants (sem : Sem Op Other Leaf V S) : List (Constant Op Leaf) → Option (List V)
  | [] => some []
  | c :: cs => do
    let v ← Constant.eval sem c
    let vs ← evalConstants sem cs
    some (v :: vs)

end

section Run

variable [DecidableEq ι] (sem : Sem Op Other Leaf V S)

/-- The value of an operand, if the instructions have values `env`. -/
def Operand.eval (env : ι → Option V) : Operand Op Leaf ι → Option V
  | .const c => c.eval sem
  | .inst I => env I

/-- The values of the instructions, the state, and the block that comes next. -/
structure Config (ι V S : Type) where
  env : ι → Option V
  state : S
  next : Option ℕ

/-- An instruction that is no PHI node; those have their values when the block is entered. -/
def Instruction.exec (I : Instruction Op Other Leaf ι) (c : Config ι V S) : Option (Config ι V S) :=
  match I.code with
  | .phi _ => some c
  | .expr op => do
    let vs ← I.operands.mapM (Operand.eval sem c.env)
    let v ← sem.expr op vs
    some { c with env := Function.update c.env I.id (some v) }
  | .other x => do
    let vs ← I.operands.mapM (Operand.eval sem c.env)
    let (v, state, choice) ← sem.other x vs c.state
    some ⟨Function.update c.env I.id (some v), state, choice.bind (I.succs[·]?)⟩

/-- Instructions, one after the other. -/
def execBody (B : List (Instruction Op Other Leaf ι)) (c : Config ι V S) : Option (Config ι V S) :=
  B.foldlM (fun c I => I.exec sem c) c

/-- The value of a PHI node when its block is entered from `prev`. -/
def Instruction.incoming? (prev : Option ℕ) (env : ι → Option V) (I : Instruction Op Other Leaf ι) :
    Option V :=
  match I.code with
  | .phi incoming => do
    let P ← prev
    let op ← I.operands[incoming.idxOf P]?
    op.eval sem env
  | _ => env I.id

/-- The PHI nodes of a block take their values at once. -/
def enter (prev : Option ℕ) (B : List (Instruction Op Other Leaf ι)) (env : ι → Option V) :
    ι → Option V :=
  B.foldl (fun env' I => Function.update env' I.id (I.incoming? sem prev env)) env

/-- One block of a run, entered from `prev`. -/
def execBlock (blocks : List (List (Instruction Op Other Leaf ι))) (prev : Option ℕ)
    (c : Config ι V S) : Option (Config ι V S) := do
  let cur ← c.next
  let B ← blocks[cur]?
  execBody sem B { c with env := enter sem prev B c.env, next := none }

/-- The first `n` blocks of a run from the entry block. -/
def run (blocks : List (List (Instruction Op Other Leaf ι))) (state : S) :
    ℕ → Option (Option ℕ × Config ι V S)
  | 0 => some (none, ⟨fun _ => none, state, some 0⟩)
  | n + 1 => do
    let (prev, c) ← run blocks state n
    let c' ← execBlock sem blocks prev c
    some (c.next, c')

end Run

/-! ## Soundness -/

/-- No operand is a constant expression. -/
def Instruction.Plain (I : Instruction Op Other Leaf ι) : Prop :=
  ∀ op es, Operand.const (.expr op es) ∉ I.operands

/-- The blocks of a path from the entry. -/
def IsPath (blocks : List (List (Instruction Op Other Leaf ι))) (path : List ℕ) : Prop :=
  path.head? = some 0 ∧
    path.IsChain fun b b' => ∃ B, blocks[b]? = some B ∧ ∃ I ∈ B, b' ∈ I.succs

/-- Every path from the entry that ends with the instructions `done` of block `b` computes `d`. -/
def Available (blocks : List (List (Instruction Op Other Leaf ι))) (d : ι) (b : ℕ)
    (done : List (Instruction Op Other Leaf ι)) : Prop :=
  ∀ path, IsPath blocks (path ++ [b]) →
    (∃ a ∈ path, ∃ B, blocks[a]? = some B ∧ ∃ I ∈ B, I.id = d) ∨ ∃ I ∈ done, I.id = d

/-- `d` dominates its use as operand `i` of instruction `m` of block `b`. -/
def Dominates (blocks : List (List (Instruction Op Other Leaf ι))) (d : ι) (b m i : ℕ) : Prop :=
  ∀ B J, blocks[b]? = some B → B[m]? = some J →
    match J.code with
    | .phi incoming => ∀ P B', incoming[i]? = some P → blocks[P]? = some B' → Available blocks d P B'
    | _ => Available blocks d b (B.take m)

/-- What the old instructions compute. -/
def Config.old (c : Config NewId V S) : Config ℕ V S :=
  ⟨fun I => c.env (.inl I), c.state, c.next⟩

/-- `blocks` is `F` with its constant expressions expanded. -/
structure Expanded (F : Func Op Other Leaf) (blocks : List (List (NewInst Op Other Leaf))) : Prop where
  plain : ∀ B ∈ blocks, ∀ I ∈ B, I.Plain
  phisFirst : ∀ B ∈ blocks, PhisFirst B
  dominates : ∀ b B m J i k, blocks[b]? = some B → B[m]? = some J →
    J.operands[i]? = some (.inst (.inr k)) → Dominates blocks (.inr k) b m i
  /-- Every run takes the same blocks, and leaves the same values and the same state. -/
  sameRun : ∀ (V S : Type) (sem : Sem Op Other Leaf V S) (state : S) (n : ℕ),
    (run sem blocks state n).map (fun r => (r.1, r.2.old)) = run sem F.blocks state n

/-! ## What the new instructions compute -/

section Computes

variable (sem : Sem Op Other Leaf V S)

theorem execBody_append [DecidableEq ι] (B B' : List (Instruction Op Other Leaf ι))
    (c : Config ι V S) : execBody sem (B ++ B') c = (execBody sem B c).bind (execBody sem B') := by
  unfold execBody
  rw [List.foldlM_append]
  rfl

/-- The old instructions and the first `n` new ones have the same values. -/
def Agree (n : ℕ) (env env' : NewId → Option V) : Prop :=
  (∀ I, env' (.inl I) = env (.inl I)) ∧ ∀ k < n, env' (.inr k) = env (.inr k)

theorem Agree.refl (n : ℕ) (env : NewId → Option V) : Agree n env env :=
  ⟨fun _ => rfl, fun _ _ => rfl⟩

theorem Agree.trans {n n' : ℕ} {env env' env'' : NewId → Option V} (h : Agree n env env')
    (h' : Agree n' env' env'') (hn : n ≤ n') : Agree n env env'' := by
  refine ⟨fun I => ?_, fun k hk => ?_⟩
  · rw [h'.1 I, h.1 I]
  · rw [h'.2 k (lt_of_lt_of_le hk hn), h.2 k hk]

/-- From the values `x` of the old instructions, `code` computes `value`, in new instructions from `n`
    up to `n'`, or it traps and there is no value. -/
structure Computes {α : Type} (n n' : ℕ) (code : List (NewInst Op Other Leaf))
    (value : (NewId → Option V) → Option α) (x : (ℕ → Option V) → Option α) : Prop where
  le : n ≤ n'
  leaves : ∀ c : Config NewId V S,
    (execBody sem code c = none ∧ (x fun I => c.env (.inl I)) = none) ∨
    ∃ env, execBody sem code c = some { c with env := env } ∧ Agree n c.env env ∧
      ∀ env', Agree n' env env' → value env' = x fun I => c.env (.inl I)

variable {sem} {α β γ : Type} {n n' n'' : ℕ} {code code' : List (NewInst Op Other Leaf)}
  {value : (NewId → Option V) → Option α} {x : (ℕ → Option V) → Option α}
  {value' : (NewId → Option V) → Option β} {x' : (ℕ → Option V) → Option β}

/-- A value that needs no instruction. -/
theorem Computes.nothing (h : ∀ env : NewId → Option V, value env = x fun I => env (.inl I)) :
    Computes sem n n [] value x := by
  refine ⟨le_rfl, fun c => Or.inr ⟨c.env, rfl, Agree.refl n c.env, fun env' henv => ?_⟩⟩
  have hsame : (fun I => env' (.inl I)) = fun I => c.env (.inl I) := funext henv.1
  rw [h env', hsame]

/-- One after the other. -/
theorem Computes.append (g : α → β → γ) (h : Computes sem n n' code value x)
    (h' : Computes sem n' n'' code' value' x') :
    Computes sem n n'' (code ++ code')
      (fun env => (value env).bind fun v => (value' env).map (g v))
      (fun env => (x env).bind fun v => (x' env).map (g v)) := by
  refine ⟨le_trans h.le h'.le, fun c => ?_⟩
  rw [execBody_append]
  obtain ⟨hexec, hx⟩ | ⟨env, hexec, hagree, hvalue⟩ := h.leaves c
  · exact Or.inl ⟨by rw [hexec, Option.bind_none], by rw [hx, Option.bind_none]⟩
  · have hsame : (fun I => env (.inl I)) = fun I => c.env (.inl I) := funext hagree.1
    have hleaves := h'.leaves { c with env := env }
    simp only [hsame] at hleaves
    rw [hexec, Option.bind_some]
    obtain ⟨hexec', hx'⟩ | ⟨env', hexec', hagree', hvalue'⟩ := hleaves
    · exact Or.inl ⟨hexec', by simp [hx']⟩
    · refine Or.inr ⟨env', hexec', hagree.trans hagree' h.le, fun env'' henv => ?_⟩
      rw [hvalue env'' (hagree'.trans henv h'.le), hvalue' env'' henv]

/-- `getAsInstruction` after its operands: new instruction `n` computes the constant expression. -/
theorem Computes.expr {op : Op} {operands : List (NewOperand Op Leaf)} {vs : Option (List V)}
    (h : Computes sem (n + 1) n' code (fun env => operands.mapM (Operand.eval sem env))
      fun _ => vs) :
    Computes sem n n' (code ++ [⟨.inr n, .expr op, operands, []⟩])
      (Operand.eval sem · (.inst (.inr n))) (fun _ => vs.bind (sem.expr op)) := by
  have hlt : n < n' := h.le
  refine ⟨by omega, fun c => ?_⟩
  rw [execBody_append]
  obtain ⟨hexec, hvs⟩ | ⟨env, hexec, hagree, hvalue⟩ := h.leaves c
  · exact Or.inl ⟨by rw [hexec, Option.bind_none], by rw [hvs, Option.bind_none]⟩
  · have hoperands := hvalue env (Agree.refl n' env)
    have hstep : execBody sem [(⟨.inr n, .expr op, operands, []⟩ : NewInst Op Other Leaf)]
        { c with env := env } = (vs.bind (sem.expr op)).map fun v =>
          { c with env := Function.update env (.inr n) (some v) } := by
      simp [execBody, Instruction.exec, hoperands, Option.map_eq_bind, Option.bind_assoc]
    rw [hexec, Option.bind_some, hstep]
    cases hv : vs.bind (sem.expr op) with
    | none => exact Or.inl ⟨rfl, rfl⟩
    | some v =>
      refine Or.inr ⟨Function.update env (.inr n) (some v), rfl, ⟨fun I => ?_, fun k hk => ?_⟩,
        fun env' henv => ?_⟩
      · rw [Function.update_of_ne (by simp), hagree.1 I]
      · rw [Function.update_of_ne (by simp; omega), hagree.2 k (by omega)]
      · show env' (.inr n) = some v
        rw [henv.2 n hlt, Function.update_self]

mutual

/-- A constant expression, of any depth. -/
theorem convertConstant_computes (sem : Sem Op Other Leaf V S) (n : ℕ) : ∀ c : Constant Op Leaf,
    Computes sem n (@convertConstant Op Other Leaf n c).2.2 (convertConstant n c).1
      (Operand.eval sem · (@convertConstant Op Other Leaf n c).2.1) (fun _ => c.eval sem)
  | .leaf c => by
    simp only [convertConstant]
    exact Computes.nothing fun _ => rfl
  | .expr op operands => by
    simp only [convertConstant, Constant.eval]
    exact (convertConstants_computes sem (n + 1) operands).expr

theorem convertConstants_computes (sem : Sem Op Other Leaf V S) (n : ℕ) :
    ∀ cs : List (Constant Op Leaf),
    Computes sem n (@convertConstants Op Other Leaf n cs).2.2 (convertConstants n cs).1
      (fun env => (@convertConstants Op Other Leaf n cs).2.1.mapM (Operand.eval sem env))
      (fun _ => evalConstants sem cs)
  | [] => by
    simp only [convertConstants]
    exact Computes.nothing fun _ => rfl
  | c :: cs => by
    simp only [convertConstants, evalConstants]
    have h := (convertConstant_computes sem n c).append List.cons
      (convertConstants_computes sem (@convertConstant Op Other Leaf n c).2.2 cs)
    simpa [List.mapM_cons, Option.map_eq_bind, Function.comp_def] using h

end

/-- The operands of an instruction. -/
theorem convertOperands_computes (sem : Sem Op Other Leaf V S) (n : ℕ)
    (ops : List (Operand Op Leaf ℕ)) :
    Computes sem n (@convertOperands Op Other Leaf n ops).2.2 (convertOperands n ops).1
      (fun env => (@convertOperands Op Other Leaf n ops).2.1.mapM (Operand.eval sem env))
      (fun env => ops.mapM (Operand.eval sem env)) := by
  induction ops generalizing n with
  | nil => exact Computes.nothing fun _ => rfl
  | cons op ops ih =>
    cases op with
    | inst I =>
      have hinst : Computes sem n n [] (Operand.eval sem · (.inst (.inl I)))
          (Operand.eval sem · (.inst I)) :=
        Computes.nothing fun _ => rfl
      have h := hinst.append List.cons (ih n)
      simpa [convertOperands, List.mapM_cons, Option.map_eq_bind, Function.comp_def] using h
    | const c =>
      have h := (convertConstant_computes sem n c).append List.cons
        (ih (@convertConstant Op Other Leaf n c).2.2)
      simpa [convertOperands, List.mapM_cons, Option.map_eq_bind, Function.comp_def,
        Operand.eval] using h

/-- An instruction does what it did if its operands have the values that they had. -/
theorem exec_old (sem : Sem Op Other Leaf V S) (I : Instruction Op Other Leaf ℕ)
    (operands : List (NewOperand Op Leaf)) (c : Config NewId V S)
    (h : operands.mapM (Operand.eval sem c.env) = I.operands.mapM (Operand.eval sem c.old.env)) :
    (Instruction.exec sem ⟨.inl I.id, I.code, operands, I.succs⟩ c).map Config.old =
      I.exec sem c.old := by
  have hupdate : ∀ v, (fun J => Function.update c.env (.inl I.id) (some v) (.inl J)) =
      Function.update c.old.env I.id (some v) := by
    intro v
    funext J
    by_cases hJ : J = I.id
    · rw [hJ, Function.update_self, Function.update_self]
    · rw [Function.update_of_ne hJ, Function.update_of_ne (by simpa using hJ)]
      rfl
  unfold Instruction.exec
  cases I.code with
  | phi incoming => rfl
  | expr op =>
    simp only [h]
    cases hvs : I.operands.mapM (Operand.eval sem c.old.env) with
    | none => rfl
    | some vs =>
      cases hv : sem.expr op vs with
      | none => simp [hv]
      | some v =>
        show Option.map Config.old ((sem.expr op vs).bind _) = (sem.expr op vs).bind _
        rw [hv]
        exact congrArg (fun env => some (Config.mk env c.state c.next)) (hupdate v)
  | other x =>
    simp only [h]
    cases hvs : I.operands.mapM (Operand.eval sem c.old.env) with
    | none => rfl
    | some vs =>
      cases hv : sem.other x vs c.state with
      | none => simp [hv, Config.old]
      | some r =>
        show Option.map Config.old ((sem.other x vs c.state).bind _) = (sem.other x vs c.state).bind _
        rw [hv]
        exact congrArg (fun env => some (Config.mk env r.2.1 (r.2.2.bind (I.succs[·]?))))
          (hupdate r.1)

/-- So a converted instruction does what it did, unless it is a PHI node. -/
theorem visitInstruction_exec (sem : Sem Op Other Leaf V S) (n : ℕ)
    (I : Instruction Op Other Leaf ℕ) (h : I.isPhi = false) (c : Config NewId V S) :
    (execBody sem (visitInstruction n I).1 c).map Config.old = I.exec sem c.old := by
  rw [visitInstruction, execBody_append]
  obtain ⟨hexec, hx⟩ | ⟨env, hexec, hagree, hvalue⟩ :=
    (convertOperands_computes sem n I.operands).leaves c
  · have hold : I.operands.mapM (Operand.eval sem c.old.env) = none := hx
    have hnone : I.exec sem c.old = none := by
      unfold Instruction.exec
      unfold Instruction.isPhi at h
      cases hcode : I.code with
      | phi incoming => simp [hcode] at h
      | expr op => simp [hold]
      | other x => simp [hold]
    rw [hexec, hnone]
    rfl
  · have hsame : ({ c with env := env } : Config NewId V S).old = c.old := by
      unfold Config.old
      rw [show (fun I => env (.inl I)) = fun I => c.env (.inl I) from funext hagree.1]
    have hold := exec_old sem I (@convertOperands Op Other Leaf n I.operands).2.1
      { c with env := env } (by rw [hsame]; exact hvalue env (Agree.refl _ env))
    rw [hsame] at hold
    rw [hexec, ← hold]
    simp [execBody]

/-! ## Blocks -/

/-- Operands without constant expressions only change the names of instructions. -/
def Operand.rename : Operand Op Leaf ℕ → NewOperand Op Leaf
  | .const c => .const c
  | .inst I => .inst (.inl I)

theorem convertOperands_plain (n : ℕ) (ops : List (Operand Op Leaf ℕ))
    (h : ∀ op es, Operand.const (.expr op es) ∉ ops) :
    @convertOperands Op Other Leaf n ops = ([], ops.map Operand.rename, n) := by
  induction ops with
  | nil => rfl
  | cons op ops ih =>
    have htail := ih fun op' es hmem => h op' es (List.mem_cons_of_mem op hmem)
    match op with
    | .inst I => simp [convertOperands, htail, Operand.rename]
    | .const (.leaf c) => simp [convertOperands, convertConstant, htail, Operand.rename]
    | .const (.expr op' es) => exact absurd List.mem_cons_self (h op' es)

/-- A PHI node without constant expressions is not preceded by anything. -/
theorem visitInstruction_plain (n : ℕ) (I : Instruction Op Other Leaf ℕ) (h : I.Plain) :
    visitInstruction n I = ([⟨.inl I.id, I.code, I.operands.map Operand.rename, I.succs⟩], n) := by
  rw [visitInstruction, convertOperands_plain n I.operands h]
  rfl

/-- No PHI node has a constant expression among its operands. -/
def PlainPhis (B : List (Instruction Op Other Leaf ι)) : Prop :=
  ∀ I ∈ B, I.isPhi = true → I.Plain

theorem visitBlock_exec (sem : Sem Op Other Leaf V S) (B : List (Instruction Op Other Leaf ℕ))
    (h : PlainPhis B) (n : ℕ) (c : Config NewId V S) :
    (execBody sem (visitBlock n B).1 c).map Config.old = execBody sem B c.old := by
  induction B generalizing n c with
  | nil => rfl
  | cons I B ih =>
    have hI : (execBody sem (visitInstruction n I).1 c).map Config.old = I.exec sem c.old := by
      by_cases hphi : I.isPhi = true
      · rw [visitInstruction_plain n I (h I List.mem_cons_self hphi)]
        unfold Instruction.isPhi at hphi
        cases hcode : I.code with
        | phi incoming => simp [execBody, Instruction.exec, hcode]
        | expr op => simp [hcode] at hphi
        | other x => simp [hcode] at hphi
      · exact visitInstruction_exec sem n I (by simpa using hphi) c
    have hB := ih fun J hJ => h J (List.mem_cons_of_mem I hJ)
    simp only [visitBlock]
    rw [execBody_append]
    show _ = (I.exec sem c.old).bind (execBody sem B)
    rw [← hI]
    cases execBody sem (visitInstruction n I).1 c with
    | none => rfl
    | some c' => exact hB _ c'

end Computes

/-! ## Where the new instructions stand -/

/-- The new instructions that an instruction uses come before it. -/
def Ordered (code : List (NewInst Op Other Leaf)) : Prop :=
  ∀ m J, code[m]? = some J → ∀ k, .inst (.inr k) ∈ J.operands → ∃ I ∈ code.take m, I.id = .inr k

/-- `code` is made of new instructions, and computes the operands that are new. -/
structure Expansion (code : List (NewInst Op Other Leaf)) (operands : List (NewOperand Op Leaf)) :
    Prop where
  new : ∀ J ∈ code, (∃ k, J.id = .inr k) ∧ J.isPhi = false ∧ J.Plain
  ordered : Ordered code
  plain : ∀ op es, Operand.const (.expr op es) ∉ operands
  computed : ∀ k, .inst (.inr k) ∈ operands → ∃ I ∈ code, I.id = .inr k

theorem Ordered.append {code code' : List (NewInst Op Other Leaf)} (h : Ordered code)
    (h' : Ordered code') : Ordered (code ++ code') := by
  intro m J hJ k hk
  rw [List.take_append]
  by_cases hm : m < code.length
  · rw [List.getElem?_append_left hm] at hJ
    obtain ⟨I, hI, hid⟩ := h m J hJ k hk
    exact ⟨I, List.mem_append_left _ hI, hid⟩
  · rw [List.getElem?_append_right (by omega)] at hJ
    obtain ⟨I, hI, hid⟩ := h' _ J hJ k hk
    exact ⟨I, List.mem_append_right _ hI, hid⟩

theorem Ordered.snoc {code : List (NewInst Op Other Leaf)} (h : Ordered code)
    {J : NewInst Op Other Leaf}
    (hJ : ∀ k, .inst (.inr k) ∈ J.operands → ∃ I ∈ code, I.id = .inr k) :
    Ordered (code ++ [J]) := by
  intro m K hK k hk
  rw [List.take_append]
  by_cases hm : m < code.length
  · rw [List.getElem?_append_left hm] at hK
    obtain ⟨I, hI, hid⟩ := h m K hK k hk
    exact ⟨I, List.mem_append_left _ hI, hid⟩
  · rw [List.getElem?_append_right (by omega)] at hK
    obtain ⟨hlt, rfl⟩ := List.getElem?_eq_some_iff.mp hK
    obtain ⟨I, hI, hid⟩ := hJ k (by simpa using hk)
    rw [List.take_of_length_le (by omega)]
    exact ⟨I, List.mem_append_left _ hI, hid⟩

theorem Expansion.nothing {operand : NewOperand Op Leaf}
    (h : ∀ op es, operand ≠ .const (.expr op es)) (h' : ∀ k, operand ≠ .inst (.inr k)) :
    Expansion ([] : List (NewInst Op Other Leaf)) [operand] := by
  refine ⟨by simp, by simp [Ordered], fun op es hmem => ?_, fun k hmem => ?_⟩
  · exact h op es (List.mem_singleton.mp hmem).symm
  · exact absurd (List.mem_singleton.mp hmem).symm (h' k)

theorem Expansion.append {code code' : List (NewInst Op Other Leaf)}
    {operands operands' : List (NewOperand Op Leaf)} (h : Expansion code operands)
    (h' : Expansion code' operands') : Expansion (code ++ code') (operands ++ operands') := by
  refine ⟨fun J hJ => ?_, h.ordered.append h'.ordered, fun op es hmem => ?_, fun k hmem => ?_⟩
  · exact (List.mem_append.mp hJ).elim (h.new J) (h'.new J)
  · exact (List.mem_append.mp hmem).elim (h.plain op es) (h'.plain op es)
  · obtain hk | hk := List.mem_append.mp hmem
    · obtain ⟨I, hI, hid⟩ := h.computed k hk
      exact ⟨I, List.mem_append_left _ hI, hid⟩
    · obtain ⟨I, hI, hid⟩ := h'.computed k hk
      exact ⟨I, List.mem_append_right _ hI, hid⟩

theorem Expansion.expr {code : List (NewInst Op Other Leaf)} {operands : List (NewOperand Op Leaf)}
    (h : Expansion code operands) (n : ℕ) (op : Op) :
    Expansion (code ++ [⟨.inr n, .expr op, operands, []⟩]) [.inst (.inr n)] := by
  refine ⟨fun J hJ => ?_, h.ordered.snoc h.computed, by simp, fun k hmem => ?_⟩
  · obtain hJ | hJ := List.mem_append.mp hJ
    · exact h.new J hJ
    · obtain rfl := List.mem_singleton.mp hJ
      exact ⟨⟨n, rfl⟩, rfl, h.plain⟩
  · have hk : k = n := by simpa using hmem
    exact ⟨_, List.mem_append_right _ List.mem_cons_self, by rw [hk]⟩

mutual

theorem convertConstant_expansion (n : ℕ) : ∀ c : Constant Op Leaf,
    Expansion (@convertConstant Op Other Leaf n c).1 [(@convertConstant Op Other Leaf n c).2.1]
  | .leaf c => Expansion.nothing (by simp [convertConstant]) (by simp [convertConstant])
  | .expr op operands => by
    simp only [convertConstant]
    exact (convertConstants_expansion (n + 1) operands).expr n op

theorem convertConstants_expansion (n : ℕ) : ∀ cs : List (Constant Op Leaf),
    Expansion (@convertConstants Op Other Leaf n cs).1 (@convertConstants Op Other Leaf n cs).2.1
  | [] => by
    simp only [convertConstants]
    exact ⟨by simp, by simp [Ordered], by simp, by simp⟩
  | c :: cs => by
    simp only [convertConstants]
    exact (convertConstant_expansion n c).append (convertConstants_expansion _ cs)

end

theorem convertOperands_expansion (n : ℕ) (ops : List (Operand Op Leaf ℕ)) :
    Expansion (@convertOperands Op Other Leaf n ops).1 (@convertOperands Op Other Leaf n ops).2.1 := by
  induction ops generalizing n with
  | nil =>
    exact ⟨by simp [convertOperands], by simp [Ordered, convertOperands], by simp [convertOperands],
      by simp [convertOperands]⟩
  | cons op ops ih =>
    cases op with
    | inst I =>
      simp only [convertOperands]
      exact (Expansion.nothing (by simp) (by simp)).append (ih n)
    | const c =>
      simp only [convertOperands]
      exact (convertConstant_expansion n c).append (ih _)

/-- A constant expression takes at least one instruction. -/
theorem convertOperands_ne_nil (n : ℕ) (ops : List (Operand Op Leaf ℕ)) {op : Op}
    {es : List (Constant Op Leaf)} (h : .const (.expr op es) ∈ ops) :
    (@convertOperands Op Other Leaf n ops).1 ≠ [] := by
  induction ops generalizing n with
  | nil => simp at h
  | cons o ops ih =>
    match o, List.mem_cons.mp h with
    | .inst I, .inr h => simpa [convertOperands] using ih n h
    | .const (.leaf c), .inr h => simpa [convertOperands, convertConstant] using ih n h
    | .const (.expr op' es'), _ => simp [convertOperands, convertConstant]

theorem visitInstruction_ordered (n : ℕ) (I : Instruction Op Other Leaf ℕ) :
    Ordered (visitInstruction n I).1 :=
  (convertOperands_expansion n I.operands).ordered.snoc
    (convertOperands_expansion n I.operands).computed

/-- A converted instruction stands last; those before it are new. -/
theorem mem_visitInstruction {n : ℕ} {I : Instruction Op Other Leaf ℕ} {J : NewInst Op Other Leaf}
    (h : J ∈ (visitInstruction n I).1) : J.Plain ∧ (J.isPhi = true → I.isPhi = true) := by
  have hexp := @convertOperands_expansion Op Other Leaf n I.operands
  obtain h | h := List.mem_append.mp h
  · obtain ⟨-, hphi, hplain⟩ := hexp.new J h
    exact ⟨hplain, by simp [hphi]⟩
  · obtain rfl := List.mem_singleton.mp h
    exact ⟨hexp.plain, id⟩

theorem mem_visitBlock {B : List (Instruction Op Other Leaf ℕ)} {n : ℕ} {J : NewInst Op Other Leaf}
    (h : J ∈ (visitBlock n B).1) : ∃ I ∈ B, ∃ n', J ∈ (visitInstruction n' I).1 := by
  induction B generalizing n with
  | nil => simp [visitBlock] at h
  | cons I B ih =>
    obtain h | h := List.mem_append.mp h
    · exact ⟨I, List.mem_cons_self, n, h⟩
    · obtain ⟨K, hK, hJ⟩ := ih h
      exact ⟨K, List.mem_cons_of_mem I hK, hJ⟩

theorem visitBlock_ordered (B : List (Instruction Op Other Leaf ℕ)) (n : ℕ) :
    Ordered (visitBlock n B).1 := by
  induction B generalizing n with
  | nil => simp [visitBlock, Ordered]
  | cons I B ih => exact (visitInstruction_ordered n I).append (ih _)

theorem visitBlock_phisFirst {B : List (Instruction Op Other Leaf ℕ)} (hB : PhisFirst B)
    (hplain : PlainPhis B) (n : ℕ) : PhisFirst (visitBlock n B).1 := by
  induction B generalizing n with
  | nil => exact List.Pairwise.nil
  | cons I B ih =>
    obtain ⟨hI, hB⟩ := List.pairwise_cons.mp hB
    have hrest := ih hB (fun J hJ => hplain J (List.mem_cons_of_mem I hJ)) (visitInstruction n I).2
    by_cases hphi : I.isPhi = true
    · simp only [visitBlock, visitInstruction_plain n I (hplain I List.mem_cons_self hphi)]
        at hrest ⊢
      exact List.Pairwise.cons (fun J _ _ => hphi) hrest
    · have hnone : ∀ J ∈ (visitBlock n (I :: B)).1, ¬ J.isPhi = true := by
        intro J hJ hJphi
        obtain ⟨K, hK, n', hJ⟩ := mem_visitBlock hJ
        have hKphi := (mem_visitInstruction hJ).2 hJphi
        obtain rfl | hK := List.mem_cons.mp hK
        · exact hphi hKphi
        · exact hphi (hI K hK hKphi)
      exact List.pairwise_of_forall_mem_list fun J _ K hK hKphi => absurd hKphi (hnone K hK)

/-- Where a PHI node has a constant expression, the block is ill formed. -/
theorem plainPhis_of_phisFirst {B : List (Instruction Op Other Leaf ℕ)} {n : ℕ}
    (h : PhisFirst (visitBlock n B).1) : PlainPhis B := by
  induction B generalizing n with
  | nil => simp [PlainPhis]
  | cons I B ih =>
    obtain ⟨hI, hB, -⟩ := List.pairwise_append.mp h
    intro J hJ hphi
    obtain rfl | hJ := List.mem_cons.mp hJ
    · intro op es hmem
      obtain ⟨-, -, hpairs⟩ := List.pairwise_append.mp hI
      obtain ⟨K, hK⟩ := List.exists_mem_of_ne_nil _ (convertOperands_ne_nil n J.operands hmem)
      have hKphi := hpairs K hK _ List.mem_cons_self hphi
      obtain ⟨-, hnot, -⟩ := (convertOperands_expansion n J.operands).new K hK
      exact Bool.false_ne_true (hnot.symm.trans hKphi)
    · exact ih hB J hJ hphi

/-! ## Runs -/

section Runs

variable (sem : Sem Op Other Leaf V S)

/-- Instructions that are new change no old value on entry. -/
theorem enter_new (prev : Option ℕ) (env acc : NewId → Option V)
    (code : List (NewInst Op Other Leaf)) (h : ∀ J ∈ code, ∃ k, J.id = .inr k) (I : ℕ) :
    code.foldl (fun env' J => Function.update env' J.id (J.incoming? sem prev env)) acc (.inl I) =
      acc (.inl I) := by
  induction code generalizing acc with
  | nil => rfl
  | cons J code ih =>
    obtain ⟨k, hk⟩ := h J List.mem_cons_self
    rw [List.foldl_cons, ih _ fun K hK => h K (List.mem_cons_of_mem J hK), hk,
      Function.update_of_ne (by simp)]

theorem rename_eval (env : NewId → Option V) (op : Operand Op Leaf ℕ) :
    op.rename.eval sem env = op.eval sem fun I => env (.inl I) := by
  cases op <;> rfl

/-- An old instruction has the same value on entry. -/
theorem incoming_old (prev : Option ℕ) (env : NewId → Option V) (n : ℕ)
    (I : Instruction Op Other Leaf ℕ) (h : I.isPhi = true → I.Plain) :
    Instruction.incoming? sem prev env
        ⟨.inl I.id, I.code, (@convertOperands Op Other Leaf n I.operands).2.1, I.succs⟩ =
      I.incoming? sem prev fun I => env (.inl I) := by
  unfold Instruction.incoming?
  unfold Instruction.isPhi at h
  cases hcode : I.code with
  | phi incoming =>
    rw [convertOperands_plain n I.operands (h (by simp [hcode]))]
    cases prev with
    | none => rfl
    | some P =>
      cases hop : I.operands[incoming.idxOf P]? with
      | none => simp [hop]
      | some op => simp [hop, rename_eval]
  | expr op => rfl
  | other x => rfl

theorem enter_visitBlock (prev : Option ℕ) (env : NewId → Option V)
    (B : List (Instruction Op Other Leaf ℕ)) (h : PlainPhis B) (n : ℕ) (acc : NewId → Option V) :
    (fun I => (visitBlock n B).1.foldl
        (fun env' J => Function.update env' J.id (J.incoming? sem prev env)) acc (.inl I)) =
      B.foldl (fun env' J => Function.update env' J.id (J.incoming? sem prev fun I => env (.inl I)))
        fun I => acc (.inl I) := by
  induction B generalizing n acc with
  | nil => rfl
  | cons I B ih =>
    simp only [visitBlock, List.foldl_append, List.foldl_cons, visitInstruction, List.foldl_nil]
    rw [ih fun J hJ => h J (List.mem_cons_of_mem I hJ)]
    rw [incoming_old sem prev env n I (h I List.mem_cons_self)]
    congr 1
    funext J
    by_cases hJ : J = I.id
    · rw [hJ, Function.update_self, Function.update_self]
    · rw [Function.update_of_ne hJ, Function.update_of_ne (by simpa using hJ)]
      exact enter_new sem prev env acc _
        (fun K hK => ((convertOperands_expansion n I.operands).new K hK).1) J

theorem visitBlocks_getElem? (Bs : List (List (Instruction Op Other Leaf ℕ))) (n b : ℕ) :
    ∃ n', (visitBlocks n Bs)[b]? = (Bs[b]?).map fun B => (visitBlock n' B).1 := by
  induction Bs generalizing n b with
  | nil => exact ⟨n, by simp [visitBlocks]⟩
  | cons B Bs ih =>
    cases b with
    | zero => exact ⟨n, by simp [visitBlocks]⟩
    | succ b =>
      obtain ⟨n', h⟩ := ih (visitBlock n B).2 b
      exact ⟨n', by simpa [visitBlocks] using h⟩

theorem execBlock_old {Bs : List (List (Instruction Op Other Leaf ℕ))}
    (h : ∀ B ∈ Bs, PlainPhis B) (n : ℕ) (prev : Option ℕ) (c : Config NewId V S) :
    (execBlock sem (visitBlocks n Bs) prev c).map Config.old = execBlock sem Bs prev c.old := by
  unfold execBlock
  cases hcur : c.next with
  | none => simp [Config.old, hcur]
  | some cur =>
    obtain ⟨n', hblock⟩ := visitBlocks_getElem? Bs n cur
    have hnext : c.old.next = some cur := hcur
    simp only [hnext, Option.bind_eq_bind, Option.bind_some]
    cases hB : Bs[cur]? with
    | none => simp [hblock, hB]
    | some B =>
      have hplain := h B (List.mem_of_getElem? hB)
      simp only [hblock, hB, Option.map_some, Option.bind_some]
      rw [visitBlock_exec sem B hplain n']
      have henter : (fun I => enter sem prev (visitBlock n' B).1 c.env (.inl I)) =
          enter sem prev B c.old.env := enter_visitBlock sem prev c.env B hplain n' c.env
      rw [Config.old, henter]
      rfl

theorem run_old {Bs : List (List (Instruction Op Other Leaf ℕ))} (h : ∀ B ∈ Bs, PlainPhis B)
    (state : S) (n : ℕ) :
    (run sem (visitBlocks 0 Bs) state n).map (fun r => (r.1, r.2.old)) = run sem Bs state n := by
  induction n with
  | zero => rfl
  | succ n ih =>
    simp only [run, ← ih]
    cases hrun : run sem (visitBlocks 0 Bs) state n with
    | none => rfl
    | some r =>
      obtain ⟨prev, c⟩ := r
      simp only [Option.bind_eq_bind, Option.bind_some, Option.map_some]
      rw [← execBlock_old sem h 0 prev c]
      cases execBlock sem (visitBlocks 0 Bs) prev c with
      | none => rfl
      | some c' => rfl

end Runs

/-- A PHI node without constant expressions uses no new instruction. -/
theorem not_new_of_isPhi {n : ℕ} {I : Instruction Op Other Leaf ℕ} {J : NewInst Op Other Leaf}
    (hplain : I.isPhi = true → I.Plain) (h : J ∈ (visitInstruction n I).1) (hphi : J.isPhi = true)
    (k : ℕ) : .inst (.inr k) ∉ J.operands := by
  have hI := (mem_visitInstruction h).2 hphi
  rw [visitInstruction_plain n I (hplain hI)] at h
  obtain rfl := List.mem_singleton.mp h
  intro hk
  obtain ⟨op, -, hop⟩ := List.mem_map.mp hk
  cases op with
  | const c => simp [Operand.rename] at hop
  | inst I => simp [Operand.rename] at hop

theorem mem_visitBlocks {Bs : List (List (Instruction Op Other Leaf ℕ))} {n : ℕ}
    {B' : List (NewInst Op Other Leaf)} (h : B' ∈ visitBlocks n Bs) :
    ∃ B ∈ Bs, ∃ n', B' = (visitBlock n' B).1 := by
  obtain ⟨b, hb⟩ := List.mem_iff_getElem?.mp h
  obtain ⟨n', hblock⟩ := visitBlocks_getElem? Bs n b
  obtain ⟨B, hB, rfl⟩ := Option.map_eq_some_iff.mp (hblock.symm.trans hb)
  exact ⟨B, List.mem_of_getElem? hB, n', rfl⟩

/-- `ConstExprToInsts` is sound for a function iff none of its PHI nodes has a constant expression
    among its operands: such an expression becomes an instruction in front of the PHI node. -/
theorem expanded_iff (F : Func Op Other Leaf) :
    Expanded F (constExprToInsts F) ↔ ∀ B ∈ F.blocks, PlainPhis B := by
  constructor
  · intro h B hB
    obtain ⟨b, hb⟩ := List.mem_iff_getElem?.mp hB
    obtain ⟨n, hblock⟩ := visitBlocks_getElem? F.blocks 0 b
    rw [hb] at hblock
    exact plainPhis_of_phisFirst (h.phisFirst _ (List.mem_of_getElem? hblock))
  · intro h
    refine ⟨fun B' hB' I hI => ?_, fun B' hB' => ?_, ?_, fun V S sem state n => ?_⟩
    · obtain ⟨B, hB, n, rfl⟩ := mem_visitBlocks hB'
      obtain ⟨K, hK, n', hI⟩ := mem_visitBlock hI
      exact (mem_visitInstruction hI).1
    · obtain ⟨B, hB, n, rfl⟩ := mem_visitBlocks hB'
      exact visitBlock_phisFirst (F.phisFirst B hB) (h B hB) n
    · intro b B' m J i k hB' hJ hk C K hC hK
      obtain rfl : B' = C := Option.some.inj (hB'.symm.trans hC)
      obtain rfl : J = K := Option.some.inj (hJ.symm.trans hK)
      obtain ⟨B, hB, n, rfl⟩ := mem_visitBlocks (List.mem_of_getElem? hB')
      obtain ⟨I, hI, n', hmem⟩ := mem_visitBlock (List.mem_of_getElem? hJ)
      have huse := List.mem_of_getElem? hk
      have hearlier := visitBlock_ordered B n m J hJ k huse
      cases hcode : J.code with
      | phi incoming =>
        exact absurd huse (not_new_of_isPhi (h B hB I hI) hmem (by simp [Instruction.isPhi, hcode]) k)
      | expr op => exact fun path _ => Or.inr hearlier
      | other x => exact fun path _ => Or.inr hearlier
    · exact run_old sem h state n

/-- `x = phi [ptrtoint (@g), entry]`. -/
def phiOfGlobal : Func String String String where
  blocks :=
    [[⟨0, .other "br", [], [1]⟩],
      [⟨1, .phi [0], [.const (.expr "ptrtoint" [.leaf "@g"])], []⟩,
        ⟨2, .other "ret", [.inst 1], []⟩]]
  phisFirst := by decide

/-- The conversion of `@g` stands before the PHI node in its block. -/
theorem not_expanded_phiOfGlobal : ¬ Expanded phiOfGlobal (constExprToInsts phiOfGlobal) := by
  intro h
  have hblock := h.phisFirst (visitBlock 0 phiOfGlobal.blocks[1]).1
    (List.mem_cons_of_mem _ List.mem_cons_self)
  have hplain := plainPhis_of_phisFirst hblock _ List.mem_cons_self rfl
  exact hplain "ptrtoint" [.leaf "@g"] List.mem_cons_self

end SwppCompiler.Backend.ConstExpr
