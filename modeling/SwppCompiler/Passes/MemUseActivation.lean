import SwppCompiler.Passes.MemUseOptimization
import Mathlib

/-!
# When `MemUseOptimization` is active

Model of `MemUseOptimization::run` (`src/passes/MemUseOptimization.cpp`, lines 12–154): the lookup of
the functions, the scan, and the rewriting of `main`, call by call. The scan compares callees with
`FreeFn` also if nothing was assigned to it; the other functions are null before the lookup (line 21).

* `rewriteAll_eq`: however the calls lie in the blocks, splitting at one after the other gives each
  block cut at its calls.
* `activates_iff`: the pass does what it should iff `main` has no candidate, or `free` is declared and
  the pass has nothing to do or a `malloc` to call.
-/

namespace SwppCompiler.Passes.MemUse

/-! ## Modules -/

/-- What the pass creates an instruction for. -/
inductive Role
  | curSP | lookaheadSP | isSafeSP | brSP | byAllocaBytes | backFromAllocaBytes | byMalloc
  | backFromMalloc | allocation | spAsInt | cmpSP | freeCall | back
deriving DecidableEq

/-- An instruction: the `n`-th one of `main`, or what the pass creates for it. -/
inductive InstId
  | orig (n : ℕ)
  | new (r : Role) (n : ℕ)
deriving DecidableEq

/-- The number of an instruction. -/
def InstId.num : InstId → ℕ
  | .orig n => n
  | .new _ n => n

/-- A block: one of `main`, or one that the pass creates for a call, by the beginning of its name. -/
inductive BlockId
  | orig (b : ℕ)
  | div (n : ℕ)
  | alloca (n : ℕ)
  | malloc (n : ℕ)
  | free (n : ℕ)
deriving DecidableEq

section Syntax

variable (Other Leaf : Type)

/-- An operand that is no block. -/
inductive Value
  | inst (I : InstId)
  | leaf (x : Leaf)
  | const (n : ℕ)

/-- What an instruction does. A callee is the function's name; an indirect call has none. -/
inductive Op
  | other (x : Other)
  | call (callee : Option String)
  | phi
  | sub
  | sge
  | ptrtoint
  | br

/-- An instruction; `blocks` are the incoming blocks of a PHI node, or the successors. -/
structure Inst where
  id : InstId
  op : Op Other
  operands : List (Value Leaf)
  blocks : List BlockId

/-- A basic block. -/
structure Block where
  id : BlockId
  insts : List (Inst Other Leaf)

/-- A module that defines `main`. `inLoop` is what `LI.getLoopFor` tells of the blocks of `main`; `names`
    are the functions that the module declares or defines. -/
structure Module where
  names : List String
  main : List (Block Other Leaf)
  others : List (List (Block Other Leaf))
  inLoop : BlockId → Bool
  instIds : ((main.flatMap Block.insts).map Inst.id).Nodup
  instOrig : ∀ B ∈ main, ∀ I ∈ B.insts, ∃ n, I.id = .orig n
  blockIds : (main.map Block.id).Nodup
  blockOrig : ∀ B ∈ main, ∃ b, B.id = .orig b
  phiBlocks : ∀ B ∈ main, ∀ I ∈ B.insts, I.op = .phi → ∀ b ∈ I.blocks, ∃ n, b = .orig n
  declared : ∀ f, ∀ B ∈ main ++ others.flatten, ∀ I ∈ B.insts, I.op = .call (some f) → f ∈ names

end Syntax

variable {Other Leaf : Type}

/-! ## The lookup and the scan -/

/-- A `Function *`: null, a function of the module, or anything else. -/
inductive Pointer
  | null
  | function (name : String)
  | wild (n : ℕ)
deriving DecidableEq

/-- `getCalledFunction()`, of a `CallInst`. -/
def Inst.calledFunction? (I : Inst Other Leaf) : Option Pointer :=
  match I.op with
  | .call (some f) => some (.function f)
  | .call none => some .null
  | _ => none

/-- `isCallInstOfThis`. -/
def isCallInstOfThis (I : Inst Other Leaf) (F : Pointer) : Bool := I.calledFunction? = some F

namespace Module

variable (M : Module Other Leaf)

/-- `MallocFn` after the lookup. -/
def mallocFn : Pointer := if "malloc" ∈ M.names then .function "malloc" else .null

/-- `FreeFn` after the lookup; it was not initialized, and contains `garbage`. -/
def freeFn (garbage : Pointer) : Pointer := if "free" ∈ M.names then .function "free" else garbage

/-- A block outside `main`, or in a loop of it, contains a call of `F`. -/
def calledElsewhere (F : Pointer) : Bool :=
  M.others.any (fun body => body.any fun B => B.insts.any fun I => isCallInstOfThis I F) ||
    M.main.any fun B => M.inLoop B.id && B.insts.any fun I => isCallInstOfThis I F

/-- The calls of `F` in the other blocks of `main`. -/
def candidates (F : Pointer) : List (Inst Other Leaf) :=
  M.main.flatMap fun B =>
    if M.inLoop B.id then [] else B.insts.filter fun I => isCallInstOfThis I F

end Module

/-! ## The rewriting -/

/-- The two kinds of calls that are rewritten. -/
inductive Cut
  | malloc
  | free
deriving DecidableEq

/-- What is put at the end of the block that ended before the call `I` (`MemUseOptimization.cpp`,
    lines 89–100 and 134–144). -/
def guard (k : Cut) (I : Inst Other Leaf) : List (Inst Other Leaf) :=
  let n := I.id.num
  match k with
  | .malloc =>
    [⟨.new .curSP n, .call (some "__get_stack_pointer__"), [], []⟩,
      ⟨.new .lookaheadSP n, .sub, .inst (.new .curSP n) :: I.operands.take 1, []⟩,
      ⟨.new .isSafeSP n, .sge, [.inst (.new .lookaheadSP n), .const stackDangerousRegion], []⟩,
      ⟨.new .brSP n, .br, [.inst (.new .isSafeSP n)], [.alloca n, .malloc n]⟩]
  | .free =>
    [⟨.new .spAsInt n, .ptrtoint, I.operands.take 1, []⟩,
      ⟨.new .cmpSP n, .sge, [.inst (.new .spAsInt n), .const stackBoundary], []⟩,
      ⟨.new .brSP n, .br, [.inst (.new .cmpSP n)], [.free n, .div n]⟩]

/-- What `SplitBB` begins with (`MemUseOptimization.cpp`, lines 116–119). -/
def start (k : Cut) (I : Inst Other Leaf) : List (Inst Other Leaf) :=
  let n := I.id.num
  match k with
  | .malloc =>
    [⟨.new .allocation n, .phi, [.inst (.new .byAllocaBytes n), .inst (.new .byMalloc n)],
      [.alloca n, .malloc n]⟩]
  | .free => []

/-- The blocks that are appended to `main` (`MemUseOptimization.cpp`, lines 102–114 and 146–150). -/
def appended (k : Cut) (I : Inst Other Leaf) : List (Block Other Leaf) :=
  let n := I.id.num
  match k with
  | .malloc =>
    [⟨.alloca n, [⟨.new .byAllocaBytes n, .call (some "__alloca_bytes__"),
        I.operands.take 1 ++ [.const 0], []⟩, ⟨.new .backFromAllocaBytes n, .br, [], [.div n]⟩]⟩,
      ⟨.malloc n, [⟨.new .byMalloc n, .call (some "malloc"), I.operands.take 1, []⟩,
        ⟨.new .backFromMalloc n, .br, [], [.div n]⟩]⟩]
  | .free =>
    [⟨.free n, [⟨.new .freeCall n, .call (some "free"), I.operands.take 1, []⟩,
      ⟨.new .back n, .br, [], [.div n]⟩]⟩]

/-- Operands change by `σ`, the incoming blocks of PHI nodes by `β`. -/
def Inst.rename (σ : Value Leaf → Value Leaf) (β : BlockId → BlockId) (I : Inst Other Leaf) :
    Inst Other Leaf :=
  { I with
    operands := I.operands.map σ
    blocks :=
      match I.op with
      | .phi => I.blocks.map β
      | _ => I.blocks }

/-- It, for a block. -/
def Block.rename (σ : Value Leaf → Value Leaf) (β : BlockId → BlockId) (B : Block Other Leaf) :
    Block Other Leaf := { B with insts := B.insts.map (Inst.rename σ β) }

/-- `CI->replaceAllUsesWith(Phi)`, for a call of `malloc`. -/
def replaceUses (k : Cut) (I : InstId) (v : Value Leaf) : Value Leaf :=
  match k, v with
  | .malloc, .inst J => if J = I then .inst (.new .allocation I.num) else .inst J
  | _, v => v

/-- What `splitBasicBlock` does to the PHI nodes: where `B` comes in, its second half does now. -/
def redirect (B split : BlockId) (b : BlockId) : BlockId := if b = B then split else b

/-- The rewriting of one call (`MemUseOptimization.cpp`, lines 83–123 and 129–152). -/
def rewrite (body : List (Block Other Leaf)) (c : Inst Other Leaf × Cut) : List (Block Other Leaf) :=
  match body.span fun B => !B.insts.any fun I => I.id = c.1.id with
  | (before, B :: after) =>
    match B.insts.span fun I => I.id ≠ c.1.id with
    | (pre, I :: post) =>
      (before ++ ⟨B.id, pre ++ guard c.2 I⟩ :: ⟨.div I.id.num, start c.2 I ++ post⟩ :: after ++
        appended c.2 I).map (Block.rename (replaceUses c.2 I.id) (redirect B.id (.div I.id.num)))
    | (_, []) => body
  | (_, []) => body

/-- `run`: the new body of `main`, the only one that is changed. Where a call is created from `MallocFn`
    or `FreeFn` and the module does not have the function, anything can happen. -/
def run (M : Module Other Leaf) (garbage : Pointer) : Option (List (Block Other Leaf)) :=
  let freeFn := M.freeFn garbage
  let mallocInsts := M.candidates M.mallocFn
  let freeInsts := M.candidates freeFn
  if M.calledElsewhere freeFn then some M.main
  else if mallocInsts = [] then some M.main
  else if "malloc" ∉ M.names then none
  else if "free" ∉ M.names ∧ freeInsts ≠ [] then none
  else some ((freeInsts.map (·, Cut.free)).foldl rewrite
    ((mallocInsts.map (·, Cut.malloc)).foldl rewrite M.main))

/-! ## What the pass should do -/

/-- How the instruction is cut, if it is one of the calls. -/
def cutAt (calls : List (Inst Other Leaf × Cut)) (I : Inst Other Leaf) : Option Cut :=
  (calls.find? fun c => c.1.id = I.id).map Prod.snd

/-- A block that is cut at the calls: `cur` is the part so far. -/
def cutBlock (calls : List (Inst Other Leaf × Cut)) (cur : Block Other Leaf) :
    List (Inst Other Leaf) → List (Block Other Leaf)
  | [] => [cur]
  | I :: rest =>
    match cutAt calls I with
    | some k => ⟨cur.id, cur.insts ++ guard k I⟩ :: cutBlock calls ⟨.div I.id.num, start k I⟩ rest
    | none => cutBlock calls ⟨cur.id, cur.insts ++ [I]⟩ rest

/-- The last part of a block. -/
def lastPart (calls : List (Inst Other Leaf × Cut)) (cur : BlockId) : List (Inst Other Leaf) → BlockId
  | [] => cur
  | I :: rest =>
    match cutAt calls I with
    | some _ => lastPart calls (.div I.id.num) rest
    | none => lastPart calls cur rest

/-- A block that comes in at a PHI node does so from its last part. -/
def comesFrom (calls : List (Inst Other Leaf × Cut)) (main : List (Block Other Leaf)) (b : BlockId) :
    BlockId :=
  match main.find? fun B => B.id = b with
  | some B => lastPart calls B.id B.insts
  | none => b

/-- The result of a rewritten call to `malloc` is its PHI node. -/
def resultOf (calls : List (Inst Other Leaf × Cut)) : Value Leaf → Value Leaf
  | .inst I =>
    if calls.any fun c => c.1.id = I ∧ c.2 = .malloc then .inst (.new .allocation I.num) else .inst I
  | v => v

/-- Each block of `main` is cut at the calls, and the new blocks are appended. -/
def cutMain (calls : List (Inst Other Leaf × Cut)) (main : List (Block Other Leaf)) :
    List (Block Other Leaf) :=
  main.flatMap (fun B => cutBlock calls ⟨B.id, []⟩ B.insts) ++ calls.flatMap fun c => appended c.2 c.1

/-- All calls are rewritten, and nothing else changes. -/
def rewritten (calls : List (Inst Other Leaf × Cut)) (main : List (Block Other Leaf)) :
    List (Block Other Leaf) :=
  (cutMain calls main).map (Block.rename (resultOf calls) (comesFrom calls main))

/-- The calls of `malloc` and of `free` that are to be rewritten. -/
def Module.calls (M : Module Other Leaf) : List (Inst Other Leaf × Cut) :=
  (M.candidates (.function "malloc")).map (·, Cut.malloc) ++
    (M.candidates (.function "free")).map (·, Cut.free)

/-- The body of `main` that the pass should leave. -/
def intended (M : Module Other Leaf) : List (Block Other Leaf) :=
  if M.calledElsewhere (.function "free") ∨ M.candidates (.function "malloc") = [] then M.main
  else rewritten M.calls M.main

/-! ## Cutting at one more call -/

section Cutting

variable {calls : List (Inst Other Leaf × Cut)} {CI : Inst Other Leaf} {k : Cut}

theorem span_append {α : Type} {p : α → Bool} {l r : List α} {y : α} (hl : ∀ x ∈ l, p x = true)
    (hy : p y = false) : (l ++ y :: r).span p = (l, y :: r) := by
  rw [List.span_eq_takeWhile_dropWhile, List.takeWhile_append_of_pos hl,
    List.dropWhile_append_of_pos hl]
  simp [hy]

theorem rewrite_eq {before after : List (Block Other Leaf)} {b : BlockId}
    {pre post : List (Inst Other Leaf)} {I : Inst Other Leaf} (hI : I.id = CI.id)
    (hbefore : ∀ B ∈ before, ∀ J ∈ B.insts, J.id ≠ CI.id) (hpre : ∀ J ∈ pre, J.id ≠ CI.id) :
    rewrite (before ++ ⟨b, pre ++ I :: post⟩ :: after) (CI, k) =
      (before ++ ⟨b, pre ++ guard k I⟩ :: ⟨.div I.id.num, start k I ++ post⟩ :: after ++
        appended k I).map (Block.rename (replaceUses k I.id) (redirect b (.div I.id.num))) := by
  have hblocks : (before ++ ⟨b, pre ++ I :: post⟩ :: after).span
      (fun B => !B.insts.any fun J => J.id = CI.id) =
        (before, ⟨b, pre ++ I :: post⟩ :: after) := by
    refine span_append (fun B hB => ?_) ?_
    · simpa using hbefore B hB
    · simp [hI]
  have hinsts : (pre ++ I :: post).span (fun J => J.id ≠ CI.id) = (pre, I :: post) :=
    span_append (fun J hJ => by simpa using hpre J hJ) (by simp [hI])
  unfold rewrite
  simp only [hblocks, hinsts]

theorem cutAt_append_of_ne {J : Inst Other Leaf} (h : J.id ≠ CI.id) :
    cutAt (calls ++ [(CI, k)]) J = cutAt calls J := by
  have hne : ¬ CI.id = J.id := fun heq => h heq.symm
  unfold cutAt
  rw [List.find?_append]
  simp [hne]

theorem cutAt_self (h : ∀ c ∈ calls, c.1.id ≠ CI.id) :
    cutAt calls CI = none ∧ cutAt (calls ++ [(CI, k)]) CI = some k := by
  have hnone : calls.find? (fun c => c.1.id = CI.id) = none := by
    rw [List.find?_eq_none]
    exact fun c hc => by simpa using h c hc
  unfold cutAt
  rw [List.find?_append, hnone]
  simp

theorem cutBlock_append_of_ne {q : List (Inst Other Leaf)} (h : ∀ J ∈ q, J.id ≠ CI.id)
    (cur : Block Other Leaf) :
    cutBlock (calls ++ [(CI, k)]) cur q = cutBlock calls cur q := by
  induction q generalizing cur with
  | nil => rfl
  | cons J q ih =>
    have hrest := ih fun K hK => h K (List.mem_cons_of_mem J hK)
    simp only [cutBlock, cutAt_append_of_ne (h J List.mem_cons_self), hrest]

theorem lastPart_append_of_ne {q : List (Inst Other Leaf)} (h : ∀ J ∈ q, J.id ≠ CI.id)
    (cur : BlockId) : lastPart (calls ++ [(CI, k)]) cur q = lastPart calls cur q := by
  induction q generalizing cur with
  | nil => rfl
  | cons J q ih =>
    have hrest := ih fun K hK => h K (List.mem_cons_of_mem J hK)
    simp only [lastPart, cutAt_append_of_ne (h J List.mem_cons_self), hrest]

/-- What follows is cut in the same way, whatever the part before it is. -/
theorem cutBlock_rest (calls : List (Inst Other Leaf × Cut)) (q x₀ : List (Inst Other Leaf)) :
    ∃ x back, ∀ b y, cutBlock calls ⟨b, y ++ x₀⟩ q = ⟨b, y ++ x⟩ :: back := by
  induction q generalizing x₀ with
  | nil => exact ⟨x₀, [], fun _ _ => rfl⟩
  | cons J q ih =>
    cases hcut : cutAt calls J with
    | some k =>
      exact ⟨x₀ ++ guard k J, cutBlock calls ⟨.div J.id.num, start k J⟩ q,
        fun b y => by simp [cutBlock, hcut]⟩
    | none =>
      obtain ⟨x, back, h⟩ := ih (x₀ ++ [J])
      refine ⟨x, back, fun b y => ?_⟩
      simp only [cutBlock, hcut]
      rw [← h b y, List.append_assoc]

theorem lastPart_append (calls : List (Inst Other Leaf × Cut)) (cur : BlockId)
    (p q : List (Inst Other Leaf)) :
    lastPart calls cur (p ++ q) = lastPart calls (lastPart calls cur p) q := by
  induction p generalizing cur with
  | nil => rfl
  | cons J p ih =>
    simp only [List.cons_append, lastPart]
    cases cutAt calls J with
    | some k => exact ih _
    | none => exact ih _

theorem id_ne_of_new {r : Role} {n : ℕ} {J : Inst Other Leaf} (hJ : J.id = .new r n) {m : ℕ}
    (hCI : CI.id = .orig m) : J.id ≠ CI.id := by
  rw [hJ, hCI]
  exact nofun

theorem guard_new {I J : Inst Other Leaf} (h : J ∈ guard k I) :
    (∃ r, J.id = .new r I.id.num) ∧ J.op ≠ .phi := by
  cases k with
  | malloc =>
    simp only [guard, List.mem_cons, List.not_mem_nil, or_false] at h
    obtain rfl | rfl | rfl | rfl := h
    all_goals exact ⟨⟨_, rfl⟩, nofun⟩
  | free =>
    simp only [guard, List.mem_cons, List.not_mem_nil, or_false] at h
    obtain rfl | rfl | rfl := h
    all_goals exact ⟨⟨_, rfl⟩, nofun⟩

theorem start_new {I J : Inst Other Leaf} (h : J ∈ start k I) :
    (∃ r, J.id = .new r I.id.num) ∧ J.blocks = [.alloca I.id.num, .malloc I.id.num] := by
  cases k with
  | malloc =>
    simp only [start, List.mem_singleton] at h
    obtain rfl := h
    exact ⟨⟨_, rfl⟩, rfl⟩
  | free => simp [start] at h

theorem appended_new {I J : Inst Other Leaf} {B : Block Other Leaf} (hB : B ∈ appended k I)
    (h : J ∈ B.insts) : (∃ r, J.id = .new r I.id.num) ∧ J.op ≠ .phi := by
  cases k with
  | malloc =>
    simp only [appended, List.mem_cons, List.not_mem_nil, or_false] at hB
    obtain rfl | rfl := hB
    all_goals
      simp only [List.mem_cons, List.not_mem_nil, or_false] at h
      obtain rfl | rfl := h
      all_goals exact ⟨⟨_, rfl⟩, nofun⟩
  | free =>
    obtain rfl := List.mem_singleton.mp hB
    simp only [List.mem_cons, List.not_mem_nil, or_false] at h
    obtain rfl | rfl := h
    all_goals exact ⟨⟨_, rfl⟩, nofun⟩

/-- A block that is cut at one more call: the part with the call falls into two. -/
theorem cutBlock_split (hnew : ∀ c ∈ calls, c.1.id ≠ CI.id) {m : ℕ} (horig : CI.id = .orig m)
    {p q : List (Inst Other Leaf)} (hp : ∀ J ∈ p, J.id ≠ CI.id) (hq : ∀ J ∈ q, J.id ≠ CI.id)
    (cur : Block Other Leaf) (hcur : ∀ J ∈ cur.insts, J.id ≠ CI.id) :
    ∃ front pre x back,
      cutBlock calls cur (p ++ CI :: q) =
        front ++ ⟨lastPart calls cur.id p, pre ++ CI :: x⟩ :: back ∧
      cutBlock (calls ++ [(CI, k)]) cur (p ++ CI :: q) =
        front ++ ⟨lastPart calls cur.id p, pre ++ guard k CI⟩ ::
          ⟨.div CI.id.num, start k CI ++ x⟩ :: back ∧
      (∀ B ∈ front, ∀ J ∈ B.insts, J.id ≠ CI.id) ∧ ∀ J ∈ pre, J.id ≠ CI.id := by
  induction p generalizing cur with
  | nil =>
    obtain ⟨x, back, hrest⟩ := cutBlock_rest calls q []
    obtain ⟨hnone, hsome⟩ := cutAt_self (k := k) hnew
    refine ⟨[], cur.insts, x, back, ?_, ?_, by simp, hcur⟩
    · have h := hrest cur.id (cur.insts ++ [CI])
      simpa [cutBlock, hnone, lastPart] using h
    · have h := hrest (.div CI.id.num) (start k CI)
      simp only [List.nil_append, cutBlock, hsome, cutBlock_append_of_ne hq, lastPart]
      rw [← h, List.append_nil]
  | cons J p ih =>
    have hJ := hp J List.mem_cons_self
    have hrest := fun K hK => hp K (List.mem_cons_of_mem J hK)
    cases hcut : cutAt calls J with
    | some k' =>
      have hstart : ∀ K ∈ start k' J, K.id ≠ CI.id := by
        intro K hK
        obtain ⟨⟨r, hr⟩, -⟩ := start_new hK
        exact id_ne_of_new hr horig
      obtain ⟨front, pre, x, back, h, h', hfront, hpre⟩ :=
        ih hrest ⟨.div J.id.num, start k' J⟩ hstart
      refine ⟨⟨cur.id, cur.insts ++ guard k' J⟩ :: front, pre, x, back, ?_, ?_, ?_, hpre⟩
      · simp only [List.cons_append, cutBlock, lastPart, hcut, h]
      · simp only [List.cons_append, cutBlock, lastPart, cutAt_append_of_ne hJ, hcut, h']
      · intro B hB K hK
        obtain rfl | hB := List.mem_cons.mp hB
        · obtain hK | hK := List.mem_append.mp hK
          · exact hcur K hK
          · obtain ⟨⟨r, hr⟩, -⟩ := guard_new hK
            exact id_ne_of_new hr horig
        · exact hfront B hB K hK
    | none =>
      have hcur' : ∀ K ∈ cur.insts ++ [J], K.id ≠ CI.id := by
        intro K hK
        obtain hK | hK := List.mem_append.mp hK
        · exact hcur K hK
        · rw [List.mem_singleton.mp hK]
          exact hJ
      obtain ⟨front, pre, x, back, h, h', hfront, hpre⟩ := ih hrest ⟨cur.id, cur.insts ++ [J]⟩ hcur'
      refine ⟨front, pre, x, back, ?_, ?_, hfront, hpre⟩
      · simp only [List.cons_append, cutBlock, lastPart, hcut, h]
      · simp only [List.cons_append, cutBlock, lastPart, cutAt_append_of_ne hJ, hcut, h']

end Cutting

/-! ## Names -/

section Names

variable {M : Module Other Leaf} {calls : List (Inst Other Leaf × Cut)} {k : Cut}

/-- A part of the block `B`. -/
def PartOf (B : Block Other Leaf) (b : BlockId) : Prop :=
  b = B.id ∨ ∃ J ∈ B.insts, b = .div J.id.num

theorem lastPart_partOf (calls : List (Inst Other Leaf × Cut)) (cur : BlockId)
    (q : List (Inst Other Leaf)) :
    lastPart calls cur q = cur ∨ ∃ J ∈ q, lastPart calls cur q = .div J.id.num := by
  induction q generalizing cur with
  | nil => exact Or.inl rfl
  | cons J q ih =>
    simp only [lastPart]
    cases cutAt calls J with
    | some k' =>
      obtain h | ⟨K, hK, h⟩ := ih (.div J.id.num)
      · exact Or.inr ⟨J, List.mem_cons_self, h⟩
      · exact Or.inr ⟨K, List.mem_cons_of_mem J hK, h⟩
    | none =>
      obtain h | ⟨K, hK, h⟩ := ih cur
      · exact Or.inl h
      · exact Or.inr ⟨K, List.mem_cons_of_mem J hK, h⟩

/-- The last part is the current one, or it is the same whatever the current one is. -/
theorem lastPart_cases (calls : List (Inst Other Leaf × Cut)) (q : List (Inst Other Leaf)) :
    (∀ cur, lastPart calls cur q = cur) ∨
      ∃ J ∈ q, ∀ cur, lastPart calls cur q = .div J.id.num := by
  induction q with
  | nil => exact Or.inl fun _ => rfl
  | cons J q ih =>
    simp only [lastPart]
    cases cutAt calls J with
    | some k' =>
      obtain h | ⟨K, hK, h⟩ := lastPart_partOf calls (.div J.id.num) q
      · exact Or.inr ⟨J, List.mem_cons_self, fun _ => h⟩
      · exact Or.inr ⟨K, List.mem_cons_of_mem J hK, fun _ => h⟩
    | none => exact ih.imp id fun ⟨K, hK, h⟩ => ⟨K, List.mem_cons_of_mem J hK, h⟩

theorem lastPart_mem (calls : List (Inst Other Leaf × Cut)) (B : Block Other Leaf)
    {p q : List (Inst Other Leaf)} (hB : B.insts = p ++ q) : PartOf B (lastPart calls B.id p) := by
  obtain h | ⟨J, hJ, h⟩ := lastPart_partOf calls B.id p
  · exact Or.inl h
  · exact Or.inr ⟨J, by rw [hB]; exact List.mem_append_left q hJ, h⟩

/-- Two instructions of `main` with one number are one, in one block. -/
theorem Module.inst_unique (M : Module Other Leaf) {B B' : Block Other Leaf} (hB : B ∈ M.main)
    (hB' : B' ∈ M.main) {J J' : Inst Other Leaf} (hJ : J ∈ B.insts) (hJ' : J' ∈ B'.insts)
    (h : J.id.num = J'.id.num) : J = J' := by
  obtain ⟨n, hn⟩ := M.instOrig B hB J hJ
  obtain ⟨n', hn'⟩ := M.instOrig B' hB' J' hJ'
  have hnum : n = n' := by rwa [hn, hn'] at h
  refine List.inj_on_of_nodup_map M.instIds (List.mem_flatMap.mpr ⟨B, hB, hJ⟩)
    (List.mem_flatMap.mpr ⟨B', hB', hJ'⟩) ?_
  rw [hn, hn', hnum]

/-- An instruction is in one block. -/
theorem Module.block_unique (M : Module Other Leaf) {B B' : Block Other Leaf} (hB : B ∈ M.main)
    (hB' : B' ∈ M.main) {J : Inst Other Leaf} (hJ : J ∈ B.insts) (hJ' : J ∈ B'.insts) : B = B' := by
  have hnodup := M.instIds
  rw [List.map_flatMap] at hnodup
  have hpair := (List.nodup_flatMap.mp hnodup).2
  have hsymm : Std.Symm (Function.onFun List.Disjoint fun B : Block Other Leaf => B.insts.map Inst.id) :=
    ⟨fun _ _ h => List.Disjoint.symm h⟩
  by_contra hne
  have hdisjoint := hpair.forall hB hB' hne
  exact hdisjoint (List.mem_map_of_mem hJ) (List.mem_map_of_mem hJ')

theorem Module.find_block (M : Module Other Leaf) {B : Block Other Leaf} (hB : B ∈ M.main) :
    M.main.find? (fun B' => B'.id = B.id) = some B := by
  cases hfind : M.main.find? (fun B' => B'.id = B.id) with
  | none =>
    have h := List.find?_eq_none.mp hfind B hB
    simp at h
  | some B' =>
    have hid : B'.id = B.id := by simpa using List.find?_some hfind
    rw [List.inj_on_of_nodup_map M.blockIds (List.mem_of_find?_eq_some hfind) hB hid]

theorem comesFrom_mem (M : Module Other Leaf) (calls : List (Inst Other Leaf × Cut))
    {B : Block Other Leaf} (hB : B ∈ M.main) :
    comesFrom calls M.main B.id = lastPart calls B.id B.insts := by
  unfold comesFrom
  rw [M.find_block hB]

theorem comesFrom_of_ne (calls : List (Inst Other Leaf × Cut)) {main : List (Block Other Leaf)}
    {b : BlockId} (h : ∀ B ∈ main, B.id ≠ b) : comesFrom calls main b = b := by
  unfold comesFrom
  rw [List.find?_eq_none.mpr fun B hB => by simpa using h B hB]

/-- Parts of two blocks are not the same. -/
theorem Module.partOf_unique (M : Module Other Leaf) {B B' : Block Other Leaf} (hB : B ∈ M.main)
    (hB' : B' ∈ M.main) {b : BlockId} (h : PartOf B b) (h' : PartOf B' b) : B = B' := by
  obtain ⟨n, hn⟩ := M.blockOrig B hB
  obtain ⟨n', hn'⟩ := M.blockOrig B' hB'
  obtain rfl | ⟨J, hJ, rfl⟩ := h
  · obtain hid | ⟨J', hJ', hid⟩ := h'
    · exact List.inj_on_of_nodup_map M.blockIds hB hB' hid
    · rw [hn] at hid
      cases hid
  · obtain hid | ⟨J', hJ', hid⟩ := h'
    · rw [hn'] at hid
      cases hid
    · obtain rfl := M.inst_unique hB hB' hJ hJ' (BlockId.div.inj hid)
      exact M.block_unique hB hB' hJ hJ'

/-- A part of a block is one of `main`, or what follows a call. -/
theorem Module.partOf_ne (M : Module Other Leaf) {B : Block Other Leaf} (hB : B ∈ M.main)
    {b b' : BlockId} (h : PartOf B b) (horig : ∀ n, b' ≠ .orig n) (hdiv : ∀ n, b' ≠ .div n) :
    b' ≠ b := by
  obtain rfl | ⟨J, -, rfl⟩ := h
  · obtain ⟨n, hn⟩ := M.blockOrig B hB
    rw [hn]
    exact horig n
  · exact hdiv J.id.num

end Names

/-! ## Rewriting one more call -/

section Rewriting

variable {M : Module Other Leaf} {calls : List (Inst Other Leaf × Cut)} {CI : Inst Other Leaf}
  {k : Cut}

theorem resultOf_append {m : ℕ} (horig : CI.id = .orig m) (v : Value Leaf) :
    replaceUses k CI.id (resultOf calls v) = resultOf (calls ++ [(CI, k)]) v := by
  cases v with
  | leaf x => cases k <;> rfl
  | const n => cases k <;> rfl
  | inst I =>
    simp only [resultOf, List.any_append, List.any_cons, List.any_nil, Bool.or_false]
    by_cases hany : (calls.any fun c => c.1.id = I ∧ c.2 = .malloc) = true
    · rw [if_pos hany, hany, Bool.true_or, if_pos rfl]
      cases k with
      | malloc => simp [replaceUses, horig]
      | free => rfl
    · rw [if_neg hany, Bool.eq_false_iff.mpr hany, Bool.false_or]
      cases k with
      | malloc =>
        by_cases hI : CI.id = I
        · simp [replaceUses, hI]
        · have hI' : ¬ I = CI.id := fun h => hI h.symm
          simp [replaceUses, hI, hI']
      | free => simp [replaceUses]

/-- Where a block comes in, after one more cut in `B`. -/
theorem comesFrom_append {B : Block Other Leaf} (hB : B ∈ M.main) {p q : List (Inst Other Leaf)}
    (hinsts : B.insts = p ++ CI :: q) (hnew : ∀ c ∈ calls, c.1.id ≠ CI.id)
    (hp : ∀ J ∈ p, J.id ≠ CI.id) (hq : ∀ J ∈ q, J.id ≠ CI.id) (hpq : ∀ J ∈ p, J ∉ q)
    (hother : ∀ B' ∈ M.main, B' ≠ B → ∀ J ∈ B'.insts, J.id ≠ CI.id) (n : ℕ) :
    redirect (lastPart calls B.id p) (.div CI.id.num) (comesFrom calls M.main (.orig n)) =
      comesFrom (calls ++ [(CI, k)]) M.main (.orig n) := by
  obtain ⟨hnone, hsome⟩ := cutAt_self (k := k) hnew
  have hpart : PartOf B (lastPart calls B.id p) := lastPart_mem calls B hinsts
  by_cases hmain : ∃ B' ∈ M.main, B'.id = .orig n
  · obtain ⟨B', hB', hid⟩ := hmain
    rw [← hid, comesFrom_mem M calls hB', comesFrom_mem M _ hB']
    by_cases hsame : B' = B
    · subst hsame
      rw [hinsts, lastPart_append, lastPart_append, lastPart_append_of_ne hp]
      simp only [lastPart, hnone, hsome]
      rw [lastPart_append_of_ne hq]
      obtain hlast | ⟨J, hJ, hlast⟩ := lastPart_cases calls q
      · rw [hlast, hlast]
        exact if_pos rfl
      · rw [hlast, hlast]
        -- the part that the call is in begins before it, the last one after it
        refine if_neg fun heq => ?_
        have hJB : J ∈ B'.insts := by
          rw [hinsts]
          exact List.mem_append_right p (List.mem_cons_of_mem CI hJ)
        obtain hlast' | ⟨J', hJ', hlast'⟩ := lastPart_partOf calls B'.id p
        · obtain ⟨b, hb⟩ := M.blockOrig B' hB'
          rw [hlast', hb] at heq
          cases heq
        · rw [hlast'] at heq
          have hJB' : J' ∈ B'.insts := by
            rw [hinsts]
            exact List.mem_append_left _ hJ'
          obtain rfl := M.inst_unique hB' hB' hJB hJB' (BlockId.div.inj heq)
          exact hpq J hJ' hJ
    · rw [lastPart_append_of_ne (hother B' hB' hsame)]
      refine if_neg fun heq => hsame ?_
      have hpart' := lastPart_mem calls B' (List.append_nil B'.insts).symm
      rw [heq] at hpart'
      exact M.partOf_unique hB' hB hpart' hpart
  · have hne : ∀ B' ∈ M.main, B'.id ≠ .orig n := fun B' hB' hid => hmain ⟨B', hB', hid⟩
    rw [comesFrom_of_ne calls hne, comesFrom_of_ne _ hne]
    refine if_neg fun heq => ?_
    obtain hid | ⟨J, hJ, hid⟩ := hpart
    · exact hne B hB (hid.symm.trans heq.symm)
    · rw [hid] at heq
      cases heq

theorem comesFrom_new (M : Module Other Leaf) (calls : List (Inst Other Leaf × Cut)) {b : BlockId}
    (h : ∀ n, b ≠ .orig n) : comesFrom calls M.main b = b := by
  refine comesFrom_of_ne calls fun B hB hid => ?_
  obtain ⟨n, hn⟩ := M.blockOrig B hB
  exact h n (hid.symm.trans hn)

section Rename

variable {σ : Value Leaf → Value Leaf} {β : BlockId → BlockId}

theorem guard_rename (hnew : ∀ r n, σ (.inst (.new r n)) = .inst (.new r n))
    (hconst : ∀ n, σ (.const n) = .const n) (I : Inst Other Leaf) :
    guard k (I.rename σ β) = (guard k I).map (Inst.rename σ β) := by
  cases k <;> simp [guard, Inst.rename, hnew, hconst, List.map_take]

theorem start_rename (hnew : ∀ r n, σ (.inst (.new r n)) = .inst (.new r n))
    (halloca : ∀ n, β (.alloca n) = .alloca n) (hmalloc : ∀ n, β (.malloc n) = .malloc n)
    (I : Inst Other Leaf) : start k (I.rename σ β) = (start k I).map (Inst.rename σ β) := by
  cases k <;> simp [start, Inst.rename, hnew, halloca, hmalloc]

theorem appended_rename (hconst : ∀ n, σ (.const n) = .const n) (I : Inst Other Leaf) :
    appended k (I.rename σ β) = (appended k I).map (Block.rename σ β) := by
  cases k <;> simp [appended, Block.rename, Inst.rename, hconst, List.map_take]

end Rename

theorem resultOf_new (calls : List (Inst Other Leaf × Cut))
    (horig : ∀ c ∈ calls, ∃ m, c.1.id = .orig m) (r : Role) (n : ℕ) :
    resultOf calls (.inst (.new r n)) = (.inst (.new r n) : Value Leaf) := by
  refine if_neg fun hany => ?_
  obtain ⟨c, hc, hid⟩ := List.any_eq_true.mp hany
  obtain ⟨m, hm⟩ := horig c hc
  have hid' : c.1.id = .new r n := (of_decide_eq_true hid).1
  rw [hm] at hid'
  cases hid'

/-- What is in the parts of a block. -/
theorem cutBlock_mem (calls : List (Inst Other Leaf × Cut)) {q : List (Inst Other Leaf)}
    {cur B : Block Other Leaf} (hB : B ∈ cutBlock calls cur q) {J : Inst Other Leaf}
    (hJ : J ∈ B.insts) : J ∈ cur.insts ∨ J ∈ q ∨ ∃ k I, J ∈ guard k I ∨ J ∈ start k I := by
  induction q generalizing cur with
  | nil =>
    rw [List.mem_singleton.mp hB] at hJ
    exact Or.inl hJ
  | cons I q ih =>
    cases hcut : cutAt calls I with
    | some k =>
      simp only [cutBlock, hcut] at hB
      obtain rfl | hB := List.mem_cons.mp hB
      · obtain hJ | hJ := List.mem_append.mp hJ
        · exact Or.inl hJ
        · exact Or.inr (Or.inr ⟨k, I, Or.inl hJ⟩)
      · obtain h | h | h := ih hB
        · exact Or.inr (Or.inr ⟨k, I, Or.inr h⟩)
        · exact Or.inr (Or.inl (List.mem_cons_of_mem I h))
        · exact Or.inr (Or.inr h)
    | none =>
      simp only [cutBlock, hcut] at hB
      obtain h | h | h := ih hB
      · obtain h | h := List.mem_append.mp h
        · exact Or.inl h
        · rw [List.mem_singleton.mp h]
          exact Or.inr (Or.inl List.mem_cons_self)
      · exact Or.inr (Or.inl (List.mem_cons_of_mem I h))
      · exact Or.inr (Or.inr h)

/-- A block that comes in at a PHI node is one of `main`, or one of the two ways to allocate. -/
theorem cutMain_phi (M : Module Other Leaf) (calls : List (Inst Other Leaf × Cut))
    {B : Block Other Leaf} (hB : B ∈ cutMain calls M.main) {J : Inst Other Leaf} (hJ : J ∈ B.insts)
    (hphi : J.op = .phi) {b : BlockId} (hb : b ∈ J.blocks) :
    ∃ n, b = .orig n ∨ b = .alloca n ∨ b = .malloc n := by
  obtain hB | hB := List.mem_append.mp hB
  · obtain ⟨A, hA, hB⟩ := List.mem_flatMap.mp hB
    obtain h | h | ⟨k, I, h | h⟩ := cutBlock_mem calls hB hJ
    · cases h
    · obtain ⟨n, hn⟩ := M.phiBlocks A hA J h hphi b hb
      exact ⟨n, Or.inl hn⟩
    · exact absurd hphi (guard_new h).2
    · rw [(start_new h).2] at hb
      simp only [List.mem_cons, List.not_mem_nil, or_false] at hb
      exact ⟨I.id.num, Or.inr hb⟩
  · obtain ⟨c, -, hB⟩ := List.mem_flatMap.mp hB
    exact absurd hphi (appended_new hB hJ).2

/-- To rename twice is to rename once. -/
theorem Block.rename_rename {σ σ' τ : Value Leaf → Value Leaf} {β β' γ : BlockId → BlockId}
    (hσ : ∀ v, σ' (σ v) = τ v) {B : Block Other Leaf}
    (hβ : ∀ J ∈ B.insts, J.op = .phi → ∀ b ∈ J.blocks, β' (β b) = γ b) :
    (B.rename σ β).rename σ' β' = B.rename τ γ := by
  obtain ⟨b, insts⟩ := B
  simp only [Block.rename, List.map_map, Block.mk.injEq, true_and]
  refine List.map_congr_left fun J hJ => ?_
  obtain ⟨id, op, operands, blocks⟩ := J
  have hblocks := hβ _ hJ
  cases op <;> simp_all [Inst.rename]

/-- Where a call is in `main`: it is nowhere else. -/
theorem Module.split (M : Module Other Leaf) {B : Block Other Leaf} (hB : B ∈ M.main)
    (hCI : CI ∈ B.insts) :
    (∃ p q, B.insts = p ++ CI :: q ∧ (∀ J ∈ p, J.id ≠ CI.id) ∧ (∀ J ∈ q, J.id ≠ CI.id) ∧
      ∀ J ∈ p, J ∉ q) ∧
    (∃ left right, M.main = left ++ B :: right ∧ (∀ B' ∈ left, B' ≠ B) ∧ ∀ B' ∈ right, B' ≠ B) ∧
    ∀ B' ∈ M.main, B' ≠ B → ∀ J ∈ B'.insts, J.id ≠ CI.id := by
  refine ⟨?_, ?_, fun B' hB' hne J hJ hid => hne ?_⟩
  · obtain ⟨p, q, hinsts⟩ := List.append_of_mem hCI
    have hnodup := M.instIds
    rw [List.map_flatMap] at hnodup
    have hids := (List.nodup_flatMap.mp hnodup).1 B hB
    rw [hinsts, List.map_append, List.map_cons] at hids
    obtain ⟨-, hcons, hdisjoint⟩ := List.nodup_append.mp hids
    refine ⟨p, q, hinsts, fun J hJ hid => ?_, fun J hJ hid => ?_, fun J hJ hJ' => ?_⟩
    · exact hdisjoint _ (List.mem_map_of_mem hJ) _ List.mem_cons_self hid
    · have hmem := List.mem_map_of_mem (f := Inst.id) hJ
      rw [hid] at hmem
      exact (List.nodup_cons.mp hcons).1 hmem
    · exact hdisjoint _ (List.mem_map_of_mem hJ) _
        (List.mem_cons_of_mem _ (List.mem_map_of_mem hJ')) rfl
  · obtain ⟨left, right, hmain⟩ := List.append_of_mem hB
    have hnodup : M.main.Nodup := List.Nodup.of_map _ M.blockIds
    rw [hmain] at hnodup
    obtain ⟨-, hcons, hdisjoint⟩ := List.nodup_append.mp hnodup
    refine ⟨left, right, hmain, fun B' hB' heq => ?_, fun B' hB' heq => ?_⟩
    · exact hdisjoint B' hB' B List.mem_cons_self heq
    · rw [heq] at hB'
      exact (List.nodup_cons.mp hcons).1 hB'
  · rw [M.inst_unique hB' hB hJ hCI (by rw [hid])] at hJ
    exact M.block_unique hB' hB hJ hCI

/-- The blocks without the call are cut as they were. -/
theorem flatMap_cutBlock_append {main : List (Block Other Leaf)}
    (h : ∀ B ∈ main, ∀ J ∈ B.insts, J.id ≠ CI.id) :
    main.flatMap (fun B => cutBlock (calls ++ [(CI, k)]) ⟨B.id, []⟩ B.insts) =
      main.flatMap fun B => cutBlock calls ⟨B.id, []⟩ B.insts :=
  List.flatMap_congr fun B hB => cutBlock_append_of_ne (h B hB) _

/-- `main` that is cut at one more call. -/
theorem cutMain_split {B : Block Other Leaf} (hB : B ∈ M.main) (hCI : CI ∈ B.insts)
    {p q : List (Inst Other Leaf)} (hinsts : B.insts = p ++ CI :: q)
    (hp : ∀ J ∈ p, J.id ≠ CI.id) (hq : ∀ J ∈ q, J.id ≠ CI.id)
    (hnew : ∀ c ∈ calls, c.1.id ≠ CI.id) :
    ∃ before pre x after,
      cutMain calls M.main = before ++ ⟨lastPart calls B.id p, pre ++ CI :: x⟩ :: after ∧
      cutMain (calls ++ [(CI, k)]) M.main =
        before ++ ⟨lastPart calls B.id p, pre ++ guard k CI⟩ ::
          ⟨.div CI.id.num, start k CI ++ x⟩ :: after ++ appended k CI ∧
      (∀ A ∈ before, ∀ J ∈ A.insts, J.id ≠ CI.id) ∧ ∀ J ∈ pre, J.id ≠ CI.id := by
  obtain ⟨m, horig⟩ := M.instOrig B hB CI hCI
  obtain ⟨-, ⟨left, right, hmain, hleft, hright⟩, hother⟩ := M.split hB hCI
  have hleft' : ∀ B' ∈ left, ∀ J ∈ B'.insts, J.id ≠ CI.id := fun B' hB' =>
    hother B' (hmain ▸ List.mem_append_left _ hB') (hleft B' hB')
  have hright' : ∀ B' ∈ right, ∀ J ∈ B'.insts, J.id ≠ CI.id := fun B' hB' =>
    hother B' (hmain ▸ List.mem_append_right _ (List.mem_cons_of_mem B hB')) (hright B' hB')
  obtain ⟨front, pre, x, back, hcut, hcut', hfront, hpre⟩ :=
    cutBlock_split (k := k) hnew horig hp hq ⟨B.id, []⟩ nofun
  rw [← hinsts] at hcut hcut'
  refine ⟨left.flatMap (fun B => cutBlock calls ⟨B.id, []⟩ B.insts) ++ front, pre, x,
    back ++ right.flatMap (fun B => cutBlock calls ⟨B.id, []⟩ B.insts) ++
      calls.flatMap fun c => appended c.2 c.1, ?_, ?_, ?_, hpre⟩
  · rw [cutMain, hmain, List.flatMap_append, List.flatMap_cons, hcut]
    simp only [List.append_assoc, List.cons_append]
  · rw [cutMain, hmain, List.flatMap_append, List.flatMap_cons, hcut',
      flatMap_cutBlock_append hleft', flatMap_cutBlock_append hright']
    simp only [List.append_assoc, List.cons_append, List.flatMap_append, List.flatMap_cons,
      List.flatMap_nil, List.append_nil]
  · intro A hA J hJ
    obtain hA | hA := List.mem_append.mp hA
    · obtain ⟨B', hB', hA⟩ := List.mem_flatMap.mp hA
      obtain h | h | ⟨k', I, h | h⟩ := cutBlock_mem calls hA hJ
      · cases h
      · exact hleft' B' hB' J h
      · obtain ⟨⟨r, hr⟩, -⟩ := guard_new h
        exact id_ne_of_new hr horig
      · obtain ⟨⟨r, hr⟩, -⟩ := start_new h
        exact id_ne_of_new hr horig
    · exact hfront A hA J hJ

/-- The pass rewrites one more call. -/
theorem rewrite_rewritten {B : Block Other Leaf} (hB : B ∈ M.main) (hCI : CI ∈ B.insts)
    (hcalls : ∀ c ∈ calls, ∃ m, c.1.id = .orig m) (hnew : ∀ c ∈ calls, c.1.id ≠ CI.id) :
    rewrite (rewritten calls M.main) (CI, k) = rewritten (calls ++ [(CI, k)]) M.main := by
  obtain ⟨m, horig⟩ := M.instOrig B hB CI hCI
  obtain ⟨⟨p, q, hinsts, hp, hq, hpq⟩, -, hother⟩ := M.split hB hCI
  obtain ⟨before, pre, x, after, hcut, hcut', hbefore, hpre⟩ :=
    cutMain_split (k := k) hB hCI hinsts hp hq hnew
  let σ : Value Leaf → Value Leaf := resultOf calls
  let β := comesFrom calls M.main
  have hnewσ : ∀ r n, σ (.inst (.new r n)) = .inst (.new r n) := resultOf_new calls hcalls
  have hconst : ∀ n, σ (.const n) = .const n := fun _ => rfl
  have halloca : ∀ cs n, comesFrom cs M.main (.alloca n) = .alloca n := fun cs n =>
    comesFrom_new M cs nofun
  have hmalloc : ∀ cs n, comesFrom cs M.main (.malloc n) = .malloc n := fun cs n =>
    comesFrom_new M cs nofun
  -- the earlier steps have renamed the call, and what it is replaced by with it
  have hbody : rewritten calls M.main =
      before.map (Block.rename σ β) ++ ⟨lastPart calls B.id p, pre.map (Inst.rename σ β) ++
        CI.rename σ β :: x.map (Inst.rename σ β)⟩ :: after.map (Block.rename σ β) := by
    show (cutMain calls M.main).map (Block.rename σ β) = _
    rw [hcut, List.map_append, List.map_cons]
    simp only [Block.rename, List.map_append, List.map_cons]
  have hrewrite : rewrite (rewritten calls M.main) (CI, k) =
      ((cutMain (calls ++ [(CI, k)]) M.main).map (Block.rename σ β)).map
        (Block.rename (replaceUses k CI.id)
          (redirect (lastPart calls B.id p) (.div CI.id.num))) := by
    have hid : (CI.rename σ β).id = CI.id := rfl
    rw [hbody, rewrite_eq hid, hcut', guard_rename hnewσ hconst,
      start_rename (β := β) hnewσ (halloca calls) (hmalloc calls), appended_rename hconst, hid]
    · simp only [Block.rename, List.map_append, List.map_cons]
    · intro A hA J hJ
      obtain ⟨A', hA', rfl⟩ := List.mem_map.mp hA
      obtain ⟨J', hJ', rfl⟩ := List.mem_map.mp hJ
      exact hbefore A' hA' J' hJ'
    · intro J hJ
      obtain ⟨J', hJ', rfl⟩ := List.mem_map.mp hJ
      exact hpre J' hJ'
  rw [hrewrite, rewritten, List.map_map]
  refine List.map_congr_left fun A hA => ?_
  refine Block.rename_rename (resultOf_append horig) fun J hJ hphi b hb => ?_
  have hpart := lastPart_mem calls B hinsts
  obtain ⟨n, rfl | rfl | rfl⟩ := cutMain_phi M (calls ++ [(CI, k)]) hA hJ hphi hb
  · exact comesFrom_append hB hinsts hnew hp hq hpq hother n
  · have hne : BlockId.alloca n ≠ lastPart calls B.id p := M.partOf_ne hB hpart nofun nofun
    rw [halloca]
    show redirect _ _ (comesFrom calls M.main _) = _
    rw [halloca]
    exact if_neg hne
  · have hne : BlockId.malloc n ≠ lastPart calls B.id p := M.partOf_ne hB hpart nofun nofun
    rw [hmalloc]
    show redirect _ _ (comesFrom calls M.main _) = _
    rw [hmalloc]
    exact if_neg hne

/-- However the calls lie in the blocks, the pass cuts each block at its calls. -/
theorem rewriteAll_eq (M : Module Other Leaf) (done todo : List (Inst Other Leaf × Cut))
    (hmem : ∀ c ∈ done ++ todo, ∃ B ∈ M.main, c.1 ∈ B.insts)
    (hnodup : ((done ++ todo).map fun c => c.1.id).Nodup) :
    todo.foldl rewrite (rewritten done M.main) = rewritten (done ++ todo) M.main := by
  induction todo generalizing done with
  | nil => rw [List.foldl_nil, List.append_nil]
  | cons c todo ih =>
    have happend : done ++ c :: todo = (done ++ [c]) ++ todo := by
      rw [List.append_assoc, List.singleton_append]
    obtain ⟨B, hB, hCI⟩ := hmem c (List.mem_append_right done List.mem_cons_self)
    have hnew : ∀ c' ∈ done, c'.1.id ≠ c.1.id := by
      rw [List.map_append, List.map_cons] at hnodup
      obtain ⟨-, -, hdisjoint⟩ := List.nodup_append.mp hnodup
      exact fun c' hc' => hdisjoint _ (List.mem_map_of_mem hc') _ List.mem_cons_self
    have horig : ∀ c' ∈ done, ∃ m, c'.1.id = .orig m := by
      intro c' hc'
      obtain ⟨B', hB', hc'⟩ := hmem c' (List.mem_append_left _ hc')
      exact M.instOrig B' hB' _ hc'
    rw [List.foldl_cons, rewrite_rewritten hB hCI horig hnew, happend]
    rw [happend] at hmem hnodup
    exact ih _ hmem hnodup

end Rewriting

/-! ## When the pass does what it should -/

section Activation

variable (M : Module Other Leaf)

theorem rewritten_nil : rewritten [] M.main = M.main := by
  have hlast : ∀ b (q : List (Inst Other Leaf)), lastPart [] b q = b := by
    intro b q
    induction q with
    | nil => rfl
    | cons J q ih => exact ih
  have hcut : ∀ (cur : Block Other Leaf) q, cutBlock [] cur q = [⟨cur.id, cur.insts ++ q⟩] := by
    intro cur q
    induction q generalizing cur with
    | nil => rw [List.append_nil, cutBlock]
    | cons J q ih =>
      show cutBlock [] ⟨cur.id, cur.insts ++ [J]⟩ q = _
      rw [ih, List.append_assoc, List.singleton_append]
  have hmain : cutMain [] M.main = M.main := by
    simp [cutMain, hcut]
  have hcomes : ∀ b, comesFrom [] M.main b = b := by
    intro b
    by_cases h : ∃ B ∈ M.main, B.id = b
    · obtain ⟨B, hB, rfl⟩ := h
      rw [comesFrom_mem M [] hB, hlast]
    · exact comesFrom_of_ne [] fun B hB hid => h ⟨B, hB, hid⟩
  have hrename : ∀ v : Value Leaf, resultOf ([] : List (Inst Other Leaf × Cut)) v = v := by
    intro v
    cases v <;> rfl
  rw [rewritten, hmain, funext hrename, funext hcomes]
  have hinst : ∀ I : Inst Other Leaf, I.rename (fun v => v) (fun b => b) = I := by
    intro I
    obtain ⟨id, op, operands, blocks⟩ := I
    cases op <;> simp [Inst.rename]
  have hblock : ∀ B : Block Other Leaf, B.rename (fun v => v) (fun b => b) = B := by
    intro B
    simp [Block.rename, funext hinst]
  simp [funext hblock]

theorem candidates_mem {F : Pointer} {I : Inst Other Leaf} (h : I ∈ M.candidates F) :
    ∃ B ∈ M.main, I ∈ B.insts ∧ I.calledFunction? = some F := by
  obtain ⟨B, hB, hI⟩ := List.mem_flatMap.mp h
  by_cases hloop : M.inLoop B.id = true
  · rw [if_pos hloop] at hI
    cases hI
  · rw [if_neg hloop] at hI
    obtain ⟨hI, hcall⟩ := List.mem_filter.mp hI
    exact ⟨B, hB, hI, of_decide_eq_true hcall⟩

theorem candidates_nodup (F : Pointer) : ((M.candidates F).map Inst.id).Nodup := by
  refine List.Nodup.sublist (List.Sublist.map Inst.id ?_) M.instIds
  refine List.Sublist.flatMap_right M.main fun B _ => ?_
  split
  · exact List.nil_sublist B.insts
  · exact List.filter_sublist

/-- The calls that are to be rewritten are different instructions of `main`. -/
theorem calls_mem {c : Inst Other Leaf × Cut} (h : c ∈ M.calls) : ∃ B ∈ M.main, c.1 ∈ B.insts := by
  obtain h | h := List.mem_append.mp h
  all_goals
    obtain ⟨I, hI, rfl⟩ := List.mem_map.mp h
    obtain ⟨B, hB, hI, -⟩ := candidates_mem M hI
    exact ⟨B, hB, hI⟩

theorem calls_nodup : (M.calls.map fun c => c.1.id).Nodup := by
  unfold Module.calls
  rw [List.map_append, List.map_map, List.map_map, List.nodup_append]
  refine ⟨candidates_nodup M _, candidates_nodup M _, fun x hx y hy heq => ?_⟩
  obtain ⟨I, hI, rfl⟩ := List.mem_map.mp hx
  obtain ⟨J, hJ, rfl⟩ := List.mem_map.mp hy
  obtain ⟨B, hB, hIB, hcallI⟩ := candidates_mem M hI
  obtain ⟨B', hB', hJB, hcallJ⟩ := candidates_mem M hJ
  have hid : I.id = J.id := heq
  rw [M.inst_unique hB hB' hIB hJB (by rw [hid]), hcallJ] at hcallI
  exact absurd (Option.some.inj hcallI) (by decide)

/-- A function that the module does not have is not called. -/
theorem calledFunction_ne {f : String} (hf : f ∉ M.names) {B : Block Other Leaf}
    (hB : B ∈ M.main ++ M.others.flatten) {I : Inst Other Leaf} (hI : I ∈ B.insts) :
    I.calledFunction? ≠ some (.function f) := by
  intro hcall
  unfold Inst.calledFunction? at hcall
  split at hcall
  · next g hg =>
    obtain rfl := Pointer.function.inj (Option.some.inj hcall)
    exact hf (M.declared g B hB I hI hg)
  · cases Option.some.inj hcall
  · cases hcall

theorem candidates_undeclared {f : String} (hf : f ∉ M.names) :
    M.candidates (.function f) = [] := by
  refine List.eq_nil_iff_forall_not_mem.mpr fun I hI => ?_
  obtain ⟨B, hB, hI, hcall⟩ := candidates_mem M hI
  exact calledFunction_ne M hf (List.mem_append_left _ hB) hI hcall

theorem calledElsewhere_eq_true {F : Pointer} (h : M.calledElsewhere F = true) :
    ∃ B ∈ M.main ++ M.others.flatten, ∃ I ∈ B.insts, I.calledFunction? = some F := by
  obtain h | h := Bool.or_eq_true_iff.mp h
  · obtain ⟨body, hbody, h⟩ := List.any_eq_true.mp h
    obtain ⟨B, hB, h⟩ := List.any_eq_true.mp h
    obtain ⟨I, hI, h⟩ := List.any_eq_true.mp h
    exact ⟨B, List.mem_append_right _ (List.mem_flatten.mpr ⟨body, hbody, hB⟩), I, hI,
      of_decide_eq_true h⟩
  · obtain ⟨B, hB, h⟩ := List.any_eq_true.mp h
    obtain ⟨I, hI, h⟩ := List.any_eq_true.mp (Bool.and_eq_true_iff.mp h).2
    exact ⟨B, List.mem_append_left _ hB, I, hI, of_decide_eq_true h⟩

theorem calledElsewhere_undeclared {f : String} (hf : f ∉ M.names) :
    M.calledElsewhere (.function f) = false := by
  rw [Bool.eq_false_iff]
  intro h
  obtain ⟨B, hB, I, hI, hcall⟩ := calledElsewhere_eq_true M h
  exact calledFunction_ne M hf hB hI hcall

/-- No call is of what is no function. -/
theorem calledElsewhere_wild (n : ℕ) : M.calledElsewhere (.wild n) = false := by
  rw [Bool.eq_false_iff]
  intro h
  obtain ⟨B, -, I, -, hcall⟩ := calledElsewhere_eq_true M h
  unfold Inst.calledFunction? at hcall
  split at hcall <;> cases hcall

/-- The pass leaves more blocks than there were. -/
theorem length_lt_rewritten (calls : List (Inst Other Leaf × Cut)) (h : calls ≠ [])
    (main : List (Block Other Leaf)) : main.length < (rewritten calls main).length := by
  have hcut : ∀ q (cur : Block Other Leaf), 1 ≤ (cutBlock calls cur q).length := by
    intro q
    induction q with
    | nil => exact fun _ => Nat.le_refl 1
    | cons J q ih =>
      intro cur
      simp only [cutBlock]
      cases cutAt calls J with
      | some k => exact Nat.succ_le_succ (Nat.zero_le _)
      | none => exact ih _
  have hmain : ∀ main : List (Block Other Leaf), main.length ≤
      (main.flatMap fun B => cutBlock calls ⟨B.id, []⟩ B.insts).length := by
    intro main
    induction main with
    | nil => exact Nat.le_refl 0
    | cons B main ih =>
      have hB := hcut B.insts ⟨B.id, []⟩
      rw [List.flatMap_cons, List.length_append, List.length_cons]
      omega
  have happended : 0 < (calls.flatMap fun c => appended c.2 c.1).length := by
    obtain ⟨c, calls, rfl⟩ := List.exists_cons_of_ne_nil h
    rw [List.flatMap_cons, List.length_append]
    have hc : 0 < (appended c.2 c.1).length := by
      cases c.2 <;> exact Nat.succ_pos _
    omega
  have hsum := hmain main
  rw [rewritten, List.length_map, cutMain, List.length_append]
  omega

/-- The pass does what it should if it finds `malloc` and `free`. -/
theorem run_declared (hmalloc : "malloc" ∈ M.names) (hfree : "free" ∈ M.names) (garbage : Pointer) :
    run M garbage = some (intended M) := by
  have hF : M.freeFn garbage = .function "free" := if_pos hfree
  have hM : M.mallocFn = .function "malloc" := if_pos hmalloc
  unfold run intended
  simp only [hF, hM]
  by_cases helse : M.calledElsewhere (.function "free") = true
  · rw [if_pos helse, if_pos (Or.inl helse)]
  · by_cases hnil : M.candidates (.function "malloc") = []
    · rw [if_neg helse, if_pos hnil, if_pos (Or.inr hnil)]
    · rw [if_neg helse, if_neg hnil, if_neg (not_not.mpr hmalloc), if_neg fun h => h.1 hfree,
        if_neg fun h => h.elim helse hnil, ← List.foldl_append]
      have hall := rewriteAll_eq M [] M.calls (fun c hc => calls_mem M hc)
        (calls_nodup M)
      rw [rewritten_nil, List.nil_append] at hall
      exact congrArg some hall

/-- **The pass leaves the body of `main` that it should, whatever `FreeFn` contained, iff** there is
    nothing that it takes for a call of `malloc`, or `free` is declared and there is a `malloc` to call
    or a reason not to. -/
theorem activates_iff :
    (∀ garbage, run M garbage = some (intended M)) ↔
      M.candidates M.mallocFn = [] ∨ ("free" ∈ M.names ∧
        ("malloc" ∈ M.names ∨ M.calledElsewhere (.function "free") = true)) := by
  have hnone : "malloc" ∉ M.names → intended M = M.main := fun hmalloc =>
    if_pos (Or.inr (candidates_undeclared M hmalloc))
  constructor
  · intro h
    by_contra hcond
    obtain ⟨hsome, hcond⟩ := not_or.mp hcond
    by_cases hmalloc : "malloc" ∈ M.names
    · -- `FreeFn` contains `malloc`: it is found to be called, here or elsewhere
      have hfree : "free" ∉ M.names := fun hfree => hcond ⟨hfree, Or.inl hmalloc⟩
      have hF : M.freeFn (.function "malloc") = .function "malloc" := if_neg hfree
      have hM : M.mallocFn = .function "malloc" := if_pos hmalloc
      rw [hM] at hsome
      have hrun := h (.function "malloc")
      unfold run at hrun
      simp only [hF, hM] at hrun
      by_cases helse : M.calledElsewhere (.function "malloc") = true
      · rw [if_pos helse] at hrun
        have hintended : intended M = rewritten M.calls M.main := by
          refine if_neg fun h => h.elim (fun h => ?_) hsome
          rw [calledElsewhere_undeclared M hfree] at h
          cases h
        rw [hintended] at hrun
        have hlength := length_lt_rewritten M.calls
          (fun hnil => hsome (List.map_eq_nil_iff.mp (List.append_eq_nil_iff.mp hnil).1)) M.main
        rw [← Option.some.inj hrun] at hlength
        exact Nat.lt_irrefl _ hlength
      · rw [if_neg helse, if_neg hsome, if_neg (not_not.mpr hmalloc), if_pos ⟨hfree, hsome⟩] at hrun
        cases hrun
    · -- a call through a pointer is taken for one of `malloc`
      have hcrash : ∀ garbage, M.calledElsewhere (M.freeFn garbage) = false → False := by
        intro garbage helse
        have hrun := h garbage
        unfold run at hrun
        simp only [helse, Bool.false_eq_true, if_false] at hrun
        rw [if_neg hsome, if_pos hmalloc] at hrun
        cases hrun
      by_cases hfree : "free" ∈ M.names
      · refine hcrash .null (Bool.eq_false_iff.mpr fun helse => hcond ⟨hfree, Or.inr ?_⟩)
        have hF : M.freeFn .null = .function "free" := if_pos hfree
        rwa [hF] at helse
      · refine hcrash (.wild 0) ?_
        have hF : M.freeFn (.wild 0) = .wild 0 := if_neg hfree
        rw [hF]
        exact calledElsewhere_wild M 0
  · rintro (hnil | ⟨hfree, hmalloc | helse⟩) garbage
    · have hintended : intended M = M.main := by
        by_cases hmalloc : "malloc" ∈ M.names
        · have hM : M.mallocFn = .function "malloc" := if_pos hmalloc
          rw [hM] at hnil
          exact if_pos (Or.inr hnil)
        · exact hnone hmalloc
      rw [hintended]
      unfold run
      simp only [hnil, if_true, ite_self]
    · exact run_declared M hmalloc hfree garbage
    · have hF : M.freeFn garbage = .function "free" := if_pos hfree
      have hintended : intended M = M.main := if_pos (Or.inl helse)
      unfold run
      simp only [hF]
      rw [if_pos helse, hintended]

/-- `main` allocates, and nothing is freed in the module. -/
def leaks : Module Unit Unit where
  names := ["main", "malloc"]
  main := [⟨.orig 0, [⟨.orig 0, .call (some "malloc"), [.const 8], []⟩, ⟨.orig 1, .other (), [], []⟩]⟩]
  others := []
  inLoop _ := false
  instIds := by decide
  instOrig := by
    intro B hB I hI
    obtain rfl := List.mem_singleton.mp hB
    simp only [List.mem_cons, List.not_mem_nil, or_false] at hI
    obtain rfl | rfl := hI
    all_goals exact ⟨_, rfl⟩
  blockIds := by decide
  blockOrig := by
    intro B hB
    obtain rfl := List.mem_singleton.mp hB
    exact ⟨0, rfl⟩
  phiBlocks := by
    intro B hB I hI hphi
    obtain rfl := List.mem_singleton.mp hB
    simp only [List.mem_cons, List.not_mem_nil, or_false] at hI
    obtain rfl | rfl := hI
    all_goals cases hphi
  declared := by
    intro f B hB I hI hcall
    obtain rfl := List.mem_singleton.mp hB
    simp only [List.mem_cons, List.not_mem_nil, or_false] at hI
    obtain rfl | rfl := hI
    · cases hcall
      decide
    · cases hcall

/-- If `FreeFn` happens to contain `malloc`, then the call is taken for one of `free` as well. -/
theorem not_activates_leaks :
    ¬ ∀ garbage, run leaks garbage = some (intended leaks) := by
  intro h
  have hrun : run leaks (.function "malloc") = none := rfl
  have hall := h (.function "malloc")
  rw [hrun] at hall
  cases hall

end Activation

end SwppCompiler.Passes.MemUse
