import SwppCompiler.Interp.Interference
import SwppCompiler.Lib.Commutation
import SwppCompiler.Passes.ReorderMemAccess

/-!
# What `ReorderMemAccess` preserves

A block is executed on the interpreter's memory, in the old order of its instructions and in the new
one. `checkDom` (`src/passes/ReorderMemAccess.cpp`, lines 109–121) gives no edge from an access to a
later `free` of its block, nor from an access of unknown type to a later one of the stack or the heap.

* `phase`: how often the loop changes the blocked class before an instruction is taken. The new order
  is by phases, and in a phase the old one (`newInsts_sorted`).
* `Event.Interferes`: what one instruction did matters for what the other one does.
* `preserves_of_ordered`: the new order does the same as the old one, if of two instructions that
  interfere the first is not of a later phase.
-/

namespace SwppCompiler.Passes

open Interp Lib.Schedule Lib.Commutation Reorder

/-! ## Phases -/

namespace Reorder

variable {Insts : List Value}

/-- `phase` for instructions before `fuel`. -/
def phaseAt : (fuel : ℕ) → Fin Insts.length → ℕ
  | 0, _ => 0
  | fuel + 1, j =>
    let k := (Finset.univ.filter fun i => Edge Insts i j).sup (phaseAt fuel)
    if type Insts j = blockOf (blocked true k) then k + 1 else k

/-- An instruction is taken when the last one that it depends on is, or one change later if its own
    class is blocked then. The loop begins with the heap blocked. -/
def phase (j : Fin Insts.length) : ℕ := phaseAt (j.val + 1) j

variable {i j : Fin Insts.length} {k : ℕ}

theorem phaseAt_eq {fuel fuel' : ℕ} (h : j.val < fuel) (h' : j.val < fuel') :
    phaseAt fuel j = phaseAt fuel' j := by
  induction fuel generalizing j fuel' with
  | zero => omega
  | succ fuel ih =>
    obtain ⟨fuel', rfl⟩ : ∃ f, fuel' = f + 1 := ⟨fuel' - 1, by omega⟩
    have hsup : (Finset.univ.filter fun i => Edge Insts i j).sup (phaseAt fuel) =
        (Finset.univ.filter fun i => Edge Insts i j).sup (phaseAt fuel') := by
      refine Finset.sup_congr rfl fun i hi => ?_
      have hlt : i < j := (Finset.mem_filter.mp hi).2.1
      have hlt : i.val < j.val := hlt
      exact ih (by omega) (by omega)
    rw [phaseAt, phaseAt, hsup]

theorem phase_eq (j : Fin Insts.length) : phase j =
    let k := (Finset.univ.filter fun i => Edge Insts i j).sup phase
    if type Insts j = blockOf (blocked true k) then k + 1 else k := by
  have hsup : (Finset.univ.filter fun i => Edge Insts i j).sup (phaseAt j.val) =
      (Finset.univ.filter fun i => Edge Insts i j).sup phase := by
    refine Finset.sup_congr rfl fun i hi => ?_
    have hlt : i < j := (Finset.mem_filter.mp hi).2.1
    exact phaseAt_eq hlt (Nat.lt_succ_self _)
  rw [phase, phaseAt, hsup]

theorem blockOf_ne (k : ℕ) : blockOf (blocked true k) ≠ blockOf (blocked true (k + 1)) := by
  rw [← otherBlock_blockOf]
  cases blocked true k <;> decide

/-- An instruction is not taken before those that it depends on. -/
theorem phase_le_of_edge (h : Edge Insts i j) : phase i ≤ phase j := by
  have hle : phase i ≤ (Finset.univ.filter fun i => Edge Insts i j).sup phase :=
    Finset.le_sup (f := phase) (Finset.mem_filter.mpr ⟨Finset.mem_univ i, h⟩)
  rw [phase_eq j]
  dsimp only
  split_ifs
  · omega
  · exact hle

/-- When it is taken, it is not blocked. -/
theorem type_ne_phase (j : Fin Insts.length) : type Insts j ≠ blockOf (blocked true (phase j)) := by
  rw [phase_eq j]
  dsimp only
  split_ifs with h
  · rw [h]
    exact blockOf_ne _
  · exact h

/-- It is taken as soon as this is so. -/
theorem phase_le (hedge : ∀ i, Edge Insts i j → phase i ≤ k)
    (hty : type Insts j ≠ blockOf (blocked true k)) : phase j ≤ k := by
  have hle : (Finset.univ.filter fun i => Edge Insts i j).sup phase ≤ k :=
    Finset.sup_le fun i hi => hedge i (Finset.mem_filter.mp hi).2
  rw [phase_eq j]
  dsimp only
  split_ifs with h
  · refine Nat.succ_le_of_lt (lt_of_le_of_ne hle fun heq => hty ?_)
    rw [← heq]
    exact h
  · exact hle

/-- Before in the new order. -/
def Before (i j : Fin Insts.length) : Prop := phase i < phase j ∨ phase i = phase j ∧ i < j

/-- What has been pushed when phase `k` has come to instruction `m`. -/
structure InPhase (k m : ℕ) (s : Sched Insts) : Prop where
  mem : ∀ i, i ∈ s.newInsts ↔ phase i < k ∨ phase i = k ∧ i.val < m
  sorted : s.newInsts.Pairwise Before

variable {s s' : Sched Insts} {m : ℕ}

theorem InPhase.next (h : InPhase k Insts.length s) : InPhase (k + 1) 0 s where
  mem i := by
    rw [h.mem]
    have := i.isLt
    omega
  sorted := h.sorted

/-- One instruction of the scan. -/
theorem InPhase.visit (h : InPhase k i.val s) (hs : s.Ok) (flag : Bool) :
    InPhase k (i.val + 1) (visit (blockOf (blocked true k)) (s, flag) i).1 := by
  have hskip : phase i ≠ k → InPhase k (i.val + 1) s := by
    intro hne
    refine ⟨fun j => ?_, h.sorted⟩
    rw [h.mem]
    have hij : j.val = i.val → phase j ≠ k := fun heq => Fin.ext heq ▸ hne
    omega
  unfold Reorder.visit
  dsimp only
  split_ifs with h1 h2
  · refine hskip fun hk => h1.elim (fun hused => ?_) fun hty => ?_
    · have hmem := (h.mem i).mp ((hs.used i).mp hused)
      omega
    · rw [← hk] at hty
      exact type_ne_phase i hty
  · -- it is pushed, and those pushed before it come before it
    obtain ⟨hused, hty⟩ := not_or.mp h1
    have hnot : ¬(phase i < k ∨ phase i = k ∧ i.val < i.val) := fun hmem =>
      hused ((hs.used i).mpr ((h.mem i).mpr hmem))
    have hle : phase i ≤ k := by
      refine phase_le (fun j hj => ?_) hty
      have hmem := (h.mem j).mp (hs.cnt_eq_zero_iff.mp h2 j hj)
      omega
    have hk : phase i = k := by omega
    refine ⟨fun j => ?_, ?_⟩
    · rw [Sched.push_newInsts, List.mem_append, List.mem_singleton, h.mem, Fin.ext_iff]
      have hij : j.val = i.val → phase j = k := fun heq => Fin.ext heq ▸ hk
      omega
    · rw [Sched.push_newInsts, List.pairwise_append]
      refine ⟨h.sorted, List.pairwise_singleton _ _, fun a ha b hb => ?_⟩
      rw [List.mem_singleton.mp hb]
      have hmem := (h.mem a).mp ha
      rw [← hk] at hmem
      exact hmem
  · refine hskip fun hk => h2 (hs.cnt_eq_zero_iff.mpr fun j hj => (h.mem j).mpr ?_)
    have hle := phase_le_of_edge hj
    have hlt : j.val < i.val := hj.1
    omega

theorem InPhase.foldl {l : List (Fin Insts.length)} (hl : l = (List.finRange Insts.length).drop m)
    (hm : m ≤ Insts.length) (h : InPhase k m s) (hs : s.Ok) (flag : Bool) :
    InPhase k Insts.length (l.foldl (Reorder.visit (blockOf (blocked true k))) (s, flag)).1 := by
  induction l generalizing m s flag with
  | nil =>
    have hlen := congrArg List.length hl
    rw [List.length_nil, List.length_drop, List.length_finRange] at hlen
    obtain rfl : m = Insts.length := by omega
    exact h
  | cons i l ih =>
    have hlen := congrArg List.length hl
    rw [List.length_cons, List.length_drop, List.length_finRange] at hlen
    have hlt : m < (List.finRange Insts.length).length := by
      rw [List.length_finRange]
      omega
    rw [List.drop_eq_getElem_cons hlt, List.getElem_finRange] at hl
    obtain ⟨hi, hl⟩ := List.cons.inj hl
    obtain rfl : i.val = m := congrArg Fin.val hi
    have hstep := h.visit hs flag
    have hok : (Reorder.visit (blockOf (blocked true k)) (s, flag) i).1.Ok := by
      obtain ⟨heq, -⟩ | ⟨heq, hok, -⟩ := visit_cases (blockOf (blocked true k)) hs flag i
      · rw [heq]
        exact hs
      · rw [heq]
        exact hok
    exact ih hl (by omega) hstep hok _

theorem InPhase.scan (h : InPhase k 0 s) (hs : s.Ok) :
    InPhase k Insts.length (Reorder.scan (blockOf (blocked true k)) s).1 :=
  h.foldl (l := List.finRange Insts.length) rfl (Nat.zero_le _) hs false

/-- A scan of instructions that have all been pushed or are not taken yet. -/
theorem foldl_visit_done (hmem : ∀ i, i ∈ s.newInsts ↔ phase i ≤ k) (hs : s.Ok)
    (l : List (Fin Insts.length)) (flag : Bool) :
    l.foldl (Reorder.visit (blockOf (blocked true k))) (s, flag) = (s, flag) := by
  induction l with
  | nil => rfl
  | cons i l ih =>
    have hvisit : Reorder.visit (blockOf (blocked true k)) (s, flag) i = (s, flag) := by
      unfold Reorder.visit
      dsimp only
      split_ifs with h1 h2
      · rfl
      · obtain ⟨hused, hty⟩ := not_or.mp h1
        refine absurd ((hs.used i).mpr ((hmem i).mpr (phase_le (fun j hj => ?_) hty))) hused
        exact (hmem j).mp (hs.cnt_eq_zero_iff.mp h2 j hj)
      · rfl
    rw [List.foldl_cons, hvisit, ih]

/-- A phase. -/
theorem InPhase.pushAll {fuel : ℕ} (h : InPhase k 0 s) (hs : s.Ok)
    (hpush : Reorder.pushAll (blockOf (blocked true k)) fuel s = some s') :
    InPhase (k + 1) 0 s' := by
  cases fuel with
  | zero => cases hpush
  | succ fuel =>
    have hscan := (h.scan hs).next
    have hok := (scan_ok (blockOf (blocked true k)) hs).1
    rw [pushAll_succ] at hpush
    split_ifs at hpush
    · -- the second scan pushes nothing
      have hmem : ∀ i, i ∈ (Reorder.scan (blockOf (blocked true k)) s).1.newInsts ↔ phase i ≤ k := by
        intro i
        rw [hscan.mem]
        omega
      cases fuel with
      | zero => cases hpush
      | succ fuel =>
        have hdone : Reorder.scan (blockOf (blocked true k))
            (Reorder.scan (blockOf (blocked true k)) s).1 = _ :=
          foldl_visit_done hmem hok (List.finRange Insts.length) false
        rw [pushAll_succ, hdone] at hpush
        cases hpush
        exact hscan
    · cases hpush
      exact hscan

theorem InPhase.reorder {fuel : ℕ} {order : List (Fin Insts.length)} (h : InPhase k 0 s) (hs : s.Ok)
    (horder : Reorder.reorder fuel (blockOf (blocked true k)) s = some order) :
    order.Pairwise Before := by
  induction fuel generalizing s k with
  | zero => cases horder
  | succ fuel ih =>
    rw [Reorder.reorder] at horder
    split_ifs at horder
    · cases horder
      exact h.sorted
    · obtain ⟨s1, hpush, horder⟩ := Option.bind_eq_some_iff.mp horder
      rw [otherBlock_blockOf] at horder
      exact ih (h.pushAll hs hpush) (pushAll_ok hs hpush).1 horder

/-- **The new order** is by phases, and in a phase the old one. -/
theorem newInsts_sorted {fuel : ℕ} {order : List (Fin Insts.length)}
    (h : newInsts Insts fuel = some order) : order.Pairwise Before := by
  have hinit : InPhase 0 0 (Sched.init Insts) := ⟨fun i => by simp [Sched.init], List.Pairwise.nil⟩
  exact hinit.reorder Sched.Ok.init h

end Reorder

/-! ## Executing a block -/

/-- What the classification of an instruction leaves out: its other operands and what it computes.
    Results depend on the operands only. -/
structure BlockSem where
  /-- Constants, arguments and globals. -/
  external : Value → Word
  /-- The values that the block's PHI nodes take. -/
  phi : ℕ → Word
  /-- The result of an instruction that does not access memory, if it does not trap. -/
  result : Value → (ℕ → Word) → Option Word
  /-- The value that is stored; the size or the address that the allocator gets. -/
  data : Value → (ℕ → Word) → Word
  args : Value → (ℕ → Word) → List Word
  size : Value → MSize
  calloc : Heap → Word → Bool
  /-- What a function returns and does to the memory, on the stack below `sp`. -/
  callee : String → List Word → (sp : Word) → Memory → Option (Word × Memory)
  result_congr : ∀ {I env env'}, (∀ id ∈ I.operands, env id = env' id) →
    result I env = result I env'
  data_congr : ∀ {I env env'}, (∀ id ∈ I.operands, env id = env' id) → data I env = data I env'
  args_congr : ∀ {I env env'}, (∀ id ∈ I.operands, env id = env' id) → args I env = args I env'
  callee_tiled : ∀ {f as sp m r}, callee f as sp m = some r → m.heap.Tiled → r.2.heap.Tiled

/-- An operation of the memory. -/
inductive Access
  | load (size : MSize) (addr : Word)
  | store (size : MSize) (addr val : Word)
  | malloc (size : Word)
  | free (addr : Word)

/-- What an instruction does. -/
inductive Action
  | result (w : Word)
  | access (a : Access)
  | allocaBytes (size : Word)
  | call (callee : String) (args : List Word)

/-- What an instruction did. -/
inductive Event
  | result
  | load (size : MSize) (addr : Word)
  | store (size : MSize) (addr : Word)
  | malloc (b : BlockT)
  | free (b : BlockT)
  | allocaBytes
  | call
deriving DecidableEq

/-- The stack pointer, the memory, and the calls so far. -/
structure World where
  sp : Word
  memory : Memory
  calls : List (String × List Word)

/-- The values of instructions beside the world. -/
structure BlockState where
  env : ℕ → Word
  world : World

namespace BlockSem

variable (sem : BlockSem)

def operand (env : ℕ → Word) (V : Value) : Word :=
  match V.id? with
  | some id => env id
  | none => sem.external V

/-- `none` is a trap. -/
def action (I : Value) (env : ℕ → Word) : Option Action :=
  match I with
  | .load _ ptr => some (.access (.load (sem.size I) (sem.operand env ptr)))
  | .store _ _ ptr =>
    some (.access (.store (sem.size I) (sem.operand env ptr) (sem.data I env)))
  | .call _ callee _ =>
    if isMallocCall callee then some (.access (.malloc (sem.data I env)))
    else if isFreeCall callee then some (.access (.free (sem.data I env)))
    else if isAllocaByteCall callee then some (.allocaBytes (sem.data I env))
    else some (.call callee (sem.args I env))
  | .phi id _ => some (.result (sem.phi id))
  | I => (sem.result I env).map .result

/-- The value of the instruction (a store and a `free` have 0), the new memory, and what was done.
    `none` is a memory error. -/
def access (m : Memory) : Access → Option (Word × Memory × Event)
  | .load size addr => (m.load? size addr).map fun w => (w, m, .load size addr)
  | .store size addr val => (m.store? size addr val).map fun m => (0, m, .store size addr)
  | .malloc size => (m.malloc? sem.calloc size).map fun r => (r.1, r.2.2, .malloc r.2.1)
  | .free addr => (m.free? addr).map fun r => (0, r.2, .free r.1)

/-- The same with the rest of the world. -/
def exec (s : World) : Action → Option (Word × World × Event)
  | .result w => some (w, s, .result)
  | .access a => (sem.access s.memory a).map fun r => (r.1, { s with memory := r.2.1 }, r.2.2)
  | .allocaBytes size => some (s.sp - size, { s with sp := s.sp - size }, .allocaBytes)
  | .call callee args =>
    (sem.callee callee args s.sp s.memory).map fun r =>
      (r.1, { s with memory := r.2, calls := s.calls ++ [(callee, args)] }, .call)

/-- One instruction. -/
def step (I : Value) (s : BlockState) : Option (BlockState × Event) := do
  let id ← I.id?
  let a ← sem.action I s.env
  let (w, world, e) ← sem.exec s.world a
  pure (⟨Function.update s.env id w, world⟩, e)

/-- The instructions of a block, without its terminator. -/
def runBlock : List Value → BlockState → Option (BlockState × List Event)
  | [], s => some (s, [])
  | I :: Insts, s => do
    let (s, e) ← sem.step I s
    let (s, es) ← runBlock Insts s
    pure (s, e :: es)

end BlockSem

/-- What one instruction did matters for what a later one does, or the other way round: bytes that one
    of them writes, a block that comes or goes, the state of the allocator, the stack pointer. -/
def Event.Interferes : Event → Event → Prop
  | .result, _ | _, .result => False
  | .call, _ | _, .call => True
  | .load _ _, .load _ _ => False
  | .load s1 a1, .store s2 a2 | .store s1 a1, .load s2 a2 | .store s1 a1, .store s2 a2 =>
    ¬Disjoint (footprint s1 a1) (footprint s2 a2)
  | .malloc b, .load s a | .malloc b, .store s a | .load s a, .free b | .store s a, .free b =>
    ¬Disjoint (footprint s a) b.range
  | .malloc _, .malloc _ | .malloc _, .free _ | .free _, .malloc _ | .free _, .free _ => True
  | .allocaBytes, .allocaBytes => True
  | _, _ => False

/-! ## Two instructions -/

section

variable {sem : BlockSem} {m m1 m2 : Memory} {s s1 s2 : World} {w1 w2 : Word} {e f : Event}

theorem access_load {size : MSize} {addr : Word} (h : m.load? size addr = some w1) :
    sem.access m (.load size addr) = some (w1, m, .load size addr) := by
  rw [BlockSem.access, h, Option.map_some]

theorem access_store {size : MSize} {addr val : Word} (h : m.store? size addr val = some m1) :
    sem.access m (.store size addr val) = some (0, m1, .store size addr) := by
  rw [BlockSem.access, h, Option.map_some]

theorem access_malloc {size : Word} {b : BlockT} (h : m.malloc? sem.calloc size = some (w1, b, m1)) :
    sem.access m (.malloc size) = some (w1, m1, .malloc b) := by
  rw [BlockSem.access, h, Option.map_some]

theorem access_free {addr : Word} {b : BlockT} (h : m.free? addr = some (b, m1)) :
    sem.access m (.free addr) = some (0, m1, .free b) := by
  rw [BlockSem.access, h, Option.map_some]

theorem access_tiled {a : Access} (ht : m.heap.Tiled) (h : sem.access m a = some (w1, m1, e)) :
    m1.heap.Tiled := by
  cases a with
  | load size addr =>
    obtain ⟨w, -, heq⟩ := Option.map_eq_some_iff.mp h
    cases heq
    exact ht
  | store size addr val =>
    obtain ⟨m', hm, heq⟩ := Option.map_eq_some_iff.mp h
    cases heq
    obtain ⟨-, t, -, rfl⟩ := ht.store?_iff.mp hm
    exact ht.setArray
  | malloc size =>
    obtain ⟨⟨p, b, m'⟩, hm, heq⟩ := Option.map_eq_some_iff.mp h
    cases heq
    exact (ht.malloc?_allocates hm).tiled
  | free addr =>
    obtain ⟨⟨b, m'⟩, hm, heq⟩ := Option.map_eq_some_iff.mp h
    cases heq
    exact (ht.free?_givesBack hm).tiled

/-- A call may do anything to the memory. -/
theorem access_interferes {a : Access} (h : sem.access m a = some (w1, m1, e)) :
    e.Interferes .call ∧ Event.call.Interferes e := by
  cases a with
  | load | store | malloc | free =>
    obtain ⟨r, -, heq⟩ := Option.map_eq_some_iff.mp h
    cases heq
    exact ⟨trivial, trivial⟩

/-- Operations of the memory that do not interfere may be exchanged. -/
theorem access_swap {a b : Access} (ht : m.heap.Tiled) (h1 : sem.access m a = some (w1, m1, e))
    (h2 : sem.access m1 b = some (w2, m2, f)) (hind : ¬e.Interferes f) :
    ∃ m1', sem.access m b = some (w2, m1', f) ∧ sem.access m1' a = some (w1, m2, e) := by
  cases a with
  | load size addr =>
    obtain ⟨w, hw, heq⟩ := Option.map_eq_some_iff.mp h1
    cases heq
    cases b with
    | load size' addr' =>
      obtain ⟨w', hw', heq⟩ := Option.map_eq_some_iff.mp h2
      cases heq
      exact ⟨m, h2, h1⟩
    | store size' addr' val' =>
      obtain ⟨m', hm, heq⟩ := Option.map_eq_some_iff.mp h2
      cases heq
      refine ⟨m2, h2, access_load ?_⟩
      rw [ht.load?_store? hm (not_not.mp hind).symm]
      exact hw
    | malloc size' =>
      obtain ⟨⟨p, b, m'⟩, hm, heq⟩ := Option.map_eq_some_iff.mp h2
      cases heq
      exact ⟨m', h2, access_load (ht.load?_malloc? hm hw)⟩
    | free addr' =>
      obtain ⟨⟨b, m'⟩, hm, heq⟩ := Option.map_eq_some_iff.mp h2
      cases heq
      exact ⟨m', h2, access_load (ht.load?_free? hm hw (not_not.mp hind))⟩
  | store size addr val =>
    obtain ⟨m', hm, heq⟩ := Option.map_eq_some_iff.mp h1
    cases heq
    cases b with
    | load size' addr' =>
      obtain ⟨w', hw', heq⟩ := Option.map_eq_some_iff.mp h2
      cases heq
      rw [ht.load?_store? hm (not_not.mp hind)] at hw'
      exact ⟨m, access_load hw', h1⟩
    | store size' addr' val' =>
      obtain ⟨m'', hm', heq⟩ := Option.map_eq_some_iff.mp h2
      cases heq
      obtain ⟨m1', h1', h2'⟩ := ht.store?_comm hm hm' (not_not.mp hind)
      exact ⟨m1', access_store h1', access_store h2'⟩
    | malloc size' =>
      obtain ⟨⟨p, b, m''⟩, hm', heq⟩ := Option.map_eq_some_iff.mp h2
      cases heq
      obtain ⟨m1', h1', h2'⟩ := ht.store?_malloc? hm hm'
      exact ⟨m1', access_malloc h1', access_store h2'⟩
    | free addr' =>
      obtain ⟨⟨b, m''⟩, hm', heq⟩ := Option.map_eq_some_iff.mp h2
      cases heq
      obtain ⟨m1', h1', h2'⟩ := ht.store?_free? hm hm' (not_not.mp hind)
      exact ⟨m1', access_free h1', access_store h2'⟩
  | malloc size =>
    obtain ⟨⟨p, c, m'⟩, hm, heq⟩ := Option.map_eq_some_iff.mp h1
    cases heq
    cases b with
    | load size' addr' =>
      obtain ⟨w', hw', heq⟩ := Option.map_eq_some_iff.mp h2
      cases heq
      exact ⟨m, access_load (ht.malloc?_load? hm hw' (not_not.mp hind)), h1⟩
    | store size' addr' val' =>
      obtain ⟨m'', hm', heq⟩ := Option.map_eq_some_iff.mp h2
      cases heq
      obtain ⟨m1', h1', h2'⟩ := ht.malloc?_store? hm hm' (not_not.mp hind)
      exact ⟨m1', access_store h1', access_malloc h2'⟩
    | malloc | free =>
      obtain ⟨r, -, heq⟩ := Option.map_eq_some_iff.mp h2
      cases heq
      exact absurd trivial hind
  | free addr =>
    obtain ⟨⟨c, m'⟩, hm, heq⟩ := Option.map_eq_some_iff.mp h1
    cases heq
    cases b with
    | load size' addr' =>
      obtain ⟨w', hw', heq⟩ := Option.map_eq_some_iff.mp h2
      cases heq
      exact ⟨m, access_load (ht.free?_load? hm hw'), h1⟩
    | store size' addr' val' =>
      obtain ⟨m'', hm', heq⟩ := Option.map_eq_some_iff.mp h2
      cases heq
      obtain ⟨m1', h1', h2'⟩ := ht.free?_store? hm hm'
      exact ⟨m1', access_store h1', access_free h2'⟩
    | malloc | free =>
      obtain ⟨r, -, heq⟩ := Option.map_eq_some_iff.mp h2
      cases heq
      exact absurd trivial hind

/-- Actions that do not interfere may be exchanged. -/
theorem exec_swap {a b : Action} (ht : s.memory.heap.Tiled) (h1 : sem.exec s a = some (w1, s1, e))
    (h2 : sem.exec s1 b = some (w2, s2, f)) (hind : ¬e.Interferes f) :
    ∃ s1', sem.exec s b = some (w2, s1', f) ∧ sem.exec s1' a = some (w1, s2, e) := by
  cases a with
  | result w =>
    cases h1
    exact ⟨s2, h2, rfl⟩
  | access a =>
    obtain ⟨⟨w, m1, e'⟩, hm1, heq⟩ := Option.map_eq_some_iff.mp h1
    cases heq
    cases b with
    | result w =>
      cases h2
      exact ⟨s, rfl, h1⟩
    | access b =>
      obtain ⟨⟨w', m2, f'⟩, hm2, heq⟩ := Option.map_eq_some_iff.mp h2
      cases heq
      obtain ⟨m1', hb, ha⟩ := access_swap ht hm1 hm2 hind
      refine ⟨{ s with memory := m1' }, ?_, ?_⟩
      · rw [BlockSem.exec, hb, Option.map_some]
      · rw [BlockSem.exec, ha, Option.map_some]
    | allocaBytes size =>
      cases h2
      refine ⟨{ s with sp := s.sp - size }, rfl, ?_⟩
      rw [BlockSem.exec, hm1, Option.map_some]
    | call callee args =>
      obtain ⟨r, -, heq⟩ := Option.map_eq_some_iff.mp h2
      cases heq
      exact absurd (access_interferes hm1).1 hind
  | allocaBytes size =>
    cases h1
    cases b with
    | result w =>
      cases h2
      exact ⟨s, rfl, rfl⟩
    | access b =>
      obtain ⟨⟨w', m2, f'⟩, hm2, heq⟩ := Option.map_eq_some_iff.mp h2
      cases heq
      refine ⟨{ s with memory := m2 }, ?_, rfl⟩
      rw [BlockSem.exec, hm2, Option.map_some]
    | allocaBytes size' =>
      cases h2
      exact absurd trivial hind
    | call callee args =>
      obtain ⟨r, -, heq⟩ := Option.map_eq_some_iff.mp h2
      cases heq
      exact absurd trivial hind
  | call callee args =>
    obtain ⟨r, hr, heq⟩ := Option.map_eq_some_iff.mp h1
    cases heq
    cases b with
    | result w =>
      cases h2
      exact ⟨s, rfl, h1⟩
    | access b =>
      obtain ⟨⟨w', m2, f'⟩, hm2, heq⟩ := Option.map_eq_some_iff.mp h2
      cases heq
      exact absurd (access_interferes hm2).2 hind
    | allocaBytes size =>
      cases h2
      exact absurd trivial hind
    | call callee' args' =>
      obtain ⟨r', -, heq⟩ := Option.map_eq_some_iff.mp h2
      cases heq
      exact absurd trivial hind

theorem exec_tiled {a : Action} (ht : s.memory.heap.Tiled)
    (h : sem.exec s a = some (w1, s1, e)) : s1.memory.heap.Tiled := by
  cases a with
  | result | allocaBytes =>
    cases h
    exact ht
  | access a =>
    obtain ⟨⟨w, m1, e'⟩, hm, heq⟩ := Option.map_eq_some_iff.mp h
    cases heq
    exact access_tiled ht hm
  | call callee args =>
    obtain ⟨r, hr, heq⟩ := Option.map_eq_some_iff.mp h
    cases heq
    exact sem.callee_tiled hr ht

end

/-- The instructions whose values an instruction reads when it is executed. A PHI node's value was
    chosen at the end of the block before. -/
def Value.reads : Value → List ℕ
  | .phi _ _ => []
  | I => I.operands

theorem operand_congr (sem : BlockSem) (V : Value) {env env' : ℕ → Word}
    (h : ∀ id ∈ V.id?.toList, env id = env' id) : sem.operand env V = sem.operand env' V := by
  unfold BlockSem.operand
  cases hid : V.id? with
  | none => rfl
  | some id =>
    rw [hid] at h
    exact h id (List.mem_singleton_self id)

theorem action_congr {sem : BlockSem} {env env' : ℕ → Word} {I : Value}
    (h : ∀ id ∈ I.reads, env id = env' id) : sem.action I env = sem.action I env' := by
  cases I with
  | phi id uses => rfl
  | load id ptr =>
    have hptr := operand_congr sem ptr h
    rw [BlockSem.action, hptr, ← BlockSem.action]
  | store id uses ptr =>
    have hptr := operand_congr sem ptr fun id hid => h id (List.mem_append_right uses hid)
    have hdata := sem.data_congr (I := .store id uses ptr) h
    rw [BlockSem.action, hptr, hdata, ← BlockSem.action]
  | call id callee uses =>
    have hdata := sem.data_congr (I := .call id callee uses) h
    have hargs := sem.args_congr (I := .call id callee uses) h
    rw [BlockSem.action, hdata, hargs, ← BlockSem.action]
  | alloca | bitCast | getElementPtr | binary | other | globalVariable | constantBitCast
  | constantIntToPtr | constant | argument =>
    exact congrArg (Option.map Action.result) (sem.result_congr h)

theorem step_iff {sem : BlockSem} {I : Value} {s s' : BlockState} {e : Event} :
    sem.step I s = some (s', e) ↔ ∃ id a w world, I.id? = some id ∧ sem.action I s.env = some a ∧
      sem.exec s.world a = some (w, world, e) ∧ s' = ⟨Function.update s.env id w, world⟩ := by
  unfold BlockSem.step
  constructor
  · intro h
    obtain ⟨id, hid, h⟩ := Option.bind_eq_some_iff.mp h
    obtain ⟨a, ha, h⟩ := Option.bind_eq_some_iff.mp h
    obtain ⟨⟨w, world, e'⟩, hexec, heq⟩ := Option.bind_eq_some_iff.mp h
    cases heq
    exact ⟨id, a, w, world, hid, ha, hexec, rfl⟩
  · rintro ⟨id, a, w, world, hid, ha, hexec, rfl⟩
    simp only [hid, ha, hexec, Option.bind_eq_bind, Option.bind_some, Option.pure_def]

/-! ## A block -/

variable {sem : BlockSem} {Insts : List Value}

/-- Instruction `p.1` does `p.2`. -/
def Does (sem : BlockSem) (Insts : List Value) (p : Fin Insts.length × Event)
    (s s' : BlockState) : Prop :=
  sem.step (Insts.get p.1) s = some (s', p.2)

/-- Neither defines what the other defines or reads, and they do not interfere. -/
structure Independent (p q : Fin Insts.length × Event) : Prop where
  ids : ∀ id, (Insts.get p.1).id? = some id → (Insts.get q.1).id? ≠ some id
  reads : ∀ id, (Insts.get p.1).id? = some id → id ∉ (Insts.get q.1).reads
  read : ∀ id, (Insts.get q.1).id? = some id → id ∉ (Insts.get p.1).reads
  apart : ¬p.2.Interferes q.2

theorem commuting : Commuting (Does sem Insts) (fun s => s.world.memory.heap.Tiled) Independent where
  keeps := by
    intro p s s' ht h
    obtain ⟨id, a, w, world, -, -, hexec, rfl⟩ := step_iff.mp h
    exact exec_tiled ht hexec
  swap := by
    intro p q s s1 s2 ht hind h1 h2
    obtain ⟨id, a, w, world, hid, ha, hexec, rfl⟩ := step_iff.mp h1
    obtain ⟨id', a', w', world', hid', ha', hexec', rfl⟩ := step_iff.mp h2
    have hne : id ≠ id' := fun heq => hind.ids id hid (heq ▸ hid')
    have hq : sem.action (Insts.get q.1) s.env = some a' := by
      rw [← ha']
      refine action_congr fun x hx => (Function.update_of_ne ?_ ..).symm
      rintro rfl
      exact hind.reads x hid hx
    obtain ⟨world1, hb, ha1⟩ := exec_swap ht hexec hexec' hind.apart
    refine ⟨⟨Function.update s.env id' w', world1⟩, step_iff.mpr ⟨_, _, _, _, hid', hq, hb, rfl⟩, ?_⟩
    refine step_iff.mpr ⟨_, a, w, _, hid, ?_, ha1, ?_⟩
    · rw [← ha]
      refine action_congr fun x hx => Function.update_of_ne ?_ ..
      rintro rfl
      exact hind.read x hid' hx
    · rw [Function.update_comm hne.symm]

theorem runs_of_runBlock {l : List (Fin Insts.length)} {s s' : BlockState} {es : List Event}
    (h : sem.runBlock (l.map Insts.get) s = some (s', es)) :
    es.length = l.length ∧ Runs (Does sem Insts) s (l.zip es) s' := by
  induction l generalizing s es with
  | nil =>
    cases h
    exact ⟨rfl, .nil⟩
  | cons i l ih =>
    obtain ⟨⟨s1, e⟩, hstep, h⟩ := Option.bind_eq_some_iff.mp h
    obtain ⟨⟨s2, es⟩, hrest, heq⟩ := Option.bind_eq_some_iff.mp h
    cases heq
    obtain ⟨hlen, hruns⟩ := ih hrest
    exact ⟨congrArg (· + 1) hlen, .cons hstep hruns⟩

theorem runBlock_of_runs {l : List (Fin Insts.length × Event)} {s s' : BlockState}
    (h : Runs (Does sem Insts) s l s') :
    sem.runBlock (l.map fun p => Insts.get p.1) s = some (s', l.map Prod.snd) := by
  induction h with
  | nil => rfl
  | cons hstep _ ih =>
    exact Option.bind_eq_some_iff.mpr ⟨_, hstep, Option.bind_eq_some_iff.mpr ⟨_, ih, rfl⟩⟩

/-- Instructions have their own identities, and a definition comes before its uses. -/
structure IsBlock (Insts : List Value) : Prop where
  ids : ∀ i j : Fin Insts.length, (Insts.get i).id? = (Insts.get j).id? → i = j
  ssa : ∀ i j : Fin Insts.length, ∀ id ∈ (Insts.get j).reads, (Insts.get i).id? = some id → i < j

instance : Decidable (IsBlock Insts) :=
  decidable_of_iff
    ((∀ i j : Fin Insts.length, (Insts.get i).id? = (Insts.get j).id? → i = j) ∧
      ∀ i j : Fin Insts.length, ∀ id ∈ (Insts.get j).reads, (Insts.get i).id? = some id → i < j)
    ⟨fun h => ⟨h.1, h.2⟩, fun h => ⟨h.ids, h.ssa⟩⟩

variable (sem Insts) in
/-- Of two instructions that interfere in the old order, the first is not of a later phase. -/
def Ordered (s : BlockState) : Prop :=
  ∀ s' es, sem.runBlock Insts s = some (s', es) → ∀ i j : Fin Insts.length, i < j →
    ∀ e f, es[i.val]? = some e → es[j.val]? = some f → e.Interferes f → phase i ≤ phase j

variable (sem Insts) in
/-- If the old order runs, the new one keeps such instructions in order. -/
def KeepsOrder (s : BlockState) : Prop :=
  ∀ s' es, sem.runBlock Insts s = some (s', es) →
    ∃ order, (∃ fuel₀, ∀ fuel ≥ fuel₀, newInsts Insts fuel = some order) ∧
    ∀ i j : Fin Insts.length, i < j → ∀ e f, es[i.val]? = some e → es[j.val]? = some f →
      e.Interferes f → order.idxOf i < order.idxOf j

variable (sem Insts) in
/-- If the old order runs, the new one does, and to the same state: the values of the instructions,
    the memory, the calls. -/
def Preserves (s : BlockState) : Prop :=
  ∀ s' es, sem.runBlock Insts s = some (s', es) → ∀ BranchInst,
    ∃ Insts', (∃ fuel₀, ∀ fuel ≥ fuel₀,
      Reorder.run Insts BranchInst fuel = some (Insts' ++ [BranchInst])) ∧
    ∃ es', sem.runBlock Insts' s = some (s', es')

theorem Value.reads_subset {V : Value} : V.reads ⊆ V.operands := by
  cases V with
  | phi id uses => exact List.nil_subset uses
  | _ => exact List.Subset.refl _

theorem Reorder.Before.asymm {i j : Fin Insts.length} (h : Before i j) : ¬Before j i := by
  unfold Before at h ⊢
  omega

theorem Reorder.Before.idxOf_lt {order : List (Fin Insts.length)} (hsorted : order.Pairwise Before)
    {i j : Fin Insts.length} (hi : i ∈ order) (hj : j ∈ order) (h : Before i j) :
    order.idxOf i < order.idxOf j := by
  by_contra hlt
  have hne : order.idxOf j ≠ order.idxOf i := by
    intro heq
    obtain rfl := (List.idxOf_inj hj).mp heq
    exact h.asymm h
  have hji := List.pairwise_iff_getElem.mp hsorted _ _ (List.idxOf_lt_length_of_mem hj)
    (List.idxOf_lt_length_of_mem hi) (by omega)
  rw [List.getElem_idxOf, List.getElem_idxOf] at hji
  exact h.asymm hji

/-- Instructions that are exchanged are independent if they do not interfere. -/
theorem independent (hblock : IsBlock Insts) {i j : Fin Insts.length} {e f : Event} (hij : i < j)
    (hphase : phase j < phase i) (hind : ¬e.Interferes f) :
    Independent ((i, e) : Fin Insts.length × Event) (j, f) where
  ids id hi hj := absurd (hblock.ids i j (hi.trans hj.symm)) (ne_of_lt hij)
  reads id hi hj := by
    have hdom : checkDom (Insts.get i) (Insts.get j) = true := by
      rw [checkDom, if_pos (List.any_eq_true.mpr ⟨id, Value.reads_subset hj, decide_eq_true hi⟩)]
    have := phase_le_of_edge ⟨hij, hdom⟩
    omega
  read id hj hi := absurd (hblock.ssa j i id hi hj) (not_lt_of_gt hij)
  apart := hind

/-- The old order, with what each instruction did. -/
theorem runs_finRange {s s' : BlockState} {es : List Event}
    (h : sem.runBlock Insts s = some (s', es)) :
    ∃ ev : Fin Insts.length → Event, (∀ i, es[i.val]? = some (ev i)) ∧
      Runs (Does sem Insts) s ((List.finRange Insts.length).map fun i => (i, ev i)) s' := by
  have h' : sem.runBlock ((List.finRange Insts.length).map Insts.get) s = some (s', es) := by
    rw [List.map_get_finRange]
    exact h
  obtain ⟨hlen, hruns⟩ := runs_of_runBlock h'
  rw [List.length_finRange] at hlen
  refine ⟨fun i => es.get (i.cast hlen.symm), fun i => ?_, ?_⟩
  · rw [List.getElem?_eq_getElem (by omega)]
    rfl
  · have hzip : (List.finRange Insts.length).zip es =
        (List.finRange Insts.length).map fun i => (i, es.get (i.cast hlen.symm)) := by
      refine List.ext_getElem (by simp [hlen]) fun n h1 h2 => ?_
      simp
    rw [← hzip]
    exact hruns

/-- The run in the new order. -/
theorem Ordered.runBlock {s s' : BlockState} {es : List Event} {order : List (Fin Insts.length)}
    (hord : Ordered sem Insts s) (hblock : IsBlock Insts) (ht : s.world.memory.heap.Tiled)
    (hsorted : order.Pairwise Before) (hperm : order.Perm (List.finRange Insts.length))
    (hrun : sem.runBlock Insts s = some (s', es)) :
    ∃ es', sem.runBlock (order.map Insts.get) s = some (s', es') := by
  obtain ⟨ev, hev, hruns⟩ := runs_finRange hrun
  have hpairs : ((List.finRange Insts.length).map fun i => (i, ev i)).Pairwise fun p q =>
      Independent p q ∨ Before p.1 q.1 := by
    refine List.pairwise_map.mpr ((List.pairwise_lt_finRange _).imp fun {i j} hij => ?_)
    by_cases hphase : phase i ≤ phase j
    · exact Or.inr (hphase.lt_or_eq.imp_right fun heq => ⟨heq, hij⟩)
    · refine Or.inl (independent hblock hij (not_le.mp hphase) fun hind => hphase ?_)
      exact hord s' es hrun i j hij _ _ (hev i) (hev j) hind
  have hnot : (order.map fun i => (i, ev i)).Pairwise fun p q => ¬Before q.1 p.1 :=
    List.pairwise_map.mpr (hsorted.imp Before.asymm)
  have hnew := runBlock_of_runs (hruns.reorder commuting ht hpairs (hperm.map _) hnot)
  rw [List.map_map] at hnew
  exact ⟨_, hnew⟩

theorem keepsOrder_iff_ordered {s : BlockState} : KeepsOrder sem Insts s ↔ Ordered sem Insts s := by
  obtain ⟨order, ⟨fuel₀, hfuel⟩, -, -, hperm⟩ := newInsts_ok Insts
  have hsorted := newInsts_sorted (hfuel fuel₀ le_rfl)
  have hmem : ∀ i, i ∈ order := fun i => hperm.mem_iff.mpr (List.mem_finRange i)
  constructor
  · intro hkeeps s' es hrun i j hij e f he hf hind
    obtain ⟨order', ⟨fuel₁, hfuel'⟩, hkeeps⟩ := hkeeps s' es hrun
    have hsame := hfuel' (max fuel₀ fuel₁) (le_max_right _ _)
    rw [hfuel _ (le_max_left _ _)] at hsame
    cases hsame
    by_contra hlt
    have hlt' := Before.idxOf_lt hsorted (hmem j) (hmem i) (Or.inl (not_le.mp hlt))
    exact lt_asymm hlt' (hkeeps i j hij e f he hf hind)
  · intro hord s' es hrun
    refine ⟨order, ⟨fuel₀, hfuel⟩, fun i j hij e f he hf hind => ?_⟩
    refine Before.idxOf_lt hsorted (hmem i) (hmem j) ?_
    have hle := hord s' es hrun i j hij e f he hf hind
    exact hle.lt_or_eq.imp_right fun heq => ⟨heq, hij⟩

/-- **What the new order preserves.** It keeps instructions that interfere in order if and only if the
    first of two is never of a later phase. Then it does what the old order does. -/
theorem preserves_of_ordered {s : BlockState} (hblock : IsBlock Insts)
    (ht : s.world.memory.heap.Tiled) :
    (KeepsOrder sem Insts s ↔ Ordered sem Insts s) ∧ (Ordered sem Insts s → Preserves sem Insts s) := by
  refine ⟨keepsOrder_iff_ordered, fun hord s' es hrun BranchInst => ?_⟩
  obtain ⟨order, ⟨fuel₀, hfuel⟩, -, -, hperm⟩ := newInsts_ok Insts
  have hsorted := newInsts_sorted (hfuel fuel₀ le_rfl)
  refine ⟨order.map Insts.get, ⟨fuel₀, fun fuel h => ?_⟩,
    hord.runBlock hblock ht hsorted hperm hrun⟩
  rw [Reorder.run, hfuel fuel h]
  rfl

/-! ## On one state -/

/-- Results are sums; the first operand is what is stored, the size, the address that is freed. -/
def sampleSem : BlockSem where
  external _ := 0
  phi _ := 0
  result I env := some (I.operands.map env).sum
  data I env := (I.operands.map env).headD 0
  args I env := I.operands.map env
  size _ := .size8
  calloc _ _ := true
  callee _ _ _ m := some (0, m)
  result_congr h := by rw [List.map_congr_left h]
  data_congr h := by rw [List.map_congr_left h]
  args_congr h := by rw [List.map_congr_left h]
  callee_tiled h ht := by
    cases h
    exact ht

/-- `%100 = malloc(16)`, which begins with the byte 8, and `%101 = alloca i64` in the blocks before.
    `%102` points to `%101`. -/
def sampleState : BlockState where
  env id := if id = 100 then 20480 else 10232
  world :=
    { sp := 10232
      memory :=
        { Memory.init with
          heap := ⟨{mkBlock 20480 20496}, {mkBlock 20496 heapMax}⟩
          contents := fun _ x => if x = 0 then 8 else 0
          allocedSize := 16
          maxAllocedSize := 16 }
      calls := [] }

def heapPtr : Value := .call 100 "malloc" []

def stackPtr : Value := .alloca 101 []

theorem sampleState_tiled : sampleState.world.memory.heap.Tiled := by
  have hm : Heap.init.execMalloc 16 = some (20480, sampleState.world.memory.heap) := by
    decide +kernel
  exact Heap.Tiled.init.execMalloc hm

def exchangedBlock : List Value := [.store 0 [100] heapPtr, .store 1 [101] stackPtr, .load 2 heapPtr]

theorem exchangedBlock_ordered : Ordered sampleSem exchangedBlock sampleState := by
  intro s' es hrun i j hij e f he hf hind
  have hes : (sampleSem.runBlock exchangedBlock sampleState).map Prod.snd =
      some [.store .size8 20480, .store .size8 10232, .load .size8 20480] := by decide +kernel
  rw [hrun] at hes
  obtain rfl := Option.some.inj hes
  have hphase : ∀ i j : Fin exchangedBlock.length, i < j →
      i.val = 0 ∧ j.val = 1 ∨ phase i ≤ phase j := by decide +kernel
  obtain ⟨hi, hj⟩ | hle := hphase i j hij
  · -- the two stores
    rw [hi] at he
    rw [hj] at hf
    cases he
    cases hf
    exact absurd (Set.Ico_disjoint_Ico.mpr (by decide)) hind
  · exact hle

theorem exchangedBlock_preserves :
    (newInsts exchangedBlock 10).map (·.map Fin.val) = some [1, 0, 2] ∧
    Preserves sampleSem exchangedBlock sampleState :=
  ⟨by decide +kernel,
    (preserves_of_ordered (by decide) sampleState_tiled).2 exchangedBlock_ordered⟩

/-- The index of a heap access is spilled to the stack, and the block is given back after it. -/
def freedBlock : List Value :=
  [.load 0 heapPtr, .store 1 [0] stackPtr, .load 2 stackPtr, .getElementPtr 3 heapPtr [2],
    .load 4 (.getElementPtr 3 heapPtr [2]), .call 5 "free" [100]]

/-- A store through a PHI node, and a load of what it stores. -/
def aliasBlock : List Value :=
  [.load 0 heapPtr, .store 1 [0] (.phi 102 [101]), .load 2 stackPtr]

theorem not_preserves_of_run {Insts' : List Value} {s : BlockState} {fuel : ℕ}
    (hpass : Reorder.run Insts .constant fuel = some (Insts' ++ [.constant]))
    (hrun : (sem.runBlock Insts s).isSome = true)
    (hdiff : ∀ r ∈ sem.runBlock Insts' s, ∀ r' ∈ sem.runBlock Insts s, r.1 ≠ r'.1) :
    ¬Preserves sem Insts s := by
  intro h
  obtain ⟨⟨s', es⟩, hs'⟩ := Option.isSome_iff_exists.mp hrun
  obtain ⟨Insts'', ⟨fuel₀, hfuel⟩, es', hnew⟩ := h s' es hs' .constant
  obtain ⟨order, horder, hlast⟩ := Option.map_eq_some_iff.mp hpass
  have hmax := hfuel (max fuel₀ fuel) (le_max_left _ _)
  rw [Reorder.run, newInsts_mono horder (le_max_right _ _), Option.map_some, hlast] at hmax
  rw [← List.append_cancel_right (Option.some.inj hmax)] at hnew
  exact hdiff _ hnew _ hs' rfl

/-- The block is given back before the last load; the load of `%101` comes before the store. -/
theorem not_preserves :
    IsBlock freedBlock ∧ IsBlock aliasBlock ∧ sampleState.world.memory.heap.Tiled ∧
    ¬Preserves sampleSem freedBlock sampleState ∧ ¬Preserves sampleSem aliasBlock sampleState := by
  refine ⟨by decide, by decide, sampleState_tiled, ?_, ?_⟩
  · have hpass : Reorder.run freedBlock .constant 10 =
        some (([0, 5, 1, 2, 3, 4] : List (Fin 6)).map freedBlock.get ++ [.constant]) := by
      decide +kernel
    have hnone : (sampleSem.runBlock (([0, 5, 1, 2, 3, 4] : List (Fin 6)).map freedBlock.get)
        sampleState).isSome = false := by decide +kernel
    refine not_preserves_of_run hpass (by decide +kernel) fun r hr => ?_
    rw [hr] at hnone
    cases hnone
  · have hpass : Reorder.run aliasBlock .constant 10 =
        some (([2, 0, 1] : List (Fin 3)).map aliasBlock.get ++ [.constant]) := by decide +kernel
    have hold : (sampleSem.runBlock aliasBlock sampleState).map (fun r => r.1.env 2) = some 8 := by
      decide +kernel
    have hnew : (sampleSem.runBlock (([2, 0, 1] : List (Fin 3)).map aliasBlock.get) sampleState).map
        (fun r => r.1.env 2) = some 0 := by decide +kernel
    refine not_preserves_of_run hpass (by decide +kernel) fun r hr r' hr' heq => ?_
    rw [hr, Option.map_some] at hnew
    rw [hr', Option.map_some, ← heq, hnew] at hold
    cases hold

end SwppCompiler.Passes
