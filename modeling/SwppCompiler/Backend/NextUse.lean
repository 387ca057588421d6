import SwppCompiler.Backend.BlockLevel

/-!
# The queues of next uses

`visitBasicBlock` scans a block and pushes the position of every operand occurrence into `AdventMap`;
the visitors pop one entry for each operand that they translate.

* `advents_eq`: what the scan pushes are the occurrences in the order of their translation. Positions
  are natural numbers here; `advents_lt` says for which blocks `unsigned` is as good.
* `Step.nextExact`: a step keeps each `NextAdvent` equal to the head of its queue.
* `Visit.progress`: every visitor translates its operands, in order, and pops nothing else.
* `nextUseExact`: throughout a block the queues hold what is still to be translated.
-/

namespace SwppCompiler.Backend

open Lib.StateExcept RegisterAllocator

/-! ## Operand occurrences -/

/-- The positions at which the operand `S` occurs. -/
def positions (S : InstRef) (rest : List (ℕ × Operand)) : List ℕ :=
  (rest.filter fun u => u.2.inst? = some S).map Prod.fst

/-- The position at which the operand `S` occurs next, or `NO_MORE_ADVENT`. -/
def nextPosition (S : InstRef) (rest : List (ℕ × Operand)) : ℕ :=
  match rest.find? fun u => u.2.inst? = some S with
  | some u => u.1
  | none => noMoreAdvent

/-- What the terminator translates: the incoming values for the PHI nodes of its successors, and its
    own operand. -/
def Block.termOperands (F : Func) (b : ℕ) (B : Block) : List Operand :=
  (F.phiInputs b B).filterMap Prod.snd ++ B.term.operands

/-- The operand occurrences of a block from instruction `n` on, each with its position, in the order in
    which they are translated. -/
def Block.occurrences (F : Func) (b : ℕ) (B : Block) (n : ℕ) : List (ℕ × Operand) :=
  if n ≤ B.termIdx then
    ((B.body.drop (n - B.phis.length)).zipIdx (B.phis.length + (n - B.phis.length))).flatMap
      (fun p => p.1.operands.map (p.2, ·)) ++ (B.termOperands F b).map (B.termIdx, ·)
  else []

/-- The queues hold the positions of the occurrences `rest`, and every active source its next one. -/
structure NextUses (rest : List (ℕ × Operand)) (s : State) : Prop where
  queue : ∀ S, s.adventMap S = positions S rest
  next : ∀ e ∈ s.ra.activeSet, e.nextAdvent = nextPosition e.source rest

section

variable {S : InstRef} {n : ℕ} {V : Operand} {rest rest' : List (ℕ × Operand)}

theorem positions_append : positions S (rest ++ rest') = positions S rest ++ positions S rest' := by
  unfold positions
  rw [List.filter_append, List.map_append]

theorem positions_cons_of_eq (hV : V.inst? = some S) :
    positions S ((n, V) :: rest) = n :: positions S rest := by
  have hpos : decide (((n, V) : ℕ × Operand).2.inst? = some S) = true := decide_eq_true hV
  unfold positions
  rw [List.filter_cons, if_pos hpos, List.map_cons]

theorem positions_cons_of_ne (hV : V.inst? ≠ some S) :
    positions S ((n, V) :: rest) = positions S rest := by
  have hneg : ¬decide (((n, V) : ℕ × Operand).2.inst? = some S) = true := fun h =>
    hV (of_decide_eq_true h)
  unfold positions
  rw [List.filter_cons, if_neg hneg]

theorem head_positions : (positions S rest).head?.getD noMoreAdvent = nextPosition S rest := by
  unfold positions nextPosition
  rw [List.head?_map, List.head?_filter]
  cases rest.find? fun u => u.2.inst? = some S <;> rfl

/-- Occurrences at one position. -/
theorem positions_map (Vs : List Operand) : positions S (Vs.map (n, ·)) =
    List.replicate (Vs.filter fun V => V.inst? = some S).length n := by
  unfold positions
  rw [List.filter_map, List.map_map]
  exact List.map_const' ..

end

/-- **The scan of the block.** -/
theorem advents_eq (F : Func) (b : ℕ) (B : Block) (S : InstRef) :
    advents F b B S = positions S (B.occurrences F b 0) := by
  have hinputs : ((F.phiInputs b B).filter fun p => p.2.bind Operand.inst? = some S).length =
      (((F.phiInputs b B).filterMap Prod.snd).filter fun V => V.inst? = some S).length := by
    induction F.phiInputs b B with
    | nil => rfl
    | cons p ps ih =>
      obtain ⟨P, _ | V⟩ := p
      · have hsnd : Prod.snd ((P, none) : InstRef × Option Operand) = none := rfl
        rw [List.filterMap_cons_none hsnd, List.filter_cons_of_neg (by simp), ih]
      · have hsnd : Prod.snd ((P, some V) : InstRef × Option Operand) = some V := rfl
        rw [List.filterMap_cons_some hsnd]
        by_cases hV : V.inst? = some S
        · rw [List.filter_cons_of_pos (by simpa using hV), List.filter_cons_of_pos (by simpa using hV),
            List.length_cons, List.length_cons, ih]
        · rw [List.filter_cons_of_neg (by simpa using hV), List.filter_cons_of_neg (by simpa using hV),
            ih]
  have hterm : positions S (B.term.operands.map (B.termIdx, ·)) ++
      ((F.phiInputs b B).filter fun p => p.2.bind Operand.inst? = some S).map (fun _ => B.termIdx) =
        positions S ((B.termOperands F b).map (B.termIdx, ·)) := by
    unfold Block.termOperands
    rw [positions_map, positions_map, List.filter_append, List.length_append, List.map_const',
      List.replicate_append_replicate, hinputs, Nat.add_comm]
  unfold Block.occurrences
  rw [if_pos (Nat.zero_le _), Nat.zero_sub, List.drop_zero, Nat.add_zero, positions_append, ← hterm,
    ← List.append_assoc, ← positions_append]
  rfl

/-- **The positions are what `timestep` counts.** It is an `unsigned`: in a block with fewer than
    2^32 - 1 instructions before its terminator it does not wrap, and no position is
    `NO_MORE_ADVENT`. -/
theorem advents_lt {F : Func} {b : ℕ} {B : Block} {S : InstRef} (h : B.termIdx < noMoreAdvent) :
    ∀ t ∈ advents F b B S, t < noMoreAdvent := by
  have huses : ∀ u ∈ B.uses, u.1 ≤ B.termIdx := by
    intro u hu
    rcases List.mem_append.mp hu with hu | hu
    · obtain ⟨p, hp, hu⟩ := List.mem_flatMap.mp hu
      obtain ⟨V, -, rfl⟩ := List.mem_map.mp hu
      have hlt := (List.mem_zipIdx hp).2.1
      unfold Block.termIdx
      omega
    · obtain ⟨V, -, rfl⟩ := List.mem_map.mp hu
      exact le_rfl
  intro t ht
  refine lt_of_le_of_lt ?_ h
  rcases List.mem_append.mp ht with ht | ht
  · obtain ⟨u, hu, rfl⟩ := List.mem_map.mp ht
    exact huses u (List.mem_filter.mp hu).1
  · obtain ⟨p, -, rfl⟩ := List.mem_map.mp ht
    exact le_rfl

/-- The occurrences of one instruction come first. -/
theorem Block.occurrences_body {F : Func} {b i : ℕ} {B : Block} {x : Inst} (hx : B.body[i]? = some x) :
    B.occurrences F b (B.phis.length + i) =
      x.operands.map (B.phis.length + i, ·) ++ B.occurrences F b (B.phis.length + i + 1) := by
  obtain ⟨hi, rfl⟩ := List.getElem?_eq_some_iff.mp hx
  have h1 : B.phis.length + i - B.phis.length = i := by omega
  have h2 : B.phis.length + i + 1 - B.phis.length = i + 1 := by omega
  unfold occurrences
  rw [if_pos (by unfold termIdx; omega), if_pos (by unfold termIdx; omega), h1, h2,
    List.drop_eq_getElem_cons hi, List.zipIdx_cons, List.flatMap_cons, List.append_assoc,
    Nat.add_assoc]

theorem Block.occurrences_phi {F : Func} {b n : ℕ} {B : Block} (hn : n < B.phis.length) :
    B.occurrences F b n = B.occurrences F b (n + 1) := by
  have h1 : n - B.phis.length = 0 := by omega
  have h2 : n + 1 - B.phis.length = 0 := by omega
  unfold occurrences
  rw [if_pos (by unfold termIdx; omega), if_pos (by unfold termIdx; omega), h1, h2]

theorem Block.occurrences_term {F : Func} {b : ℕ} {B : Block} :
    B.occurrences F b B.termIdx = (B.termOperands F b).map (B.termIdx, ·) := by
  have h1 : B.termIdx - B.phis.length = B.body.length := by unfold termIdx; omega
  unfold occurrences
  rw [if_pos le_rfl, h1, List.drop_length]
  rfl

theorem Block.occurrences_end {F : Func} {b : ℕ} {B : Block} :
    B.occurrences F b (B.termIdx + 1) = [] := if_neg (Nat.not_succ_le_self _)

/-! ## Steps -/

/-- Every active source has the head of its queue as its next use. -/
def NextExact (s : State) : Prop := ∀ e ∈ s.ra.activeSet, e.nextAdvent = s.nextAdvent e.source

/-- A register is requested for `I`. -/
theorem NextExact.request {s s' : State} {I : InstRef} {k : ℕ} {ra ra' : RegisterAllocator InstRef}
    (hn : NextExact s) (ho : Ownership s.ra) (hr : s.ra.request I = .ok (k, ra)) (hk : k ≠ 0)
    (hu : ra.update I none (s.nextAdvent I) = .ok ra') (hra : s'.ra = ra')
    (hadv : s'.adventMap = s.adventMap) : NextExact s' := by
  obtain ⟨-, -, hmem1⟩ := ho.mem_request hr hk
  obtain ⟨d, -, hds, hmem2⟩ := (ho.request hr).mem_update hu
  have hnext : ∀ S, s'.nextAdvent S = s.nextAdvent S := fun S => by
    unfold State.nextAdvent
    rw [hadv]
  intro e he
  rw [hra, hmem2] at he
  rw [hnext]
  obtain ⟨he, hne⟩ | rfl := he
  · obtain he | rfl := (hmem1 e).mp he
    · exact hn e he
    · exact absurd rfl hne
  · exact congrArg s.nextAdvent hds.symm

/-- **A step keeps the next uses exact.** -/
theorem Step.nextExact {c : Ctx} {d : Site} {s s' : State} (h : Step c d s s') (ho : Ownership s.ra)
    (hn : NextExact s) : NextExact s' := by
  cases h with
  | evict he hv => exact fun e hmem => hn e (((ho.mem_evict he).2 e).mp hmem).1
  | fill hI hadv hr hk hu => exact hn.request ho hr hk hu rfl rfl
  | @use I t q _ _ hI hadv hv hu =>
    obtain ⟨f, -, hfs, hmem⟩ := ho.mem_update hu
    intro e he
    obtain ⟨he, hne⟩ | rfl := (hmem e).mp he
    · rw [hn e he]
      show _ = (Function.update s.adventMap I q e.source).head?.getD noMoreAdvent
      rw [Function.update_of_ne hne]
      rfl
    · show _ = (Function.update s.adventMap I q f.source).head?.getD noMoreAdvent
      rw [hfs, Function.update_self]
  | takeTemp ht hr hk => exact fun e he => hn e (by rwa [← ho.activeSet_requestTempRegister hr])
  | giveTemp ht hg => exact fun e he => hn e (by rwa [← activeSet_giveUpTempRegister hg])
  | define hd hr hk hu hlines hv => exact hn.request ho hr hk hu rfl rfl
  | phi hd hr hk hu => exact hn.request ho hr hk hu rfl rfl
  | user U => exact hn
  | line hl hdest => exact hn
  | storePhi hP hv => exact hn
  | flags r1 r2 => exact hn

/-- From `s` the steps of the visitor at `d` have led to a state, and the operands `Vs` have been
    translated on the way, in this order. -/
inductive Translating (c : Ctx) (d : Site) (s : State) : List Operand → State → Prop
  | refl : Translating c d s [] s
  /-- A step that pops nothing. -/
  | quiet {Vs : List Operand} {s1 s2 : State} (h : Translating c d s Vs s1) (hstep : Step c d s1 s2)
      (hadv : s2.adventMap = s1.adventMap) : Translating c d s Vs s2
  /-- An operand that is no instruction. -/
  | const {Vs : List Operand} {V : Operand} {s1 : State} (h : Translating c d s Vs s1)
      (hV : V.inst? = none) : Translating c d s (Vs ++ [V]) s1
  /-- An operand that is an instruction, and its `pop()`. -/
  | use {Vs : List Operand} {V : Operand} {I : InstRef} {t : ℕ} {q : List ℕ} {s1 s2 : State}
      (h : Translating c d s Vs s1) (hV : V.inst? = some I) (hstep : Step c d s1 s2)
      (hadv : s1.adventMap I = t :: q) (hpop : s2.adventMap = Function.update s1.adventMap I q) :
      Translating c d s (Vs ++ [V]) s2

section

variable {c : Ctx} {d : Site} {s s1 s2 s' : State} {Vs Ws ops : List Operand} {n : ℕ}
  {rest : List (ℕ × Operand)}

theorem Translating.keeps (h : Translating c d s Vs s') (ho : Ownership s.ra) (hn : NextExact s) :
    Ownership s'.ra ∧ NextExact s' := by
  induction h with
  | refl => exact ⟨ho, hn⟩
  | quiet h hstep hadv ih => exact ⟨hstep.ownership ih.1, hstep.nextExact ih.1 ih.2⟩
  | const h hV ih => exact ih
  | use h hV hstep hadv hpop ih => exact ⟨hstep.ownership ih.1, hstep.nextExact ih.1 ih.2⟩

/-- The queues hold what is left. -/
theorem Translating.queue (h : Translating c d s Vs s')
    (hs : ∀ S, s.adventMap S = positions S ((Vs ++ Ws).map (n, ·) ++ rest)) :
    ∀ S, s'.adventMap S = positions S (Ws.map (n, ·) ++ rest) := by
  have hassoc : ∀ {Vs Ws : List Operand} {V : Operand},
      (∀ S, s.adventMap S = positions S ((Vs ++ [V] ++ Ws).map (n, ·) ++ rest)) →
      ∀ S, s.adventMap S = positions S ((Vs ++ V :: Ws).map (n, ·) ++ rest) := by
    intro Vs Ws V hs
    rwa [List.append_assoc] at hs
  induction h generalizing Ws with
  | refl => exact hs
  | quiet h hstep hadv ih =>
    rw [hadv]
    exact ih hs
  | @const Vs V s1 h hV ih =>
    intro S
    have hne : V.inst? ≠ some S := by rw [hV]; exact nofun
    have hq := ih (hassoc hs) S
    rwa [List.map_cons, List.cons_append, positions_cons_of_ne hne] at hq
  | @use Vs V I t q s1 s2 h hV hstep hadv hpop ih =>
    intro S
    have hq := ih (hassoc hs)
    rw [hpop]
    by_cases hS : S = I
    · subst hS
      have hq := hq S
      rw [hadv, List.map_cons, List.cons_append, positions_cons_of_eq hV] at hq
      rw [Function.update_self]
      exact (List.cons.inj hq).2
    · have hne : V.inst? ≠ some S := by
        rw [hV]
        exact fun h => hS (Option.some.inj h).symm
      have hq := hq S
      rw [List.map_cons, List.cons_append, positions_cons_of_ne hne] at hq
      rw [Function.update_of_ne hS]
      exact hq

theorem NextUses.nextExact (h : NextUses rest s) : NextExact s := by
  intro e he
  rw [h.next e he, State.nextAdvent, h.queue, head_positions]

/-- **Inside a visit.** -/
theorem NextUses.translating (hs : NextUses ((Vs ++ Ws).map (n, ·) ++ rest) s) (ho : Ownership s.ra)
    (h : Translating c d s Vs s') : NextUses (Ws.map (n, ·) ++ rest) s' := by
  have hqueue := h.queue hs.queue
  refine ⟨hqueue, fun e he => ?_⟩
  rw [(h.keeps ho hs.nextExact).2 e he, State.nextAdvent, hqueue, head_positions]

end

/-! ## Programs that pop nothing -/

/-- The program pops no empty queue. -/
def NeverPops {α : Type} (m : M α) : Prop := ∀ s, m s ≠ .error .popEmpty

namespace NeverPops

variable {α β : Type} {m n : M α}

theorem bind {f : α → M β} (hm : NeverPops m) (hf : ∀ a, NeverPops (f a)) : NeverPops (m >>= f) := by
  intro s h
  rcases bind_error_iff.mp h with h | ⟨a, s', -, h⟩
  · exact hm s h
  · exact hf a s' h

theorem pure {a : α} : NeverPops (pure a : M α) := fun _ h => by cases h

theorem throw {f : Fault} (hf : f ≠ .popEmpty) : NeverPops (throw f : M α) := fun _ h => by
  cases h
  exact hf rfl

theorem ite {p : Prop} [Decidable p] (hm : NeverPops m) (hn : NeverPops n) :
    NeverPops (if p then m else n) := by
  split_ifs
  · exact hm
  · exact hn

theorem withRA {f : RegisterAllocator InstRef → Except Fault (α × RegisterAllocator InstRef)}
    (hf : ∀ ra, f ra ≠ .error .popEmpty) : NeverPops (withRA f) := fun s h =>
  hf s.ra (withRA_error h)

theorem of_total (hm : Total m) : NeverPops m := fun s => hm s _

end NeverPops

section

variable {c : Ctx} {I : InstRef}

theorem require_neverPops {b : Bool} : NeverPops (require b) :=
  .ite .pure (.throw nofun)

theorem emit_total {l : Line} : Total (emit l) := fun _ _ h => by cases h

theorem define_total {v : EmitVal} : Total (define I v) := fun _ _ h => by cases h

theorem evict_neverPops {r : Option (Allocation InstRef)} : NeverPops (evict c r) := by
  cases r with
  | none => exact .throw nofun
  | some a =>
    intro s h
    unfold evict at h
    simp only at h
    split_ifs at h
    split at h <;> cases h

theorem withRA_evict_neverPops {t : ℕ} : NeverPops (withRA (·.evict t)) := by
  refine .withRA fun ra h => ?_
  have hf := evict_faults h
  simp at hf

theorem evictOne_neverPops {t : ℕ} : NeverPops (evictOne c t) :=
  .bind withRA_evict_neverPops fun _ => evict_neverPops

theorem requestOrEvict_neverPops {t : ℕ} {m : M ℕ} (hm : NeverPops m) :
    NeverPops (requestOrEvict c t m) :=
  .bind hm fun _ => .ite (.bind evictOne_neverPops fun _ => .bind hm fun _ =>
    .ite (.throw nofun) .pure) .pure

theorem reportUseNoPop_neverPops {U : Option InstRef} : NeverPops (reportUseNoPop I U) := by
  intro s h
  unfold reportUseNoPop at h
  cases hu : s.ra.update I U (s.nextAdvent I) with
  | ok ra => rw [hu] at h; cases h
  | error f =>
    rw [hu] at h
    cases h
    unfold RegisterAllocator.update at hu
    split at hu <;> cases hu

theorem requestRegister_neverPops : NeverPops (requestRegister c I) := by
  refine .bind (requestOrEvict_neverPops (.withRA fun ra h => ?_)) fun k =>
    .bind reportUseNoPop_neverPops fun _ => .pure
  have hex := request_error h
  unfold RegisterAllocator.request at h
  rw [if_pos hex] at h
  cases h

theorem getRegister_neverPops : NeverPops (getRegister c I) := by
  intro s h
  unfold getRegister at h
  split_ifs at h
  refine NeverPops.bind (requestRegister_neverPops (c := c) (I := I)) (fun k => ?_) s h
  exact .of_total fun _ _ h => by cases h

theorem requestTempRegister_neverPops {t : ℕ} : NeverPops (requestTempRegister c t) := by
  refine requestOrEvict_neverPops (.withRA fun ra h => ?_)
  unfold RegisterAllocator.requestTempRegister at h
  split_ifs at h
  · cases h
  · simp only at h
    split_ifs at h
  · simp only at h
    split_ifs at h

theorem giveUpTempRegister_neverPops {k : ℕ} : NeverPops (giveUpTempRegister k) := by
  refine .withRA fun ra h => ?_
  unfold RegisterAllocator.giveUpTempRegister at h
  split_ifs at h <;> cases h

theorem clearRA_neverPops : NeverPops (clearRA c) := by
  have hloop : ∀ fuel, NeverPops (clearLoop c fuel) := by
    intro fuel
    induction fuel with
    | zero => exact .pure
    | succ fuel ih =>
      refine .bind withRA_evict_neverPops fun r => ?_
      cases r with
      | none => exact .pure
      | some a => exact .bind evict_neverPops fun _ => ih
  exact fun s => hloop _ s

theorem scaleIndex_neverPops {sz k : ℕ} {idx : EmitVal} : NeverPops (scaleIndex c sz idx k) :=
  .ite .pure (.bind require_neverPops fun _ => .ite (.of_total createBinOp_total)
    (.bind requestTempRegister_neverPops fun _ => .bind giveUpTempRegister_neverPops fun _ =>
      .of_total createBinOp_total))

theorem handOverRef_neverPops {callee : String} : NeverPops (handOverRef c callee) := by
  intro s h
  unfold handOverRef at h
  split_ifs at h
  · cases hr : requestTempRegister c refSPId { s with refSet := true } with
    | ok p => rw [hr] at h; cases h
    | error f =>
      rw [hr] at h
      cases h
      exact requestTempRegister_neverPops _ hr
  · exact giveUpTempRegister_neverPops s h

theorem takeBackRef_neverPops {callee : String} : NeverPops (takeBackRef c callee) := by
  intro s h
  unfold takeBackRef at h
  split_ifs at h
  cases hr : requestTempRegister c refSPId s with
  | ok p => rw [hr] at h; cases h
  | error f =>
    rw [hr] at h
    cases h
    exact requestTempRegister_neverPops _ hr

theorem emitCall_neverPops {callee : String} {args : List EmitVal} {named : Bool} :
    NeverPops (emitCall c I callee args named) :=
  .ite (.bind requestRegister_neverPops fun _ => .of_total fun _ _ h => by cases h)
    (.of_total emit_total)

end

/-! ## Visitors -/

/-- The visitor at `d`, called in `s₀`, has translated the operands `Vs` so far. -/
structure Progress (c : Ctx) (d : Site) (s₀ : State) (Vs : List Operand) (s : State) : Prop where
  own : Ownership s.ra
  steps : Translating c d s₀ Vs s

/-- The program translates the operands that `Vs'` has more than `Vs`, and pops no empty queue. -/
abbrev Consumes (c : Ctx) (d : Site) (s₀ : State) (Vs Vs' : List Operand) {α : Type} (m : M α) : Prop :=
  Avoids (· = .popEmpty) (Progress c d s₀ Vs) m fun _ => Progress c d s₀ Vs'

/-- In `s₀` the queues begin with the occurrences of the operands `ops` at position `n`. -/
def Queued (n : ℕ) (ops : List Operand) (s₀ : State) : Prop :=
  ∃ rest, ∀ S, s₀.adventMap S = positions S (ops.map (n, ·) ++ rest)

/-- The site without its operands. -/
def Site.quiet (d : Site) : Site := { d with operands := [] }

section

variable {α : Type} {c : Ctx} {d : Site} {s s' s₀ : State} {Vs Ws ops : List Operand} {n : ℕ}

/-- A step at a site without operands pops nothing. -/
theorem Step.of_quiet (h : Step c d.quiet s s') :
    Step c d s s' ∧ s'.adventMap = s.adventMap := by
  have hreads : ∀ {I : InstRef}, ¬d.quiet.reads I := fun ⟨_, hV, _⟩ => by cases hV
  cases h with
  | user U => exact ⟨.user U, rfl⟩
  | evict he hv => exact ⟨.evict he hv, rfl⟩
  | fill hI hadv hr hk hu => exact absurd hI hreads
  | use hI hadv hv hu => exact absurd hI hreads
  | takeTemp ht hr hk => exact ⟨.takeTemp ht hr hk, rfl⟩
  | giveTemp ht hg => exact ⟨.giveTemp ht hg, rfl⟩
  | line hl hdest => exact ⟨.line hl hdest, rfl⟩
  | define hd hr hk hu hlines hv => exact ⟨.define hd hr hk hu hlines hv, rfl⟩
  | phi hd hr hk hu => exact ⟨.phi hd hr hk hu, rfl⟩
  | storePhi hP hv => exact ⟨.storePhi hP hv, rfl⟩
  | flags r1 r2 => exact ⟨.flags r1 r2, rfl⟩

theorem Progress.quiet (h : Progress c d s₀ Vs s) (hsteps : Steps c d.quiet s s') :
    Progress c d s₀ Vs s' := by
  induction hsteps with
  | refl => exact h
  | tail _ hstep ih =>
    obtain ⟨hstep, hadv⟩ := hstep.of_quiet
    exact ⟨hstep.ownership ih.own, ih.steps.quiet hstep hadv⟩

/-- A part of a visitor that translates no operand. -/
theorem consumes_quiet_of {p : State → Prop} {q : α → State → Prop} {m : M α} (hm : NeverPops m)
    (hok : ∀ {s a s'}, Ownership s.ra → p s → m s = .ok (a, s') → Steps c d.quiet s s' ∧ q a s') :
    Avoids (· = .popEmpty) (fun s => Progress c d s₀ Vs s ∧ p s) m
      fun a s => Progress c d s₀ Vs s ∧ q a s := by
  refine fun s hs => ⟨fun e he heq => hm s (heq ▸ he), fun a s' ha => ?_⟩
  obtain ⟨hsteps, hq⟩ := hok hs.1.own hs.2 ha
  exact ⟨hs.1.quiet hsteps, hq⟩

@[inherit_doc consumes_quiet_of] theorem consumes_quiet {m : M α} (hm : NeverPops m)
    (hok : ∀ {s a s'}, Ownership s.ra → m s = .ok (a, s') → Steps c d.quiet s s') :
    Consumes c d s₀ Vs Vs m :=
  (consumes_quiet_of (p := fun _ => True) (q := fun _ _ => True) hm
    fun ho _ h => ⟨hok ho h, trivial⟩).weaken (fun _ h => ⟨h, trivial⟩) fun _ _ h => h.1

theorem consumes_require {b : Bool} : Consumes c d s₀ Vs Vs (require b) :=
  consumes_quiet require_neverPops fun _ h => by
    obtain ⟨-, rfl⟩ := require_ok.mp h
    exact .refl

theorem consumes_reportUser {U : Option InstRef} : Consumes c d s₀ Vs Vs (reportUser U) :=
  consumes_quiet (.of_total fun _ _ h => by cases h) fun _ h => by
    obtain rfl := reportUser_ok.mp h
    exact .single (.user U)

/-- **The translation of an operand.** -/
theorem consumes_translate {V : Operand} (hs₀ : Queued n ops s₀) (hops : ops = Vs ++ V :: Ws)
    (hV : V ∈ d.operands) : Consumes c d s₀ Vs (Vs ++ [V]) (translateSrcOperandToTgt c V d.user) := by
  intro s hs
  cases hi : V.inst? with
  | none =>
    constructor
    · rintro e he rfl
      rcases bind_error_iff.mp he with he | ⟨⟨⟩, s1, -, he⟩
      · exact require_neverPops s he
      · obtain ⟨val, ty⟩ := V
        cases val <;> cases hi <;> cases he
    · rintro ⟨v, k⟩ s' h
      obtain ⟨rfl, -, -⟩ := translateConst_ok hi h
      exact ⟨hs.own, hs.steps.const hi⟩
  | some I =>
    obtain ⟨val, ty⟩ := V
    cases val <;> cases hi
    have hI : d.reads I := ⟨_, hV, rfl⟩
    -- the queue of the operand begins with this position
    obtain ⟨rest, hrest⟩ := hs₀
    rw [hops] at hrest
    have hqueue := hs.steps.queue hrest I
    rw [List.map_cons, List.cons_append, positions_cons_of_eq rfl] at hqueue
    have hget : ∀ {k s1}, getRegister c I s = .ok (k, s1) →
        Progress c d s₀ Vs s1 ∧ s1.adventMap = s.adventMap := by
      intro k s1 h
      obtain ⟨hk, -, rfl | ⟨-, s0, ra, ra', hev, hr, hu, rfl⟩⟩ := getRegister_ok hs.own h
      · exact ⟨hs, rfl⟩
      · have h0 : Progress c d s₀ Vs s0 := hs.quiet (steps_of_evicted hev)
        have hadv : s0.adventMap = s.adventMap := by
          obtain ⟨rfl, -⟩ | ⟨-, hev⟩ := hev
          · rfl
          · exact (evictOne_adventMap hev).1
        have hne : s0.adventMap I ≠ [] := by
          rw [hadv, hqueue]
          exact List.cons_ne_nil _ _
        have hfill : Step c d s0 _ := .fill hI hne hr hk hu
        exact ⟨⟨hfill.ownership h0.own, h0.steps.quiet hfill rfl⟩, hadv⟩
    constructor
    · rintro e he rfl
      rcases bind_error_iff.mp he with he | ⟨⟨⟩, s1, h1, he⟩
      · exact require_neverPops s he
      obtain ⟨-, rfl⟩ := require_ok.mp h1
      rcases bind_error_iff.mp he with he | ⟨k, s1, h1, he⟩
      · exact getRegister_neverPops _ he
      obtain ⟨-, hadv⟩ := hget h1
      rw [← hadv] at hqueue
      rcases bind_error_iff.mp he with he | ⟨⟨⟩, s2, -, he⟩
      · rcases bind_error_iff.mp he with he | ⟨⟨⟩, s2, -, he⟩
        · rw [popAdvent, hqueue] at he
          cases he
        · exact reportUseNoPop_neverPops s2 he
      · rcases bind_error_iff.mp he with he | ⟨v, s3, -, he⟩
        · unfold emitVal at he
          split at he <;> cases he
        · cases he
    · rintro ⟨v, k⟩ s' h
      obtain ⟨s1, t, q, ra, h1, hadv, hv, hu, rfl⟩ := translateInst_ok h
      obtain ⟨hs1, -⟩ := hget h1
      have huse : Step c d s1 _ := .use hI hadv hv hu
      exact ⟨huse.ownership hs1.own, hs1.steps.use rfl huse hadv rfl⟩

/-- The last part of a visitor with a result. -/
theorem consumes_finish {f : ℕ → M EmitVal} (hd : d.defines) (ha : d.aliased)
    (hf : ∀ k, NeverPops (f k))
    (hem : ∀ {k v s s'}, f k s = .ok (v, s') → Emits k s v s' ∨ s' = s) :
    Consumes c d s₀ Vs Vs (do
      let regId ← requestRegister c d.user
      let res ← f regId
      define d.user res) := by
  refine consumes_quiet (.bind requestRegister_neverPops fun k => .bind (hf k) fun _ =>
    .of_total define_total) fun ho h => ?_
  simp only [bind_ok_iff, define_ok] at h
  obtain ⟨k, s1, hreq, v, s2, hv, rfl⟩ := h
  refine finish_steps (d := d.quiet) hd ho hreq ?_
  rcases hem hv with h | h
  · exact Or.inl h
  · exact Or.inr (Or.inl ⟨ha, h⟩)

/-- A visitor that translates one operand and creates its result from it. -/
theorem consumes_unary {V : Operand} {f : ℕ → EmitVal → M EmitVal} (hs₀ : Queued n [V] s₀)
    (hV : V ∈ d.operands) (hd : d.defines) (ha : d.aliased) (hf : ∀ k v, NeverPops (f k v))
    (hem : ∀ {k w v s s'}, f k w s = .ok (v, s') → Emits k s v s' ∨ s' = s) :
    Consumes c d s₀ [] [V] (do
      let (op, _) ← translateSrcOperandToTgt c V d.user
      let regId ← requestRegister c d.user
      let res ← f regId op
      define d.user res) :=
  Avoids.bind (consumes_translate hs₀ (show _ = [] ++ V :: [] from rfl) hV) fun ⟨op, _⟩ =>
    consumes_finish hd ha (fun k => hf k op) hem

/-- A visitor that reports itself, translates two operands and creates its result from them. -/
theorem consumes_binary {V W : Operand} {f : ℕ → EmitVal → EmitVal → M EmitVal}
    (hs₀ : Queued n [V, W] s₀) (hV : V ∈ d.operands) (hW : W ∈ d.operands) (hd : d.defines)
    (ha : d.aliased) (hf : ∀ k v w, NeverPops (f k v w))
    (hem : ∀ {k x y v s s'}, f k x y s = .ok (v, s') → Emits k s v s') :
    Consumes c d s₀ [] [V, W] (do
      reportUser (some d.user)
      let (op1, _) ← translateSrcOperandToTgt c V d.user
      let (op2, _) ← translateSrcOperandToTgt c W d.user
      reportUser none
      let regId ← requestRegister c d.user
      let res ← f regId op1 op2
      define d.user res) :=
  Avoids.bind consumes_reportUser fun _ =>
    Avoids.bind (consumes_translate hs₀ (show _ = [] ++ V :: [W] from rfl) hV) fun ⟨op1, _⟩ =>
      Avoids.bind (consumes_translate hs₀ (show _ = [V] ++ W :: [] from rfl) hW) fun ⟨op2, _⟩ =>
        Avoids.bind consumes_reportUser fun _ =>
          consumes_finish hd ha (fun k => hf k op1 op2) fun h => Or.inl (hem h)

/-! ### `getelementptr` -/

theorem consumes_requestTemp (hd : d.temps) : Avoids (· = .popEmpty) (Progress c d s₀ Vs)
    (requestTempRegister c 0) fun k s => Progress c d s₀ Vs s ∧ k ∈ s.ra.tempRegisters :=
  (consumes_quiet_of (p := fun _ => True) requestTempRegister_neverPops fun ho _ h => by
    obtain ⟨hsteps, -, htemp, -⟩ := requestTempRegister_steps (d := d.quiet) hd ho h
    exact ⟨hsteps, htemp ▸ Finset.mem_insert_self _ _⟩).weaken (fun _ h => ⟨h, trivial⟩) fun _ _ h => h

/-- Lines that write a temporary register. -/
theorem consumes_emits {t : ℕ} {m : M EmitVal} (hm : Total m)
    (hem : ∀ {v s s'}, m s = .ok (v, s') → Emits t s v s' ∨ s' = s) :
    Avoids (· = .popEmpty) (fun s => Progress c d s₀ Vs s ∧ t ∈ s.ra.tempRegisters) m
      fun _ s => Progress c d s₀ Vs s ∧ t ∈ s.ra.tempRegisters := by
  refine consumes_quiet_of (.of_total hm) fun ho ht h => ?_
  obtain hem | rfl := hem h
  · have hframe : OperandFrame c _ _ := hem.frame
    exact ⟨hem.steps fun ha => ho.active_disjoint_temp ha ht, hframe.temp ▸ ht⟩
  · exact ⟨.refl, ht⟩

theorem consumes_gepLoop {t : ℕ} (hd : d.temps) (hs₀ : Queued n ops s₀) :
    ∀ {idxs Vs : List Operand} {elemTy : Option Ty} {p : EmitVal}, ops = Vs ++ idxs →
    (∀ V ∈ idxs, V ∈ d.operands) →
    Avoids (· = .popEmpty) (fun s => Progress c d s₀ Vs s ∧ t ∈ s.ra.tempRegisters)
      (gepLoop c d.user t idxs elemTy p)
      fun _ s => Progress c d s₀ (Vs ++ idxs) s ∧ t ∈ s.ra.tempRegisters := by
  intro idxs
  induction idxs with
  | nil =>
    intro Vs elemTy p _ _
    rw [List.append_nil]
    exact .pure fun _ h => h
  | cons idx idxs ih =>
    intro Vs elemTy p hops hmem
    cases elemTy with
    | none => exact .throw nofun
    | some elemTy =>
      have hV : Avoids (· = .popEmpty) (fun s => Progress c d s₀ Vs s ∧ t ∈ s.ra.tempRegisters)
          (translateSrcOperandToTgt c idx d.user)
          fun _ s => Progress c d s₀ (Vs ++ [idx]) s ∧ t ∈ s.ra.tempRegisters := by
        refine fun s hs => ⟨(consumes_translate hs₀ hops (hmem idx List.mem_cons_self) s hs.1).1, ?_⟩
        intro a s' h
        refine ⟨(consumes_translate hs₀ hops (hmem idx List.mem_cons_self) s hs.1).2 a s' h, ?_⟩
        rw [(translateSrcOperandToTgt_frame hs.1.own h).temp]
        exact hs.2
      have hscale : ∀ {sz k : ℕ} {v : EmitVal}, Avoids (· = .popEmpty)
          (fun s => Progress c d s₀ (Vs ++ [idx]) s ∧ t ∈ s.ra.tempRegisters) (scaleIndex c sz v k)
          fun _ s => Progress c d s₀ (Vs ++ [idx]) s ∧ t ∈ s.ra.tempRegisters := fun {sz k v} =>
        consumes_quiet_of scaleIndex_neverPops fun ho ht h => by
          obtain ⟨hsteps, hframe, -⟩ := scaleIndex_ok (d := d.quiet) hd ho h
          exact ⟨hsteps, hframe.temp ▸ ht⟩
      have hadd : ∀ {p v : EmitVal}, Avoids (· = .popEmpty)
          (fun s => Progress c d s₀ (Vs ++ [idx]) s ∧ t ∈ s.ra.tempRegisters) (addIndex t p v)
          fun _ s => Progress c d s₀ (Vs ++ [idx]) s ∧ t ∈ s.ra.tempRegisters := fun {p v} =>
        .ite (fun _ => .pure fun _ h => h) fun _ =>
          consumes_emits createBinOp_total fun h => Or.inl (createBinOp_emits h)
      have hrequire : ∀ {b : Bool}, Avoids (· = .popEmpty)
          (fun s => Progress c d s₀ Vs s ∧ t ∈ s.ra.tempRegisters) (require b)
          fun _ s => Progress c d s₀ Vs s ∧ t ∈ s.ra.tempRegisters := fun {b} =>
        .ite (fun _ => .pure fun _ h => h) fun _ => .throw nofun
      have hops' : ops = Vs ++ [idx] ++ idxs := by
        rw [hops, List.append_assoc]
        rfl
      have hrest : ∀ {ty : Option Ty} {p : EmitVal}, Avoids (· = .popEmpty)
          (fun s => Progress c d s₀ (Vs ++ [idx]) s ∧ t ∈ s.ra.tempRegisters)
          (gepLoop c d.user t idxs ty p)
          fun _ s => Progress c d s₀ (Vs ++ idx :: idxs) s ∧ t ∈ s.ra.tempRegisters := by
        intro ty p
        have h := @ih (Vs ++ [idx]) ty p hops' fun V hV => hmem V (List.mem_cons_of_mem _ hV)
        rwa [List.append_assoc] at h
      exact Avoids.bind hrequire fun _ => Avoids.bind hV fun ⟨_, _⟩ => Avoids.bind hscale fun _ =>
        Avoids.bind hadd fun _ => hrest

/-- `CreateBitCast` writes its register, or changes nothing. -/
theorem createBitCast_emits {dest : ℕ} {v w : EmitVal} {src ty : Ty}
    (h : createBitCast dest v src ty s = .ok (w, s')) : Emits dest s w s' ∨ s' = s := by
  obtain h | ⟨-, -, h⟩ := createBitCast_ok h
  · exact Or.inl h
  · exact Or.inr h

theorem consumes_getElementPtr {ptr : Operand} {indices : List Operand} {ty : Ty}
    (hs₀ : Queued n (ptr :: indices) s₀) (hmem : ∀ V ∈ ptr :: indices, V ∈ d.operands)
    (ht : d.temps) (hd : d.defines) (ha : d.aliased) :
    Consumes c d s₀ [] (ptr :: indices) (visitGetElementPtrInst c d.user ptr indices ty) := by
  cases hty : ptr.ty with
  | ptr elem =>
    simp only [visitGetElementPtrInst, hty]
    refine Avoids.bind consumes_reportUser fun _ => Avoids.bind
      (consumes_translate hs₀ (show _ = [] ++ ptr :: indices from rfl) (hmem ptr List.mem_cons_self))
      fun _ => Avoids.bind (consumes_requestTemp ht) fun t => Avoids.bind
        (consumes_emits createBitCast_total createBitCast_emits) fun _ => Avoids.bind
          (consumes_gepLoop ht hs₀ (show _ = [ptr] ++ indices from rfl)
            fun V hV => hmem V (List.mem_cons_of_mem _ hV)) fun _ => ?_
    refine Avoids.weaken (Avoids.bind consumes_reportUser fun _ => Avoids.bind ?_ fun _ =>
      consumes_finish hd ha (fun _ => .of_total createBitCast_total) createBitCast_emits)
      (fun s hs => hs.1) fun _ _ h => h
    refine consumes_quiet giveUpTempRegister_neverPops fun _ h => ?_
    obtain ⟨ra, hg, rfl⟩ := giveUpTempRegister_iff.mp h
    exact .single (.giveTemp ht hg)
  | _ =>
    simp only [visitGetElementPtrInst, hty]
    exact .throw fun h => by cases h

/-! ### Calls -/

theorem consumes_translateAll (hs₀ : Queued n ops s₀) : ∀ {args Vs : List Operand}, ops = Vs ++ args →
    (∀ V ∈ args, V ∈ d.operands) → Consumes c d s₀ Vs (Vs ++ args) (translateAll c d.user args) := by
  intro args
  induction args with
  | nil =>
    intro Vs _ _
    rw [List.append_nil]
    exact .pure fun _ h => h
  | cons V args ih =>
    intro Vs hops hmem
    have hops' : ops = Vs ++ [V] ++ args := by
      rw [hops, List.append_assoc]
      rfl
    have hrest := ih hops' fun W hW => hmem W (List.mem_cons_of_mem _ hW)
    rw [List.append_assoc] at hrest
    exact Avoids.bind (consumes_translate hs₀ hops (hmem V List.mem_cons_self)) fun _ =>
      Avoids.bind hrest fun _ => .pure fun _ h => h

theorem consumes_call {callee : String} {args : List Operand} {ty : Option Ty}
    (hs₀ : Queued n args s₀) (hmem : ∀ V ∈ args, V ∈ d.operands) (ht : d.temps) (hd : d.defines) :
    Consumes c d s₀ [] args (visitCallInst c d.user callee args ty) :=
  Avoids.bind (consumes_quiet handOverRef_neverPops fun ho h =>
      (handOverRef_steps (d := d.quiet) ht ho h).1) fun _ =>
    Avoids.bind (consumes_translateAll hs₀ (List.nil_append _).symm hmem) fun _ =>
      Avoids.bind (consumes_quiet emitCall_neverPops fun ho h =>
          emitCall_steps (d := d.quiet) hd ho h) fun _ =>
        consumes_quiet takeBackRef_neverPops fun ho h =>
          (takeBackRef_steps (d := d.quiet) ht ho h).1

/-! ### Every instruction -/

/-- The site of an instruction for what it does to the queues. -/
def Inst.queueSite (I : InstRef) (x : Inst) : Site := ⟨I, x.operands, [], True, True, True⟩

/-- A line that writes no register. -/
theorem consumes_emit {l : Line} (hp : l.isPlain = true) (hd : l.dest? = none) :
    Consumes c d s₀ Vs Vs (emit l) :=
  consumes_quiet (.of_total emit_total) fun _ h => by
    obtain rfl := emit_ok.mp h
    exact .single (.line hp (by rw [hd]; exact nofun))

theorem consumes_visitInst {I : InstRef} {x : Inst} (hs₀ : Queued n x.operands s₀)
    (halloca : ∀ ty V, x = .alloca ty V → V.inst? = none) :
    Consumes c (x.queueSite I) s₀ [] x.operands (visitInst c I x) := by
  cases x with
  | alloca allocated V =>
    -- the constant size is not translated
    have hvisit : Consumes c (Inst.queueSite I (.alloca allocated V)) s₀ ([] ++ [V]) ([] ++ [V])
        (visitAllocaInst c I allocated V) :=
      Avoids.bind consumes_require fun _ => Avoids.bind consumes_require fun _ =>
        consumes_finish (f := fun k => do emit (.alloca k I allocated V); pure (.reg k)) trivial trivial
          (fun _ => .of_total fun _ _ h => by cases h) fun h => by
            cases h
            exact Or.inl (emits_line rfl rfl)
    exact hvisit.weaken (fun s hs => ⟨hs.own, hs.steps.const (halloca _ _ rfl)⟩) fun _ _ h => h
  | load p =>
    change Consumes c _ s₀ _ _ (visitLoadInst c I p)
    unfold visitLoadInst
    split
    · exact Avoids.bind consumes_require fun _ =>
        consumes_unary (f := fun k v => do emit (.load k _ v); pure (.reg k)) hs₀ List.mem_cons_self
          trivial trivial (fun _ _ => .of_total fun _ _ h => by cases h) fun h => by
            cases h
            exact Or.inl (emits_line rfl rfl)
    · exact .throw nofun
  | store v p =>
    exact Avoids.bind consumes_require fun _ => Avoids.bind consumes_reportUser fun _ =>
      Avoids.bind (consumes_translate hs₀ (show _ = [] ++ v :: [p] from rfl) List.mem_cons_self)
        fun ⟨_, _⟩ => Avoids.bind consumes_require fun _ =>
          Avoids.bind (consumes_translate hs₀ (show _ = [v] ++ p :: [] from rfl)
            (List.mem_cons_of_mem _ List.mem_cons_self)) fun ⟨_, _⟩ =>
            Avoids.bind (consumes_emit rfl rfl) fun _ => consumes_reportUser
  | binary op a b =>
    change Consumes c _ s₀ _ _ (visitBinaryOperator c I op a b)
    unfold visitBinaryOperator
    split
    · exact Avoids.bind consumes_require fun _ => consumes_binary hs₀ List.mem_cons_self
        (List.mem_cons_of_mem _ List.mem_cons_self) trivial trivial
        (fun _ _ _ => .of_total createBinOp_total) createBinOp_emits
    · exact .throw nofun
  | icmp p a b =>
    exact Avoids.bind consumes_require fun _ => consumes_binary hs₀ List.mem_cons_self
      (List.mem_cons_of_mem _ List.mem_cons_self) trivial trivial
      (fun _ _ _ => .of_total createICmp_total) createICmp_emits
  | select x a b =>
    exact Avoids.bind consumes_reportUser fun _ =>
      Avoids.bind (consumes_translate hs₀ (show _ = [] ++ x :: [a, b] from rfl) List.mem_cons_self)
        fun ⟨_, _⟩ => Avoids.bind (consumes_translate hs₀ (show _ = [x] ++ a :: [b] from rfl)
          (List.mem_cons_of_mem _ List.mem_cons_self)) fun ⟨_, _⟩ =>
          Avoids.bind (consumes_translate hs₀ (show _ = [x, a] ++ b :: [] from rfl)
            (List.mem_cons_of_mem _ (List.mem_cons_of_mem _ List.mem_cons_self))) fun ⟨_, _⟩ =>
            Avoids.bind consumes_reportUser fun _ => consumes_finish trivial trivial
              (fun _ => .of_total createSelect_total) fun h => Or.inl (createSelect_emits h)
  | gep p idxs ty => exact consumes_getElementPtr hs₀ (fun _ h => h) trivial trivial trivial
  | bitcast a ty =>
    exact consumes_unary (f := fun k v => createBitCast k v a.ty ty) hs₀ List.mem_cons_self trivial
      trivial (fun _ _ => .of_total createBitCast_total) createBitCast_emits
  | sext a bw =>
    change Consumes c _ s₀ _ _ (visitSExtInst c I a)
    unfold visitSExtInst
    split
    · exact consumes_unary hs₀ List.mem_cons_self trivial trivial
        (fun _ _ => .of_total createSExt_total) fun h => Or.inl (createSExt_emits h)
    · exact .throw nofun
  | zext a bw =>
    exact consumes_unary (f := fun k v => createBinOp k .mul 64 v (.const 1)) hs₀ List.mem_cons_self
      trivial trivial (fun _ _ => .of_total createBinOp_total) fun h => Or.inl (createBinOp_emits h)
  | trunc a bw =>
    exact consumes_unary (f := fun k v => createBinOp k .urem 64 v (.const (BitVec.ofNat 64 (2 ^ bw))))
      hs₀ List.mem_cons_self trivial trivial (fun _ _ => .of_total createBinOp_total)
      fun h => Or.inl (createBinOp_emits h)
  | ptrtoint a bw =>
    exact consumes_unary hs₀ List.mem_cons_self trivial trivial
      (fun _ _ => .of_total createPtrCast_total) fun h => Or.inl (createPtrCast_emits h)
  | inttoptr a ty =>
    exact consumes_unary hs₀ List.mem_cons_self trivial trivial
      (fun _ _ => .of_total createPtrCast_total) fun h => Or.inl (createPtrCast_emits h)
  | call f args ty => exact consumes_call hs₀ (fun _ h => h) trivial trivial

theorem consumes_visitPHINode {I : InstRef} : Consumes c (phiSite I) s₀ [] [] (visitPHINode c I) :=
  consumes_quiet (.bind requestRegister_neverPops fun _ => .of_total fun _ _ h => by cases h)
    fun ho h => visitPHINode_steps ho h

/-! ### Terminators -/

theorem consumes_processPHIs (hs₀ : Queued n ops s₀) :
    ∀ {inputs : List (InstRef × Option Operand)} {Vs Ws : List Operand},
    ops = Vs ++ inputs.filterMap Prod.snd ++ Ws →
    (∀ p ∈ inputs, p ∈ d.phiInputs ∧ ∀ V, p.2 = some V → V ∈ d.operands) →
    Consumes c d s₀ Vs (Vs ++ inputs.filterMap Prod.snd) (processPHIs c d.user inputs) := by
  intro inputs
  induction inputs with
  | nil =>
    intro Vs Ws _ _
    rw [List.filterMap_nil, List.append_nil]
    exact .pure fun _ h => h
  | cons p inputs ih =>
    intro Vs Ws hops hin
    obtain ⟨P, _ | V⟩ := p
    · exact .throw nofun
    · have hsnd : Prod.snd ((P, some V) : InstRef × Option Operand) = some V := rfl
      rw [List.filterMap_cons_some hsnd] at hops ⊢
      obtain ⟨hP, hV⟩ := hin _ List.mem_cons_self
      have hops1 : ops = Vs ++ V :: (inputs.filterMap Prod.snd ++ Ws) := by
        rw [hops, List.append_assoc]
        rfl
      have hops2 : ops = Vs ++ [V] ++ inputs.filterMap Prod.snd ++ Ws := by
        rw [hops, List.append_assoc Vs [V]]
        rfl
      have hrest := ih hops2 fun q hq => hin q (List.mem_cons_of_mem _ hq)
      rw [List.append_assoc] at hrest
      have htranslate : Avoids (· = .popEmpty) (Progress c d s₀ Vs)
          (translateSrcOperandToTgt c V d.user)
          fun p s => Progress c d s₀ (Vs ++ [V]) s ∧ OperandVal c s V p.1 :=
        (consumes_translate hs₀ hops1 (hV V rfl)).and_ok fun s p s' hs h =>
          (translateSrcOperandToTgt_steps (hV V rfl) hs.own h).2.1
      refine Avoids.bind htranslate fun ⟨v, _⟩ => Avoids.bind (.modify fun s hs => ?_) fun _ => hrest
      have hstep : Step c d s _ := .storePhi hP hs.2
      exact ⟨hs.1.own, hs.1.steps.quiet hstep rfl⟩

theorem consumes_clearRA : Consumes c d s₀ Vs Vs (clearRA c) :=
  consumes_quiet clearRA_neverPops fun _ h => (clearRA_ok h).1

/-- The terminator translates its operands, and emits its line at the end. -/
theorem consumes_visitTerm {b : ℕ} {B : Block} (hs₀ : Queued B.termIdx (B.termOperands c.F b) s₀) :
    Avoids (· = .popEmpty) (Progress c (B.termSite c.F b) s₀ []) (visitTerm c ⟨b, B.termIdx⟩ B)
      fun _ s => ∃ s1 l, Progress c (B.termSite c.F b) s₀ (B.termOperands c.F b) s1 ∧
        s = { s1 with code := s1.code ++ [l] } := by
  have hlast : ∀ {Vs l}, Avoids (· = .popEmpty) (Progress c (B.termSite c.F b) s₀ Vs) (emit l)
      fun _ s => ∃ s1 l, Progress c (B.termSite c.F b) s₀ Vs s1 ∧
        s = { s1 with code := s1.code ++ [l] } :=
    .modify fun s hs => ⟨s, _, hs, rfl⟩
  have hinputs : Consumes c (B.termSite c.F b) s₀ [] ((c.F.phiInputs b B).filterMap Prod.snd)
      (processPHIs c ⟨b, B.termIdx⟩ (c.F.phiInputs b B)) :=
    consumes_processPHIs (d := B.termSite c.F b) hs₀ (show _ = [] ++ _ ++ _ from rfl) fun p hp =>
      ⟨hp, fun V hV => List.mem_append_right _ (List.mem_filterMap.mpr ⟨p, hp, hV⟩)⟩
  have hcond : ∀ {V}, B.term.operands = [V] → Consumes c (B.termSite c.F b) s₀
      ((c.F.phiInputs b B).filterMap Prod.snd) (B.termOperands c.F b)
      (translateSrcOperandToTgt c V ⟨b, B.termIdx⟩) := by
    intro V hV
    have hops : B.termOperands c.F b = (c.F.phiInputs b B).filterMap Prod.snd ++ [V] := by
      unfold Block.termOperands
      rw [hV]
    have hmem : V ∈ (B.termSite c.F b).operands :=
      List.mem_append_left _ (hV ▸ List.mem_singleton_self V)
    rw [hops] at hs₀ ⊢
    exact consumes_translate (d := B.termSite c.F b) hs₀ rfl hmem
  unfold visitTerm
  cases hterm : B.term with
  | ret V =>
    -- a return has no successors
    have hnil : (c.F.phiInputs b B).filterMap Prod.snd = [] := by
      unfold Func.phiInputs
      rw [hterm]
      rfl
    cases V with
    | none =>
      have hops : B.termOperands c.F b = [] := by
        unfold Block.termOperands
        rw [hnil, hterm]
        rfl
      rw [hops]
      exact hlast
    | some V =>
      have hV := hcond (show B.term.operands = [V] by rw [hterm]; rfl)
      rw [hnil] at hV
      exact Avoids.bind hV fun ⟨_, _⟩ => hlast
  | br t =>
    have hops : B.termOperands c.F b = (c.F.phiInputs b B).filterMap Prod.snd := by
      unfold Block.termOperands
      rw [hterm]
      exact List.append_nil _
    rw [hops]
    exact Avoids.bind hinputs fun _ => Avoids.bind consumes_clearRA fun _ => hlast
  | condBr cond t f =>
    exact Avoids.bind hinputs fun _ =>
      Avoids.bind (hcond (show B.term.operands = [cond] by rw [hterm]; rfl)) fun ⟨_, _⟩ =>
        Avoids.bind consumes_clearRA fun _ => hlast
  | switch cond t cases =>
    exact Avoids.bind hinputs fun _ =>
      Avoids.bind (hcond (show B.term.operands = [cond] by rw [hterm]; rfl)) fun ⟨_, _⟩ =>
        Avoids.bind consumes_clearRA fun _ => hlast

end

/-! ## Blocks -/

/-- The visit of instruction `n` of a block: its site, the operands in the order of their translation,
    and the visitor. -/
inductive Block.Visit (c : Ctx) (b : ℕ) (B : Block) : ℕ → Site → List Operand → M Unit → Prop
  | phi {n : ℕ} (hn : n < B.phis.length) : Visit c b B n (phiSite ⟨b, n⟩) [] (visitPHINode c ⟨b, n⟩)
  | inst {i : ℕ} {x : Inst} (hx : B.body[i]? = some x) :
      Visit c b B (B.phis.length + i) (x.queueSite ⟨b, B.phis.length + i⟩) x.operands
        (visitInst c ⟨b, B.phis.length + i⟩ x)
  | term : Visit c b B B.termIdx (B.termSite c.F b) (B.termOperands c.F b)
      (visitTerm c ⟨b, B.termIdx⟩ B)

/-- The translation of the block from state `s₀` arrives before instruction `n`, or after the last
    one, in a state. -/
inductive Arrives (c : Ctx) (b : ℕ) (B : Block) (s₀ : State) : ℕ → State → Prop
  | begin {s : State} (h : visitBasicBlock c b B s₀ = .ok ((), s)) : Arrives c b B s₀ 0 s
  | next {n : ℕ} {d : Site} {ops : List Operand} {m : M Unit} {s s' : State}
      (hv : B.Visit c b n d ops m) (hs : Arrives c b B s₀ n s) (h : m s = .ok ((), s')) :
      Arrives c b B s₀ (n + 1) s'

/-- Throughout the translation of a block from `s₀` the queues are exact: no visitor pops an empty
    queue; a visitor translates its operands in order; after some of them the queues and the next uses
    are those of the others and of the instructions that follow; in the end every queue is empty. -/
structure NextUseExact (c : Ctx) (b : ℕ) (B : Block) (s₀ : State) : Prop where
  pops : visitBlock c b B s₀ ≠ .error .popEmpty
  visits : ∀ {n : ℕ} {d : Site} {ops : List Operand} {m : M Unit} {s s' : State},
    B.Visit c b n d ops m → Arrives c b B s₀ n s → m s = .ok ((), s') →
    ∃ s1 lines, Translating c d s ops s1 ∧ s' = { s1 with code := s1.code ++ lines }
  inside : ∀ {n : ℕ} {d : Site} {Vs Ws : List Operand} {m : M Unit} {s s1 : State},
    B.Visit c b n d (Vs ++ Ws) m → Arrives c b B s₀ n s → Translating c d s Vs s1 →
    NextUses (Ws.map (n, ·) ++ B.occurrences c.F b (n + 1)) s1
  done : ∀ s', visitBlock c b B s₀ = .ok ((), s') → ∀ S, s'.adventMap S = []

section

variable {c : Ctx} {b n : ℕ} {B : Block} {s s' s₀ : State} {d : Site} {ops : List Operand}
  {m : M Unit}

theorem Block.Visit.occurrences (hv : B.Visit c b n d ops m) :
    B.occurrences c.F b n = ops.map (n, ·) ++ B.occurrences c.F b (n + 1) := by
  cases hv with
  | phi hn => exact Block.occurrences_phi hn
  | inst hx => exact Block.occurrences_body hx
  | term => rw [Block.occurrences_term, Block.occurrences_end, List.append_nil]

/-- **A visit translates its operands in order, and pops nothing else.** -/
theorem Block.Visit.progress (hv : B.Visit c b n d ops m)
    (halloca : ∀ ty V, .alloca ty V ∈ B.body → V.inst? = none) (ho : Ownership s.ra)
    (hs : NextUses (B.occurrences c.F b n) s) : m s ≠ .error .popEmpty ∧
      ∀ s', m s = .ok ((), s') → Ownership s'.ra ∧
        ∃ s1 lines, Translating c d s ops s1 ∧ s' = { s1 with code := s1.code ++ lines } := by
  rw [hv.occurrences] at hs
  have hqueued : Queued n ops s := ⟨_, hs.queue⟩
  have hstart : Progress c d s [] s := ⟨ho, .refl⟩
  have hmoves : Consumes c d s [] ops m → m s ≠ .error .popEmpty ∧
      ∀ s', m s = .ok ((), s') → Ownership s'.ra ∧
        ∃ s1 lines, Translating c d s ops s1 ∧ s' = { s1 with code := s1.code ++ lines } := by
    intro h
    obtain ⟨herr, hok⟩ := h s hstart
    refine ⟨fun h => herr _ h rfl, fun s' h => ?_⟩
    have hs' := hok () s' h
    refine ⟨hs'.own, s', [], hs'.steps, ?_⟩
    rw [List.append_nil]
  cases hv with
  | phi hn => exact hmoves consumes_visitPHINode
  | inst hx =>
    refine hmoves (consumes_visitInst hqueued fun ty V hV => halloca ty V ?_)
    exact hV ▸ List.mem_of_getElem? hx
  | term =>
    obtain ⟨herr, hok⟩ := consumes_visitTerm hqueued s hstart
    refine ⟨fun h => herr _ h rfl, fun s' h => ?_⟩
    obtain ⟨s1, l, hs1, rfl⟩ := hok () s' h
    exact ⟨hs1.own, s1, [l], hs1.steps, rfl⟩

/-- Between two visits. -/
theorem Arrives.nextUses (halloca : ∀ ty V, .alloca ty V ∈ B.body → V.inst? = none)
    (ho : Ownership s₀.ra) (hempty : s₀.ra.activeSet = []) (h : Arrives c b B s₀ n s) :
    Ownership s.ra ∧ NextUses (B.occurrences c.F b n) s := by
  induction h with
  | begin h =>
    obtain ⟨hra, -, hadv, -⟩ := visitBasicBlock_ok h
    refine ⟨hra ▸ ho, fun S => by rw [hadv, advents_eq], fun e he => ?_⟩
    rw [hra, hempty] at he
    cases he
  | @next n d ops m s s' hv hs h ih =>
    obtain ⟨ho, hn⟩ := ih
    obtain ⟨ho', s1, lines, hsteps, rfl⟩ := (hv.progress halloca ho hn).2 _ h
    have hn' : NextUses ((ops ++ []).map (n, ·) ++ B.occurrences c.F b (n + 1)) s := by
      rw [List.append_nil, ← hv.occurrences]
      exact hn
    have hs1 := hn'.translating ho hsteps
    exact ⟨ho', hs1.queue, hs1.next⟩

/-- The visits of a block as triples. -/
theorem avoids_visitBlock (hsafe : ∀ {n : ℕ} {d : Site} {ops : List Operand} {m : M Unit} {s : State},
    B.Visit c b n d ops m → Arrives c b B s₀ n s → m s ≠ .error .popEmpty) :
    Avoids (· = .popEmpty) (· = s₀) (visitBlock c b B) fun _ s =>
      ∃ s1, Arrives c b B s₀ (B.termIdx + 1) s1 ∧ s.adventMap = s1.adventMap := by
  have hvisit : ∀ {n d ops m}, B.Visit c b n d ops m →
      Avoids (· = .popEmpty) (Arrives c b B s₀ n) m fun _ => Arrives c b B s₀ (n + 1) :=
    fun hv s hs => ⟨fun e he heq => hsafe hv hs (heq ▸ he), fun _ s' h => .next hv hs h⟩
  have hphis : ∀ {phis : List Phi} {n : ℕ}, n + phis.length = B.phis.length →
      Avoids (· = .popEmpty) (Arrives c b B s₀ n) (visitPhis c b n phis)
        fun _ => Arrives c b B s₀ B.phis.length := by
    intro phis
    induction phis with
    | nil =>
      intro n hn
      exact .pure fun s hs => hn ▸ hs
    | cons P phis ih =>
      intro n hn
      rw [List.length_cons] at hn
      exact Avoids.bind (hvisit (.phi (by omega))) fun _ => ih (by omega)
  have hbody : ∀ {body : List Inst} {i : ℕ}, i ≤ B.body.length → B.body.drop i = body →
      Avoids (· = .popEmpty) (Arrives c b B s₀ (B.phis.length + i))
        (visitBody c b (B.phis.length + i) body) fun _ => Arrives c b B s₀ B.termIdx := by
    intro body
    induction body with
    | nil =>
      intro i hle hi
      have heq : i = B.body.length := le_antisymm hle (List.drop_eq_nil_iff.mp hi)
      rw [heq]
      exact .pure fun s hs => hs
    | cons x body ih =>
      intro i _ hi
      have hx : B.body[i]? = some x := by rw [← List.head?_drop, hi, List.head?_cons]
      have hi' : B.body.drop (i + 1) = body := by rw [← List.tail_drop, hi, List.tail_cons]
      exact Avoids.bind (hvisit (.inst hx)) fun _ => ih (List.getElem?_eq_some_iff.mp hx).1 hi'
  have hbegin : Avoids (· = .popEmpty) (· = s₀) (visitBasicBlock c b B)
      fun _ => Arrives c b B s₀ 0 := by
    rintro s rfl
    refine ⟨?_, fun _ s' h => .begin h⟩
    rintro e he rfl
    rcases bind_error_iff.mp he with he | ⟨⟨⟩, s1, -, he⟩
    · exact require_neverPops _ he
    · cases he
  exact Avoids.bind hbegin fun _ => Avoids.bind (hphis (Nat.zero_add _)) fun _ =>
    Avoids.bind (hbody (Nat.zero_le _) List.drop_zero) fun _ => Avoids.bind (hvisit .term) fun _ =>
      .modify fun s hs => ⟨s, hs, rfl⟩

/-- **The queues of next uses are exact** throughout a block whose allocas have constant sizes and
    which is started with nothing active. -/
theorem nextUseExact (halloca : ∀ ty V, .alloca ty V ∈ B.body → V.inst? = none)
    (ho : Ownership s₀.ra) (hempty : s₀.ra.activeSet = []) : NextUseExact c b B s₀ := by
  have hsafe : ∀ {n : ℕ} {d : Site} {ops : List Operand} {m : M Unit} {s : State},
      B.Visit c b n d ops m → Arrives c b B s₀ n s → m s ≠ .error .popEmpty := by
    intro n d ops m s hv hs
    obtain ⟨ho, hn⟩ := hs.nextUses halloca ho hempty
    exact (hv.progress halloca ho hn).1
  obtain ⟨hpops, hdone⟩ := avoids_visitBlock hsafe s₀ rfl
  refine ⟨fun h => hpops _ h rfl, ?_, ?_, fun s' h S => ?_⟩
  · intro n d ops m s s' hv hs h
    obtain ⟨ho, hn⟩ := hs.nextUses halloca ho hempty
    exact ((hv.progress halloca ho hn).2 s' h).2
  · intro n d Vs Ws m s s1 hv hs h
    obtain ⟨ho, hn⟩ := hs.nextUses halloca ho hempty
    rw [hv.occurrences] at hn
    exact hn.translating ho h
  · obtain ⟨s1, hs1, hadv⟩ := hdone () s' h
    rw [hadv, (hs1.nextUses halloca ho hempty).2.queue, Block.occurrences_end]
    rfl

end

/-- A loaded value is used twice, passed to a PHI node over two edges, and switched on. -/
def sharedSuccessor : Ctx where
  F :=
    { name := "f"
      blocks :=
        [ { phis := []
            body :=
              [ .alloca (.int 64) ⟨.constInt 1, .int 32⟩,
                .load ⟨.inst ⟨0, 0⟩, .ptr (.int 64)⟩,
                .binary .add ⟨.inst ⟨0, 1⟩, .int 64⟩ ⟨.inst ⟨0, 1⟩, .int 64⟩ ]
            term := .switch ⟨.inst ⟨0, 1⟩, .int 64⟩ 1 [(0, 1)] },
          { phis := [⟨.int 64, [(⟨.inst ⟨0, 1⟩, .int 64⟩, 0)]⟩]
            body := []
            term := .ret none } ] }
  gvMap := fun _ => 0
  heapSize := 0

/-- The queues of the entry block: five uses of the loaded value are pushed and popped. -/
theorem nextUseExact_sharedSuccessor : ∃ B s', sharedSuccessor.F.blocks[0]? = some B ∧
    advents sharedSuccessor.F 0 B ⟨0, 1⟩ = [2, 2, 3, 3, 3] ∧
    visitBlock sharedSuccessor 0 B initState = .ok ((), s') ∧ s'.adventMap ⟨0, 1⟩ = [] := by
  obtain ⟨B, hB⟩ : ∃ B, sharedSuccessor.F.blocks[0]? = some B := ⟨_, rfl⟩
  have halloca : ∀ ty V, .alloca ty V ∈ B.body → V.inst? = none := by
    obtain rfl := Option.some.inj hB
    intro ty V hV
    obtain ⟨rfl, rfl⟩ : ty = .int 64 ∧ V = ⟨.constInt 1, .int 32⟩ := by simpa using hV
    rfl
  have hok : (visitBlock sharedSuccessor 0 B initState).isOk = true := by
    obtain rfl := Option.some.inj hB
    decide +kernel
  cases hv : visitBlock sharedSuccessor 0 B initState with
  | error f =>
    rw [hv] at hok
    cases hok
  | ok p =>
    obtain ⟨⟨⟩, s'⟩ := p
    refine ⟨B, s', hB, ?_, hv, (nextUseExact halloca Ownership.init rfl).done s' hv _⟩
    obtain rfl := Option.some.inj hB
    decide +kernel

end SwppCompiler.Backend
