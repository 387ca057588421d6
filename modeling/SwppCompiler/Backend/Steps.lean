import SwppCompiler.Backend.Depromote
import SwppCompiler.Backend.Ownership
import SwppCompiler.Lib.StateExcept

/-!
# What a visitor does, step by step

`Step` lists everything that a visitor does to the state: it evicts, fills, uses an operand, takes
and gives up a temporary register, emits a line, and defines its own value at the end. Every visitor
is a sequence of steps (`visitInst_steps`, `visitPHINode_steps`, `visitTerm_steps`), so that an
invariant of the steps is an invariant of the translation.
-/

namespace SwppCompiler.Backend

open Lib.StateExcept RegisterAllocator

/-! ## Inversion of the actions -/

section Actions

variable {c : Ctx} {s s' : State} {I : InstRef}

theorem withRA_ok {α : Type}
    {f : RegisterAllocator InstRef → Except Fault (α × RegisterAllocator InstRef)} {a : α} :
    withRA f s = .ok (a, s') ↔ ∃ ra, f s.ra = .ok (a, ra) ∧ s' = { s with ra := ra } := by
  unfold withRA
  rw [map_ok_iff]
  constructor
  · rintro ⟨⟨a, ra⟩, h, heq⟩; cases heq; exact ⟨ra, h, rfl⟩
  · rintro ⟨ra, h, rfl⟩; exact ⟨(a, ra), h, rfl⟩

theorem emit_ok {l : Line} {u : Unit} :
    emit l s = .ok (u, s') ↔ s' = { s with code := s.code ++ [l] } := modify_ok_iff

theorem setEmitVal_ok {v : EmitVal} {u : Unit} : setEmitVal I v s = .ok (u, s') ↔
    s' = { s with sourceToEmitMap := Function.update s.sourceToEmitMap I (some v) } :=
  modify_ok_iff

theorem define_ok {v : EmitVal} {u : Unit} : define I v s = .ok (u, s') ↔
    s' = { s with
      sourceToEmitMap := Function.update s.sourceToEmitMap I (some v)
      code := s.code ++ [.value I v] } := by
  simp [define, bind_ok_iff, setEmitVal_ok, emit_ok]

theorem require_ok {b : Bool} {u : Unit} : require b s = .ok (u, s') ↔ b = true ∧ s = s' := by
  cases b <;> simp [require, pure_ok_iff, throw_ok_iff, @eq_comm _ s']

theorem reportUser_ok {U : Option InstRef} {u : Unit} : reportUser U s = .ok (u, s') ↔
    s' = { s with ra := s.ra.reportUser U } := by
  simp [reportUser, withRA_ok]

theorem popAdvent_ok {u : Unit} : popAdvent I s = .ok (u, s') ↔
    ∃ t q, s.adventMap I = t :: q ∧ s' = { s with adventMap := Function.update s.adventMap I q } := by
  unfold popAdvent
  cases h : s.adventMap I with
  | nil => simp
  | cons t q => simp [eq_comm]

theorem reportUseNoPop_ok {user : Option InstRef} {u : Unit} :
    reportUseNoPop I user s = .ok (u, s') ↔
      ∃ ra, s.ra.update I user (s.nextAdvent I) = .ok ra ∧ s' = { s with ra := ra } := by
  unfold reportUseNoPop
  rw [map_ok_iff]
  constructor
  · rintro ⟨ra, h, heq⟩; cases heq; exact ⟨ra, h, rfl⟩
  · rintro ⟨ra, h, rfl⟩; exact ⟨ra, h, rfl⟩

theorem emitVal_ok {v : EmitVal} :
    emitVal I s = .ok (v, s') ↔ s.sourceToEmitMap I = some v ∧ s' = s := by
  unfold emitVal
  cases h : s.sourceToEmitMap I with
  | none => simp
  | some w => simp [eq_comm]

theorem giveUpTempRegister_iff {k : ℕ} {u : Unit} :
    giveUpTempRegister k s = .ok (u, s') ↔
      ∃ ra, s.ra.giveUpTempRegister k = .ok ra ∧ s' = { s with ra := ra } := by
  unfold giveUpTempRegister
  simp only [withRA_ok, map_ok_iff]
  constructor
  · rintro ⟨ra, ⟨ra', h, heq⟩, rfl⟩; cases heq; exact ⟨ra, h, rfl⟩
  · rintro ⟨ra, h, rfl⟩; exact ⟨ra, ⟨ra, h, rfl⟩, rfl⟩

/-- The spill, if any, that removing `a` takes. -/
def spillLines (c : Ctx) (s : State) (a : Allocation InstRef) (v : EmitVal) : List Line :=
  if mustSpill c s a then [.spill v a.source] else []

theorem evictOne_ok {t : ℕ} {u : Unit} (h : evictOne c t s = .ok (u, s')) :
    ∃ a ra v, s.ra.evict t = .ok (some a, ra) ∧
      (mustSpill c s a = true → s.sourceToEmitMap a.source = some v) ∧
      s' = { s with ra := ra, code := s.code ++ spillLines c s a v } := by
  simp only [evictOne, bind_ok_iff, withRA_ok] at h
  obtain ⟨r, s1, ⟨ra, he, rfl⟩, h⟩ := h
  cases r with
  | none => exact (throw_ok_iff.mp h).elim
  | some a =>
    unfold evict at h
    have hm : mustSpill c { s with ra := ra } a = mustSpill c s a := rfl
    simp only [hm] at h
    by_cases hs : mustSpill c s a = true
    · rw [if_pos hs] at h
      cases hv : s.sourceToEmitMap a.source with
      | none => simp [hv] at h
      | some v =>
        simp only [hv] at h
        rw [emit_ok] at h
        exact ⟨a, ra, v, he, fun _ => hv, by simp [h, spillLines, hs]⟩
    · rw [if_neg hs] at h
      cases h
      exact ⟨a, ra, .undefValue, he, fun h' => absurd h' hs, by simp [spillLines, hs]⟩

end Actions

/-! ## Steps -/

/-- The register that a line writes. -/
def Line.dest? : Line → Option ℕ
  | .alloca k _ _ _ | .fill k _ | .loadPhi k _ | .load k _ _ | .bop k _ _ _ _ | .select k _ _ _
  | .copy k _ => some k
  | .call k _ _ => k
  | _ => none

/-- A line that neither accesses a slot of an instruction nor ends the block. -/
def Line.isPlain : Line → Bool
  | .alloca _ _ _ _ | .load _ _ _ | .store _ _ _ | .bop _ _ _ _ _ | .select _ _ _ _ | .copy _ _
  | .call _ _ _ => true
  | _ => false

/-- In state `s` the operand `V` is translated to `v`: an instruction has a register. -/
def OperandVal (c : Ctx) (s : State) (V : Operand) (v : EmitVal) : Prop :=
  match V.val with
  | .inst I => s.ra.get I ≠ 0 ∧ s.sourceToEmitMap I = some v
  | .arg n => v = .arg n
  | .constInt w => v = .const w
  | .null => v = .const 0
  | .undefValue => v = .undefValue
  | .global g => v = .const (c.gvMap g)

/-- What a visitor is called on: the instruction, its operands, the PHI nodes that it serves,
    whether it gets a value, whether this may be the unchanged value of an operand, and whether the
    visitor uses temporary registers. -/
structure Site where
  user : InstRef
  operands : List Operand
  phiInputs : List (InstRef × Option Operand)
  defines : Prop
  aliased : Prop
  temps : Prop

/-- `source` is an operand at the site. -/
def Site.reads (d : Site) (source : InstRef) : Prop := ∃ V ∈ d.operands, V.inst? = some source

/-- One step of the visitor at site `d`. -/
inductive Step (c : Ctx) (d : Site) (s : State) : State → Prop
  /-- `RA->reportUser`. -/
  | user (U : Option InstRef) : Step c d s { s with ra := s.ra.reportUser U }
  /-- `evict(RA->evict(t))`, with its spill. -/
  | evict {t : ℕ} {a : Allocation InstRef} {ra : RegisterAllocator InstRef} {v : EmitVal}
      (he : s.ra.evict t = .ok (some a, ra))
      (hv : mustSpill c s a = true → s.sourceToEmitMap a.source = some v) :
      Step c d s { s with ra := ra, code := s.code ++ spillLines c s a v }
  /-- The filling branch of `getRegister`; a use follows. -/
  | fill {I : InstRef} {k : ℕ} {ra ra' : RegisterAllocator InstRef}
      (hI : d.reads I) (hadv : s.adventMap I ≠ []) (hr : s.ra.request I = .ok (k, ra)) (hk : k ≠ 0)
      (hu : ra.update I none (s.nextAdvent I) = .ok ra') :
      Step c d s { s with
        ra := ra'
        sourceToEmitMap := Function.update s.sourceToEmitMap I (some (.reg k))
        code := s.code ++ [.fill k I] }
  /-- `reportUse(I, user)` of an operand that has a value. -/
  | use {I : InstRef} {t : ℕ} {q : List ℕ} {ra : RegisterAllocator InstRef} {v : EmitVal}
      (hI : d.reads I) (hadv : s.adventMap I = t :: q) (hv : s.sourceToEmitMap I = some v)
      (hu : s.ra.update I (some d.user) (q.head?.getD noMoreAdvent) = .ok ra) :
      Step c d s { s with ra := ra, adventMap := Function.update s.adventMap I q }
  /-- `RA->requestTempRegister(t)` finds a register. -/
  | takeTemp {t k : ℕ} {ra : RegisterAllocator InstRef} (ht : d.temps)
      (hr : s.ra.requestTempRegister t = .ok (k, ra)) (hk : k ≠ 0) : Step c d s { s with ra := ra }
  /-- `RA->giveUpTempRegister(k)`. -/
  | giveTemp {k : ℕ} {ra : RegisterAllocator InstRef} (ht : d.temps)
      (hg : s.ra.giveUpTempRegister k = .ok ra) : Step c d s { s with ra := ra }
  /-- A line that writes no active register. -/
  | line {l : Line} (hl : l.isPlain = true) (hdest : ∀ k, l.dest? = some k → k ∉ s.ra.activeRegs) :
      Step c d s { s with code := s.code ++ [l] }
  /-- The result of a visitor: its register, the lines that write it, its value. -/
  | define {k : ℕ} {ra ra' : RegisterAllocator InstRef} {ls : List Line} {v : EmitVal}
      (hd : d.defines)
      (hr : s.ra.request d.user = .ok (k, ra)) (hk : k ≠ 0)
      (hu : ra.update d.user none (s.nextAdvent d.user) = .ok ra')
      (hlines : ∀ l ∈ ls, l.isPlain = true ∧ l.dest? = some k)
      (hv : v = .reg k ∨ (∀ j, v ≠ .reg j) ∨ d.aliased) :
      Step c d s { s with
        ra := ra'
        sourceToEmitMap := Function.update s.sourceToEmitMap d.user (some v)
        code := s.code ++ ls ++ [.value d.user v] }
  /-- The visitor of a PHI node. -/
  | phi {k : ℕ} {ra ra' : RegisterAllocator InstRef} (hd : d.defines)
      (hr : s.ra.request d.user = .ok (k, ra)) (hk : k ≠ 0)
      (hu : ra.update d.user none (s.nextAdvent d.user) = .ok ra') :
      Step c d s { s with
        ra := ra'
        sourceToEmitMap := Function.update s.sourceToEmitMap d.user (some (.reg k))
        code := s.code ++ [.loadPhi k d.user] ++ [.value d.user (.reg k)] }
  /-- An incoming value is stored for a PHI node. -/
  | storePhi {P : InstRef} {V : Operand} {v : EmitVal} (hP : (P, some V) ∈ d.phiInputs)
      (hv : OperandVal c s V v) : Step c d s { s with code := s.code ++ [.storePhi v P] }
  /-- `RefSet` and `RefSpilled`. -/
  | flags (refSet refSpilled : Bool) :
      Step c d s { s with refSet := refSet, refSpilled := refSpilled }

/-- A sequence of steps. -/
abbrev Steps (c : Ctx) (d : Site) : State → State → Prop := Relation.ReflTransGen (Step c d)

theorem Step.ownership {c : Ctx} {d : Site} {s s' : State} (h : Step c d s s')
    (ho : Ownership s.ra) : Ownership s'.ra := by
  cases h with
  | user U => exact ho.reportUser U
  | evict he hv => exact ho.evict he
  | fill hI hadv hr hk hu => exact (ho.request hr).update hu
  | use hI hadv hv hu => exact ho.update hu
  | takeTemp ht hr hk => exact ho.requestTempRegister hr
  | giveTemp ht hg => exact ho.giveUpTempRegister hg
  | line hl hdest => exact ho
  | define hd hr hk hu hlines hv => exact (ho.request hr).update hu
  | phi hd hr hk hu => exact (ho.request hr).update hu
  | storePhi hP hv => exact ho
  | flags r1 r2 => exact ho

/-- An invariant of one step holds after every sequence of steps. -/
theorem Steps.invariant {c : Ctx} {d : Site} {p : State → Prop}
    (hp : ∀ s s', Ownership s.ra → p s → Step c d s s' → p s') {s s' : State}
    (h : Steps c d s s') (ho : Ownership s.ra) (hs : p s) : Ownership s'.ra ∧ p s' := by
  induction h with
  | refl => exact ⟨ho, hs⟩
  | tail _ hstep ih => exact ⟨hstep.ownership ih.1, hp _ _ ih.1 ih.2 hstep⟩

theorem Steps.ownership {c : Ctx} {d : Site} {s s' : State} (h : Steps c d s s')
    (ho : Ownership s.ra) : Ownership s'.ra :=
  (h.invariant (p := fun _ => True) (fun _ _ _ _ _ => trivial) ho trivial).1

/-- An allocation after a step: it was there before, with the same register and value, and its last
    user is the same or the visited instruction; or it is new, of an operand or of the visited
    instruction, and has the value of its register, no register, or that of an operand. -/
theorem Step.active {c : Ctx} {d : Site} {s s' : State} (h : Step c d s s') (ho : Ownership s.ra)
    {e : Allocation InstRef} (he : e ∈ s'.ra.activeSet) :
    (∃ e' ∈ s.ra.activeSet, e'.source = e.source ∧ e'.regId = e.regId ∧
      (e.lastUser = e'.lastUser ∨ e.lastUser = some d.user) ∧
      s'.sourceToEmitMap e.source = s.sourceToEmitMap e.source) ∨
    (d.reads e.source ∨ d.defines ∧ e.source = d.user) ∧
      (∀ e' ∈ s.ra.activeSet, e'.source ≠ e.source) ∧
      e.lastUser = none ∧ ∃ v, s'.sourceToEmitMap e.source = some v ∧
        (v = .reg e.regId ∨ (∀ j, v ≠ .reg j) ∨ d.aliased) := by
  -- a register is requested for `I`, whose value becomes `v`
  have halloc : ∀ {I : InstRef} {k n : ℕ} {v : EmitVal} {ra ra' : RegisterAllocator InstRef},
      s.ra.request I = .ok (k, ra) → k ≠ 0 → ra.update I none n = .ok ra' → e ∈ ra'.activeSet →
      (∃ e' ∈ s.ra.activeSet, e'.source = e.source ∧ e'.regId = e.regId ∧
        (e.lastUser = e'.lastUser ∨ e.lastUser = some d.user) ∧
        Function.update s.sourceToEmitMap I (some v) e.source = s.sourceToEmitMap e.source) ∨
      e.source = I ∧ e.regId = k ∧ (∀ e' ∈ s.ra.activeSet, e'.source ≠ I) ∧ e.lastUser = none ∧
        Function.update s.sourceToEmitMap I (some v) e.source = some v := by
    intro I k n v ra ra' hr hk hu he
    obtain ⟨-, hfresh, hmem⟩ := ho.mem_request hr hk
    obtain ⟨f, hf, hfs, hmem2⟩ := (ho.request hr).mem_update hu
    rcases (hmem2 e).mp he with ⟨he, hne⟩ | rfl
    · rcases (hmem e).mp he with he | rfl
      · exact Or.inl ⟨e, he, rfl, rfl, Or.inl rfl, Function.update_of_ne hne ..⟩
      · exact absurd rfl hne
    · right
      rcases (hmem f).mp hf with hf' | rfl
      · exact absurd hfs (hfresh f hf')
      · exact ⟨rfl, rfl, hfresh, rfl, Function.update_self ..⟩
  have hold : s'.sourceToEmitMap = s.sourceToEmitMap → e ∈ s.ra.activeSet →
      ∃ e' ∈ s.ra.activeSet, e'.source = e.source ∧ e'.regId = e.regId ∧
        (e.lastUser = e'.lastUser ∨ e.lastUser = some d.user) ∧
        s'.sourceToEmitMap e.source = s.sourceToEmitMap e.source := fun hmap he =>
    ⟨e, he, rfl, rfl, Or.inl rfl, by rw [hmap]⟩
  cases h with
  | evict hev hv => exact Or.inl (hold rfl (((ho.mem_evict hev).2 e).mp he).1)
  | @fill I k _ _ hI hadv hr hk hu =>
    rcases halloc (v := .reg k) hr hk hu he with h | ⟨rfl, rfl, hfresh, hlast, hv⟩
    · exact Or.inl h
    · exact Or.inr ⟨Or.inl hI, hfresh, hlast, _, hv, Or.inl rfl⟩
  | use hI hadv hv hu =>
    obtain ⟨f, hf, hfs, hmem⟩ := ho.mem_update hu
    rcases (hmem e).mp he with ⟨he, -⟩ | rfl
    · exact Or.inl (hold rfl he)
    · exact Or.inl ⟨f, hf, rfl, rfl, Or.inr rfl, rfl⟩
  | takeTemp ht hr hk =>
    exact Or.inl (hold rfl (by rwa [← ho.activeSet_requestTempRegister hr]))
  | giveTemp ht hg => exact Or.inl (hold rfl (by rwa [← activeSet_giveUpTempRegister hg]))
  | @define _ _ _ _ v hd hr hk hu hlines hval =>
    rcases halloc (v := v) hr hk hu he with h | ⟨heq, rfl, hfresh, hlast, hv⟩
    · exact Or.inl h
    · exact Or.inr ⟨Or.inr ⟨hd, heq⟩, heq ▸ hfresh, hlast, v, hv, hval⟩
  | @phi k _ _ hd hr hk hu =>
    rcases halloc (v := .reg k) hr hk hu he with h | ⟨heq, rfl, hfresh, hlast, hv⟩
    · exact Or.inl h
    · exact Or.inr ⟨Or.inr ⟨hd, heq⟩, heq ▸ hfresh, hlast, _, hv, Or.inl rfl⟩
  | user U => exact Or.inl (hold rfl he)
  | line hl hdest => exact Or.inl (hold rfl he)
  | storePhi hP hv => exact Or.inl (hold rfl he)
  | flags r1 r2 => exact Or.inl (hold rfl he)

/-- A step stays in its block and adds lines at the end of the code. -/
theorem Step.frame {c : Ctx} {d : Site} {s s' : State} (h : Step c d s s') :
    s'.currentBlock = s.currentBlock ∧ s'.emitted = s.emitted ∧
      ∃ lines, s'.code = s.code ++ lines := by
  cases h with
  | evict he hv => exact ⟨rfl, rfl, _, rfl⟩
  | fill hI hadv hr hk hu => exact ⟨rfl, rfl, _, rfl⟩
  | line hl hdest => exact ⟨rfl, rfl, _, rfl⟩
  | define hd hr hk hu hlines hv => exact ⟨rfl, rfl, _, List.append_assoc ..⟩
  | phi hd hr hk hu => exact ⟨rfl, rfl, _, List.append_assoc ..⟩
  | storePhi hP hv => exact ⟨rfl, rfl, _, rfl⟩
  | _ => exact ⟨rfl, rfl, [], (List.append_nil _).symm⟩

theorem Steps.frame {c : Ctx} {d : Site} {s s' : State} (h : Steps c d s s') :
    s'.currentBlock = s.currentBlock ∧ s'.emitted = s.emitted ∧
      ∃ lines, s'.code = s.code ++ lines := by
  induction h with
  | refl => exact ⟨rfl, rfl, [], (List.append_nil _).symm⟩
  | tail _ hstep ih =>
    obtain ⟨hb, he, l1, h1⟩ := ih
    obtain ⟨hb', he', l2, h2⟩ := hstep.frame
    exact ⟨hb'.trans hb, he'.trans he, l1 ++ l2, by rw [h2, h1, List.append_assoc]⟩

/-- Without temporary registers, the steps leave them alone. -/
theorem Steps.temps {c : Ctx} {d : Site} (hd : ¬d.temps) {s s' : State} (h : Steps c d s s')
    (ho : Ownership s.ra) : s'.ra.tempRegisters = s.ra.tempRegisters := by
  refine (h.invariant (p := fun s1 => s1.ra.tempRegisters = s.ra.tempRegisters) ?_ ho rfl).2
  intro s1 s2 ho1 heq hstep
  have halloc : ∀ {I : InstRef} {U : Option InstRef} {k n : ℕ}
      {ra ra' : RegisterAllocator InstRef}, s1.ra.request I = .ok (k, ra) →
      ra.update I U n = .ok ra' → ra'.tempRegisters = s.ra.tempRegisters := by
    intro I U k n ra ra' hr hu
    obtain ⟨-, -, -, -, -, -, -, hra'⟩ := update_ok hu
    obtain ⟨-, ⟨-, -, rfl⟩ | ⟨free, -, -, rfl⟩⟩ := request_ok ho1.zero_notMem_free hr <;>
      exact (by rw [hra']; exact heq)
  cases hstep with
  | evict he hv =>
    obtain ⟨-, hnone, -⟩ | ⟨a, -, -, -, -, hra⟩ := evict_ok he
    · cases hnone
    · rw [← heq, hra]
  | fill hI hadv hr hk hu => exact halloc hr hu
  | use hI hadv hv hu =>
    obtain ⟨-, -, -, -, -, -, -, hra⟩ := update_ok hu
    rw [← heq, hra]
  | takeTemp ht hr hk => exact absurd ht hd
  | giveTemp ht hg => exact absurd ht hd
  | define hd hr hk hu hlines hv => exact halloc hr hu
  | phi hd hr hk hu => exact halloc hr hu
  | _ => exact heq

/-! ## The actions as steps -/

section Actions

variable {c : Ctx} {d : Site} {s s' : State}

theorem evictOne_steps {t : ℕ} {u : Unit} (h : evictOne c t s = .ok (u, s')) :
    Step c d s s' := by
  obtain ⟨a, ra, v, he, hv, rfl⟩ := evictOne_ok h
  exact .evict he hv

/-- A request succeeds at once, or after an eviction. -/
theorem requestOrEvict_ok {t k : ℕ} {m : M ℕ} (h : requestOrEvict c t m s = .ok (k, s')) :
    k ≠ 0 ∧ (m s = .ok (k, s') ∨ ∃ s1 s2, m s = .ok (0, s1) ∧ evictOne c t s1 = .ok ((), s2) ∧
      m s2 = .ok (k, s')) := by
  simp only [requestOrEvict, orFault, bind_ok_iff, ite_ok_iff, pure_ok_iff, throw_ok_iff,
    and_false, false_or] at h
  obtain ⟨k1, s1, h1, ⟨rfl, ⟨⟩, s2, h2, k2, s3, h3, hk, rfl, rfl⟩ | ⟨hk, rfl, rfl⟩⟩ := h
  · exact ⟨hk, Or.inr ⟨s1, s2, h1, h2, h3⟩⟩
  · exact ⟨hk, Or.inl h1⟩

/-- `requestRegister` evicts at most once, then allocates a register for `I`. -/
theorem requestRegister_ok {I : InstRef} {k : ℕ} (ho : Ownership s.ra)
    (h : requestRegister c I s = .ok (k, s')) :
    ∃ s0 ra ra', (s0 = s ∧ s.ra.freeRegisters ≠ [] ∨
        s.ra.freeRegisters = [] ∧ evictOne c 0 s = .ok ((), s0)) ∧
      s0.ra.request I = .ok (k, ra) ∧ k ≠ 0 ∧ ra.update I none (s0.nextAdvent I) = .ok ra' ∧
      s' = { s0 with ra := ra' } := by
  simp only [requestRegister, bind_ok_iff, pure_ok_iff, reportUseNoPop_ok] at h
  obtain ⟨k1, s1, h1, ⟨⟩, s2, ⟨ra', hu, rfl⟩, rfl, rfl⟩ := h
  obtain ⟨hk, h1 | ⟨s1', s2, h1, h2, h3⟩⟩ := requestOrEvict_ok h1
  · obtain ⟨ra, hr, rfl⟩ := withRA_ok.mp h1
    refine ⟨s, ra, ra', Or.inl ⟨rfl, ?_⟩, hr, hk, hu, rfl⟩
    obtain ⟨-, ⟨-, h0, -⟩ | ⟨free, hf, -, -⟩⟩ := request_ok ho.zero_notMem_free hr
    · exact absurd h0 hk
    · simp [hf]
  · obtain ⟨ra0, hr0, rfl⟩ := withRA_ok.mp h1
    obtain ⟨-, ⟨hf, -, rfl⟩ | ⟨free, -, h0, -⟩⟩ := request_ok ho.zero_notMem_free hr0
    · obtain ⟨ra, hr, rfl⟩ := withRA_ok.mp h3
      exact ⟨s2, ra, ra', Or.inr ⟨hf, h2⟩, hr, hk, hu, rfl⟩
    · exact absurd rfl h0

/-- The state from which `requestRegister` allocates is one step away. -/
theorem steps_of_evicted {s0 : State} (h : s0 = s ∧ s.ra.freeRegisters ≠ [] ∨
    s.ra.freeRegisters = [] ∧ evictOne c 0 s = .ok ((), s0)) : Steps c d s s0 := by
  obtain ⟨rfl, -⟩ | ⟨-, h⟩ := h
  · exact .refl
  · exact .single (evictOne_steps h)

theorem evictOne_adventMap {t : ℕ} {u : Unit} (h : evictOne c t s = .ok (u, s')) :
    s'.adventMap = s.adventMap ∧ s'.sourceToEmitMap = s.sourceToEmitMap := by
  obtain ⟨a, ra, v, -, -, rfl⟩ := evictOne_ok h
  exact ⟨rfl, rfl⟩

/-- `requestTempRegister` evicts at most once, then takes a register. -/
theorem takeTemp_ok {t k : ℕ} (ho : Ownership s.ra)
    (h : requestTempRegister c t s = .ok (k, s')) : k ≠ 0 ∧ ∃ s0 ra,
      (s0 = s ∨ evictOne c t s = .ok ((), s0)) ∧ s0.ra.requestTempRegister t = .ok (k, ra) ∧
      s' = { s0 with ra := ra } := by
  obtain ⟨hk, h1 | ⟨s1, s2, h1, h2, h3⟩⟩ := requestOrEvict_ok h
  · obtain ⟨ra, hr, rfl⟩ := withRA_ok.mp h1
    exact ⟨hk, s, ra, Or.inl rfl, hr, rfl⟩
  · obtain ⟨ra0, hr0, rfl⟩ := withRA_ok.mp h1
    obtain ⟨-, ⟨-, rfl, -⟩ | ⟨h0, -⟩⟩ :=
      requestTempRegister_ok ho.zero_notMem_free ho.free_nodup hr0
    · obtain ⟨ra, hr, rfl⟩ := withRA_ok.mp h3
      exact ⟨hk, s2, ra, Or.inr h2, hr, rfl⟩
    · exact absurd rfl h0

theorem requestTempRegister_steps {t k : ℕ} (ht : d.temps) (ho : Ownership s.ra)
    (h : requestTempRegister c t s = .ok (k, s')) :
    Steps c d s s' ∧ k ∉ s.ra.tempRegisters ∧
      s'.ra.tempRegisters = insert k s.ra.tempRegisters ∧ (t ≠ 0 → k = t) := by
  obtain ⟨hk, s0, ra, hev, hr, rfl⟩ := takeTemp_ok ho h
  have hs0 : ∀ d : Site, Steps c d s s0 := by
    intro d
    obtain rfl | hev := hev
    · exact .refl
    · exact .single (evictOne_steps hev)
  have ho0 := Steps.ownership (hs0 d) ho
  have htemp := Steps.temps (d := { d with temps := False }) id (hs0 _) ho
  obtain ⟨-, ⟨h0, -⟩ | ⟨-, hmem, heq, -, rfl⟩⟩ :=
    requestTempRegister_ok ho0.zero_notMem_free ho0.free_nodup hr
  · exact absurd h0 hk
  · exact ⟨(hs0 d).tail (.takeTemp ht hr hk), htemp ▸ ho0.free_disjoint_temp hmem,
      by rw [htemp], heq⟩

/-- `getRegister` finds the register of `I`, or fills one, after at most one eviction. -/
theorem getRegister_ok {I : InstRef} {k : ℕ} (ho : Ownership s.ra)
    (h : getRegister c I s = .ok (k, s')) : k ≠ 0 ∧ s'.ra.get I = k ∧
      (s' = s ∨ s.ra.get I = 0 ∧ ∃ s0 ra ra',
        (s0 = s ∧ s.ra.freeRegisters ≠ [] ∨
          s.ra.freeRegisters = [] ∧ evictOne c 0 s = .ok ((), s0)) ∧
        s0.ra.request I = .ok (k, ra) ∧ ra.update I none (s0.nextAdvent I) = .ok ra' ∧
        s' = { s0 with
          ra := ra'
          sourceToEmitMap := Function.update s0.sourceToEmitMap I (some (.reg k))
          code := s0.code ++ [.fill k I] }) := by
  unfold getRegister at h
  split_ifs at h with h0
  · simp only [fillRegister, bind_ok_iff, emit_ok, setEmitVal_ok, pure_ok_iff] at h
    obtain ⟨k2, s3, hreq, ⟨⟩, s4, rfl, ⟨⟩, s5, rfl, rfl, rfl⟩ := h
    obtain ⟨s0, ra1, ra2, hev, hr, hk, hu, rfl⟩ := requestRegister_ok ho hreq
    have ho0 := Steps.ownership (steps_of_evicted (d := ⟨I, [], [], False, False, False⟩) hev) ho
    exact ⟨hk, ho0.get_request hr hk hu, Or.inr ⟨h0, s0, ra1, ra2, hev, hr, hu, rfl⟩⟩
  · cases h
    exact ⟨h0, rfl, Or.inl rfl⟩

/-- The translation of an instruction operand: `getRegister`, then `reportUse`. -/
theorem translateInst_ok {I U : InstRef} {ty : Ty} {v : EmitVal} {k : ℕ}
    (h : translateSrcOperandToTgt c ⟨.inst I, ty⟩ U s = .ok ((v, k), s')) :
    ∃ s1 t q ra, getRegister c I s = .ok (k, s1) ∧ s1.adventMap I = t :: q ∧
      s1.sourceToEmitMap I = some v ∧
      s1.ra.update I (some U) (q.head?.getD noMoreAdvent) = .ok ra ∧
      s' = { s1 with ra := ra, adventMap := Function.update s1.adventMap I q } := by
  simp only [translateSrcOperandToTgt, bind_ok_iff, require_ok, pure_ok_iff, reportUse,
    popAdvent_ok, reportUseNoPop_ok, emitVal_ok] at h
  obtain ⟨⟨⟩, s1, ⟨-, rfl⟩, k1, s2, hget, ⟨⟩, s3, ⟨⟨⟩, s4, ⟨t, q, hq, rfl⟩, ra, hu, rfl⟩, w, s5,
    ⟨hw, rfl⟩, hp, rfl⟩ := h
  cases hp
  refine ⟨s2, t, q, ra, hget, hq, hw, ?_, rfl⟩
  simpa [State.nextAdvent] using hu

/-- The translation of another operand changes nothing. -/
theorem translateConst_ok {V : Operand} {U : InstRef} {v : EmitVal} {k : ℕ} (hV : V.inst? = none)
    (h : translateSrcOperandToTgt c V U s = .ok ((v, k), s')) :
    s' = s ∧ k = 0 ∧ OperandVal c s V v := by
  obtain ⟨val, ty⟩ := V
  simp only [translateSrcOperandToTgt, bind_ok_iff, require_ok] at h
  obtain ⟨⟨⟩, s1, ⟨-, rfl⟩, h⟩ := h
  cases val with
  | inst I => cases hV
  | _ => cases h; exact ⟨rfl, rfl, rfl⟩

/-- `OperandVal` of another operand does not depend on the state. -/
theorem OperandVal.congr {V : Operand} {v : EmitVal} (h : OperandVal c s V v)
    (hV : V.inst? = none) (s' : State) : OperandVal c s' V v := by
  obtain ⟨val, ty⟩ := V
  cases val with
  | inst I => cases hV
  | _ => exact h

/-- What `translateSrcOperandToTgt` returns: the operand's value and its register. -/
theorem translateSrcOperandToTgt_steps {V : Operand} {v : EmitVal} {k : ℕ} (hV : V ∈ d.operands)
    (ho : Ownership s.ra) (h : translateSrcOperandToTgt c V d.user s = .ok ((v, k), s')) :
    Steps c d s s' ∧ OperandVal c s' V v ∧ ∀ I, V.inst? = some I → k = s'.ra.get I := by
  cases hi : V.inst? with
  | none =>
    obtain ⟨rfl, -, hval⟩ := translateConst_ok hi h
    exact ⟨.refl, hval, by simp⟩
  | some I =>
    obtain ⟨val, ty⟩ := V
    cases val <;> cases hi
    have hI : d.reads I := ⟨_, hV, rfl⟩
    obtain ⟨s1, t, q, ra, hget, hadv, hv, hu, rfl⟩ := translateInst_ok h
    obtain ⟨hk, hgetI, hcase⟩ := getRegister_ok ho hget
    have hsteps : Steps c d s s1 := by
      obtain rfl | ⟨h0, s0, ra1, ra2, hev, hr, hu2, rfl⟩ := hcase
      · exact .refl
      · refine (steps_of_evicted hev).tail (.fill hI ?_ hr hk hu2)
        have hadv' : s0.adventMap I = t :: q := hadv
        rw [hadv']
        exact List.cons_ne_nil _ _
    have ho1 := Steps.ownership hsteps ho
    have hget' := ho1.get_update hu I
    refine ⟨hsteps.tail (.use hI hadv hv hu), ⟨?_, hv⟩, ?_⟩
    · exact fun h0 => hk (hgetI ▸ hget' ▸ h0)
    · rintro J ⟨⟩
      exact (hget'.trans hgetI).symm

theorem translate_ownership {V : Operand} {U : InstRef} {p : EmitVal × ℕ} (ho : Ownership s.ra)
    (h : translateSrcOperandToTgt c V U s = .ok (p, s')) : Ownership s'.ra :=
  Steps.ownership (translateSrcOperandToTgt_steps (d := ⟨U, [V], [], False, False, False⟩)
    List.mem_cons_self ho h).1 ho

/-- The values of `s'` that are not in a register are those of `s`. -/
def ValueFrame (c : Ctx) (s s' : State) : Prop :=
  ∀ V v, OperandVal c s' V v → (∀ j, v ≠ .reg j) → OperandVal c s V v

/-- What the translation of an operand leaves alone: temporary registers, and the values that are
    not in a register. -/
structure OperandFrame (c : Ctx) (s s' : State) : Prop where
  temp : s'.ra.tempRegisters = s.ra.tempRegisters
  value : ValueFrame c s s'

theorem ValueFrame.trans {s1 : State} (h1 : ValueFrame c s s1) (h2 : ValueFrame c s1 s') :
    ValueFrame c s s' := fun V v h hv => h1 V v (h2 V v h hv) hv

theorem OperandFrame.refl (s : State) : OperandFrame c s s := ⟨rfl, fun _ _ h _ => h⟩

theorem OperandFrame.trans {s1 : State} (h1 : OperandFrame c s s1) (h2 : OperandFrame c s1 s') :
    OperandFrame c s s' :=
  ⟨h2.temp.trans h1.temp, h1.value.trans h2.value⟩

/-- A frame on the values of instructions is one on operands. -/
theorem valueFrame_of {s s' : State}
    (h : ∀ J v, s'.ra.get J ≠ 0 → s'.sourceToEmitMap J = some v → (∀ j, v ≠ .reg j) →
      s.ra.get J ≠ 0 ∧ s.sourceToEmitMap J = some v) : ValueFrame c s s' := by
  intro V v hV hv
  obtain ⟨val, ty⟩ := V
  cases val with
  | inst J => exact h J v hV.1 hV.2 hv
  | _ => exact hV

theorem evictOne_frame {t : ℕ} {u : Unit} (ho : Ownership s.ra)
    (h : evictOne c t s = .ok (u, s')) : OperandFrame c s s' := by
  obtain ⟨a, ra, v, he, -, rfl⟩ := evictOne_ok h
  obtain ⟨-, hnone, -⟩ | ⟨a', ha', -, -, -, hra⟩ := evict_ok he
  · cases hnone
  · refine ⟨by rw [hra], valueFrame_of fun J v hJ hv _ => ⟨fun h0 => hJ ?_, hv⟩⟩
    obtain ⟨-, hmem⟩ := ho.mem_evict he
    refine (ho.evict he).get_eq_zero_iff.mpr fun e he' => ?_
    exact ho.get_eq_zero_iff.mp h0 e ((hmem e).mp he').1

theorem translateSrcOperandToTgt_frame {V : Operand} {U : InstRef} {v : EmitVal} {k : ℕ}
    (ho : Ownership s.ra) (h : translateSrcOperandToTgt c V U s = .ok ((v, k), s')) :
    OperandFrame c s s' := by
  cases hi : V.inst? with
  | none =>
    obtain ⟨rfl, -, -⟩ := translateConst_ok hi h
    exact .refl _
  | some I =>
    obtain ⟨val, ty⟩ := V
    cases val <;> cases hi
    obtain ⟨s1, t, q, ra, hget, -, -, hu, rfl⟩ := translateInst_ok h
    obtain ⟨hk, -, hcase⟩ := getRegister_ok ho hget
    -- the use changes no register and no value
    have huse : Ownership s1.ra → OperandFrame c s1
        { s1 with ra := ra, adventMap := Function.update s1.adventMap I q } := by
      intro ho1
      obtain ⟨l1, e, l2, -, -, -, -, hra⟩ := update_ok hu
      exact ⟨by rw [hra], valueFrame_of fun J _ hJ hv _ => ⟨ho1.get_update hu J ▸ hJ, hv⟩⟩
    obtain rfl | ⟨h0, s0, ra1, ra2, hev, hr, hu2, rfl⟩ := hcase
    · exact huse ho
    · have hs0 := Steps.ownership (steps_of_evicted (d := ⟨I, [], [], False, False, False⟩) hev) ho
      have hfill : OperandFrame c s0 { s0 with
          ra := ra2
          sourceToEmitMap := Function.update s0.sourceToEmitMap I (some (.reg k))
          code := s0.code ++ [.fill k I] } := by
        obtain ⟨-, ⟨-, h0, -⟩ | ⟨free, -, -, hra1⟩⟩ := request_ok hs0.zero_notMem_free hr
        · exact absurd h0 hk
        obtain ⟨-, -, -, -, -, -, -, hra2⟩ := update_ok hu2
        refine ⟨by rw [hra2, hra1], valueFrame_of fun J v hJ hv hreg => ?_⟩
        by_cases hJI : J = I
        · have hv' : some (EmitVal.reg k) = some v := by
            rw [← hv, hJI]
            exact (Function.update_self I (some (EmitVal.reg k)) s0.sourceToEmitMap).symm
          cases hv'
          exact absurd rfl (hreg k)
        · have hv' : s0.sourceToEmitMap J = some v := by
            rw [← hv]
            exact (Function.update_of_ne hJI (some (EmitVal.reg k)) s0.sourceToEmitMap).symm
          refine ⟨fun h0 => hJ ?_, hv'⟩
          refine ((hs0.request hr).get_update hu2 J).trans ?_
          obtain ⟨-, -, hmem⟩ := hs0.mem_request hr hk
          refine (hs0.request hr).get_eq_zero_iff.mpr fun e he => ?_
          rcases (hmem e).mp he with he | rfl
          · exact hs0.get_eq_zero_iff.mp h0 e he
          · exact fun h => hJI h.symm
      refine OperandFrame.trans ?_ (hfill.trans (huse ((hs0.request hr).update hu2)))
      obtain ⟨rfl, -⟩ | ⟨-, hev⟩ := hev
      · exact .refl _
      · exact evictOne_frame ho hev

/-- An operand that has a register is not filled. -/
theorem translateSrcOperandToTgt_of_val {V : Operand} {U : InstRef} {v w : EmitVal} {k : ℕ}
    (hw : OperandVal c s V w) (h : translateSrcOperandToTgt c V U s = .ok ((v, k), s')) : v = w := by
  obtain ⟨val, ty⟩ := V
  cases val with
  | inst I =>
    obtain ⟨s1, t, q, ra, hget, -, hv, -, -⟩ := translateInst_ok h
    unfold getRegister at hget
    rw [if_neg hw.1] at hget
    cases hget
    exact Option.some.inj (hv.symm.trans hw.2)
  | _ =>
    obtain ⟨-, -, hval⟩ := translateConst_ok rfl h
    exact hval.trans hw.symm

end Actions

/-! ## Emission -/

/-- The result `v` of an emission into register `dest`: only lines that write `dest` were emitted,
    and `v` is what they leave there, or no register. -/
def Emits (dest : ℕ) (s : State) (v : EmitVal) (s' : State) : Prop :=
  ∃ lines, s' = { s with code := s.code ++ lines } ∧
    (∀ l ∈ lines, l.isPlain = true ∧ l.dest? = some dest) ∧ (v = .reg dest ∨ ∀ j, v ≠ .reg j)

section Emission

variable {s s' : State} {dest : ℕ} {v : EmitVal}

theorem emits_line {l : Line} (hp : l.isPlain = true) (hd : l.dest? = some dest) :
    Emits dest s (.reg dest) { s with code := s.code ++ [l] } :=
  ⟨[l], rfl, by simp [hp, hd], Or.inl rfl⟩

theorem emits_nothing (hv : ∀ j, v ≠ .reg j) : Emits dest s v s :=
  ⟨[], by simp, by simp, Or.inr hv⟩

theorem EmitVal.ne_reg_of_isConst (h : v.isConst = true) (j : ℕ) : v ≠ .reg j := by
  rintro rfl; cases h

theorem Emits.trans {w : EmitVal} {s1 : State} (h1 : Emits dest s w s1) (h2 : Emits dest s1 v s') :
    Emits dest s v s' := by
  obtain ⟨l1, rfl, hl1, -⟩ := h1
  obtain ⟨l2, rfl, hl2, hv⟩ := h2
  refine ⟨l1 ++ l2, by simp [List.append_assoc], fun l hl => ?_, hv⟩
  rcases List.mem_append.mp hl with hl | hl
  · exact hl1 l hl
  · exact hl2 l hl

theorem createBinOp_emits {op : BinaryOps} {bw : ℕ} {a b : EmitVal}
    (h : createBinOp dest op bw a b s = .ok (v, s')) : Emits dest s v s' := by
  simp only [createBinOp, ite_ok_iff, bind_ok_iff, pure_ok_iff, emit_ok] at h
  obtain ⟨-, rfl, rfl⟩ | ⟨-, ⟨⟩, s1, rfl, rfl, rfl⟩ := h
  · refine emits_nothing fun j => ?_
    unfold foldBinary
    split
    · split <;> simp
    · simp
  · exact emits_line rfl rfl

theorem createICmp_emits {p : Predicate} {bw : ℕ} {a b : EmitVal}
    (h : createICmp dest p bw a b s = .ok (v, s')) : Emits dest s v s' := by
  unfold createICmp at h
  split at h
  · obtain ⟨rfl, rfl⟩ := pure_ok_iff.mp h
    exact emits_nothing fun j => by simp
  · simp only [ite_ok_iff, bind_ok_iff, pure_ok_iff, emit_ok] at h
    obtain ⟨-, rfl, rfl⟩ | ⟨-, ⟨⟩, s1, rfl, rfl, rfl⟩ := h
    · exact emits_nothing fun j => by simp
    · exact emits_line (by rfl) (by rfl)

theorem createSelect_emits {cond a b : EmitVal}
    (h : createSelect dest cond a b s = .ok (v, s')) : Emits dest s v s' := by
  simp only [createSelect, ite_ok_iff, bind_ok_iff, pure_ok_iff, emit_ok] at h
  obtain ⟨hc, h⟩ | ⟨-, ⟨⟩, s1, rfl, rfl, rfl⟩ := h
  · simp only [Bool.and_eq_true] at hc
    split at h
    · obtain ⟨rfl, rfl⟩ := pure_ok_iff.mp h
      refine emits_nothing fun j => ?_
      split_ifs
      · exact EmitVal.ne_reg_of_isConst hc.1.2 j
      · exact EmitVal.ne_reg_of_isConst hc.2 j
    · obtain ⟨rfl, rfl⟩ := pure_ok_iff.mp h
      exact emits_nothing fun j => by simp
  · exact emits_line rfl rfl

theorem createPtrCast_emits {op : EmitVal} (h : createPtrCast dest op s = .ok (v, s')) :
    Emits dest s v s' := by
  simp only [createPtrCast, ite_ok_iff, bind_ok_iff, pure_ok_iff, emit_ok] at h
  obtain ⟨hc, rfl, rfl⟩ | ⟨-, ⟨⟩, s1, rfl, rfl, rfl⟩ := h
  · exact emits_nothing (EmitVal.ne_reg_of_isConst hc)
  · exact emits_line rfl rfl

theorem createSExt_emits {bw : ℕ} {op : EmitVal} (h : createSExt dest bw op s = .ok (v, s')) :
    Emits dest s v s' := by
  simp only [createSExt, ite_ok_iff, bind_ok_iff] at h
  obtain ⟨-, w, s1, h1, h2⟩ | ⟨-, h⟩ := h
  · exact (createBinOp_emits h1).trans (createBinOp_emits h2)
  · exact createBinOp_emits h

/-- `CreateBitCast` emits a copy, or returns its operand. -/
theorem createBitCast_ok {op : EmitVal} {src ty : Ty}
    (h : createBitCast dest op src ty s = .ok (v, s')) :
    Emits dest s v s' ∨ (src = ty ∧ v = op ∧ s' = s) := by
  simp only [createBitCast, ite_ok_iff, bind_ok_iff, pure_ok_iff, emit_ok, Bool.or_eq_true,
    decide_eq_true_eq] at h
  obtain ⟨rfl | hc, rfl, rfl⟩ | ⟨-, ⟨⟩, s1, rfl, rfl, rfl⟩ := h
  · exact Or.inr ⟨rfl, rfl, rfl⟩
  · exact Or.inl (emits_nothing (EmitVal.ne_reg_of_isConst hc))
  · exact Or.inl (emits_line rfl rfl)

end Emission

/-- Lines that write no active register are steps. -/
theorem steps_lines {c : Ctx} {d : Site} {s : State} {dest : ℕ} (hdest : dest ∉ s.ra.activeRegs)
    {lines : List Line} (hl : ∀ l ∈ lines, l.isPlain = true ∧ l.dest? = some dest) :
    Steps c d s { s with code := s.code ++ lines } := by
  induction lines using List.reverseRecOn with
  | nil => simpa using Relation.ReflTransGen.refl
  | append_singleton lines l ih =>
    have h1 : Steps c d s { s with code := s.code ++ lines } :=
      ih fun l' hl' => hl l' (List.mem_append_left _ hl')
    obtain ⟨hp, hd⟩ := hl l (by simp)
    have h2 : Step c d { s with code := s.code ++ lines }
        { s with code := (s.code ++ lines) ++ [l] } := by
      refine .line hp fun k hk => ?_
      rw [hd] at hk
      cases hk
      exact hdest
    simpa [List.append_assoc] using h1.tail h2

/-- The last part of a visitor with a result. -/
theorem finish_steps {c : Ctx} {d : Site} {s s1 s' : State} {k : ℕ} {v : EmitVal}
    (hd : d.defines) (ho : Ownership s.ra) (hreq : requestRegister c d.user s = .ok (k, s1))
    (hem : Emits k s1 v s' ∨ (d.aliased ∧ s' = s1) ∨ (v = .reg k ∧ s' = s1)) :
    Steps c d s { s' with
      sourceToEmitMap := Function.update s'.sourceToEmitMap d.user (some v)
      code := s'.code ++ [.value d.user v] } := by
  obtain ⟨s0, ra, ra', hev, hr, hk, hu, rfl⟩ := requestRegister_ok ho hreq
  have h0 : Steps c d s s0 := steps_of_evicted hev
  obtain ⟨lines, rfl, hl, hv⟩ | ⟨ha, rfl⟩ | ⟨rfl, rfl⟩ := hem
  · refine h0.tail ?_
    exact .define hd hr hk hu hl (hv.elim Or.inl fun hv => Or.inr (Or.inl hv))
  · refine h0.tail ?_
    simpa using Step.define hd hr hk hu (List.forall_mem_nil _) (Or.inr (Or.inr ha))
  · refine h0.tail ?_
    simpa using Step.define hd hr hk hu (List.forall_mem_nil _) (Or.inl rfl)

end SwppCompiler.Backend
