import SwppCompiler.Backend.Lookups

/-!
# What a visit leaves active

* `visitInst_plain`: an instruction without a result and without instructions as operands leaves
  nothing active that was not.
* `visitInst_busy`, `visitInst_void`: every other one leaves something active, as long as register 16
  is not reserved (`visitCallInst`, `src/core/Backend.cpp`, lines 610–643, takes it back by
  evicting).
* `visitInst_user`: a visitor that announces itself with `reportUser` takes it back.
-/

namespace SwppCompiler.Backend

open Interp Lib.StateExcept RegisterAllocator

/-! ## Plain instructions -/

/-- The instruction has no result and reads no other one's: it activates nothing. -/
def Inst.isPlain (x : Inst) : Bool := x.ty.isNone && x.operands.all fun V => V.inst?.isNone

/-- The block has no PHI node, and its instructions neither have a result nor read one. -/
def Block.isPlain (B : Block) : Bool :=
  B.phis.isEmpty && B.body.all Inst.isPlain && B.term.operands.all fun V => V.inst?.isNone

/-- A call that reserves register 16 for the reference stack pointer. -/
def Inst.setsRef : Inst → Bool
  | .call f _ _ => f = setRefName
  | _ => false

/-- The function never reserves register 16. -/
def Func.noRef (F : Func) : Bool := F.blocks.all fun B => B.body.all fun x => !x.setsRef

theorem Inst.isPlain_iff {x : Inst} :
    x.isPlain = true ↔ x.ty = none ∧ ∀ V ∈ x.operands, V.inst? = none := by
  simp [Inst.isPlain]

theorem Func.setsRef_of_noRef {F : Func} (h : F.noRef = true) {b i : ℕ} {B : Block} {x : Inst}
    (hB : F.blocks[b]? = some B) (hx : B.body[i]? = some x) : x.setsRef = false := by
  have hbody := List.all_eq_true.mp h B (List.mem_of_getElem? hB)
  simpa using List.all_eq_true.mp hbody x (List.mem_of_getElem? hx)

section Plain

variable {c : Ctx} {I U : InstRef} {s s' : State} {u : Unit}

theorem translateAll_none : ∀ {Vs : List Operand} {vs : List (EmitVal × ℕ)} {s s' : State},
    (∀ V ∈ Vs, V.inst? = none) → translateAll c U Vs s = .ok (vs, s') → s' = s := by
  intro Vs
  induction Vs with
  | nil =>
    intro vs s s' _ h
    exact (pure_ok_iff.mp h).2
  | cons V Vs ih =>
    intro vs s s' hVs h
    simp only [translateAll, bind_ok_iff, pure_ok_iff] at h
    obtain ⟨⟨v, k⟩, s1, hv, ws, s2, hws, -, rfl⟩ := h
    obtain ⟨rfl, -, -⟩ := translateConst_ok (hVs V List.mem_cons_self) hv
    exact ih (fun W hW => hVs W (List.mem_cons_of_mem _ hW)) hws

/-- The visit of a plain instruction leaves nothing active that was not. -/
theorem visitInst_plain {x : Inst} (hx : x.isPlain = true) (ho : Ownership s.ra)
    (h : visitInst c I x s = .ok (u, s')) (hs : s.ra.activeSet = []) : s'.ra.activeSet = [] := by
  obtain ⟨hty, hops⟩ := Inst.isPlain_iff.mp hx
  -- steps that read and define nothing
  have hsteps : ∀ {s1 s2 : State}, Steps c ⟨I, [], [], False, False, True⟩ s1 s2 → Ownership s1.ra →
      s1.ra.activeSet = [] → s2.ra.activeSet = [] := by
    intro s1 s2 h ho1 h1
    refine List.eq_nil_iff_forall_not_mem.mpr fun e he => ?_
    obtain ⟨e', he', -⟩ | ⟨V, hV, -⟩ | ⟨hd, -⟩ := Steps.source_mem h ho1 e he
    · simp [h1] at he'
    · cases hV
    · exact hd
  cases x with
  | store v p =>
    simp only [visitInst, visitStoreInst, bind_ok_iff, require_ok, reportUser_ok, emit_ok] at h
    obtain ⟨⟨⟩, s1, ⟨-, rfl⟩, ⟨⟩, s2, rfl, ⟨w, k⟩, s3, hv, ⟨⟩, s4, ⟨-, rfl⟩, ⟨q, j⟩, s5, hp, ⟨⟩, s6,
      rfl, rfl⟩ := h
    obtain ⟨rfl, -, -⟩ := translateConst_ok (hops v List.mem_cons_self) hv
    obtain ⟨rfl, -, -⟩ := translateConst_ok (hops p (List.mem_cons_of_mem _ List.mem_cons_self)) hp
    exact hs
  | call f args ty =>
    obtain rfl : ty = none := hty
    simp only [visitInst, visitCallInst, bind_ok_iff, emitCall, Option.isSome_none,
      Bool.false_eq_true, if_false, emit_ok] at h
    obtain ⟨⟨⟩, s1, h1, vs, s2, h2, ⟨⟩, s3, rfl, h4⟩ := h
    have h1 := (handOverRef_steps (d := ⟨I, [], [], False, False, True⟩) trivial ho h1).1
    have ho1 := Steps.ownership h1 ho
    obtain rfl := translateAll_none hops h2
    have h4 := (takeBackRef_steps (s := { s2 with
      code := s2.code ++ [.call none f (vs.map Prod.fst)] })
      (d := ⟨I, [], [], False, False, True⟩) trivial ho1 h4).1
    have hnil : s2.ra.activeSet = [] := hsteps h1 ho hs
    exact hsteps h4 ho1 hnil
  | load p =>
    obtain ⟨val, ty⟩ := p
    cases ty with
    | ptr elem => cases hty
    | _ => exact (throw_ok_iff.mp h).elim
  | _ => cases hty

end Plain

/-! ## What is active after a visit -/

/-- `RefSet`, `RefSpilled`, and the current user of the allocator. -/
structure Mode where
  refSet : Bool
  refSpilled : Bool
  user : Option InstRef

/-- The mode of a state. -/
def State.mode (s : State) : Mode := ⟨s.refSet, s.refSpilled, s.ra.currentUser⟩

/-- Register 16 is not reserved for the reference stack pointer, and no user is announced. -/
def Calm (s : State) : Prop := s.mode = ⟨false, false, none⟩

/-- Something is active. -/
def Busy (s : State) : Prop := s.ra.activeSet ≠ []

/-- From a state in mode `μ`, a success ends in `q`. -/
abbrev Yields {α : Type} (μ : Mode) (m : M α) (q : α → State → Prop) : Prop :=
  Avoids (fun _ => False) (fun s => s.mode = μ) m q

/-- The program keeps the mode. -/
abbrev KeepsMode {α : Type} (m : M α) : Prop := ∀ μ, Yields μ m fun _ s => s.mode = μ

section Busy

variable {c : Ctx} {I U : InstRef} {s s' : State} {k : ℕ} {μ : Mode}

theorem yields_of_ok {α : Type} {m : M α} {q : α → State → Prop}
    (h : ∀ s a s', s.mode = μ → m s = .ok (a, s') → q a s') : Yields μ m q :=
  fun s hs => ⟨fun _ _ => id, fun a s' => h s a s' hs⟩

theorem keepsMode_of_ok {α : Type} {m : M α}
    (h : ∀ s a s', m s = .ok (a, s') → s'.mode = s.mode) : KeepsMode m := fun _ =>
  yields_of_ok fun s a s' hs hm => (h s a s' hm).trans hs

/-- A method of the allocator that does not change its current user. -/
theorem withRA_mode {α : Type}
    {f : RegisterAllocator InstRef → Except Fault (α × RegisterAllocator InstRef)}
    (hf : ∀ ra a ra', f ra = .ok (a, ra') → ra'.currentUser = ra.currentUser) :
    KeepsMode (withRA f) :=
  keepsMode_of_ok fun s a s' h => by
    obtain ⟨ra, hra, rfl⟩ := withRA_ok.mp h
    show (⟨_, _, ra.currentUser⟩ : Mode) = _
    rw [hf _ _ _ hra]
    rfl

theorem request_mode : KeepsMode (withRA (·.request I)) :=
  withRA_mode fun ra a ra' h => by
    unfold request allocateNewRegister at h
    split_ifs at h
    cases hf : ra.freeRegisters <;> simp only [hf] at h <;> split_ifs at h <;> cases h <;> rfl

theorem requestTemp_mode : KeepsMode (withRA (·.requestTempRegister k)) :=
  withRA_mode fun ra a ra' h => by
    unfold RegisterAllocator.requestTempRegister allocateNewRegister at h
    split_ifs at h
    · cases hf : ra.freeRegisters <;> simp only [hf] at h <;> split_ifs at h <;> cases h <;> rfl
    · simp only at h
      split_ifs at h <;> cases h <;> rfl

theorem giveUpTemp_mode : KeepsMode (giveUpTempRegister k) :=
  keepsMode_of_ok fun s u s' h => by
    obtain ⟨ra, hg, rfl⟩ := giveUpTempRegister_iff.mp h
    obtain ⟨-, rfl⟩ := giveUpTempRegister_ok hg
    rfl

theorem evict_currentUser {ra ra' : RegisterAllocator InstRef} {t : ℕ}
    {r : Option (Allocation InstRef)} (h : ra.evict t = .ok (r, ra')) :
    ra'.currentUser = ra.currentUser := by
  obtain ⟨-, -, rfl⟩ | ⟨a, -, -, -, -, hra⟩ := evict_ok h
  · rfl
  · rw [hra]

theorem reportUser_mode {user : Option InstRef} :
    Yields μ (reportUser user) fun _ s => s.mode = ⟨μ.refSet, μ.refSpilled, user⟩ :=
  yields_of_ok fun s u s' hs h => by
    rw [reportUser_ok.mp h, ← hs]
    rfl

theorem evictOne_mode {t : ℕ} : KeepsMode (evictOne c t) :=
  keepsMode_of_ok fun s u s' h => by
    obtain ⟨a, ra, v, he, -, rfl⟩ := evictOne_ok h
    show (⟨_, _, ra.currentUser⟩ : Mode) = _
    rw [evict_currentUser he]
    rfl

theorem requestOrEvict_mode {t : ℕ} {m : M ℕ} (hm : KeepsMode m) :
    KeepsMode (requestOrEvict c t m) := fun μ =>
  (hm μ).bind fun _ => .ite
    (fun _ => (evictOne_mode μ).bind fun _ => (hm μ).bind fun _ =>
      .ite (fun _ => .throw id) fun _ => .pure fun _ h => h)
    fun _ => .pure fun _ h => h

theorem busy_of_update {ra ra' : RegisterAllocator InstRef} {V : Option InstRef} {n : ℕ}
    (h : ra.update I V n = .ok ra') : ra'.activeSet ≠ [] := by
  obtain ⟨l1, e, l2, -, -, -, hperm, -⟩ := update_ok h
  intro hnil
  rw [hnil] at hperm
  simpa using hperm.length_eq

theorem update_currentUser {ra ra' : RegisterAllocator InstRef} {user : Option InstRef} {n : ℕ}
    (h : ra.update I user n = .ok ra') : ra'.currentUser = ra.currentUser := by
  obtain ⟨l1, e, l2, -, -, -, -, hra⟩ := update_ok h
  rw [hra]

/-- Whoever gets a register is active. -/
theorem requestRegister_busy :
    Yields μ (requestRegister c I) fun _ s => s.mode = μ ∧ Busy s := by
  refine (requestOrEvict_mode request_mode μ).bind fun k => ?_
  have huse : Yields μ (reportUseNoPop I none) fun _ s => s.mode = μ ∧ Busy s :=
    yields_of_ok fun s a s' hs h => by
      obtain ⟨ra, hu, rfl⟩ := reportUseNoPop_ok.mp h
      refine ⟨?_, busy_of_update hu⟩
      rw [← hs]
      show (⟨_, _, ra.currentUser⟩ : Mode) = _
      rw [update_currentUser hu]
      rfl
  exact huse.bind fun _ => .pure fun _ h => h

theorem getRegister_mode : KeepsMode (getRegister c I) := by
  have hfill : KeepsMode (fillRegister c I) := fun μ =>
    requestRegister_busy.bind fun _ => .bind (.modify fun _ h => h.1) fun _ =>
      .bind (.modify fun _ h => h) fun _ => .pure fun _ h => h
  refine keepsMode_of_ok fun s k s' h => ?_
  unfold getRegister at h
  split_ifs at h
  · exact (hfill s.mode s rfl).2 k s' h
  · cases h
    rfl

theorem translate_mode {V : Operand} : KeepsMode (translateSrcOperandToTgt c V U) := by
  refine keepsMode_of_ok fun s p s' h => ?_
  obtain ⟨v, k⟩ := p
  cases hi : V.inst? with
  | none =>
    obtain ⟨rfl, -, -⟩ := translateConst_ok hi h
    rfl
  | some J =>
    obtain ⟨val, ty⟩ := V
    cases val <;> cases hi
    obtain ⟨s1, t, q, ra, hget, -, -, hu, rfl⟩ := translateInst_ok h
    rw [← (getRegister_mode s.mode s rfl).2 k s1 hget]
    show (⟨_, _, ra.currentUser⟩ : Mode) = _
    rw [update_currentUser hu]
    rfl

/-- An instruction that has been translated is active, and nothing is left with nothing active. -/
theorem translate_busy {V : Operand} {p : EmitVal × ℕ}
    (h : translateSrcOperandToTgt c V U s = .ok (p, s')) (hs : Busy s ∨ V.inst? ≠ none) :
    Busy s' := by
  obtain ⟨v, k⟩ := p
  cases hi : V.inst? with
  | none =>
    obtain ⟨rfl, -, -⟩ := translateConst_ok hi h
    exact hs.resolve_right fun h => h hi
  | some J =>
    obtain ⟨val, ty⟩ := V
    cases val <;> cases hi
    obtain ⟨s1, t, q, ra, -, -, -, hu, rfl⟩ := translateInst_ok h
    exact busy_of_update hu

theorem translateAll_mode : ∀ {Vs : List Operand}, KeepsMode (translateAll c U Vs) := by
  intro Vs μ
  induction Vs with
  | nil => exact .pure fun _ h => h
  | cons V Vs ih =>
    exact (translate_mode μ).bind fun _ => ih.bind fun _ => .pure fun _ h => h

theorem translateAll_busy : ∀ {Vs : List Operand} {vs : List (EmitVal × ℕ)} {s s' : State},
    translateAll c U Vs s = .ok (vs, s') → (Busy s ∨ ∃ V ∈ Vs, V.inst? ≠ none) → Busy s' := by
  intro Vs
  induction Vs with
  | nil =>
    intro vs s s' h hs
    obtain ⟨-, rfl⟩ := pure_ok_iff.mp h
    refine hs.resolve_right ?_
    rintro ⟨V, hV, -⟩
    cases hV
  | cons V Vs ih =>
    intro vs s s' h hs
    simp only [translateAll, bind_ok_iff, pure_ok_iff] at h
    obtain ⟨p, s1, hv, ws, s2, hws, -, rfl⟩ := h
    refine ih hws ?_
    rcases hs with hs | ⟨W, hW, hi⟩
    · exact Or.inl (translate_busy hv (Or.inl hs))
    · rcases List.mem_cons.mp hW with rfl | hW
      · exact Or.inl (translate_busy hv (Or.inr hi))
      · exact Or.inr ⟨W, hW, hi⟩

/-- The program only emits lines. -/
def OnlyEmits {α : Type} (m : M α) : Prop :=
  ∀ s a s', m s = .ok (a, s') → ∃ lines, s' = { s with code := s.code ++ lines }

theorem onlyEmits_of {m : M EmitVal} {k : ℕ}
    (h : ∀ {s v s'}, m s = .ok (v, s') → Emits k s v s') : OnlyEmits m := fun s v s' hv => by
  obtain ⟨lines, hs', -⟩ := h hv
  exact ⟨lines, hs'⟩

theorem onlyEmits_createBitCast {dest : ℕ} {v : EmitVal} {src ty : Ty} :
    OnlyEmits (createBitCast dest v src ty) := fun s w s' hw => by
  obtain ⟨lines, hs', -⟩ | ⟨-, -, rfl⟩ := createBitCast_ok hw
  · exact ⟨lines, hs'⟩
  · exact ⟨[], by simp⟩

theorem OnlyEmits.mode {α : Type} {m : M α} (h : OnlyEmits m) : KeepsMode m :=
  keepsMode_of_ok fun s a s' hm => by
    obtain ⟨lines, rfl⟩ := h s a s' hm
    rfl

/-- The user that a visitor has announced is taken back. -/
theorem reportUser_back {V : Option InstRef} (hμ : μ.user = none) :
    Yields ⟨μ.refSet, μ.refSpilled, V⟩ (reportUser none) fun _ s => s.mode = μ :=
  reportUser_mode.weaken (fun _ h => h) fun _ _ h => h.trans (hμ ▸ rfl)

/-- The last part of a visitor with a result. -/
theorem finish_busy {f : ℕ → M EmitVal} (hf : ∀ k, OnlyEmits (f k)) : Yields μ (do
    let regId ← requestRegister c U
    let res ← f regId
    define U res) fun _ s => s.mode = μ ∧ Busy s := by
  refine requestRegister_busy.bind fun k => ?_
  have hkeep : Avoids (fun _ => False) (fun s => s.mode = μ ∧ Busy s) (f k) fun _ s =>
      s.mode = μ ∧ Busy s := fun s hs => ⟨fun _ _ => id, fun v s' hv => by
    obtain ⟨lines, rfl⟩ := hf k s v s' hv
    exact hs⟩
  exact hkeep.bind fun _ => .bind (.modify fun _ h => h) fun _ => .modify fun _ h => h

theorem require_mode {b : Bool} : KeepsMode (require b) := fun _ =>
  .ite (fun _ => .pure fun _ h => h) fun _ => .throw id

theorem unary_busy {V : Operand} {f : ℕ → EmitVal → M EmitVal} (hf : ∀ k v, OnlyEmits (f k v)) :
    Yields μ (do
      let (op, _) ← translateSrcOperandToTgt c V U
      let regId ← requestRegister c U
      let res ← f regId op
      define U res) fun _ s => s.mode = μ ∧ Busy s :=
  (translate_mode μ).bind fun ⟨op, _⟩ => finish_busy fun k => hf k op

theorem binary_busy {V W : Operand} {f : ℕ → EmitVal → EmitVal → M EmitVal}
    (hf : ∀ k v w, OnlyEmits (f k v w)) (hμ : μ.user = none) : Yields μ (do
      reportUser (some U)
      let (op1, _) ← translateSrcOperandToTgt c V U
      let (op2, _) ← translateSrcOperandToTgt c W U
      reportUser none
      let regId ← requestRegister c U
      let res ← f regId op1 op2
      define U res) fun _ s => s.mode = μ ∧ Busy s :=
  reportUser_mode.bind fun _ => (translate_mode _).bind fun ⟨op1, _⟩ =>
    (translate_mode _).bind fun ⟨op2, _⟩ => (reportUser_back hμ).bind fun _ =>
      finish_busy fun k => hf k op1 op2

theorem scaleIndex_mode {sz k : ℕ} {idx : EmitVal} :
    KeepsMode (scaleIndex c sz idx k) := fun μ => by
  refine .ite (fun _ => .pure fun _ h => h) fun _ => (require_mode μ).bind fun _ =>
    .ite (fun _ => ?_) fun _ => (requestOrEvict_mode requestTemp_mode μ).bind fun r =>
      (giveUpTemp_mode μ).bind fun _ => ?_
  · exact (onlyEmits_of createBinOp_emits).mode μ
  · exact (onlyEmits_of createBinOp_emits).mode μ

theorem gepLoop_mode {t : ℕ} : ∀ {idxs : List Operand} {elemTy : Option Ty} {p : EmitVal},
    Yields μ (gepLoop c U t idxs elemTy p) fun _ s => s.mode = μ := by
  intro idxs
  induction idxs with
  | nil => exact .pure fun _ h => h
  | cons idx idxs ih =>
    intro elemTy p
    cases elemTy with
    | none => exact .throw id
    | some elemTy =>
      refine (require_mode μ).bind fun _ => (translate_mode μ).bind fun ⟨_, _⟩ =>
        (scaleIndex_mode μ).bind fun _ => Avoids.bind ?_ fun _ => ih
      exact .ite (fun _ => .pure fun _ h => h) fun _ => (onlyEmits_of createBinOp_emits).mode μ

/-- A visit keeps the mode if no user is announced before it, and a result is active after it. -/
theorem visitInst_mode {x : Inst} (hx : ∀ f args ty, x ≠ .call f args ty) (hμ : μ.user = none) :
    Yields μ (visitInst c U x) fun _ s => s.mode = μ ∧ (x.ty ≠ none → Busy s) := by
  have hdef : ∀ {m : M Unit}, Yields μ m (fun _ s => s.mode = μ ∧ Busy s) →
      Yields μ m fun _ s => s.mode = μ ∧ (x.ty ≠ none → Busy s) := fun hm =>
    hm.weaken (fun _ h => h) fun _ _ h => ⟨h.1, fun _ => h.2⟩
  cases x with
  | alloca allocated n =>
    refine hdef ((require_mode μ).bind fun _ => (require_mode μ).bind fun _ =>
      finish_busy (f := fun k => do emit (.alloca k U allocated n); pure (.reg k)) fun k => ?_)
    exact onlyEmits_of (k := k) fun h => by
      simp only [bind_ok_iff, emit_ok, pure_ok_iff] at h
      obtain ⟨⟨⟩, s1, rfl, rfl, rfl⟩ := h
      exact emits_line rfl rfl
  | load p =>
    refine hdef ?_
    change Yields μ (visitLoadInst c U p) _
    unfold visitLoadInst
    split
    · refine (require_mode μ).bind fun _ =>
        unary_busy (f := fun k v => do emit (.load k _ v); pure (.reg k)) fun k v => ?_
      exact onlyEmits_of (k := k) fun h => by
        simp only [bind_ok_iff, emit_ok, pure_ok_iff] at h
        obtain ⟨⟨⟩, s1, rfl, rfl, rfl⟩ := h
        exact emits_line rfl rfl
    · exact .throw id
  | store v p =>
    exact (require_mode μ).bind fun _ => reportUser_mode.bind fun _ => (translate_mode _).bind fun _ =>
      (require_mode _).bind fun _ => (translate_mode _).bind fun _ =>
        .bind (.modify fun _ h => h) fun _ => (reportUser_back hμ).weaken (fun _ h => h)
          fun _ _ h => ⟨h, fun h => absurd rfl h⟩
  | binary op a b =>
    refine hdef ?_
    change Yields μ (visitBinaryOperator c U op a b) _
    unfold visitBinaryOperator
    split
    · exact (require_mode μ).bind fun _ =>
        binary_busy (fun _ _ _ => onlyEmits_of createBinOp_emits) hμ
    · exact .throw id
  | icmp p a b =>
    exact hdef ((require_mode μ).bind fun _ =>
      binary_busy (fun _ _ _ => onlyEmits_of createICmp_emits) hμ)
  | select x a b =>
    exact hdef (reportUser_mode.bind fun _ => (translate_mode _).bind fun ⟨_, _⟩ =>
      (translate_mode _).bind fun ⟨_, _⟩ => (translate_mode _).bind fun ⟨_, _⟩ =>
        (reportUser_back hμ).bind fun _ => finish_busy fun _ => onlyEmits_of createSelect_emits)
  | gep p idxs ty =>
    refine hdef ?_
    change Yields μ (visitGetElementPtrInst c U p idxs ty) _
    unfold visitGetElementPtrInst
    split
    · exact reportUser_mode.bind fun _ => (translate_mode _).bind fun ⟨_, _⟩ =>
        (requestOrEvict_mode requestTemp_mode _).bind fun _ =>
          (onlyEmits_createBitCast.mode _).bind fun _ => gepLoop_mode.bind fun _ =>
            (reportUser_back hμ).bind fun _ => (giveUpTemp_mode μ).bind fun _ =>
              finish_busy fun _ => onlyEmits_createBitCast
    · exact .throw id
  | bitcast a ty =>
    exact hdef (unary_busy (f := fun k v => createBitCast k v a.ty ty) fun _ _ =>
      onlyEmits_createBitCast)
  | sext a bw =>
    refine hdef ?_
    change Yields μ (visitSExtInst c U a) _
    unfold visitSExtInst
    split
    · exact unary_busy fun _ _ => onlyEmits_of createSExt_emits
    · exact .throw id
  | zext a bw =>
    exact hdef (unary_busy (f := fun k v => createBinOp k .mul 64 v (.const 1)) fun _ _ =>
      onlyEmits_of createBinOp_emits)
  | trunc a bw =>
    exact hdef (unary_busy
      (f := fun k v => createBinOp k .urem 64 v (.const (BitVec.ofNat 64 (2 ^ bw)))) fun _ _ =>
      onlyEmits_of createBinOp_emits)
  | ptrtoint a bw =>
    exact hdef (unary_busy fun _ _ => onlyEmits_of createPtrCast_emits)
  | inttoptr a ty =>
    exact hdef (unary_busy fun _ _ => onlyEmits_of createPtrCast_emits)
  | call f args ty => exact absurd rfl (hx f args ty)

/-! ## Calls -/

theorem emitCall_mode {callee : String} {args : List EmitVal} {named : Bool} :
    Yields μ (emitCall c U callee args named) fun _ s => s.mode = μ ∧ (named = true → Busy s) := by
  refine .ite (fun _ => ?_) fun hnot => .modify fun _ h => ⟨h, fun hn => absurd hn hnot⟩
  have hcall := finish_busy (c := c) (U := U) (μ := μ)
    (f := fun k => do emit (.call (some k) callee args); pure (.reg k)) fun k =>
      onlyEmits_of (k := k) fun h => by
        simp only [bind_ok_iff, emit_ok, pure_ok_iff] at h
        obtain ⟨⟨⟩, s1, rfl, rfl, rfl⟩ := h
        exact emits_line rfl rfl
  exact hcall.weaken (fun _ h => h) fun _ _ h => ⟨h.1, fun _ => h.2⟩

theorem handOverRef_user {callee : String} {u : Unit} (h : handOverRef c callee s = .ok (u, s')) :
    s'.ra.currentUser = s.ra.currentUser := by
  unfold handOverRef at h
  split_ifs at h
  · obtain ⟨⟨k, s1⟩, hr, heq⟩ := map_ok_iff.mp h
    cases heq
    exact congrArg Mode.user ((requestOrEvict_mode requestTemp_mode _ _ rfl).2 k s1 hr)
  · cases h
    rfl
  · exact congrArg Mode.user ((giveUpTemp_mode _ _ rfl).2 u s' h)
  · cases h
    rfl

theorem takeBackRef_user {callee : String} {u : Unit} (h : takeBackRef c callee s = .ok (u, s')) :
    s'.ra.currentUser = s.ra.currentUser := by
  unfold takeBackRef at h
  split_ifs at h
  · obtain ⟨⟨k, s1⟩, hr, heq⟩ := map_ok_iff.mp h
    cases heq
    exact congrArg Mode.user ((requestOrEvict_mode requestTemp_mode _ _ rfl).2 k s1 hr)
  · cases h
    rfl

/-- Between two visits no user is announced. -/
theorem visitInst_user {x : Inst} {u : Unit} (hs : s.ra.currentUser = none)
    (h : visitInst c U x s = .ok (u, s')) : s'.ra.currentUser = none := by
  by_cases hx : ∀ f args ty, x ≠ .call f args ty
  · exact (congrArg Mode.user ((visitInst_mode (μ := s.mode) hx hs s rfl).2 u s' h).1).trans hs
  · push Not at hx
    obtain ⟨f, args, ty, rfl⟩ := hx
    simp only [visitInst, visitCallInst, bind_ok_iff] at h
    obtain ⟨⟨⟩, s1, h1, vs, s2, h2, ⟨⟩, s3, h3, h4⟩ := h
    have h2 := congrArg Mode.user ((translateAll_mode s1.mode s1 rfl).2 vs s2 h2)
    have h3 := congrArg Mode.user ((emitCall_mode (μ := s2.mode) s2 rfl).2 () s3 h3).1
    calc s'.ra.currentUser = s3.ra.currentUser := takeBackRef_user h4
      _ = s2.ra.currentUser := h3
      _ = s1.ra.currentUser := h2
      _ = s.ra.currentUser := handOverRef_user h1
      _ = none := hs

/-- While register 16 is not reserved, a call has nothing to hand over. -/
theorem handOverRef_calm {callee : String} {args : List Operand} {ty : Option Ty} {u : Unit}
    (hx : (Inst.call callee args ty).setsRef = false) (hs : Calm s)
    (h : handOverRef c callee s = .ok (u, s')) : s' = s := by
  have hne : callee ≠ setRefName := by simpa [Inst.setsRef] using hx
  have hset : s.refSet = false := congrArg Mode.refSet hs
  have hspilled : s.refSpilled = false := congrArg Mode.refSpilled hs
  simp only [handOverRef, hset, hspilled, hne, Bool.not_false, decide_false, Bool.and_false,
    Bool.false_and, Bool.false_eq_true, if_false] at h
  cases h
  rfl

theorem takeBackRef_calm {callee : String} {u : Unit} (hs : Calm s)
    (h : takeBackRef c callee s = .ok (u, s')) : s' = s := by
  have hspilled : s.refSpilled = false := congrArg Mode.refSpilled hs
  simp only [takeBackRef, hspilled, Bool.false_and, Bool.false_eq_true, if_false] at h
  cases h
  rfl

/-- A visit from a state in which register 16 is not reserved: a result is active after it. -/
theorem visitInst_busy {x : Inst} {u : Unit} (hx : x.setsRef = false) (hs : Calm s)
    (h : visitInst c U x s = .ok (u, s')) : Calm s' ∧ (x.ty ≠ none → Busy s') := by
  by_cases hcall : ∀ f args ty, x ≠ .call f args ty
  · exact (visitInst_mode hcall rfl s hs).2 u s' h
  · push Not at hcall
    obtain ⟨f, args, ty, rfl⟩ := hcall
    simp only [visitInst, visitCallInst, bind_ok_iff] at h
    obtain ⟨⟨⟩, s1, h1, vs, s2, h2, ⟨⟩, s3, h3, h4⟩ := h
    obtain rfl := handOverRef_calm hx hs h1
    obtain ⟨hc, hb⟩ := (emitCall_mode s2 ((translateAll_mode _ s1 hs).2 vs s2 h2)).2 () s3 h3
    obtain rfl := takeBackRef_calm hc h4
    refine ⟨hc, fun hty => hb ?_⟩
    exact Option.isSome_iff_ne_none.mpr hty

/-- The visit of an instruction without a result leaves something active if something was, or if it
    reads an instruction. -/
theorem visitInst_void {x : Inst} {u : Unit} (hx : x.setsRef = false) (hty : x.ty = none)
    (hs : Calm s) (h : visitInst c U x s = .ok (u, s'))
    (hb : Busy s ∨ ∃ V ∈ x.operands, V.inst? ≠ none) : Busy s' := by
  cases x with
  | store v p =>
    simp only [visitInst, visitStoreInst, bind_ok_iff, require_ok, reportUser_ok, emit_ok] at h
    obtain ⟨⟨⟩, s1, ⟨-, rfl⟩, ⟨⟩, s2, rfl, ⟨w, k⟩, s3, hv, ⟨⟩, s4, ⟨-, rfl⟩, ⟨q, j⟩, s5, hp, ⟨⟩, s6,
      rfl, rfl⟩ := h
    have hb5 : Busy s5 := by
      obtain hb | ⟨V, hV, hi⟩ := hb
      · exact translate_busy hp (Or.inl (translate_busy hv (Or.inl hb)))
      · rcases List.mem_pair.mp hV with rfl | rfl
        · exact translate_busy hp (Or.inl (translate_busy hv (Or.inr hi)))
        · exact translate_busy hp (Or.inr hi)
    exact hb5
  | call f args ty =>
    obtain rfl : ty = none := hty
    simp only [visitInst, visitCallInst, bind_ok_iff, emitCall, Option.isSome_none,
      Bool.false_eq_true, if_false, emit_ok] at h
    obtain ⟨⟨⟩, s1, h1, vs, s2, h2, ⟨⟩, s3, rfl, h4⟩ := h
    obtain rfl := handOverRef_calm hx hs h1
    have hs2 := (translateAll_mode _ s1 hs).2 vs s2 h2
    obtain rfl := takeBackRef_calm (s := { s2 with
      code := s2.code ++ [.call none f (vs.map Prod.fst)] }) hs2 h4
    have hb2 : Busy s2 := translateAll_busy h2 hb
    exact hb2
  | load p =>
    obtain ⟨val, ty⟩ := p
    cases ty with
    | ptr elem => cases hty
    | _ => exact (throw_ok_iff.mp h).elim
  | _ => cases hty

/-! ## Terminators -/

theorem processPHIs_mode : ∀ {inputs : List (InstRef × Option Operand)},
    KeepsMode (processPHIs c U inputs) := by
  intro inputs μ
  induction inputs with
  | nil => exact .pure fun _ h => h
  | cons p inputs ih =>
    obtain ⟨P, _ | V⟩ := p
    · exact .throw id
    · exact (translate_mode μ).bind fun _ => .bind (.modify fun _ h => h) fun _ => ih

theorem spill_mode {a : Allocation InstRef} : KeepsMode (evict c (some a)) := by
  refine keepsMode_of_ok fun s u s' h => ?_
  simp only [evict] at h
  split_ifs at h
  · cases hv : s.sourceToEmitMap a.source with
    | none => simp [hv] at h
    | some v =>
      simp only [hv, emit_ok] at h
      rw [h]
      rfl
  · cases h
    rfl

theorem clearLoop_mode : ∀ {fuel : ℕ}, KeepsMode (clearLoop c fuel) := by
  intro fuel μ
  induction fuel with
  | zero => exact .pure fun _ h => h
  | succ fuel ih =>
    refine (withRA_mode (fun _ _ _ => evict_currentUser) μ).bind fun a => ?_
    cases a with
    | none => exact .pure fun _ h => h
    | some a => exact (spill_mode μ).bind fun _ => ih

theorem visitTerm_mode {B : Block} : KeepsMode (visitTerm c U B) := by
  intro μ
  have hjump : ∀ {l : Line}, Yields μ (do clearRA c; emit l) fun _ s => s.mode = μ := fun {l} =>
    (yields_of_ok fun s u s' hs h => (clearLoop_mode μ s hs).2 u s' h).bind fun _ =>
      .modify fun _ h => h
  unfold visitTerm
  cases B.term with
  | ret V =>
    cases V with
    | none => exact .modify fun _ h => h
    | some V => exact (translate_mode μ).bind fun _ => .modify fun _ h => h
  | br t => exact (processPHIs_mode μ).bind fun _ => hjump
  | condBr cond t f =>
    exact (processPHIs_mode μ).bind fun _ => (translate_mode μ).bind fun _ => hjump
  | switch cond t cases =>
    exact (processPHIs_mode μ).bind fun _ => (translate_mode μ).bind fun _ => hjump

theorem visitPHINode_busy : Yields μ (visitPHINode c I) fun _ s => s.mode = μ ∧ Busy s :=
  requestRegister_busy.bind fun _ => .bind (.modify fun _ h => h) fun _ => .modify fun _ h => h

/-- At every point of the translation no user is announced. -/
theorem Reaches.user {p : Point} (h : Reaches c p s) : s.ra.currentUser = none := by
  induction h with
  | init => rfl
  | begin hB hs h ih =>
    simp only [visitBasicBlock, bind_ok_iff, require_ok, modify_ok_iff] at h
    obtain ⟨⟨⟩, s1, ⟨-, rfl⟩, rfl⟩ := h
    exact ih
  | @phi b n B s s' hB hn hs h ih =>
    exact (congrArg Mode.user ((visitPHINode_busy (μ := s.mode) s rfl).2 () s' h).1).trans ih
  | inst hB hx hs h ih => exact visitInst_user ih h
  | @term b B s s' hB hs h ih =>
    have hu : s'.ra.currentUser = none :=
      (congrArg Mode.user ((visitTerm_mode s.mode s rfl).2 () s' h)).trans ih
    exact hu

end Busy

end SwppCompiler.Backend
