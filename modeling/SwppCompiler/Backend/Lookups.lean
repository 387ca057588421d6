import SwppCompiler.Backend.Runs

/-!
# Lookups

As long as every active allocation has a value in `SourceToEmitMap`, no lookup of a visitor finds a
null `Value *`, and no request an allocated source: the assertion of `request`
(`src/core/RegisterAllocator.cpp`, line 94) holds.

* `Steps.valued`: the steps of a visitor keep this.
* `visitInst_avoids`, `visitPHINode_avoids`, `visitTerm_avoids`: no visitor fails in a lookup.
-/

namespace SwppCompiler.Backend

open Interp Lib.StateExcept RegisterAllocator

/-! ## Active allocations have a value -/

/-- Every active allocation has a value in `SourceToEmitMap`. -/
def Valued (s : State) : Prop := ∀ e ∈ s.ra.activeSet, (s.sourceToEmitMap e.source).isSome

section Steps

variable {c : Ctx} {d : Site} {s s' : State}

theorem Steps.valued (h : Steps c d s s') (ho : Ownership s.ra) (hv : Valued s) : Valued s' := by
  refine (h.invariant (p := Valued) (fun s1 s2 ho1 hv1 hstep e he => ?_) ho hv).2
  obtain ⟨e', he', heq, -, -, hval⟩ | ⟨-, -, -, v, hval, -⟩ := hstep.active ho1 he
  · rw [hval, ← heq]; exact hv1 e' he'
  · rw [hval]; rfl

/-- Operands and the visited instruction are the only new sources. -/
theorem Steps.source_mem (h : Steps c d s s') (ho : Ownership s.ra) : ∀ e ∈ s'.ra.activeSet,
    (∃ e' ∈ s.ra.activeSet, e'.source = e.source) ∨ d.reads e.source ∨ d.defines ∧ e.source = d.user := by
  refine (h.invariant (p := fun s1 => ∀ e ∈ s1.ra.activeSet,
    (∃ e' ∈ s.ra.activeSet, e'.source = e.source) ∨ d.reads e.source ∨ d.defines ∧ e.source = d.user)
    (fun s1 s2 ho1 hs1 hstep e he => ?_) ho (fun e he => Or.inl ⟨e, he, rfl⟩)).2
  obtain ⟨e', he', heq, -, -, -⟩ | ⟨hnew, -⟩ := hstep.active ho1 he
  · exact heq ▸ hs1 e' he'
  · exact Or.inr hnew

end Steps

/-! ## No lookup fails -/

/-- The faults of a lookup: a request for an allocated source, and a null value. -/
def LookupFault (f : Fault) : Prop := f = .alreadyAllocated ∨ f = .nullValue

theorem skipCurrentUser_error {u : InstRef} {f : Fault} :
    ∀ {n : ℕ} {l : List (Allocation InstRef)}, skipCurrentUser u n l = .error f →
      f = .onlyCurrentUser := by
  intro n
  induction n with
  | zero => intro l h; cases h; rfl
  | succ n ih =>
    intro l h
    rw [skipCurrentUser] at h
    split_ifs at h
    · cases h; rfl
    · exact ih h

/-- The failing assertions of `evict`. -/
theorem evict_faults {ra : RegisterAllocator InstRef} {t : ℕ} {f : Fault}
    (h : ra.evict t = .error f) : f = .evictTemp ∨ f = .victimNotFound ∨ f = .onlyCurrentUser := by
  unfold RegisterAllocator.evict at h
  split_ifs at h
  · cases h; exact Or.inl rfl
  · cases hv : ra.getVictim t with
    | error f' =>
      rw [hv] at h
      cases h
      unfold getVictim at hv
      split_ifs at hv
      · split at hv <;> cases hv
        exact Or.inr (Or.inl rfl)
      · split at hv
        · cases hv
        · cases hs : skipCurrentUser _ ra.activeSet.length ra.activeSet with
          | ok l => rw [hs] at hv; cases hv
          | error f' =>
            rw [hs] at hv
            cases hv
            exact Or.inr (Or.inr (skipCurrentUser_error hs))
    | ok p =>
      simp only [hv] at h
      split at h <;> cases h
      exact Or.inr (Or.inl rfl)

theorem evict_error {ra : RegisterAllocator InstRef} {t : ℕ} {f : Fault}
    (h : ra.evict t = .error f) : ¬LookupFault f := by
  have hf := evict_faults h
  rintro (rfl | rfl) <;> simp at hf

theorem request_error {ra : RegisterAllocator InstRef} {I : InstRef} {f : Fault}
    (h : ra.request I = .error f) : ∃ e ∈ ra.activeSet, e.source = I := by
  by_contra hall
  have hidle : ∀ e ∈ ra.activeSet, e.source ≠ I := fun e he hs => hall ⟨e, he, hs⟩
  obtain ⟨r, hr⟩ := request_isOk hidle
  rw [hr] at h
  cases h

theorem update_error {ra : RegisterAllocator InstRef} {I : InstRef} {U : Option InstRef} {n : ℕ}
    {f : Fault} (h : ra.update I U n = .error f) : ¬LookupFault f := by
  unfold update at h
  split at h <;> cases h
  rintro (h | h) <;> cases h

theorem requestTempRegister_error {ra : RegisterAllocator InstRef} {t : ℕ} {f : Fault}
    (h : ra.requestTempRegister t = .error f) : ¬LookupFault f := by
  unfold RegisterAllocator.requestTempRegister at h
  split_ifs at h
  · cases h; rintro (h | h) <;> cases h
  · simp only at h; split_ifs at h
  · simp only at h; split_ifs at h

/-- Registers are well owned, and every active allocation has a value. -/
structure Ready (s : State) : Prop where
  own : Ownership s.ra
  valued : Valued s

/-- Moreover `U` has no register. -/
structure Fresh (U : InstRef) (s : State) : Prop extends Ready s where
  idle : ∀ e ∈ s.ra.activeSet, e.source ≠ U

section Avoids

variable {c : Ctx} {U : InstRef}

theorem withRA_error {α : Type}
    {f : RegisterAllocator InstRef → Except Fault (α × RegisterAllocator InstRef)} {s : State}
    {e : Fault} (h : withRA f s = .error e) : f s.ra = .error e := by
  unfold withRA at h
  cases hf : f s.ra with
  | error e' => rw [hf] at h; cases h; rfl
  | ok p => rw [hf] at h; cases h

theorem Ready.steps {d : Site} {s s' : State} (hs : Ready s) (h : Steps c d s s') : Ready s' :=
  ⟨Steps.ownership h hs.own, Steps.valued h hs.own hs.valued⟩

/-- The translation of operands other than `U` gives `U` no register. -/
theorem Fresh.steps {d : Site} {s s' : State} (hs : Fresh U s) (h : Steps c d s s')
    (hd : ¬d.defines) (hU : ¬d.reads U) : Fresh U s' := by
  refine ⟨hs.toReady.steps h, fun e he heq => ?_⟩
  rcases Steps.source_mem h hs.own e he with ⟨e', he', heq'⟩ | hr | ⟨hdefined, -⟩
  · exact hs.idle e' he' (heq'.trans heq)
  · exact hU (heq ▸ hr)
  · exact hd hdefined

theorem evictOne_avoids {t : ℕ} : Avoids LookupFault (Fresh U) (evictOne c t) fun _ => Fresh U := by
  intro s hs
  refine ⟨fun f h => ?_, fun u s' h => ?_⟩
  · rcases bind_error_iff.mp h with h | ⟨r, s1, h1, h⟩
    · exact evict_error (withRA_error h)
    · obtain ⟨ra, he, rfl⟩ := withRA_ok.mp h1
      cases r with
      | none => cases h; rintro (h | h) <;> cases h
      | some a =>
        obtain ⟨v, hv⟩ := Option.isSome_iff_exists.mp (hs.valued a (hs.own.mem_evict he).1)
        unfold evict at h
        simp only [hv] at h
        split_ifs at h
        cases h
  · exact hs.steps (d := ⟨U, [], [], False, False, False⟩) (.single (evictOne_steps h)) id
      (by rintro ⟨V, hV, -⟩; cases hV)

/-- A request, an eviction and a second request avoid what each of them avoids. -/
theorem requestOrEvict_avoids {t : ℕ} {m : M ℕ}
    (hm : Avoids LookupFault (Fresh U) m fun k s => k = 0 → Fresh U s) :
    Avoids LookupFault (Fresh U) (requestOrEvict c t m) fun _ _ => True := by
  refine hm.bind fun k => .ite (fun hk => ?_) fun _ => .pure fun _ _ => trivial
  refine (evictOne_avoids (U := U)).weaken (fun s hs => hs hk) (fun _ _ h => h) |>.bind fun _ => ?_
  refine hm.bind fun k' => .ite (fun _ => .throw ?_) fun _ => .pure fun _ _ => trivial
  rintro (h | h) <;> cases h

theorem reportUseNoPop_avoids {I : InstRef} {user : Option InstRef} {p : State → Prop} :
    Avoids LookupFault p (reportUseNoPop I user) fun _ _ => True := by
  refine fun s _ => ⟨fun f h => ?_, fun _ _ _ => trivial⟩
  unfold reportUseNoPop at h
  cases hu : s.ra.update I user (s.nextAdvent I) with
  | error f' => rw [hu] at h; cases h; exact update_error hu
  | ok ra => rw [hu] at h; cases h

theorem requestRegister_avoids :
    Avoids LookupFault (Fresh U) (requestRegister c U) fun _ _ => True := by
  have hreq : Avoids LookupFault (Fresh U) (withRA (·.request U)) fun k s => k = 0 → Fresh U s := by
    intro s hs
    refine ⟨fun f h => ?_, fun k s' h hk => ?_⟩
    · obtain ⟨e, he, heq⟩ := request_error (withRA_error h)
      exact absurd heq (hs.idle e he)
    · obtain ⟨ra, hr, rfl⟩ := withRA_ok.mp h
      obtain ⟨-, ⟨-, -, rfl⟩ | ⟨free, -, h0, -⟩⟩ := request_ok hs.own.zero_notMem_free hr
      · exact hs
      · exact absurd hk h0
  unfold requestRegister
  refine Avoids.bind (requestOrEvict_avoids hreq) fun k => ?_
  refine Avoids.bind reportUseNoPop_avoids fun _ => ?_
  exact Avoids.pure fun _ _ => trivial

theorem requestTempRegister_avoids {t : ℕ} :
    Avoids LookupFault (Fresh U) (requestTempRegister c t) fun _ => Fresh U := by
  have hreq : Avoids LookupFault (Fresh U) (withRA (·.requestTempRegister t)) fun k s =>
      k = 0 → Fresh U s := by
    intro s hs
    refine ⟨fun f h => requestTempRegister_error (withRA_error h), fun k s' h hk => ?_⟩
    obtain ⟨ra, hr, rfl⟩ := withRA_ok.mp h
    obtain ⟨-, ⟨-, rfl, -⟩ | ⟨h0, -⟩⟩ :=
      requestTempRegister_ok hs.own.zero_notMem_free hs.own.free_nodup hr
    · exact hs
    · exact absurd hk h0
  refine ((requestOrEvict_avoids hreq).and_ok fun s k s' hs h => ?_).weaken (fun _ h => h)
    fun _ _ h => h.2
  exact hs.steps (d := ⟨U, [], [], False, False, True⟩)
    (requestTempRegister_steps trivial hs.own h).1 id (by rintro ⟨V, hV, -⟩; cases hV)

theorem getRegister_avoids {I : InstRef} {s : State} (hs : Ready s) {f : Fault}
    (h : getRegister c I s = .error f) : ¬LookupFault f := by
  unfold getRegister at h
  split_ifs at h with h0
  have hfresh : Fresh I s := ⟨hs, hs.own.get_eq_zero_iff.mp h0⟩
  rcases bind_error_iff.mp h with h | ⟨k, s1, -, h⟩
  · exact (requestRegister_avoids s hfresh).1 f h
  · cases h

theorem translateSrcOperandToTgt_error {V : Operand} {W : InstRef} {s : State} (hs : Ready s)
    {f : Fault} (h : translateSrcOperandToTgt c V W s = .error f) : ¬LookupFault f := by
  unfold translateSrcOperandToTgt at h
  rcases bind_error_iff.mp h with h | ⟨⟨⟩, s1, h1, h⟩
  · unfold require at h
    split_ifs at h <;> cases h
    rintro (h | h) <;> cases h
  obtain ⟨-, rfl⟩ := require_ok.mp h1
  obtain ⟨val, ty⟩ := V
  cases val with
  | inst I =>
    rcases bind_error_iff.mp h with h | ⟨k, s1, hget, h⟩
    · exact getRegister_avoids hs h
    obtain ⟨hk, hgetI, hcase⟩ := getRegister_ok hs.own hget
    have hval : (s1.sourceToEmitMap I).isSome := by
      obtain rfl | ⟨-, s0, ra, ra', -, -, -, rfl⟩ := hcase
      · obtain ⟨e, he, rfl, -⟩ := mem_of_get_ne_zero (hgetI ▸ hk)
        exact hs.valued e he
      · simp
    obtain ⟨v, hv⟩ := Option.isSome_iff_exists.mp hval
    rcases bind_error_iff.mp h with h | ⟨⟨⟩, s2, huse, h⟩
    · rcases bind_error_iff.mp h with h | ⟨⟨⟩, s2, -, h⟩
      · unfold popAdvent at h
        split at h <;> cases h
        rintro (h | h) <;> cases h
      · exact (reportUseNoPop_avoids (p := fun _ => True) s2 trivial).1 f h
    · simp only [reportUse, bind_ok_iff, popAdvent_ok, reportUseNoPop_ok] at huse
      obtain ⟨⟨⟩, s3, ⟨t, q, -, rfl⟩, ra, -, rfl⟩ := huse
      simp only [bind_error_iff, emitVal, hv] at h
      rcases h with h | ⟨w, s4, -, h⟩ <;> cases h
  | _ => cases h

theorem translateSrcOperandToTgt_avoids {V : Operand} (hV : V.inst? ≠ some U) :
    Avoids LookupFault (Fresh U) (translateSrcOperandToTgt c V U) fun _ => Fresh U := by
  refine fun s hs => ⟨fun f h => translateSrcOperandToTgt_error hs.toReady h, fun p s' h => ?_⟩
  obtain ⟨v, k⟩ := p
  have hsteps := (translateSrcOperandToTgt_steps (d := ⟨U, [V], [], False, False, False⟩)
    List.mem_cons_self hs.own h).1
  refine hs.steps hsteps id ?_
  rintro ⟨W, hW, hWU⟩
  rw [List.mem_singleton.mp hW] at hWU
  exact hV hWU

theorem require_avoids {b : Bool} {p : State → Prop} :
    Avoids LookupFault p (require b) fun _ => p :=
  .ite (fun _ => .pure fun _ h => h) fun _ => .throw (by rintro (h | h) <;> cases h)

theorem reportUser_avoids {V : Option InstRef} :
    Avoids LookupFault (Fresh U) (reportUser V) fun _ => Fresh U := by
  refine fun s hs => ⟨fun f h => (by cases h), fun u s' h => ?_⟩
  obtain rfl := reportUser_ok.mp h
  exact ⟨⟨hs.own.reportUser V, hs.valued⟩, hs.idle⟩

theorem giveUpTempRegister_avoids {k : ℕ} :
    Avoids LookupFault (Fresh U) (giveUpTempRegister k) fun _ => Fresh U := by
  refine fun s hs => ⟨fun f h => ?_, fun u s' h => ?_⟩
  · have h := withRA_error h
    unfold RegisterAllocator.giveUpTempRegister at h
    split_ifs at h <;> cases h
    rintro (h | h) <;> cases h
  · obtain ⟨ra, hg, rfl⟩ := giveUpTempRegister_iff.mp h
    have ha := activeSet_giveUpTempRegister hg
    refine ⟨⟨hs.own.giveUpTempRegister hg, fun e he => hs.valued e (ha ▸ he)⟩, fun e he => ?_⟩
    exact hs.idle e (ha ▸ he)

/-- A program that never fails. -/
def Total {α : Type} (m : M α) : Prop := ∀ s e, m s ≠ .error e

theorem Total.avoids {α : Type} {m : M α} (h : Total m) {p : State → Prop} :
    Avoids LookupFault p m fun _ _ => True :=
  fun s _ => ⟨fun e he => absurd he (h s e), fun _ _ _ => trivial⟩

/-- An emission that never fails keeps what only reads the allocator and the values. -/
theorem Total.emits_avoids {m : M EmitVal} {dest : ℕ} (h : Total m)
    (hem : ∀ {s v s'}, m s = .ok (v, s') → Emits dest s v s') :
    Avoids LookupFault (Fresh U) m fun _ => Fresh U := by
  refine fun s hs => ⟨fun e he => absurd he (h s e), fun v s' hv => ?_⟩
  obtain ⟨lines, rfl, -, -⟩ := hem hv
  exact ⟨⟨hs.own, hs.valued⟩, hs.idle⟩

theorem createBinOp_total {dest bw : ℕ} {op : BinaryOps} {a b : EmitVal} :
    Total (createBinOp dest op bw a b) := by
  intro s e h
  unfold createBinOp at h
  split_ifs at h <;> cases h

theorem createICmp_total {dest bw : ℕ} {p : Predicate} {a b : EmitVal} :
    Total (createICmp dest p bw a b) := by
  intro s e h
  unfold createICmp at h
  split at h
  · cases h
  · split_ifs at h <;> cases h

theorem createSelect_total {dest : ℕ} {x a b : EmitVal} : Total (createSelect dest x a b) := by
  intro s e h
  unfold createSelect at h
  split_ifs at h
  · split at h <;> cases h
  · cases h

theorem createBitCast_total {dest : ℕ} {v : EmitVal} {src ty : Ty} :
    Total (createBitCast dest v src ty) := by
  intro s e h
  unfold createBitCast at h
  split_ifs at h <;> cases h

theorem createPtrCast_total {dest : ℕ} {v : EmitVal} : Total (createPtrCast dest v) := by
  intro s e h
  unfold createPtrCast at h
  split_ifs at h <;> cases h

theorem createSExt_total {dest bw : ℕ} {op : EmitVal} : Total (createSExt dest bw op) := by
  intro s e h
  unfold createSExt at h
  split_ifs at h
  · rcases bind_error_iff.mp h with h | ⟨v, s', -, h⟩
    · exact createBinOp_total s e h
    · exact createBinOp_total s' e h
  · exact createBinOp_total s e h

/-- The last part of a visitor with a result. -/
theorem finish_avoids {f : ℕ → M EmitVal} (hc : ∀ k, Total (f k)) :
    Avoids LookupFault (Fresh U) (do
      let regId ← requestRegister c U
      let res ← f regId
      define U res) fun _ _ => True :=
  Avoids.bind requestRegister_avoids fun k => Avoids.bind (hc k).avoids fun _ =>
    Total.avoids fun _ _ h => by cases h

/-- A visitor that translates one operand and creates its result from it. -/
theorem unary_avoids {V : Operand} {f : ℕ → EmitVal → M EmitVal} (hV : V.inst? ≠ some U)
    (hc : ∀ k v, Total (f k v)) :
    Avoids LookupFault (Fresh U) (do
      let (op, _) ← translateSrcOperandToTgt c V U
      let regId ← requestRegister c U
      let res ← f regId op
      define U res) fun _ _ => True :=
  Avoids.bind (translateSrcOperandToTgt_avoids hV) fun ⟨op, _⟩ => finish_avoids fun k => hc k op

/-- A visitor that reports itself, translates two operands and creates its result from them. -/
theorem binary_avoids {V W : Operand} {f : ℕ → EmitVal → EmitVal → M EmitVal}
    (hV : V.inst? ≠ some U) (hW : W.inst? ≠ some U) (hc : ∀ k v w, Total (f k v w)) :
    Avoids LookupFault (Fresh U) (do
      reportUser (some U)
      let (op1, _) ← translateSrcOperandToTgt c V U
      let (op2, _) ← translateSrcOperandToTgt c W U
      reportUser none
      let regId ← requestRegister c U
      let res ← f regId op1 op2
      define U res) fun _ _ => True :=
  Avoids.bind reportUser_avoids fun _ =>
    Avoids.bind (translateSrcOperandToTgt_avoids hV) fun ⟨op1, _⟩ =>
      Avoids.bind (translateSrcOperandToTgt_avoids hW) fun ⟨op2, _⟩ =>
        Avoids.bind reportUser_avoids fun _ => finish_avoids fun k => hc k op1 op2

theorem scaleIndex_avoids {sz k : ℕ} {idx : EmitVal} :
    Avoids LookupFault (Fresh U) (scaleIndex c sz idx k) fun _ => Fresh U := by
  refine .ite (fun _ => .pure fun _ h => h) fun _ => Avoids.bind require_avoids fun _ => ?_
  refine .ite (fun _ => createBinOp_total.emits_avoids createBinOp_emits) fun _ => ?_
  exact Avoids.bind requestTempRegister_avoids fun r =>
    Avoids.bind giveUpTempRegister_avoids fun _ =>
      createBinOp_total.emits_avoids createBinOp_emits

theorem addIndex_avoids {dest : ℕ} {p idx : EmitVal} :
    Avoids LookupFault (Fresh U) (addIndex dest p idx) fun _ => Fresh U :=
  .ite (fun _ => .pure fun _ h => h) fun _ => createBinOp_total.emits_avoids createBinOp_emits

theorem gepLoop_avoids {t : ℕ} : ∀ {idxs : List Operand} {elemTy : Option Ty} {p : EmitVal},
    (∀ V ∈ idxs, V.inst? ≠ some U) →
    Avoids LookupFault (Fresh U) (gepLoop c U t idxs elemTy p) fun _ => Fresh U := by
  intro idxs
  induction idxs with
  | nil => intro elemTy p _; exact .pure fun _ h => h
  | cons idx idxs ih =>
    intro elemTy p hops
    cases elemTy with
    | none => exact .throw (by rintro (h | h) <;> cases h)
    | some elemTy =>
      exact Avoids.bind require_avoids fun _ =>
        Avoids.bind (translateSrcOperandToTgt_avoids (hops idx List.mem_cons_self)) fun ⟨_, _⟩ =>
          Avoids.bind scaleIndex_avoids fun _ => Avoids.bind addIndex_avoids fun _ =>
            ih fun V hV => hops V (List.mem_cons_of_mem _ hV)

/-- `CreateBitCast` keeps what only reads the allocator and the values. -/
theorem createBitCast_avoids {dest : ℕ} {v : EmitVal} {src ty : Ty} :
    Avoids LookupFault (Fresh U) (createBitCast dest v src ty) fun _ => Fresh U := by
  refine fun s hs => ⟨fun e he => absurd he (createBitCast_total s e), fun w s' hw => ?_⟩
  obtain ⟨lines, rfl, -, -⟩ | ⟨-, -, rfl⟩ := createBitCast_ok hw
  · exact ⟨⟨hs.own, hs.valued⟩, hs.idle⟩
  · exact hs

theorem visitGetElementPtrInst_avoids {ptr : Operand} {indices : List Operand} {ty : Ty}
    (hops : ∀ V ∈ ptr :: indices, V.inst? ≠ some U) :
    Avoids LookupFault (Fresh U) (visitGetElementPtrInst c U ptr indices ty) fun _ _ => True := by
  cases hty : ptr.ty with
  | ptr elem =>
    simp only [visitGetElementPtrInst, hty]
    exact Avoids.bind reportUser_avoids fun _ =>
      Avoids.bind (translateSrcOperandToTgt_avoids (hops ptr List.mem_cons_self)) fun _ =>
        Avoids.bind requestTempRegister_avoids fun _ => Avoids.bind createBitCast_avoids fun _ =>
          Avoids.bind (gepLoop_avoids fun V hV => hops V (List.mem_cons_of_mem _ hV)) fun _ =>
            Avoids.bind reportUser_avoids fun _ => Avoids.bind giveUpTempRegister_avoids fun _ =>
              finish_avoids fun _ => createBitCast_total
  | _ =>
    simp only [visitGetElementPtrInst, hty]
    exact .throw (by rintro (h | h) <;> cases h)

theorem translateAll_avoids : ∀ {Vs : List Operand}, (∀ V ∈ Vs, V.inst? ≠ some U) →
    Avoids LookupFault (Fresh U) (translateAll c U Vs) fun _ => Fresh U := by
  intro Vs
  induction Vs with
  | nil => intro _; exact .pure fun _ h => h
  | cons V Vs ih =>
    intro hops
    exact Avoids.bind (translateSrcOperandToTgt_avoids (hops V List.mem_cons_self)) fun _ =>
      Avoids.bind (ih fun W hW => hops W (List.mem_cons_of_mem _ hW)) fun _ => .pure fun _ h => h

theorem handOverRef_avoids {callee : String} :
    Avoids LookupFault (Fresh U) (handOverRef c callee) fun _ => Fresh U := by
  intro s hs
  unfold handOverRef
  split_ifs
  · have hs' : Fresh U { s with refSet := true } := ⟨⟨hs.own, hs.valued⟩, hs.idle⟩
    obtain ⟨herr, hok⟩ := requestTempRegister_avoids (c := c) (t := refSPId) _ hs'
    constructor
    · intro f h
      cases hr : requestTempRegister c refSPId { s with refSet := true } with
      | error f' => rw [hr] at h; cases h; exact herr _ hr
      | ok p => rw [hr] at h; cases h
    · intro u s' h
      obtain ⟨⟨k, s1⟩, hr, heq⟩ := map_ok_iff.mp h
      cases heq
      exact hok k s1 hr
  · refine ⟨fun f h => (by cases h), fun u s' h => ?_⟩
    cases h
    exact ⟨⟨hs.own, hs.valued⟩, hs.idle⟩
  · exact giveUpTempRegister_avoids s hs
  · refine ⟨fun f h => (by cases h), fun u s' h => ?_⟩
    cases h
    exact hs

/-- Some position has no register. -/
theorem Ready.exists_fresh {s : State} (hs : Ready s) : ∃ J, Fresh J s := by
  obtain ⟨n, hn⟩ := (s.ra.activeSet.map fun e => e.source.idx).toFinset.exists_notMem
  refine ⟨⟨0, n⟩, hs, fun e he heq => hn ?_⟩
  rw [List.mem_toFinset]
  exact List.mem_map.mpr ⟨e, he, by rw [heq]⟩

theorem takeBackRef_error {callee : String} {s : State} (hs : Ready s) {f : Fault}
    (h : takeBackRef c callee s = .error f) : ¬LookupFault f := by
  unfold takeBackRef at h
  split_ifs at h
  · obtain ⟨J, hJ⟩ := hs.exists_fresh
    cases hr : requestTempRegister c refSPId s with
    | error f' => rw [hr] at h; cases h; exact (requestTempRegister_avoids s hJ).1 _ hr
    | ok p => rw [hr] at h; cases h

theorem visitCallInst_avoids {callee : String} {args : List Operand} {ty : Option Ty}
    (hops : ∀ V ∈ args, V.inst? ≠ some U) :
    Avoids LookupFault (Fresh U) (visitCallInst c U callee args ty) fun _ _ => True := by
  unfold visitCallInst
  refine Avoids.bind handOverRef_avoids fun _ => Avoids.bind (translateAll_avoids hops) fun vs => ?_
  have hcall : Avoids LookupFault (Fresh U)
      (emitCall c U callee (vs.map Prod.fst) ty.isSome) fun _ => Ready := by
    refine fun s hs => ⟨fun f h => ?_, fun u s' h => ?_⟩
    · unfold emitCall at h
      split_ifs at h
      · rcases bind_error_iff.mp h with h | ⟨k, s1, -, h⟩
        · exact (requestRegister_avoids s hs).1 f h
        · cases h
      · cases h
    · exact hs.toReady.steps
        (emitCall_steps (d := ⟨U, [], [], True, False, False⟩) trivial hs.own h)
  refine Avoids.bind hcall fun _ => ?_
  exact fun s hs => ⟨fun f h => takeBackRef_error hs h, fun _ _ _ => trivial⟩

/-- The visitor of an instruction that has no register yet, and is no operand of its own, finds a
    value for every operand and a register for its result. -/
theorem visitInst_avoids {x : Inst} (hops : ∀ V ∈ x.operands, V.inst? ≠ some U) :
    Avoids LookupFault (Fresh U) (visitInst c U x) fun _ _ => True := by
  cases x with
  | alloca allocated n =>
    exact Avoids.bind require_avoids fun _ => Avoids.bind require_avoids fun _ =>
      finish_avoids (f := fun k => do emit (.alloca k U allocated n); pure (.reg k))
        fun _ _ _ h => by cases h
  | load p =>
    change Avoids _ _ (visitLoadInst c U p) _
    unfold visitLoadInst
    split
    · exact Avoids.bind require_avoids fun _ =>
        unary_avoids (f := fun k v => do emit (.load k _ v); pure (.reg k))
          (hops p List.mem_cons_self) fun _ _ _ _ h => by cases h
    · exact .throw (by rintro (h | h) <;> cases h)
  | store v p =>
    exact Avoids.bind require_avoids fun _ => Avoids.bind reportUser_avoids fun _ =>
      Avoids.bind (translateSrcOperandToTgt_avoids (hops v List.mem_cons_self)) fun ⟨_, _⟩ =>
        Avoids.bind require_avoids fun _ =>
          Avoids.bind (translateSrcOperandToTgt_avoids
            (hops p (List.mem_cons_of_mem _ List.mem_cons_self))) fun ⟨_, _⟩ =>
            Total.avoids fun _ _ h => by cases h
  | binary op a b =>
    change Avoids _ _ (visitBinaryOperator c U op a b) _
    unfold visitBinaryOperator
    split
    · exact Avoids.bind require_avoids fun _ => binary_avoids (hops a List.mem_cons_self)
        (hops b (List.mem_cons_of_mem _ List.mem_cons_self)) fun _ _ _ => createBinOp_total
    · exact .throw (by rintro (h | h) <;> cases h)
  | icmp p a b =>
    exact Avoids.bind require_avoids fun _ => binary_avoids (hops a List.mem_cons_self)
      (hops b (List.mem_cons_of_mem _ List.mem_cons_self)) fun _ _ _ => createICmp_total
  | select x a b =>
    exact Avoids.bind reportUser_avoids fun _ =>
      Avoids.bind (translateSrcOperandToTgt_avoids (hops x List.mem_cons_self)) fun ⟨_, _⟩ =>
        Avoids.bind (translateSrcOperandToTgt_avoids (hops a (by simp [Inst.operands])))
          fun ⟨_, _⟩ =>
          Avoids.bind (translateSrcOperandToTgt_avoids (hops b (by simp [Inst.operands])))
            fun ⟨_, _⟩ => Avoids.bind reportUser_avoids fun _ =>
              finish_avoids fun _ => createSelect_total
  | gep p idxs ty => exact visitGetElementPtrInst_avoids hops
  | bitcast a ty =>
    exact unary_avoids (f := fun k v => createBitCast k v a.ty ty) (hops a List.mem_cons_self)
      fun _ _ => createBitCast_total
  | sext a bw =>
    change Avoids _ _ (visitSExtInst c U a) _
    unfold visitSExtInst
    split
    · exact unary_avoids (hops a List.mem_cons_self) fun _ _ => createSExt_total
    · exact .throw (by rintro (h | h) <;> cases h)
  | zext a bw =>
    exact unary_avoids (f := fun k v => createBinOp k .mul 64 v (.const 1))
      (hops a List.mem_cons_self) fun _ _ => createBinOp_total
  | trunc a bw =>
    exact unary_avoids
      (f := fun k v => createBinOp k .urem 64 v (.const (BitVec.ofNat 64 (2 ^ bw))))
      (hops a List.mem_cons_self) fun _ _ => createBinOp_total
  | ptrtoint a bw => exact unary_avoids (hops a List.mem_cons_self) fun _ _ => createPtrCast_total
  | inttoptr a ty => exact unary_avoids (hops a List.mem_cons_self) fun _ _ => createPtrCast_total
  | call f args ty => exact visitCallInst_avoids hops

theorem visitPHINode_avoids : Avoids LookupFault (Fresh U) (visitPHINode c U) fun _ _ => True :=
  Avoids.bind requestRegister_avoids fun _ => Total.avoids fun _ _ h => by cases h

theorem translateSrcOperandToTgt_ready {V : Operand} :
    Avoids LookupFault Ready (translateSrcOperandToTgt c V U) fun _ => Ready := by
  refine fun s hs => ⟨fun f h => translateSrcOperandToTgt_error hs h, fun p s' h => ?_⟩
  obtain ⟨v, k⟩ := p
  exact hs.steps (translateSrcOperandToTgt_steps (d := ⟨U, [V], [], False, False, False⟩)
    List.mem_cons_self hs.own h).1

theorem processPHIs_ready : ∀ {inputs : List (InstRef × Option Operand)},
    Avoids LookupFault Ready (processPHIs c U inputs) fun _ => Ready := by
  intro inputs
  induction inputs with
  | nil => exact .pure fun _ h => h
  | cons p inputs ih =>
    obtain ⟨P, _ | V⟩ := p
    · exact .throw (by rintro (h | h) <;> cases h)
    · exact Avoids.bind translateSrcOperandToTgt_ready fun ⟨_, _⟩ =>
        Avoids.bind (.modify fun _ h => ⟨h.own, h.valued⟩) fun _ => ih

theorem clearLoop_error : ∀ {fuel : ℕ} {s : State} {f : Fault}, Ready s →
    clearLoop c fuel s = .error f → ¬LookupFault f := by
  intro fuel
  induction fuel with
  | zero => intro s f _ h; cases h
  | succ fuel ih =>
    intro s f hs h
    rcases bind_error_iff.mp h with h | ⟨r, s1, hr, h⟩
    · exact evict_error (withRA_error h)
    · cases r with
      | none => cases h
      | some a =>
        obtain ⟨J, hJ⟩ := hs.exists_fresh
        rcases bind_error_iff.mp h with h | ⟨⟨⟩, s2, hev, h⟩
        · exact (evictOne_avoids s hJ).1 f
            (bind_error_iff.mpr (Or.inr ⟨some a, s1, hr, h⟩))
        · have hone : evictOne c 0 s = .ok ((), s2) :=
            bind_ok_iff.mpr ⟨some a, s1, hr, hev⟩
          exact ih (hs.steps (d := phiSite J) (.single (evictOne_steps hone))) h

theorem visitTerm_avoids {B : Block} :
    Avoids LookupFault Ready (visitTerm c U B) fun _ _ => True := by
  have hclear : ∀ l, Avoids LookupFault Ready (do clearRA c; emit l) fun _ _ => True := fun l =>
    Avoids.bind (q := fun _ _ => True)
      (fun s hs => ⟨fun f h => clearLoop_error hs h, fun _ _ _ => trivial⟩)
      fun _ => Total.avoids fun _ _ h => by cases h
  unfold visitTerm
  cases B.term with
  | ret V =>
    cases V with
    | none => exact Total.avoids fun _ _ h => by cases h
    | some V =>
      exact Avoids.bind translateSrcOperandToTgt_ready fun ⟨_, _⟩ =>
        Total.avoids fun _ _ h => by cases h
  | br t => exact Avoids.bind processPHIs_ready fun _ => hclear _
  | condBr cond t f =>
    exact Avoids.bind processPHIs_ready fun _ =>
      Avoids.bind translateSrcOperandToTgt_ready fun ⟨_, _⟩ => hclear _
  | switch cond t cases =>
    exact Avoids.bind processPHIs_ready fun _ =>
      Avoids.bind translateSrcOperandToTgt_ready fun ⟨_, _⟩ => hclear _

end Avoids

end SwppCompiler.Backend
