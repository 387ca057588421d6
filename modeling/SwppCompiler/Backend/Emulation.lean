import SwppCompiler.Backend.Coherence

/-!
# Visitors and the machine

What a visitor emits, executed on a machine in which every value is where the allocator has it.

* `Emulates`: the code that a visitor adds takes one machine to another.
* `Within.steps`: this keeps every value in its place.
* `Within.translateAll`: operands that are translated are read with their values, unless one of them
  is evicted for a later one.
* `computes`: what a visitor emits for its result leaves the result.
-/

namespace SwppCompiler.Backend.Simulation

open Interp Lib.StateExcept RegisterAllocator

/-! ## Code that a visitor adds -/

/-- The code that takes `s` to `s'` takes `τ` to `τ'`, and the values `env` to `env'`. -/
def Emulates (W : World) (s s' : State) (τ τ' : Tgt) (env env' : InstRef → Word) : Prop :=
  ∃ lines, s'.code = s.code ++ lines ∧ (∀ I, .value I .undefValue ∉ lines) ∧
    Runs W τ env lines τ' env'

/-- What the source sees of the machine is unchanged. -/
structure Unseen (τ τ' : Tgt) : Prop where
  arg : τ'.m.arg = τ.m.arg
  mem : τ'.m.mem = τ.m.mem
  events : τ'.events = τ.events

/-- Only quiet lines are emitted from `s` to `s'`. -/
def Quiet (s s' : State) : Prop := ∃ lines, s'.code = s.code ++ lines ∧ ∀ l ∈ lines, isQuiet l = true

/-- Only spills are emitted from `s` to `s'`. -/
def Spills (s s' : State) : Prop :=
  ∃ spills, (∀ l ∈ spills, l.isSpill = true) ∧ s'.code = s.code ++ spills

section Emulates

variable {W : World} {s s1 s' : State} {τ τ1 τ' : Tgt} {env env1 env' : InstRef → Word} {A : Answer}
  {m m' : Machine} {ls : List Line} {c : Ctx} {I : InstRef} {k : ℕ}

theorem Emulates.of_code (h : s'.code = s.code) : Emulates W s s' τ τ env env :=
  ⟨[], by rw [h, List.append_nil], by simp, .nil⟩

theorem Emulates.trans (h1 : Emulates W s s1 τ τ1 env env1) (h2 : Emulates W s1 s' τ1 τ' env1 env') :
    Emulates W s s' τ τ' env env' := by
  obtain ⟨l1, hcode1, hundef1, hruns1⟩ := h1
  obtain ⟨l2, hcode2, hundef2, hruns2⟩ := h2
  refine ⟨l1 ++ l2, by rw [hcode2, hcode1, List.append_assoc], fun I hI => ?_, hruns1.append hruns2⟩
  exact (List.mem_append.mp hI).elim (hundef1 I) (hundef2 I)

theorem Unseen.refl : Unseen τ τ := ⟨rfl, rfl, rfl⟩

theorem Unseen.trans (h1 : Unseen τ τ1) (h2 : Unseen τ1 τ') : Unseen τ τ' :=
  ⟨h2.arg.trans h1.arg, h2.mem.trans h1.mem, h2.events.trans h1.events⟩

theorem Quiet.of_code (h : s'.code = s.code) : Quiet s s' := ⟨[], by rw [h, List.append_nil], by simp⟩

theorem Quiet.trans (h1 : Quiet s s1) (h2 : Quiet s1 s') : Quiet s s' := by
  obtain ⟨l1, hcode1, hq1⟩ := h1
  obtain ⟨l2, hcode2, hq2⟩ := h2
  refine ⟨l1 ++ l2, by rw [hcode2, hcode1, List.append_assoc], fun l hl => ?_⟩
  exact (List.mem_append.mp hl).elim (hq1 l) (hq2 l)

theorem Quiet.congr (h : Quiet s1 s') (hcode : s1.code = s.code) : Quiet s s' := by
  obtain ⟨lines, hlines, hquiet⟩ := h
  exact ⟨lines, by rw [hlines, hcode], hquiet⟩

theorem quiet_line {l : Line} (hl : isQuiet l = true) : Quiet s { s with code := s.code ++ [l] } :=
  ⟨[l], rfl, by simpa using hl⟩

theorem isQuiet_of_isMove {l : Line} (h : l.isMove = true) : isQuiet l = true := by
  cases l with
  | fill | spill => rfl
  | _ => cases h

theorem Quiet.of_moves (h : Moves s s') : Quiet s s' := by
  obtain ⟨moves, hmoves, hcode⟩ := h
  exact ⟨moves, hcode, fun l hl => isQuiet_of_isMove (hmoves l hl)⟩

theorem Spills.moves (h : Spills s s') : Moves s s' := by
  obtain ⟨spills, hspills, hcode⟩ := h
  exact ⟨spills, fun l hl => isMove_of_isSpill (hspills l hl), hcode⟩

/-- Lines do not change the arguments. -/
theorem arg_of_execLines (h : Backend.execLines A m ls = some m') : m'.arg = m.arg := by
  induction ls generalizing m with
  | nil =>
    cases h
    rfl
  | cons l ls ih =>
    rw [execLines_cons] at h
    obtain ⟨m1, h1, h2⟩ := Option.bind_eq_some_iff.mp h
    exact (ih h2).trans (Line.exec_frame h1).1

/-- Quiet lines that run. -/
theorem Quiet.emulates (h : Quiet s s')
    (hexec : ∀ lines, s'.code = s.code ++ lines → Backend.execLines A τ.m lines = some m') :
    Emulates W s s' τ ⟨m', τ.events⟩ env env ∧ Unseen τ ⟨m', τ.events⟩ := by
  obtain ⟨lines, hcode, hquiet⟩ := h
  have hrun := hexec lines hcode
  have hruns : Runs W τ env lines ⟨m', τ.events⟩ env ∧ m'.mem = τ.m.mem :=
    runs_of_execLines hquiet hrun
  refine ⟨⟨lines, hcode, fun I hI => ?_, hruns.1⟩, arg_of_execLines hrun, hruns.2, rfl⟩
  cases hquiet _ hI

/-- Moves always run. -/
theorem execLines_of_isMove (h : ∀ l ∈ ls, l.isMove = true) :
    ∃ m', Backend.execLines A m ls = some m' := by
  induction ls generalizing m with
  | nil => exact ⟨m, rfl⟩
  | cons l ls ih =>
    have hl : ∃ m1, l.exec A m = some m1 := by
      have := h l List.mem_cons_self
      cases l with
      | fill | spill => exact ⟨_, rfl⟩
      | _ => cases this
    obtain ⟨m1, h1⟩ := hl
    obtain ⟨m', h2⟩ := ih (m := m1) fun l' hl' => h l' (List.mem_cons_of_mem l hl')
    exact ⟨m', by rw [execLines_cons, h1, Option.bind_some, h2]⟩

/-- Moves leave the slots of PHI nodes alone. -/
theorem phiSlot_of_isMove (h : ∀ l ∈ ls, l.isMove = true)
    (hexec : Backend.execLines A m ls = some m') : m'.phiSlot = m.phiSlot := by
  induction ls generalizing m with
  | nil =>
    cases hexec
    rfl
  | cons l ls ih =>
    rw [execLines_cons] at hexec
    obtain ⟨m1, h1, h2⟩ := Option.bind_eq_some_iff.mp hexec
    rw [ih (fun l' hl' => h l' (List.mem_cons_of_mem l hl')) h2]
    have := h l List.mem_cons_self
    cases l with
    | fill | spill =>
      cases h1
      rfl
    | _ => cases this

/-- Spills leave the registers alone. -/
theorem reg_of_isSpill (h : ∀ l ∈ ls, l.isSpill = true) (hexec : Backend.execLines A m ls = some m') :
    m'.reg = m.reg := by
  induction ls generalizing m with
  | nil =>
    cases hexec
    rfl
  | cons l ls ih =>
    rw [execLines_cons] at hexec
    obtain ⟨m1, h1, h2⟩ := Option.bind_eq_some_iff.mp hexec
    rw [ih (fun l' hl' => h l' (List.mem_cons_of_mem l hl')) h2]
    have := h l List.mem_cons_self
    cases l with
    | spill =>
      cases h1
      rfl
    | _ => cases this

theorem emulates_of_moves (h : Moves s s') (W : World) (τ : Tgt) (env : InstRef → Word) :
    ∃ τ', Emulates W s s' τ τ' env env ∧ Unseen τ τ' ∧ τ'.m.phiSlot = τ.m.phiSlot := by
  obtain ⟨moves, hmoves, hcode⟩ := h
  obtain ⟨m', hexec⟩ := execLines_of_isMove (A := ⟨0, fun _ => 0⟩) (m := τ.m) hmoves
  have hem : Emulates W s s' τ ⟨m', τ.events⟩ env env ∧ Unseen τ ⟨m', τ.events⟩ :=
    Quiet.emulates ⟨moves, hcode, fun l hl => isQuiet_of_isMove (hmoves l hl)⟩
      fun lines hlines => by rwa [← List.append_cancel_left (hcode.symm.trans hlines)]
  exact ⟨_, hem.1, hem.2, phiSlot_of_isMove hmoves hexec⟩

theorem Spills.emulates (h : Spills s s') (W : World) (τ : Tgt) (env : InstRef → Word) :
    ∃ τ', Emulates W s s' τ τ' env env ∧ Unseen τ τ' ∧ τ'.m.reg = τ.m.reg ∧
      τ'.m.phiSlot = τ.m.phiSlot := by
  obtain ⟨spills, hspills, hcode⟩ := h
  have hmoves : ∀ l ∈ spills, l.isMove = true := fun l hl => isMove_of_isSpill (hspills l hl)
  obtain ⟨m', hexec⟩ := execLines_of_isMove (A := ⟨0, fun _ => 0⟩) (m := τ.m) hmoves
  have hem : Emulates W s s' τ ⟨m', τ.events⟩ env env ∧ Unseen τ ⟨m', τ.events⟩ :=
    Quiet.emulates ⟨spills, hcode, fun l hl => isQuiet_of_isMove (hmoves l hl)⟩
      fun lines hlines => by rwa [← List.append_cancel_left (hcode.symm.trans hlines)]
  exact ⟨_, hem.1, hem.2, reg_of_isSpill hspills hexec, phiSlot_of_isMove hmoves hexec⟩

theorem spills_of_onlySpills (h : OnlySpills s s') : Spills s s' := h.2.2

/-- A request for a register emits at most a spill. -/
theorem requestRegister_spills (h : requestRegister c I s = .ok (k, s')) : Spills s s' := by
  simp only [requestRegister, bind_ok_iff, pure_ok_iff, reportUseNoPop_ok] at h
  obtain ⟨k1, s1, h1, ⟨⟩, s2, ⟨ra, -, rfl⟩, rfl, rfl⟩ := h
  obtain ⟨-, h1 | ⟨s0, s2, h0, h2, h3⟩⟩ := requestOrEvict_ok h1
  · obtain ⟨ra, -, rfl⟩ := withRA_ok.mp h1
    exact ⟨[], by simp, (List.append_nil _).symm⟩
  · obtain ⟨ra, -, rfl⟩ := withRA_ok.mp h0
    obtain ⟨ra, -, rfl⟩ := withRA_ok.mp h3
    obtain ⟨spills, hspills, hcode⟩ := evictOne_spills h2
    exact ⟨spills, hspills, hcode⟩

end Emulates

/-! ## Within a visitor -/

/-- The visitor at site `d` of block `b`, while the slots have the values of other blocks in
    `kept`. -/
structure Visiting (c : Ctx) (d : Site) (b : ℕ) (kept : InstRef → Prop) : Prop where
  emitted : ¬d.aliased
  user : d.user.parent = b
  others : ∀ I, kept I → I.parent ≠ b
  live : ∀ I, I.parent ≠ b → UsedFrom c.F I b → kept I

/-- Where the visitor is: the state, and the machine and the values when the code so far has run. -/
structure Within (c : Ctx) (d : Site) (b : ℕ) (kept : InstRef → Prop) (s : State) (m : Machine)
    (env : InstRef → Word) : Prop where
  ownership : Ownership s.ra
  spills : SpillInv c b s
  reads : ReadsOk c d b s.code
  coherent : Coherent kept s m env

section Within

variable {W : World} {c : Ctx} {d : Site} {b : ℕ} {kept : InstRef → Prop} {s s' : State} {τ τ' : Tgt}
  {m : Machine} {env env' : InstRef → Word}

/-- After some steps, and their code. -/
theorem Within.steps (hin : Within c d b kept s τ.m env) (hv : Visiting c d b kept)
    (h : Steps c d s s') (hem : Emulates W s s' τ τ' env env') : Within c d b kept s' τ'.m env' := by
  obtain ⟨lines, hcode, hundef, hruns⟩ := hem
  refine ⟨Steps.ownership h hin.ownership, Steps.spillInv h hin.ownership hv.user hin.reads hin.spills,
    fun I hI => ⟨fun hb => ?_, (hin.reads I hI).2⟩, ?_⟩
  · rw [hcode]
    exact ((hin.reads I hI).1 hb).append
  · exact Steps.coherent h hin.ownership hv.emitted hv.others hv.user hv.live hin.reads hin.spills
      hin.coherent hcode hundef hruns

theorem Within.user (hin : Within c d b kept s τ.m env) (hv : Visiting c d b kept)
    (U : Option InstRef) : Within c d b kept { s with ra := s.ra.reportUser U } τ.m env :=
  hin.steps (W := ⟨fun _ => 0, fun _ _ => ⟨0, fun _ => 0⟩⟩) hv (.single (.user U)) (.of_code rfl)

/-- What is in a register is read from it. -/
theorem Coherent.readsOwn (hc : Coherent kept s m env) : ReadsOwn s := by
  intro e he j hj
  obtain ⟨v, hv, -, hown⟩ := hc.resident e he
  rw [hv] at hj
  exact hown j (Option.some.inj hj)

end Within

/-! ## Operands -/

section Operands

variable {W : World} {c : Ctx} {d : Site} {b : ℕ} {kept : InstRef → Prop} {s s' : State} {τ τ' : Tgt}
  {env : InstRef → Word} {U : InstRef} {V : Operand} {Vs : List Operand} {p : EmitVal × ℕ}
  {vs : List (EmitVal × ℕ)} {w : Word} {ws : List Word}

/-- The operands of the current user are not evicted for each other. -/
theorem noOwnVictim_of_currentUser (ho : Ownership s.ra) (hu : s.ra.currentUser = some U) :
    NoOwnVictim c U Vs s := by
  induction Vs generalizing s with
  | nil => exact trivial
  | cons V Vs ih =>
    refine ⟨fun J a j _ hvic hlast => absurd hlast (reloadVictim_lastUser hu hvic), ?_⟩
    intro p s1 h1
    apply ih
    · exact Steps.ownership (translateSrcOperandToTgt_steps
        (d := ⟨U, [V], [], False, False, False⟩) List.mem_cons_self ho h1).1 ho
    · exact (translate_currentUser h1).trans hu

theorem reloadVictim_mem {J : InstRef} {a : Allocation InstRef} (ho : Ownership s.ra)
    (h : reloadVictim s J = some a) : a ∈ s.ra.activeSet := by
  unfold reloadVictim at h
  split_ifs at h
  split at h
  · rename_i r ra he
    rw [h] at he
    exact (ho.mem_evict he).1
  · cases h

/-- A first operand evicts no other one. -/
theorem noOwnVictim_single (ho : Ownership s.ra)
    (hfirst : ∀ e ∈ s.ra.activeSet, e.lastUser ≠ some U) : NoOwnVictim c U [V] s :=
  ⟨fun _ _ _ _ hvic hlast => absurd hlast (hfirst _ (reloadVictim_mem ho hvic)),
    fun _ _ _ => trivial⟩

/-- An operand that has just been translated is read with its value. -/
theorem Within.translate (hin : Within c d b kept s τ.m env) (hv : Visiting c d b kept)
    (hV : V ∈ d.operands) (h : translateSrcOperandToTgt c V d.user s = .ok (p, s')) :
    ∃ τ', Emulates W s s' τ τ' env env ∧ Unseen τ τ' ∧ Within c d b kept s' τ'.m env ∧
      OperandVal c s' V p.1 ∧ (∀ w, V.eval c env τ.m.arg = some w → p.1.Holds τ'.m w) ∧
      τ'.m.phiSlot = τ.m.phiSlot := by
  obtain ⟨hsteps, hval, -⟩ := translateSrcOperandToTgt_steps hV hin.ownership h
  obtain ⟨τ', hem, hun, hphi⟩ := emulates_of_moves (translate_moves h) W τ env
  have hin' := hin.steps hv hsteps hem
  refine ⟨τ', hem, hun, hin', hval, fun w hw => hin'.coherent.holds hval ?_, hphi⟩
  rw [hun.arg]
  exact hw

/-- Operands that have been translated are read with their values. -/
theorem Within.translateAll {map : InstRef → Option EmitVal} {hold : ℕ → Option InstRef}
    {done : List (InstRef × ℕ)}
    (hin : Within c d b kept s τ.m env) (hv : Visiting c d b kept) (hVs : ∀ V ∈ Vs, V ∈ d.operands)
    (hinv : ArgsInv d.user (fun _ => True) map hold done s) (hkept : Kept d.user done s)
    (hno : NoOwnVictim c d.user Vs s) (h : translateAll c d.user Vs s = .ok (vs, s'))
    (hws : evalAll c env τ.m.arg Vs = some ws) :
    ∃ τ', Emulates W s s' τ τ' env env ∧ Unseen τ τ' ∧ Within c d b kept s' τ'.m env ∧
      List.Forall₂ (EmitVal.Holds τ'.m) (vs.map Prod.fst) ws ∧
      Kept d.user (done ++ chosen Vs (vs.map Prod.fst)) s' := by
  induction Vs generalizing hold done s τ vs ws with
  | nil =>
    obtain ⟨rfl, rfl⟩ := pure_ok_iff.mp h
    cases hws
    refine ⟨τ, .of_code rfl, .refl, hin, .nil, ?_⟩
    show Kept d.user (done ++ []) s'
    rwa [List.append_nil]
  | cons V Vs ih =>
    simp only [Backend.translateAll, bind_ok_iff, pure_ok_iff] at h
    obtain ⟨⟨v, k⟩, s1, h1, vs1, s2, h2, rfl, rfl⟩ := h
    obtain ⟨w, hw, hws⟩ := Option.bind_eq_some_iff.mp hws
    obtain ⟨ws1, hws1, rfl⟩ := Option.map_eq_some_iff.mp hws
    obtain ⟨τ1, hem1, hun1, hin1, hval, hholds, -⟩ := hin.translate hv (hVs V List.mem_cons_self) h1
    obtain ⟨lines, -, -, -, hinv1, hkept1, -⟩ :=
      hinv.operand (fun _ _ => trivial) hin.ownership h1
    obtain ⟨τ2, hem2, hun2, hin2, hrest, hkept2⟩ := ih hin1
      (fun V' hV' => hVs V' (List.mem_cons_of_mem V hV')) hinv1 (hkept1 hno.1 hkept)
      (hno.2 _ _ h1) h2 (by rwa [hun1.arg])
    rw [List.append_assoc] at hkept2
    refine ⟨τ2, hem1.trans hem2, hun1.trans hun2, hin2, .cons ?_ hrest, hkept2⟩
    show v.Holds τ2.m w
    by_cases hreg : ∃ j, v = .reg j
    · -- the operand is still in its register
      obtain ⟨j, rfl⟩ := hreg
      cases hi : V.inst? with
      | none => exact absurd rfl (hval.ne_reg hi j)
      | some J =>
        obtain ⟨e, he, hsource, -, -, hmap⟩ := hkept2 (J, j)
          (List.mem_append_right _ (List.mem_append_left _ (mem_readReg.mpr ⟨hi, rfl⟩)))
        obtain ⟨val, ty⟩ := V
        cases val <;> cases hi
        apply hin2.coherent.holds (V := ⟨.inst J, ty⟩) ⟨?_, hmap⟩
        · rwa [hun2.arg, hun1.arg]
        · exact fun h0 => hin2.ownership.get_eq_zero_iff.mp h0 e he hsource
    · exact (hholds w hw).congr hun2.arg fun j hj => absurd ⟨j, hj⟩ hreg

/-- The operands of a visitor, from its start. -/
theorem Within.operands (hin : Within c d b kept s τ.m env) (hv : Visiting c d b kept)
    (hVs : ∀ V ∈ Vs, V ∈ d.operands) (hfirst : ∀ e ∈ s.ra.activeSet, e.lastUser ≠ some d.user)
    (hno : NoOwnVictim c d.user Vs s) (h : Backend.translateAll c d.user Vs s = .ok (vs, s'))
    (hws : evalAll c env τ.m.arg Vs = some ws) :
    ∃ τ', Emulates W s s' τ τ' env env ∧ Unseen τ τ' ∧ Within c d b kept s' τ'.m env ∧
      List.Forall₂ (EmitVal.Holds τ'.m) (vs.map Prod.fst) ws := by
  have hinv : ArgsInv d.user (fun _ => True) s.sourceToEmitMap (holder s) [] s :=
    ⟨fun e he => holder_of_mem hin.ownership he, fun e he _ => hin.coherent.readsOwn e he,
      by simp, fun e he hlast => absurd hlast (hfirst e he), fun _ _ hv _ => hv⟩
  obtain ⟨τ', hem, hun, hin', hholds, -⟩ := hin.translateAll hv hVs hinv (by simp [Kept]) hno h hws
  exact ⟨τ', hem, hun, hin', hholds⟩

end Operands

/-! ## Results -/

/-- The code of a visitor gives `I` the value `r`, and changes nothing else that the source sees. -/
def Computes (W : World) (s s' : State) (τ : Tgt) (env : InstRef → Word) (I : InstRef) (r : Word) :
    Prop :=
  ∃ τ', Emulates W s s' τ τ' env (Function.update env I r) ∧ Unseen τ τ'

section Results

variable {W : World} {c : Ctx} {I : InstRef} {s s1 s2 s3 s' : State} {τ τ1 : Tgt}
  {env : InstRef → Word} {v a a' a'' : EmitVal} {k dest bw : ℕ} {r : Word}
  {p : Machine → Word → Prop} {vals : List EmitVal} {args : List Word}

theorem Computes.after (hem : Emulates W s s1 τ τ1 env env) (hun : Unseen τ τ1)
    (h : Computes W s1 s' τ1 env I r) : Computes W s s' τ env I r := by
  obtain ⟨τ', hem', hun'⟩ := h
  exact ⟨τ', hem.trans hem', hun.trans hun'⟩

/-- The last line of a visitor. -/
theorem emulates_value (hv : v.Holds τ.m r)
    (hs' : s' = { s with
      sourceToEmitMap := Function.update s.sourceToEmitMap I (some v)
      code := s.code ++ [.value I v] }) : Computes W s s' τ env I r := by
  refine ⟨τ, ⟨[.value I v], by rw [hs'], fun J hJ => ?_, ?_⟩, .refl⟩
  · cases List.mem_singleton.mp hJ
    exact hv.1 rfl
  · rw [← hv.2]
    refine .single rfl ?_
    simp [execLine, Line.exec, event?]

/-- After the operands: a register for the result, the lines that leave the result in it, and its
    value. -/
theorem computes (hvals : List.Forall₂ (EmitVal.Holds τ.m) vals args)
    (hreq : requestRegister c I s = .ok (k, s1)) (hl : Leaves s1 v s2 p) (hquiet : Quiet s1 s2)
    (hp : ∀ m', List.Forall₂ (EmitVal.Holds m') vals args → m'.mem = τ.m.mem → p m' r)
    (hs' : s' = { s2 with
      sourceToEmitMap := Function.update s2.sourceToEmitMap I (some v)
      code := s2.code ++ [.value I v] }) : Computes W s s' τ env I r := by
  -- a spill changes no register
  obtain ⟨τ1, hem1, hun1, hreg, -⟩ := (requestRegister_spills hreq).emulates W τ env
  have hvals1 : List.Forall₂ (EmitVal.Holds τ1.m) vals args :=
    hvals.imp fun v w hvw => hvw.congr hun1.arg fun j _ => by rw [hreg]
  obtain ⟨lines, hcode, hexec⟩ := hl
  obtain ⟨m2, hm2, hholds⟩ := hexec ⟨0, fun _ => 0⟩ τ1.m r (hp τ1.m hvals1 hun1.mem)
  have hem2 : Emulates W s1 s2 τ1 ⟨m2, τ1.events⟩ env env ∧ Unseen τ1 ⟨m2, τ1.events⟩ :=
    hquiet.emulates fun lines' hlines => by
      rw [hcode] at hlines
      rwa [← List.append_cancel_left hlines]
  exact .after (hem1.trans hem2.1) (hun1.trans hem2.2) (emulates_value hholds hs')

theorem createBinOp_quiet {op : BinaryOps} (h : createBinOp dest op bw a a' s = .ok (v, s')) :
    Quiet s s' := by
  simp only [createBinOp, ite_ok_iff, bind_ok_iff, pure_ok_iff, emit_ok] at h
  obtain ⟨-, -, rfl⟩ | ⟨-, ⟨⟩, s1, rfl, -, rfl⟩ := h
  · exact .of_code rfl
  · exact quiet_line rfl

theorem createICmp_quiet {P : Predicate} (h : createICmp dest P bw a a' s = .ok (v, s')) :
    Quiet s s' := by
  unfold createICmp at h
  split at h
  · obtain ⟨-, rfl⟩ := pure_ok_iff.mp h
    exact .of_code rfl
  · simp only [ite_ok_iff, bind_ok_iff, pure_ok_iff, emit_ok] at h
    obtain ⟨-, -, rfl⟩ | ⟨-, ⟨⟩, s1, rfl, -, rfl⟩ := h
    · exact .of_code rfl
    · exact quiet_line rfl

theorem createSelect_quiet (h : createSelect dest a a' a'' s = .ok (v, s')) : Quiet s s' := by
  simp only [createSelect, ite_ok_iff, bind_ok_iff, pure_ok_iff, emit_ok] at h
  obtain ⟨-, h⟩ | ⟨-, ⟨⟩, s1, rfl, -, rfl⟩ := h
  · split at h <;>
    · obtain ⟨-, rfl⟩ := pure_ok_iff.mp h
      exact .of_code rfl
  · exact quiet_line rfl

theorem createBitCast_quiet {src ty : Ty} (h : createBitCast dest a src ty s = .ok (v, s')) :
    Quiet s s' := by
  simp only [createBitCast, ite_ok_iff, bind_ok_iff, pure_ok_iff, emit_ok] at h
  obtain ⟨-, -, rfl⟩ | ⟨-, ⟨⟩, s1, rfl, -, rfl⟩ := h
  · exact .of_code rfl
  · exact quiet_line rfl

theorem createPtrCast_quiet (h : createPtrCast dest a s = .ok (v, s')) : Quiet s s' := by
  simp only [createPtrCast, ite_ok_iff, bind_ok_iff, pure_ok_iff, emit_ok] at h
  obtain ⟨-, -, rfl⟩ | ⟨-, ⟨⟩, s1, rfl, -, rfl⟩ := h
  · exact .of_code rfl
  · exact quiet_line rfl

theorem createSExt_quiet (h : createSExt dest bw a s = .ok (v, s')) : Quiet s s' := by
  simp only [createSExt, ite_ok_iff, bind_ok_iff] at h
  obtain ⟨-, v1, s1, h1, h2⟩ | ⟨-, h⟩ := h
  · exact (createBinOp_quiet h1).trans (createBinOp_quiet h2)
  · exact createBinOp_quiet h

end Results

end SwppCompiler.Backend.Simulation
