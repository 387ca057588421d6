import SwppCompiler.Backend.Semantics

/-!
# The allocator keeps every value

While the code of a block runs, the value of each active source is where `SourceToEmitMap` says, and
the slot of each instruction that was stored has its value: whatever a visitor evicts, reloads or
computes (`src/core/Backend.cpp`, lines 121–167).

* `Coherent`: the values are where the translation has them.
* `Steps.coherent`: every step of a visitor keeps them there.
* `Coherent.holds`: an operand that has been translated is read with its value.
-/

namespace SwppCompiler.Backend.Simulation

open Interp Lib.StateExcept RegisterAllocator

/-- The active sources have their values in their registers, and the instructions that were stored in
    this block, and those in `kept`, in their slots. -/
structure Coherent (kept : InstRef → Prop) (s : State) (m : Machine) (env : InstRef → Word) :
    Prop where
  resident : ∀ e ∈ s.ra.activeSet, ∃ v, s.sourceToEmitMap e.source = some v ∧
    v.Holds m (env e.source) ∧ ∀ j, v = .reg j → j = e.regId
  stored : ∀ I, SlotFresh s.code I → m.slot I = env I
  kept : ∀ I, kept I → m.slot I = env I

section Lines

variable {W : World} {τ τ' : Tgt} {env env' : InstRef → Word} {t ls : List Line} {I : InstRef}

/-- What plain lines leave alone. -/
theorem Runs.plain (h : Runs W τ env ls τ' env') (hls : ∀ l ∈ ls, l.isPlain = true) :
    env' = env ∧ τ'.m.arg = τ.m.arg ∧ τ'.m.slot = τ.m.slot ∧
      ∀ k, (∀ l ∈ ls, l.dest? ≠ some k) → τ'.m.reg k = τ.m.reg k := by
  induction h with
  | nil => exact ⟨rfl, rfl, rfl, fun _ _ => rfl⟩
  | @cons τ τ1 τ' env env' l ls _ hstep _ ih =>
    have hl := hls l List.mem_cons_self
    obtain ⟨harg, hreg, hslot, -⟩ := Line.exec_frame (execLine_exec hstep).1
    obtain ⟨henv, harg', hslot', hreg'⟩ := ih fun l' hl' => hls l' (List.mem_cons_of_mem l hl')
    have hbind : l.bind τ.m env = env := by
      cases l with
      | value => cases hl
      | _ => rfl
    refine ⟨henv.trans hbind, harg'.trans harg, hslot'.trans ?_, fun k hk => ?_⟩
    · funext J
      apply hslot
      rintro w rfl
      cases hl
    · rw [hreg' k fun l' hl' => hk l' (List.mem_cons_of_mem l hl')]
      exact hreg k (hk l List.mem_cons_self)

/-- Plain lines store nothing in a slot. -/
theorem slotFresh_of_plain (h : SlotFresh (t ++ ls) I) (hls : ∀ l ∈ ls, l.isPlain = true) :
    SlotFresh t I := by
  induction ls using List.reverseRecOn with
  | nil => rwa [List.append_nil] at h
  | append_singleton ls l ih =>
    rw [← List.append_assoc] at h
    obtain ⟨w, rfl⟩ | ⟨h, -⟩ := slotFresh_snoc h
    · cases hls (.spill w I) (by simp)
    · exact ih h fun l' hl' => hls l' (List.mem_append_left _ hl')

end Lines

section Coherent

variable {c : Ctx} {d : Site} {b : ℕ} {kept : InstRef → Prop} {s s' : State} {m m' : Machine}
  {W : World} {τ τ' : Tgt} {env env' : InstRef → Word} {lines : List Line}

/-- Every active source was active with the same register and value, and its register, the arguments
    and the slots are as they were. -/
theorem Coherent.frame (hc : Coherent kept s m env)
    (hactive : ∀ e ∈ s'.ra.activeSet, ∃ e' ∈ s.ra.activeSet, e'.source = e.source ∧
      e'.regId = e.regId) (hmap : s'.sourceToEmitMap = s.sourceToEmitMap)
    (hcode : ∀ I, SlotFresh s'.code I → SlotFresh s.code I) (harg : m'.arg = m.arg)
    (hreg : ∀ e ∈ s.ra.activeSet, m'.reg e.regId = m.reg e.regId) (hslot : m'.slot = m.slot) :
    Coherent kept s' m' env where
  resident e he := by
    obtain ⟨e', he', hsource, hid⟩ := hactive e he
    obtain ⟨v, hv, hholds, hown⟩ := hc.resident e' he'
    rw [← hsource, ← hid, hmap]
    refine ⟨v, hv, hholds.congr harg fun j hj => ?_, hown⟩
    rw [hown j hj]
    exact hreg e' he'
  stored I hI := by
    rw [hslot]
    exact hc.stored I (hcode I hI)
  kept I hI := by
    rw [hslot]
    exact hc.kept I hI

/-- An operand that has been translated is read with its value. -/
theorem Coherent.holds (hc : Coherent kept s m env) {V : Operand} {v : EmitVal} {w : Word}
    (hv : OperandVal c s V v) (hw : V.eval c env m.arg = some w) : v.Holds m w := by
  obtain ⟨val, ty⟩ := V
  cases val with
  | inst J =>
    obtain ⟨hget, hmap⟩ := hv
    obtain ⟨e, he, rfl, -⟩ := mem_of_get_ne_zero hget
    obtain ⟨v', hv', hholds, -⟩ := hc.resident e he
    obtain rfl := Option.some.inj (hv'.symm.trans hmap)
    obtain rfl := Option.some.inj hw
    exact hholds
  | undefValue => cases hw
  | arg n =>
    obtain rfl : v = .arg n := hv
    exact ⟨by simp, Option.some.inj hw⟩
  | constInt x =>
    obtain rfl : v = .const x := hv
    exact ⟨by simp, Option.some.inj hw⟩
  | null =>
    obtain rfl : v = .const 0 := hv
    exact ⟨by simp, Option.some.inj hw⟩
  | global g =>
    obtain rfl : v = .const (c.gvMap g) := hv
    exact ⟨by simp, Option.some.inj hw⟩

/-- An eviction stores what it has to. -/
theorem Coherent.evict (hc : Coherent kept s τ.m env) (ho : Ownership s.ra)
    (hkept : ∀ I, kept I → I.parent ≠ s.currentBlock) {t : ℕ} {a : Allocation InstRef}
    {ra : RegisterAllocator InstRef} {v : EmitVal} (he : s.ra.evict t = .ok (some a, ra))
    (hv : mustSpill c s a = true → s.sourceToEmitMap a.source = some v)
    (hruns : Runs W τ env (spillLines c s a v) τ' env') :
    env' = env ∧ Coherent kept { s with ra := ra, code := s.code ++ spillLines c s a v } τ'.m env := by
  obtain ⟨ha, hmem⟩ := ho.mem_evict he
  have hactive : ∀ e ∈ ra.activeSet, e ∈ s.ra.activeSet := fun e he => ((hmem e).mp he).1
  unfold spillLines at hruns ⊢
  by_cases hs : mustSpill c s a = true
  · rw [if_pos hs] at hruns ⊢
    obtain ⟨hstep, henv⟩ := hruns.of_single
    subst env'
    obtain ⟨w, hw, hholds, -⟩ := hc.resident a ha
    obtain rfl := Option.some.inj (hw.symm.trans (hv hs))
    have hm : τ'.m = { τ.m with slot := Function.update τ.m.slot a.source (w.read τ.m) } :=
      (Option.some.inj (execLine_exec hstep).1).symm
    have hself : τ'.m.slot a.source = env a.source := by
      rw [hm, ← hholds.2]
      exact Function.update_self ..
    have hother : ∀ I, I ≠ a.source → τ'.m.slot I = τ.m.slot I := fun I hI => by
      rw [hm]
      exact Function.update_of_ne hI ..
    refine ⟨rfl, fun e he => ?_, fun I hI => ?_, fun I hI => ?_⟩
    · obtain ⟨x, hx, hxe, hown⟩ := hc.resident e (hactive e he)
      refine ⟨x, hx, hxe.congr (by rw [hm]) fun j _ => by rw [hm], hown⟩
    · show τ'.m.slot I = env I
      by_cases hIa : I = a.source
      · rw [hIa, hself]
      · obtain ⟨x, hx⟩ | ⟨hI, -⟩ := slotFresh_snoc hI
        · cases hx
          exact absurd rfl hIa
        · rw [hother I hIa]
          exact hc.stored I hI
    · rw [hother I ?_]
      · exact hc.kept I hI
      · rintro rfl
        -- what is stored is of this block
        simp only [mustSpill, Bool.and_eq_true, decide_eq_true_eq] at hs
        exact hkept _ hI hs.1
  · rw [if_neg hs] at hruns ⊢
    obtain ⟨hτ, henv⟩ := hruns.of_nil
    subst τ' env'
    refine ⟨rfl, hc.frame (fun e he => ⟨e, hactive e he, rfl, rfl⟩) rfl ?_ rfl (fun _ _ => rfl) rfl⟩
    intro I hI
    rwa [List.append_nil] at hI

/-- A reload brings the value of `I` from its slot. -/
theorem Coherent.fill (hc : Coherent kept s τ.m env) (ho : Ownership s.ra) {I : InstRef} {k n : ℕ}
    {ra ra' : RegisterAllocator InstRef} (hr : s.ra.request I = .ok (k, ra)) (hk : k ≠ 0)
    (hu : ra.update I none n = .ok ra') (hI : SlotFresh s.code I ∨ kept I)
    (hruns : Runs W τ env [.fill k I] τ' env') :
    env' = env ∧ Coherent kept { s with
      ra := ra'
      sourceToEmitMap := Function.update s.sourceToEmitMap I (some (.reg k))
      code := s.code ++ [.fill k I] } τ'.m env := by
  obtain ⟨hstep, henv⟩ := hruns.of_single
  subst env'
  have hm : τ'.m = τ.m.setReg k (τ.m.slot I) := (Option.some.inj (execLine_exec hstep).1).symm
  have hslot : τ.m.slot I = env I := hI.elim (hc.stored I) (hc.kept I)
  refine ⟨rfl, fun e he => ?_, fun J hJ => ?_, fun J hJ => ?_⟩
  · show ∃ v, Function.update s.sourceToEmitMap I (some (.reg k)) e.source = some v ∧ _
    obtain ⟨he, hne, hreg⟩ | ⟨rfl, rfl⟩ := mem_alloc ho hr hk hu he
    · obtain ⟨v, hv, hholds, hown⟩ := hc.resident e he
      rw [Function.update_of_ne hne]
      refine ⟨v, hv, hholds.congr (by rw [hm]; rfl) fun j hj => ?_, hown⟩
      rw [hm, hown j hj]
      exact Machine.setReg_reg_of_ne hreg
    · rw [Function.update_self]
      refine ⟨_, rfl, ⟨by simp, ?_⟩, fun j hj => (EmitVal.reg.inj hj).symm⟩
      show (EmitVal.reg e.regId).read τ'.m = env e.source
      rw [hm, read_reg_setReg, hslot]
  · rw [hm]
    obtain ⟨w, hw⟩ | ⟨hJ, -⟩ := slotFresh_snoc hJ
    · cases hw
    · exact hc.stored J hJ
  · rw [hm]
    exact hc.kept J hJ

/-- The result of a visitor is in its register, or in none. -/
theorem Coherent.define (hc : Coherent kept s τ.m env) (ho : Ownership s.ra) {U : InstRef}
    (hU : ¬kept U) {k n : ℕ} {ra ra' : RegisterAllocator InstRef} {ls : List Line} {v : EmitVal}
    (hr : s.ra.request U = .ok (k, ra)) (hk : k ≠ 0) (hu : ra.update U none n = .ok ra')
    (hlines : ∀ l ∈ ls, l.isPlain = true ∧ l.dest? = some k) (hv : v = .reg k ∨ ∀ j, v ≠ .reg j)
    (hundef : v ≠ .undefValue) (hruns : Runs W τ env (ls ++ [.value U v]) τ' env') :
    Coherent kept { s with
      ra := ra'
      sourceToEmitMap := Function.update s.sourceToEmitMap U (some v)
      code := s.code ++ ls ++ [.value U v] } τ'.m env' := by
  obtain ⟨τ1, env1, hls, hlast⟩ := hruns.split
  obtain ⟨henv, harg, hslot, hreg⟩ := hls.plain fun l hl => (hlines l hl).1
  obtain ⟨hstep, henv'⟩ := hlast.of_single
  subst env1 env'
  have hm : τ'.m = τ1.m := (Option.some.inj (execLine_exec hstep).1).symm
  have hother : ∀ J, J ≠ U → Function.update env U (v.read τ1.m) J = env J := fun J hJ =>
    Function.update_of_ne hJ ..
  rw [hm]
  refine ⟨fun e he => ?_, fun J hJ => ?_, fun J hJ => ?_⟩
  · show ∃ x, Function.update s.sourceToEmitMap U (some v) e.source = some x ∧
      x.Holds τ1.m (Function.update env U (v.read τ1.m) e.source) ∧ _
    obtain ⟨he, hne, hid⟩ | ⟨rfl, rfl⟩ := mem_alloc ho hr hk hu he
    · obtain ⟨x, hx, hholds, hown⟩ := hc.resident e he
      rw [Function.update_of_ne hne, hother _ hne]
      refine ⟨x, hx, hholds.congr harg fun j hj => ?_, hown⟩
      apply hreg
      intro l hl hdest
      rw [(hlines l hl).2] at hdest
      exact hid ((hown j hj).symm.trans (Option.some.inj hdest).symm)
    · rw [Function.update_self, Function.update_self]
      refine ⟨v, rfl, ⟨hundef, rfl⟩, fun j hj => ?_⟩
      obtain hv | hv := hv
      · rw [hv] at hj
        exact (EmitVal.reg.inj hj).symm
      · exact absurd hj (hv j)
  · show τ1.m.slot J = Function.update env U (v.read τ1.m) J
    obtain ⟨w, hw⟩ | ⟨hJ, hne⟩ := slotFresh_snoc hJ
    · cases hw
    · rw [hslot, hother J fun h => hne v (by rw [h])]
      exact hc.stored J (slotFresh_of_plain hJ fun l hl => (hlines l hl).1)
  · show τ1.m.slot J = Function.update env U (v.read τ1.m) J
    rw [hslot, hother J fun h => hU (h ▸ hJ)]
    exact hc.kept J hJ

/-- The visitor of a PHI node loads it into its register. -/
theorem Coherent.phi (hc : Coherent kept s τ.m env) (ho : Ownership s.ra) {P : InstRef}
    (hP : ¬kept P) {k n : ℕ} {ra ra' : RegisterAllocator InstRef}
    (hr : s.ra.request P = .ok (k, ra)) (hk : k ≠ 0) (hu : ra.update P none n = .ok ra')
    (hruns : Runs W τ env ([.loadPhi k P] ++ [.value P (.reg k)]) τ' env') :
    Coherent kept { s with
      ra := ra'
      sourceToEmitMap := Function.update s.sourceToEmitMap P (some (.reg k))
      code := s.code ++ [.loadPhi k P] ++ [.value P (.reg k)] } τ'.m env' := by
  obtain ⟨τ1, env1, hload, hlast⟩ := hruns.split
  obtain ⟨hstep1, henv⟩ := hload.of_single
  subst env1
  have hm1 : τ1.m = τ.m.setReg k (τ.m.phiSlot P) := (Option.some.inj (execLine_exec hstep1).1).symm
  obtain ⟨hfree, -⟩ := ho.mem_request hr hk
  -- the load is a step of its own, into a register that is free
  have hc1 : Coherent kept { s with code := s.code ++ [.loadPhi k P] } τ1.m env := by
    refine hc.frame (fun e he => ⟨e, he, rfl, rfl⟩) rfl (fun I hI => ?_) (by rw [hm1]; rfl)
      (fun e he => ?_) (by rw [hm1]; rfl)
    · obtain ⟨w, hw⟩ | ⟨hI, -⟩ := slotFresh_snoc hI
      · cases hw
      · exact hI
    · rw [hm1]
      apply Machine.setReg_reg_of_ne
      rintro rfl
      exact ho.active_disjoint_free (List.mem_map_of_mem he) hfree
  have hdef : Coherent kept { s with
      ra := ra'
      sourceToEmitMap := Function.update s.sourceToEmitMap P (some (.reg k))
      code := s.code ++ [.loadPhi k P] ++ [] ++ [.value P (.reg k)] } τ'.m env' :=
    hc1.define ho hP hr hk hu (List.forall_mem_nil _) (Or.inl rfl) (by simp) hlast
  rwa [List.append_nil] at hdef

/-- A step that emits nothing. -/
theorem Coherent.quiet (hc : Coherent kept s m env)
    (hactive : ∀ e ∈ s'.ra.activeSet, ∃ e' ∈ s.ra.activeSet, e'.source = e.source ∧
      e'.regId = e.regId) (hmap : s'.sourceToEmitMap = s.sourceToEmitMap) (hcode : s'.code = s.code) :
    Coherent kept s' m env :=
  hc.frame hactive hmap (fun _ hI => hcode ▸ hI) rfl (fun _ _ => rfl) rfl

/-- A line that writes no active register. -/
theorem Coherent.line {l : Line} (hc : Coherent kept s τ.m env) (hl : l.isPlain = true)
    (hdest : ∀ k, l.dest? = some k → k ∉ s.ra.activeRegs) (hruns : Runs W τ env [l] τ' env') :
    Coherent kept { s with code := s.code ++ [l] } τ'.m env' := by
  have hplain : ∀ l' ∈ [l], l'.isPlain = true := fun l' hl' => List.mem_singleton.mp hl' ▸ hl
  obtain ⟨henv, harg, hslot, hreg⟩ := hruns.plain hplain
  subst env'
  refine hc.frame (fun e he => ⟨e, he, rfl, rfl⟩) rfl (fun I hI => slotFresh_of_plain hI hplain) harg
    (fun e he => ?_) hslot
  apply hreg
  intro l' hl' hk
  rw [List.mem_singleton.mp hl'] at hk
  exact hdest _ hk (List.mem_map_of_mem he)

/-- The slots of PHI nodes are apart. -/
theorem Coherent.storePhi {v : EmitVal} {P : InstRef} (hc : Coherent kept s τ.m env)
    (hruns : Runs W τ env [.storePhi v P] τ' env') :
    Coherent kept { s with code := s.code ++ [.storePhi v P] } τ'.m env' := by
  obtain ⟨hstep, henv⟩ := hruns.of_single
  subst env'
  have hm := Option.some.inj (execLine_exec hstep).1
  refine hc.frame (fun e he => ⟨e, he, rfl, rfl⟩) rfl (fun I hI => ?_) (by rw [← hm])
    (fun e _ => by rw [← hm]) (by rw [← hm])
  obtain ⟨w, hw⟩ | ⟨hI, -⟩ := slotFresh_snoc hI
  · cases hw
  · exact hI

/-- **A step keeps every value where the translation has it.** -/
theorem Step.coherent (h : Step c d s s') (ho : Ownership s.ra) (hd : ¬d.aliased)
    (hkept : ∀ I, kept I → I.parent ≠ s.currentBlock) (huser : d.user.parent = s.currentBlock)
    (hfill : ∀ pre k I, s'.code = pre ++ [.fill k I] → SlotFresh pre I ∨ kept I)
    (hc : Coherent kept s τ.m env) (hcode : s'.code = s.code ++ lines)
    (hundef : ∀ I, .value I .undefValue ∉ lines) (hruns : Runs W τ env lines τ' env') :
    Coherent kept s' τ'.m env' := by
  have hU : ¬kept d.user := fun h => hkept _ h huser
  have hnil : s'.code = s.code → τ' = τ ∧ env' = env := by
    intro hsame
    rw [hsame] at hcode
    obtain rfl := List.self_eq_append_right.mp hcode
    exact hruns.of_nil
  cases h with
  | user U =>
    obtain ⟨rfl, rfl⟩ := hnil rfl
    exact hc.quiet (fun e he => ⟨e, he, rfl, rfl⟩) rfl rfl
  | evict he hv =>
    obtain rfl := List.append_cancel_left hcode
    obtain ⟨henv, hc'⟩ := hc.evict ho hkept he hv hruns
    exact henv ▸ hc'
  | fill hI hadv hr hk hu =>
    obtain rfl := List.append_cancel_left hcode
    obtain ⟨henv, hc'⟩ := hc.fill ho hr hk hu (hfill _ _ _ rfl) hruns
    exact henv ▸ hc'
  | use hI hadv hv hu =>
    obtain ⟨rfl, rfl⟩ := hnil rfl
    obtain ⟨f, hf, hfs, hmem⟩ := ho.mem_update hu
    refine hc.quiet (fun e he => ?_) rfl rfl
    obtain ⟨he, -⟩ | rfl := (hmem e).mp he
    · exact ⟨e, he, rfl, rfl⟩
    · exact ⟨f, hf, rfl, rfl⟩
  | takeTemp ht hr hk =>
    obtain ⟨rfl, rfl⟩ := hnil rfl
    refine hc.quiet (fun e he => ⟨e, ?_, rfl, rfl⟩) rfl rfl
    rwa [← ho.activeSet_requestTempRegister hr]
  | giveTemp ht hg =>
    obtain ⟨rfl, rfl⟩ := hnil rfl
    refine hc.quiet (fun e he => ⟨e, ?_, rfl, rfl⟩) rfl rfl
    rwa [← activeSet_giveUpTempRegister hg]
  | line hl hdest =>
    obtain rfl := List.append_cancel_left hcode
    exact hc.line hl hdest hruns
  | @define k ra ra' ls v hdef hr hk hu hlines hv =>
    have hcode : s.code ++ ls ++ [.value d.user v] = s.code ++ lines := hcode
    rw [List.append_assoc] at hcode
    obtain rfl := List.append_cancel_left hcode
    refine hc.define ho hU hr hk hu hlines ?_ ?_ hruns
    · obtain hv | hv | hv := hv
      · exact Or.inl hv
      · exact Or.inr hv
      · exact absurd hv hd
    · rintro rfl
      exact hundef d.user (by simp)
  | phi hdef hr hk hu =>
    have hcode : s.code ++ [_] ++ [_] = s.code ++ lines := hcode
    rw [List.append_assoc] at hcode
    obtain rfl := List.append_cancel_left hcode
    exact hc.phi ho hU hr hk hu hruns
  | storePhi hP hv =>
    obtain rfl := List.append_cancel_left hcode
    exact hc.storePhi hruns
  | flags r1 r2 =>
    obtain ⟨rfl, rfl⟩ := hnil rfl
    exact hc.quiet (fun e he => ⟨e, he, rfl, rfl⟩) rfl rfl

/-- **The steps of a visitor keep every value where the translation has it.** A value of another
    block that this one uses is `kept`. -/
theorem Steps.coherent (h : Steps c d s s') (ho : Ownership s.ra) (hd : ¬d.aliased)
    (hkept : ∀ I, kept I → I.parent ≠ b) (huser : d.user.parent = b)
    (huses : ∀ I, I.parent ≠ b → UsedFrom c.F I b → kept I) (hreads : ReadsOk c d b s.code)
    (hs : SpillInv c b s) (hc : Coherent kept s τ.m env) (hcode : s'.code = s.code ++ lines)
    (hundef : ∀ I, .value I .undefValue ∉ lines) (hruns : Runs W τ env lines τ' env') :
    Coherent kept s' τ'.m env' := by
  induction h generalizing lines τ' env' with
  | refl =>
    obtain rfl := List.self_eq_append_right.mp hcode
    obtain ⟨hτ, henv⟩ := hruns.of_nil
    exact hτ ▸ henv ▸ hc
  | @tail s1 s2 hsteps hstep ih =>
    have ho1 := Steps.ownership hsteps ho
    have hs1 := Steps.spillInv hsteps ho huser hreads hs
    obtain ⟨-, -, l1, hcode1⟩ := Steps.frame hsteps
    obtain ⟨-, -, l2, hcode2⟩ := hstep.frame
    obtain rfl : lines = l1 ++ l2 := by
      rw [hcode2, hcode1, List.append_assoc] at hcode
      exact (List.append_cancel_left hcode).symm
    obtain ⟨τ1, env1, hruns1, hruns2⟩ := hruns.split
    have hc1 := ih hcode1 (fun I hI => hundef I (List.mem_append_left _ hI)) hruns1
    have hs2 := hstep.spillInv ho1 huser (fun I hI =>
      ⟨fun hb => hcode1 ▸ ((hreads I hI).1 hb).append, (hreads I hI).2⟩) hs1
    refine Step.coherent hstep ho1 hd (by rwa [hs1.block]) (by rwa [hs1.block]) ?_ hc1 hcode2
      (fun I hI => hundef I (List.mem_append_right _ hI)) hruns2
    intro pre k I hpre
    obtain ⟨hown, hother⟩ := hs2.fills pre k I [] hpre
    by_cases hI : I.parent = b
    · exact Or.inl (hown hI)
    · exact Or.inr (huses I hI (hother hI))

end Coherent

end SwppCompiler.Backend.Simulation
