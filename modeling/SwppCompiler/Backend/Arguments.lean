import SwppCompiler.Backend.Agreement

/-!
# The operands of a visitor

`translateAll` translates the operands of an instruction from left to right. What is read in the end
from the register of an earlier operand is its value iff the operand is not evicted for a later one.

* `holdAfter`: the value that each register holds after some emitted lines.
* `ArgsInv.all`: the operands are kept in their registers iff no operand is evicted for a later one
  (`NoOwnVictim`).
-/

namespace SwppCompiler.Backend

open Interp Lib.StateExcept RegisterAllocator

/-! ## The values in the registers -/

/-- The source whose value each register holds after a line. A line that writes another value into a
    register leaves the value of no source there. -/
def Line.hold (hold : ℕ → Option InstRef) : Line → ℕ → Option InstRef
  | .fill k I => Function.update hold k (some I)
  | l =>
    match l.dest? with
    | some k => Function.update hold k none
    | none => hold

/-- The source whose value each register holds after some lines. -/
def holdAfter (hold : ℕ → Option InstRef) (lines : List Line) : ℕ → Option InstRef :=
  lines.foldl Line.hold hold

/-- The source whose value a register holds, according to the allocator. -/
def holder (s : State) (k : ℕ) : Option InstRef :=
  (s.ra.activeSet.find? fun e => e.regId = k).map Allocation.source

/-- The value `v` that the operand `V` is read as is that of `V`: a constant, a global variable or a
    function argument is itself; an instruction is the value that stands for it in state `s`, unless
    it is read from a register, which then holds it. -/
structure ReadsHeld (c : Ctx) (s : State) (hold : ℕ → Option InstRef) (V : Operand) (v : EmitVal) :
    Prop where
  fixed : V.inst? = none → OperandVal c s V v
  value : ∀ J, V.inst? = some J → (∀ r, v ≠ .reg r) → s.sourceToEmitMap J = some v
  held : ∀ J r, V.inst? = some J → v = .reg r → hold r = some J

/-- The visit of a call emits lines, then the call, and the call reads the values of its arguments:
    what the registers hold at the call is what the lines leave there. -/
def CallReads (c : Ctx) (s s' : State) (args : List Operand) : Prop :=
  ∃ lines dest callee vals rest, s'.code = s.code ++ lines ++ .call dest callee vals :: rest ∧
    (∀ l ∈ lines, ∀ d f vs, l ≠ .call d f vs) ∧
    List.Forall₂ (ReadsHeld c s (holdAfter (holder s) lines)) args vals

/-- Every resident value that is read from a register is read from its own. -/
def ReadsOwn (s : State) : Prop :=
  ∀ e ∈ s.ra.activeSet, ∀ j, s.sourceToEmitMap e.source = some (.reg j) → j = e.regId

/-- Of the instructions in `ops`, those that are read from a register are read from their own. -/
def OwnOperands (ops : InstRef → Prop) (s : State) : Prop :=
  ∀ e ∈ s.ra.activeSet, ops e.source → ∀ j, s.sourceToEmitMap e.source = some (.reg j) → j = e.regId

/-- The allocation that is evicted for `J`, when `J` has to be reloaded and no register is free. -/
def reloadVictim (s : State) (J : InstRef) : Option (Allocation InstRef) :=
  if s.ra.get J = 0 ∧ s.ra.freeRegisters = [] then
    match s.ra.evict 0 with
    | .ok (r, _) => r
    | .error _ => none
  else none

/-- While the operands are translated for `U`, no operand in a register is evicted that was
    translated for `U` before. -/
def NoOwnVictim (c : Ctx) (U : InstRef) : List Operand → State → Prop
  | [], _ => True
  | V :: Vs, s =>
    (∀ J a j, V.inst? = some J → reloadVictim s J = some a → a.lastUser = some U →
      s.sourceToEmitMap a.source ≠ some (.reg j)) ∧
    ∀ p s', translateSrcOperandToTgt c V U s = .ok (p, s') → NoOwnVictim c U Vs s'

section Lines

variable {hold : ℕ → Option InstRef} {l1 l2 : List Line}

theorem holdAfter_append : holdAfter hold (l1 ++ l2) = holdAfter (holdAfter hold l1) l2 :=
  List.foldl_append

/-- Spills change no register. -/
theorem holdAfter_spills (h : ∀ l ∈ l1, l.isSpill = true) : holdAfter hold l1 = hold := by
  induction l1 with
  | nil => rfl
  | cons l ls ih =>
    have hl : l.hold hold = hold := by
      have := h l List.mem_cons_self
      cases l <;> first | rfl | cases this
    show holdAfter (l.hold hold) ls = hold
    rw [hl]
    exact ih fun l' hl' => h l' (List.mem_cons_of_mem _ hl')

theorem isSpill_spillLines {c : Ctx} {s : State} {a : Allocation InstRef} {v : EmitVal} :
    ∀ l ∈ spillLines c s a v, l.isSpill = true := by
  intro l hl
  unfold spillLines at hl
  split_ifs at hl
  · rw [List.mem_singleton.mp hl]
    rfl
  · cases hl

theorem ne_call_of_isSpill {l : Line} (h : l.isSpill = true) (d : Option ℕ) (f : String)
    (vs : List EmitVal) : l ≠ .call d f vs := by
  rintro rfl
  cases h

end Lines

/-- What the allocator records for a register is what it holds. -/
theorem holder_of_mem {s : State} (ho : Ownership s.ra) {e : Allocation InstRef}
    (he : e ∈ s.ra.activeSet) : holder s e.regId = some e.source := by
  unfold holder
  cases hf : s.ra.activeSet.find? fun d => d.regId = e.regId with
  | none => simpa using List.find?_eq_none.mp hf e he
  | some d =>
    have hd : d.regId = e.regId := by simpa using List.find?_some hf
    rw [List.inj_on_of_nodup_map ho.regs_nodup (List.mem_of_find?_eq_some hf) he hd]
    rfl

/-! ## One operand -/

section Operand

variable {c : Ctx} {U J : InstRef} {ty : Ty} {v : EmitVal} {k : ℕ} {s s' : State}

/-- The translation of an instruction operand: `J` is active, last used by `U`; at most the victim
    of a reload is not active any more. -/
structure Translated (c : Ctx) (U J : InstRef) (v : EmitVal) (k : ℕ) (s s' : State) : Prop where
  active : ∃ n, ∀ e, e ∈ s'.ra.activeSet ↔
    e = ⟨J, some U, k, n⟩ ∨ e ∈ s.ra.activeSet ∧ e.source ≠ J ∧ reloadVictim s J ≠ some e
  value : s'.sourceToEmitMap J = some v
  others : ∀ K, K ≠ J → s'.sourceToEmitMap K = s.sourceToEmitMap K
  victim : ∀ a, reloadVictim s J = some a → a ∈ s.ra.activeSet ∧ a.source ≠ J ∧ a.regId = k
  code : (∃ e ∈ s.ra.activeSet, e.source = J ∧ e.regId = k) ∧ reloadVictim s J = none ∧
      s'.sourceToEmitMap = s.sourceToEmitMap ∧ s'.code = s.code ∨
    (∀ e ∈ s.ra.activeSet, e.source ≠ J) ∧ v = .reg k ∧ ∃ spills, (∀ l ∈ spills, l.isSpill = true) ∧
      s'.code = s.code ++ spills ++ [.fill k J]

/-- After a fill or not, the use makes `U` the last user of `J`. -/
theorem mem_use {ra ra' : RegisterAllocator InstRef} {n : ℕ} (ho : Ownership ra)
    (hu : ra.update J (some U) n = .ok ra') (hk : ra.get J = k) (e : Allocation InstRef) :
    e ∈ ra'.activeSet ↔ e = ⟨J, some U, k, n⟩ ∨ e ∈ ra.activeSet ∧ e.source ≠ J := by
  obtain ⟨d, hd, hds, hmem⟩ := ho.mem_update hu
  have hdk : d.regId = k := by rw [← get_eq_of_mem ho.sources hd, hds, hk]
  rw [hmem e, hds, hdk, or_comm]

/-- Who makes room for `J`: a value is evicted only if no register is free, and it had the register
    that `J` gets. -/
theorem victim_of_request {s0 : State} {ra : RegisterAllocator InstRef} (ho : Ownership s.ra)
    (h0 : s.ra.get J = 0)
    (hev : s0 = s ∧ s.ra.freeRegisters ≠ [] ∨
      s.ra.freeRegisters = [] ∧ evictOne c 0 s = .ok ((), s0))
    (hr : s0.ra.request J = .ok (k, ra)) : s0.sourceToEmitMap = s.sourceToEmitMap ∧
      (∃ spills, (∀ l ∈ spills, l.isSpill = true) ∧ s0.code = s.code ++ spills) ∧
      (∀ e, e ∈ s0.ra.activeSet ↔ e ∈ s.ra.activeSet ∧ reloadVictim s J ≠ some e) ∧
      ∀ a, reloadVictim s J = some a → a ∈ s.ra.activeSet ∧ a.source ≠ J ∧ a.regId = k := by
  have ho0 : Ownership s0.ra := Steps.ownership (steps_of_evicted (d := phiSite J) hev) ho
  obtain ⟨rfl, hfree⟩ | ⟨hfree, hev⟩ := hev
  · have hnone : reloadVictim s0 J = none := if_neg fun h => hfree h.2
    exact ⟨rfl, ⟨[], by simp, by simp⟩, by simp [hnone], by simp [hnone]⟩
  · obtain ⟨a, ra3, w, he, -, rfl⟩ := evictOne_ok hev
    have hsome : reloadVictim s J = some a := by
      unfold reloadVictim
      rw [if_pos ⟨h0, hfree⟩, he]
    obtain ⟨ha, hmem3⟩ := ho.mem_evict he
    refine ⟨rfl, ⟨_, isSpill_spillLines, rfl⟩, fun e => ?_, ?_⟩
    · rw [hmem3, hsome]
      constructor
      · rintro ⟨he, hne⟩
        exact ⟨he, fun heq => hne (by cases heq; rfl)⟩
      · rintro ⟨he, hne⟩
        refine ⟨he, fun heq => hne ?_⟩
        rw [List.inj_on_of_nodup_map ho.sources he ha heq]
    · rw [hsome]
      rintro b ⟨⟩
      refine ⟨ha, ho.get_eq_zero_iff.mp h0 a ha, ?_⟩
      obtain ⟨-, hnone, -⟩ | ⟨a', ha', -, -, -, hra⟩ := evict_ok he
      · cases hnone
      · cases ha'
        rw [hra] at hr
        obtain ⟨-, ⟨hnil, -, -⟩ | ⟨free, hcons, -, -⟩⟩ :=
          request_ok (by rw [← hra]; exact ho0.zero_notMem_free) hr
        · cases hnil
        · exact (List.cons.inj hcons).1

theorem translated_of_ok (ho : Ownership s.ra)
    (h : translateSrcOperandToTgt c ⟨.inst J, ty⟩ U s = .ok ((v, k), s')) :
    Translated c U J v k s s' := by
  obtain ⟨s1, t, q, ra, hget, -, hv, hu, rfl⟩ := translateInst_ok h
  obtain ⟨hk, hgetJ, hcase⟩ := getRegister_ok ho hget
  obtain rfl | ⟨h0, s0, ra1, ra2, hev, hr, hu2, rfl⟩ := hcase
  · -- `J` is resident
    have hnone : reloadVictim s1 J = none := if_neg fun h => hk (hgetJ ▸ h.1)
    refine ⟨⟨q.head?.getD noMoreAdvent, fun e => ?_⟩, hv, fun K _ => rfl,
      fun a ha => by simp [hnone] at ha, Or.inl ⟨?_, hnone, rfl, rfl⟩⟩
    · rw [mem_use ho hu hgetJ]
      simp [hnone]
    · obtain ⟨e, he, hes, hek⟩ := mem_of_get_ne_zero (hgetJ ▸ hk : s1.ra.get J ≠ 0)
      exact ⟨e, he, hes, hek.trans hgetJ⟩
  · -- `J` is reloaded into `k`
    have hsteps : Steps c (phiSite U) s s0 := steps_of_evicted hev
    have ho0 := Steps.ownership hsteps ho
    obtain ⟨-, hfresh, hmem1⟩ := ho0.mem_request hr hk
    have ho1 := ho0.request hr
    obtain ⟨d, hd, hds, hmem2⟩ := ho1.mem_update hu2
    have hmem : ∀ e, e.source ≠ J → (e ∈ ra2.activeSet ↔ e ∈ s0.ra.activeSet) := by
      intro e hne
      rw [hmem2, hmem1]
      constructor
      · rintro (⟨he | rfl, -⟩ | rfl)
        · exact he
        · exact absurd rfl hne
        · exact absurd hds hne
      · exact fun he => Or.inl ⟨Or.inl he, hne⟩
    have hvk : v = .reg k := by
      have : some (EmitVal.reg k) = some v := by
        rw [← hv]
        exact (Function.update_self J (some (EmitVal.reg k)) s0.sourceToEmitMap).symm
      cases this
      rfl
    obtain ⟨hmap, ⟨spills, hspills, hcode⟩, hactive, hvic⟩ := victim_of_request ho h0 hev hr
    refine ⟨⟨q.head?.getD noMoreAdvent, fun e => ?_⟩, hv, fun K hK => ?_, hvic,
      Or.inr ⟨ho.get_eq_zero_iff.mp h0, hvk, spills, hspills, ?_⟩⟩
    · rw [mem_use (ho1.update hu2) hu hgetJ]
      refine or_congr_right ?_
      constructor
      · rintro ⟨he, hne⟩
        obtain ⟨he, hv⟩ := (hactive e).mp ((hmem e hne).mp he)
        exact ⟨he, hne, hv⟩
      · rintro ⟨he, hne, hv⟩
        exact ⟨(hmem e hne).mpr ((hactive e).mpr ⟨he, hv⟩), hne⟩
    · show Function.update s0.sourceToEmitMap J _ K = _
      rw [Function.update_of_ne hK, hmap]
    · show s0.code ++ _ = _
      rw [hcode]

end Operand

/-! ## All operands -/

/-- The source and the register, if the operand is read from one. -/
def readReg (V : Operand) (v : EmitVal) : List (InstRef × ℕ) :=
  match V.inst?, v with
  | some J, .reg r => [(J, r)]
  | _, _ => []

/-- The operands that are read from a register. -/
def chosen (Vs : List Operand) (vs : List EmitVal) : List (InstRef × ℕ) :=
  (List.zipWith readReg Vs vs).flatten

/-- Different sources are read from different registers. -/
def Distinct (l : List (InstRef × ℕ)) : Prop := ∀ p ∈ l, ∀ q ∈ l, p.2 = q.2 → p.1 = q.1

/-- What the translation of operands `ops` of `U` keeps, with the choices `done` so far: the
    registers hold what the allocator records, whoever was last used by `U` is one of the choices,
    and a value that is not read from a register is that of the map at the start. -/
structure ArgsInv (U : InstRef) (ops : InstRef → Prop) (map : InstRef → Option EmitVal)
    (hold : ℕ → Option InstRef) (done : List (InstRef × ℕ)) (s : State) : Prop where
  held : ∀ e ∈ s.ra.activeSet, hold e.regId = some e.source
  own : OwnOperands ops s
  choices : ∀ p ∈ done, ops p.1
  used : ∀ e ∈ s.ra.activeSet, e.lastUser = some U →
    ∀ j, s.sourceToEmitMap e.source = some (.reg j) → (e.source, j) ∈ done
  fixed : ∀ J v, s.sourceToEmitMap J = some v → (∀ r, v ≠ .reg r) → map J = some v

/-- What an operand that is not read from a register is read as. -/
def ReadsFixed (c : Ctx) (map : InstRef → Option EmitVal) (V : Operand) (v : EmitVal) : Prop :=
  (∀ s, V.inst? = none → OperandVal c s V v) ∧
    ∀ J, V.inst? = some J → (∀ r, v ≠ .reg r) → map J = some v

/-- Every choice is still active, last used by `U`, and read from its register. -/
def Kept (U : InstRef) (done : List (InstRef × ℕ)) (s : State) : Prop :=
  ∀ p ∈ done, ∃ e ∈ s.ra.activeSet, e.source = p.1 ∧ e.regId = p.2 ∧ e.lastUser = some U ∧
    s.sourceToEmitMap p.1 = some (.reg p.2)

section Operands

variable {c : Ctx} {U : InstRef} {ops : InstRef → Prop} {hold : ℕ → Option InstRef}
  {done : List (InstRef × ℕ)} {s s' : State} {v : EmitVal} {k : ℕ}

theorem mem_readReg {V : Operand} {p : InstRef × ℕ} :
    p ∈ readReg V v ↔ V.inst? = some p.1 ∧ v = .reg p.2 := by
  obtain ⟨J, r⟩ := p
  unfold readReg
  cases V.inst? with
  | none => simp
  | some I => cases v <;> simp [eq_comm]

theorem chosen_cons {V : Operand} {Vs : List Operand} {vs : List EmitVal} :
    chosen (V :: Vs) (v :: vs) = readReg V v ++ chosen Vs vs := rfl

/-- What is read of the operands, and what the chosen registers hold. -/
theorem forall₂_readsHeld {s0 : State} {hold : ℕ → Option InstRef} :
    ∀ {Vs : List Operand} {vs : List EmitVal}, List.Forall₂ (ReadsHeld c s0 hold) Vs vs ↔
      List.Forall₂ (ReadsFixed c s0.sourceToEmitMap) Vs vs ∧
      ∀ p ∈ chosen Vs vs, hold p.2 = some p.1 := by
  intro Vs
  induction Vs with
  | nil =>
    intro vs
    cases vs <;> simp [chosen]
  | cons V Vs ih =>
    intro vs
    cases vs with
    | nil => simp
    | cons v vs =>
      rw [List.forall₂_cons, List.forall₂_cons, ih, chosen_cons, List.forall_mem_append]
      constructor
      · rintro ⟨hV, hfix, hhold⟩
        exact ⟨⟨⟨fun s hi => (hV.fixed hi).congr hi s, hV.value⟩, hfix⟩, fun p hp =>
          hV.held p.1 p.2 (mem_readReg.mp hp).1 (mem_readReg.mp hp).2, hhold⟩
      · rintro ⟨⟨⟨hfix, hval⟩, hfixs⟩, hV, hhold⟩
        exact ⟨⟨hfix s0, hval, fun J r hJ hr => hV (J, r) (mem_readReg.mpr ⟨hJ, hr⟩)⟩, hfixs, hhold⟩

/-- An operand that is read from a register is read from its own. -/
theorem Translated.reg_eq {J : InstRef} (h : Translated c U J v k s s') (hown : OwnOperands ops s)
    (hJ : ops J) {j : ℕ} (hj : v = .reg j) : j = k := by
  subst hj
  obtain ⟨⟨e, he, hes, hek⟩, -, hmap, -⟩ | ⟨-, hv, -⟩ := h.code
  · rw [← hek]
    refine hown e he (hes ▸ hJ) j ?_
    rw [hes, ← hmap]
    exact h.value
  · cases hv
    rfl

theorem Translated.own {J : InstRef} (h : Translated c U J v k s s') (hown : OwnOperands ops s)
    (hJ : ops J) : OwnOperands ops s' := by
  obtain ⟨n, hmem⟩ := h.active
  intro e he hop j hj
  obtain rfl | ⟨he, hne, -⟩ := (hmem e).mp he
  · exact h.reg_eq hown hJ (Option.some.inj (h.value.symm.trans hj))
  · exact hown e he hop j (by rw [← h.others _ hne]; exact hj)

theorem Translated.used {J : InstRef} (ty : Ty) (h : Translated c U J v k s s')
    (hused : ∀ e ∈ s.ra.activeSet, e.lastUser = some U →
      ∀ j, s.sourceToEmitMap e.source = some (.reg j) → (e.source, j) ∈ done) :
    ∀ e ∈ s'.ra.activeSet, e.lastUser = some U → ∀ j,
      s'.sourceToEmitMap e.source = some (.reg j) →
      (e.source, j) ∈ done ++ readReg ⟨.inst J, ty⟩ v := by
  obtain ⟨n, hmem⟩ := h.active
  intro e he hlast j hj
  obtain rfl | ⟨he, hne, -⟩ := (hmem e).mp he
  · exact List.mem_append_right _ (mem_readReg.mpr ⟨rfl, Option.some.inj (h.value.symm.trans hj)⟩)
  · exact List.mem_append_left _ (hused e he hlast j (by rw [← h.others _ hne]; exact hj))

theorem Translated.fixed {J : InstRef} {map : InstRef → Option EmitVal}
    (h : Translated c U J v k s s')
    (hfix : ∀ J v, s.sourceToEmitMap J = some v → (∀ r, v ≠ .reg r) → map J = some v) :
    ∀ J v, s'.sourceToEmitMap J = some v → (∀ r, v ≠ .reg r) → map J = some v := by
  intro K w hw hne
  by_cases hK : K = J
  · subst hK
    obtain ⟨-, -, hmap, -⟩ | ⟨-, hv, -⟩ := h.code
    · exact hfix K w (hmap ▸ hw) hne
    · rw [h.value, hv] at hw
      exact absurd (Option.some.inj hw).symm (hne k)
  · exact hfix K w (h.others K hK ▸ hw) hne

/-- A choice stays active unless it is evicted for the next operand. -/
theorem Translated.kept {J : InstRef} (ty : Ty) (h : Translated c U J v k s s')
    (ho : Ownership s.ra) (hown : OwnOperands ops s) (hJ : ops J)
    (hvic : ∀ a j, reloadVictim s J = some a → a.lastUser = some U →
      s.sourceToEmitMap a.source ≠ some (.reg j)) (hdone : Kept U done s) :
    Kept U (done ++ readReg ⟨.inst J, ty⟩ v) s' := by
  obtain ⟨n, hmem⟩ := h.active
  have hnew : (⟨J, some U, k, n⟩ : Allocation InstRef) ∈ s'.ra.activeSet := (hmem _).mpr (Or.inl rfl)
  intro p hp
  rcases List.mem_append.mp hp with hp | hp
  · obtain ⟨e, he, hes, hek, hlast, hval⟩ := hdone p hp
    by_cases heJ : e.source = J
    · obtain ⟨⟨e', he', hes', hek'⟩, -, hmap, -⟩ | ⟨hfresh, -⟩ := h.code
      · have : e = e' := List.inj_on_of_nodup_map ho.sources he he' (heJ.trans hes'.symm)
        subst this
        refine ⟨_, hnew, heJ.symm.trans hes, hek'.symm.trans hek, rfl, ?_⟩
        rw [hmap]
        exact hval
      · exact absurd heJ (hfresh e he)
    · refine ⟨e, (hmem e).mpr (Or.inr ⟨he, heJ, fun hv => ?_⟩), hes, hek, hlast, ?_⟩
      · exact hvic e p.2 hv hlast (by rw [hes]; exact hval)
      · rw [h.others _ (by rw [← hes]; exact heJ)]
        exact hval
  · obtain ⟨hpJ, hv⟩ := mem_readReg.mp hp
    obtain rfl : J = p.1 := Option.some.inj hpJ
    exact ⟨_, hnew, rfl, (h.reg_eq hown hJ hv).symm, rfl, hv ▸ h.value⟩

/-- If a choice is evicted for the next operand, the two have the same register. -/
theorem ArgsInv.distinct {map : InstRef → Option EmitVal} (hinv : ArgsInv U ops map hold done s)
    {J : InstRef} (ty : Ty) (h : Translated c U J v k s s')
    (hd : Distinct (done ++ readReg ⟨.inst J, ty⟩ v)) (a : Allocation InstRef) (j : ℕ)
    (hv : reloadVictim s J = some a) (hlast : a.lastUser = some U) :
    s.sourceToEmitMap a.source ≠ some (.reg j) := by
  intro hval
  obtain ⟨ha, hne, hak⟩ := h.victim a hv
  have hdone := hinv.used a ha hlast j hval
  obtain ⟨-, hnone, -, -⟩ | ⟨-, hvk, -⟩ := h.code
  · rw [hnone] at hv
    cases hv
  · have hj : j = k := (hinv.own a ha (hinv.choices _ hdone) j hval).trans hak
    exact hne (hd (a.source, j) (List.mem_append_left _ hdone) (J, k)
      (List.mem_append_right _ (mem_readReg.mpr ⟨rfl, hvk⟩)) hj)

/-- After an operand the registers hold what the allocator records. -/
theorem Translated.held {J : InstRef} (h : Translated c U J v k s s') (ho' : Ownership s'.ra)
    (hheld : ∀ e ∈ s.ra.activeSet, hold e.regId = some e.source) : ∃ lines,
    s'.code = s.code ++ lines ∧ (∀ l ∈ lines, ∀ d f vs, l ≠ .call d f vs) ∧
      ∀ e ∈ s'.ra.activeSet, holdAfter hold lines e.regId = some e.source := by
  obtain ⟨n, hmem⟩ := h.active
  have hnew : (⟨J, some U, k, n⟩ : Allocation InstRef) ∈ s'.ra.activeSet := (hmem _).mpr (Or.inl rfl)
  obtain ⟨⟨e0, he0, hes0, hek0⟩, -, -, hcode⟩ | ⟨-, -, spills, hspills, hcode⟩ := h.code
  · refine ⟨[], by rw [hcode, List.append_nil], by simp, fun e he => ?_⟩
    obtain rfl | ⟨he, -, -⟩ := (hmem e).mp he
    · show hold k = some J
      rw [← hek0, hheld e0 he0, hes0]
    · exact hheld e he
  · refine ⟨spills ++ [.fill k J], by rw [hcode, List.append_assoc], fun l hl d f vs => ?_,
      fun e he => ?_⟩
    · rcases List.mem_append.mp hl with hl | hl
      · exact ne_call_of_isSpill (hspills l hl) d f vs
      · rw [List.mem_singleton.mp hl]
        exact Line.noConfusion
    · rw [holdAfter_append, holdAfter_spills hspills]
      show Function.update hold k (some J) e.regId = some e.source
      by_cases hek : e.regId = k
      · have : e = ⟨J, some U, k, n⟩ := List.inj_on_of_nodup_map ho'.regs_nodup he hnew hek
        subst this
        exact Function.update_self ..
      · rw [Function.update_of_ne hek]
        obtain rfl | ⟨he, -, -⟩ := (hmem e).mp he
        · exact absurd rfl hek
        · exact hheld e he

/-- One step of `translateAll`, for any operand: the invariant holds with its choice. A choice stays
    active unless it is evicted for this operand; and if it is, the two have the same register. -/
theorem ArgsInv.operand {map : InstRef → Option EmitVal} (hinv : ArgsInv U ops map hold done s)
    {V : Operand} (hV : ∀ J, V.inst? = some J → ops J) (ho : Ownership s.ra)
    (h : translateSrcOperandToTgt c V U s = .ok ((v, k), s')) : ∃ lines,
    s'.code = s.code ++ lines ∧ (∀ l ∈ lines, ∀ d f vs, l ≠ .call d f vs) ∧ Ownership s'.ra ∧
    ArgsInv U ops map (holdAfter hold lines) (done ++ readReg V v) s' ∧
    ((∀ J a j, V.inst? = some J → reloadVictim s J = some a → a.lastUser = some U →
        s.sourceToEmitMap a.source ≠ some (.reg j)) →
      Kept U done s → Kept U (done ++ readReg V v) s') ∧
    (Distinct (done ++ readReg V v) → ∀ J a j, V.inst? = some J → reloadVictim s J = some a →
      a.lastUser = some U → s.sourceToEmitMap a.source ≠ some (.reg j)) ∧
    (V.inst? = none → OperandVal c s V v) ∧
    ∀ J, V.inst? = some J → (∀ r, v ≠ .reg r) → map J = some v := by
  cases hi : V.inst? with
  | none =>
    obtain ⟨rfl, -, hval⟩ := translateConst_ok hi h
    have hnil : readReg V v = [] := by simp [readReg, hi]
    rw [hnil, List.append_nil]
    exact ⟨[], (List.append_nil _).symm, by simp, ho, hinv, fun _ hk => hk, by simp, fun _ => hval,
      by simp⟩
  | some J =>
    obtain ⟨val, ty⟩ := V
    cases val <;> cases hi
    have ho' := translate_ownership ho h
    have htr := translated_of_ok ho h
    have hJ : ops J := hV J rfl
    have hfix := htr.fixed hinv.fixed
    obtain ⟨lines, hcode, hcall, hheld⟩ := htr.held ho' hinv.held
    refine ⟨lines, hcode, hcall, ho', ⟨hheld, htr.own hinv.own hJ, fun p hp => ?_,
      htr.used ty hinv.used, hfix⟩, fun hv => htr.kept ty ho hinv.own hJ fun a j => hv J a j rfl,
      fun hd => ?_, by simp, ?_⟩
    · rcases List.mem_append.mp hp with hp | hp
      · exact hinv.choices p hp
      · obtain rfl : J = p.1 := Option.some.inj (mem_readReg.mp hp).1
        exact hJ
    · rintro K a j ⟨⟩
      exact hinv.distinct ty htr hd a j
    · rintro K ⟨⟩ hne
      exact hfix J v htr.value hne

theorem Distinct.of_append {l1 l2 : List (InstRef × ℕ)} (h : Distinct (l1 ++ l2)) : Distinct l1 :=
  fun p hp q hq => h p (List.mem_append_left _ hp) q (List.mem_append_left _ hq)

/-- After all operands the invariant holds with all choices; they are kept iff no operand is evicted
    for a later one. -/
theorem ArgsInv.all {map : InstRef → Option EmitVal} {Vs : List Operand} :
    ∀ {hold : ℕ → Option InstRef} {done : List (InstRef × ℕ)} {s s' : State}
    {vs : List (EmitVal × ℕ)}, ArgsInv U ops map hold done s →
    (∀ V ∈ Vs, ∀ J, V.inst? = some J → ops J) →
    Ownership s.ra → translateAll c U Vs s = .ok (vs, s') → ∃ lines,
    s'.code = s.code ++ lines ∧ (∀ l ∈ lines, ∀ d f vs, l ≠ .call d f vs) ∧ Ownership s'.ra ∧
    List.Forall₂ (ReadsFixed c map) Vs (vs.map Prod.fst) ∧
    ArgsInv U ops map (holdAfter hold lines) (done ++ chosen Vs (vs.map Prod.fst)) s' ∧
    (NoOwnVictim c U Vs s → Kept U done s → Kept U (done ++ chosen Vs (vs.map Prod.fst)) s') ∧
    (Distinct (done ++ chosen Vs (vs.map Prod.fst)) → NoOwnVictim c U Vs s) := by
  induction Vs with
  | nil =>
    intro hold done s s' vs hinv _ ho h
    obtain ⟨rfl, rfl⟩ := pure_ok_iff.mp h
    have hnil : done ++ chosen [] (([] : List (EmitVal × ℕ)).map Prod.fst) = done :=
      List.append_nil done
    rw [hnil]
    exact ⟨[], (List.append_nil _).symm, by simp, ho, .nil, hinv, fun _ hk => hk, fun _ => trivial⟩
  | cons V Vs ih =>
    intro hold done s s' vs hinv hVs ho h
    simp only [translateAll, bind_ok_iff, pure_ok_iff] at h
    obtain ⟨⟨v, k⟩, s1, hv, ws, s2, hws, rfl, rfl⟩ := h
    obtain ⟨l1, hcode1, hcall1, ho1, hinv1, hkept1, hdist1, hfix1, hval1⟩ :=
      hinv.operand (hVs V List.mem_cons_self) ho hv
    obtain ⟨l2, hcode2, hcall2, ho2, hfix2, hinv2, hkept2, hdist2⟩ :=
      ih hinv1 (fun V hV => hVs V (List.mem_cons_of_mem _ hV)) ho1 hws
    have hchosen : done ++ chosen (V :: Vs) (((v, k) :: ws).map Prod.fst) =
        done ++ readReg V v ++ chosen Vs (ws.map Prod.fst) := by
      rw [List.map_cons, chosen_cons, List.append_assoc]
    rw [hchosen]
    refine ⟨l1 ++ l2, by rw [hcode2, hcode1, List.append_assoc], fun l hl => ?_, ho2,
      .cons ⟨fun s0 hi => (hfix1 hi).congr hi s0, hval1⟩ hfix2, by rw [holdAfter_append]; exact hinv2,
      fun hno hk => ?_, fun hd => ⟨?_, fun p s3 h3 => ?_⟩⟩
    · rcases List.mem_append.mp hl with hl | hl
      · exact hcall1 l hl
      · exact hcall2 l hl
    · exact hkept2 (hno.2 _ _ hv) (hkept1 hno.1 hk)
    · exact hdist1 hd.of_append
    · rw [hv] at h3
      cases h3
      exact hdist2 hd

end Operands

/-! ## The call -/

section Call

variable {c : Ctx} {s s' : State} {u : Unit}

theorem evictOne_spills {t : ℕ} (h : evictOne c t s = .ok (u, s')) :
    ∃ spills, (∀ l ∈ spills, l.isSpill = true) ∧ s'.code = s.code ++ spills := by
  obtain ⟨a, ra, v, -, -, rfl⟩ := evictOne_ok h
  exact ⟨_, isSpill_spillLines, rfl⟩

/-- Nothing becomes active and no value changes from `s` to `s'`, and only spills are emitted. -/
def OnlySpills (s s' : State) : Prop :=
  (∀ e ∈ s'.ra.activeSet, e ∈ s.ra.activeSet) ∧ s'.sourceToEmitMap = s.sourceToEmitMap ∧
    ∃ spills, (∀ l ∈ spills, l.isSpill = true) ∧ s'.code = s.code ++ spills

theorem onlySpills_of_activeSet {s s' : State} (ha : s'.ra.activeSet = s.ra.activeSet)
    (hm : s'.sourceToEmitMap = s.sourceToEmitMap) (hc : s'.code = s.code) : OnlySpills s s' :=
  ⟨fun e he => ha ▸ he, hm, [], by simp, by rw [hc, List.append_nil]⟩

theorem requestTempRegister_onlySpills {t k : ℕ} (ho : Ownership s.ra)
    (h : requestTempRegister c t s = .ok (k, s')) : OnlySpills s s' := by
  obtain ⟨-, s0, ra, hev, hr, rfl⟩ := takeTemp_ok ho h
  obtain rfl | hev := hev
  · exact onlySpills_of_activeSet (ho.activeSet_requestTempRegister hr) rfl rfl
  · have ho0 : Ownership s0.ra := (evictOne_steps (d := phiSite ⟨0, 0⟩) hev).ownership ho
    obtain ⟨a, ra0, v, he0, -, rfl⟩ := evictOne_ok hev
    refine ⟨fun e he => (((ho.mem_evict he0).2 e).mp ?_).1, rfl, _, isSpill_spillLines, rfl⟩
    have ha := ho0.activeSet_requestTempRegister hr
    rwa [← ha]

/-- Only spills come before the arguments. -/
theorem handOverRef_onlySpills {callee : String} (ho : Ownership s.ra)
    (h : handOverRef c callee s = .ok (u, s')) : OnlySpills s s' := by
  unfold handOverRef at h
  split_ifs at h
  · obtain ⟨⟨k, s1⟩, hr, heq⟩ := map_ok_iff.mp h
    cases heq
    exact requestTempRegister_onlySpills (s := { s with refSet := true }) ho hr
  · cases h
    exact onlySpills_of_activeSet rfl rfl rfl
  · obtain ⟨ra, hg, rfl⟩ := giveUpTempRegister_iff.mp h
    exact onlySpills_of_activeSet (activeSet_giveUpTempRegister hg) rfl rfl
  · cases h
    exact onlySpills_of_activeSet rfl rfl rfl

/-- Only spills come after the call. -/
theorem takeBackRef_onlySpills {callee : String} (ho : Ownership s.ra)
    (h : takeBackRef c callee s = .ok (u, s')) : OnlySpills s s' := by
  unfold takeBackRef at h
  split_ifs at h
  · obtain ⟨⟨k, s1⟩, hr, heq⟩ := map_ok_iff.mp h
    cases heq
    obtain ⟨hactive, hmap, hcode⟩ := requestTempRegister_onlySpills ho hr
    exact ⟨hactive, hmap, hcode⟩
  · cases h
    exact onlySpills_of_activeSet rfl rfl rfl

/-- Only spills come before the call itself. -/
theorem emitCall_ok {callee : String} {I : InstRef} {args : List EmitVal} {named : Bool}
    (ho : Ownership s.ra) (h : emitCall c I callee args named s = .ok (u, s')) :
    ∃ spills d rest, (∀ l ∈ spills, l.isSpill = true) ∧
      s'.code = s.code ++ spills ++ .call d callee args :: rest := by
  simp only [emitCall, ite_ok_iff, bind_ok_iff, emit_ok, define_ok] at h
  obtain ⟨-, k, s1, hreq, ⟨⟩, s2, rfl, rfl⟩ | ⟨-, rfl⟩ := h
  · obtain ⟨s0, ra, ra', hev, -, -, -, rfl⟩ := requestRegister_ok ho hreq
    obtain ⟨spills, hspills, hcode⟩ : ∃ spills, (∀ l ∈ spills, l.isSpill = true) ∧
        s0.code = s.code ++ spills := by
      obtain ⟨rfl, -⟩ | ⟨-, hev⟩ := hev
      · exact ⟨[], by simp, (List.append_nil _).symm⟩
      · exact evictOne_spills hev
    exact ⟨spills, some k, [.value I (.reg k)], hspills, by simp [hcode]⟩
  · exact ⟨[], none, [], by simp, by simp⟩

/-- The first call of the code is unique. -/
theorem first_call_unique {l1 l2 r1 r2 : List Line} {d1 d2 : Option ℕ} {f1 f2 : String}
    {vs1 vs2 : List EmitVal} (h1 : ∀ l ∈ l1, ∀ d f vs, l ≠ .call d f vs)
    (h2 : ∀ l ∈ l2, ∀ d f vs, l ≠ .call d f vs)
    (h : l1 ++ .call d1 f1 vs1 :: r1 = l2 ++ .call d2 f2 vs2 :: r2) : l1 = l2 ∧ vs1 = vs2 := by
  induction l1 generalizing l2 with
  | nil =>
    cases l2 with
    | nil =>
      cases h
      exact ⟨rfl, rfl⟩
    | cons a l2 => exact absurd (List.cons.inj h).1.symm (h2 a List.mem_cons_self d1 f1 vs1)
  | cons a l1 ih =>
    cases l2 with
    | nil => exact absurd (List.cons.inj h).1 (h1 a List.mem_cons_self d2 f2 vs2)
    | cons b l2 =>
      obtain ⟨rfl, htail⟩ := List.cons.inj h
      obtain ⟨rfl, hvs⟩ := ih (fun l hl => h1 l (List.mem_cons_of_mem _ hl))
        (fun l hl => h2 l (List.mem_cons_of_mem _ hl)) htail
      exact ⟨rfl, hvs⟩

end Call

/-! ## The last users -/

/-- The last users after some steps are those before them, or the visited instruction. -/
theorem Steps.lastUser {c : Ctx} {d : Site} {s s' : State} {p : InstRef → Prop} (hd : p d.user)
    (h : Steps c d s s') (ho : Ownership s.ra)
    (hs : ∀ e ∈ s.ra.activeSet, ∀ U, e.lastUser = some U → p U) :
    ∀ e ∈ s'.ra.activeSet, ∀ U, e.lastUser = some U → p U := by
  refine (h.invariant (p := fun s => ∀ e ∈ s.ra.activeSet, ∀ U, e.lastUser = some U → p U)
    (fun s1 s2 ho1 hs1 hstep e he U hU => ?_) ho hs).2
  obtain ⟨e', he', -, -, hlast, -⟩ | ⟨-, -, hnone, -⟩ := hstep.active ho1 he
  · rcases hlast with hlast | hlast
    · exact hs1 e' he' U (hlast ▸ hU)
    · rw [hlast] at hU
      cases hU
      exact hd
  · rw [hnone] at hU
    cases hU

/-- The instruction is before the point. -/
def Before : Point → InstRef → Prop
  | .start b, U => U.parent < b
  | .inst b n, U => U.parent < b ∨ U.parent = b ∧ U.idx < n

/-- The last users are instructions that have been visited. -/
theorem Reaches.lastUser {c : Ctx} {p : Point} {s : State} (h : Reaches c p s) :
    ∀ e ∈ s.ra.activeSet, ∀ U, e.lastUser = some U → Before p U := by
  induction h with
  | init => exact fun e he => by cases he
  | begin hB hs h ih =>
    rw [(visitBasicBlock_ok h).1]
    exact fun e he U hU => Or.inl (ih e he U hU)
  | phi hB hn hs h ih =>
    refine Steps.lastUser ?_ (visitPHINode_steps hs.ownership h) hs.ownership fun e he U hU => ?_
    · exact Or.inr ⟨rfl, Nat.lt_succ_self _⟩
    · exact (ih e he U hU).imp_right fun h => ⟨h.1, h.2.trans (Nat.lt_succ_self _)⟩
  | inst hB hx hs h ih =>
    refine Steps.lastUser ?_ (visitInst_steps hs.ownership h) hs.ownership fun e he U hU => ?_
    · exact Or.inr ⟨rfl, Nat.lt_succ_self _⟩
    · exact (ih e he U hU).imp_right fun h => ⟨h.1, h.2.trans (Nat.lt_succ_self _)⟩
  | @term b B s s' hB hs h ih =>
    obtain ⟨s1, s2, l, h1, rfl, -, -, hret⟩ := visitTerm_ok hs.ownership h
    have hp : ∀ e ∈ s1.ra.activeSet, ∀ U, e.lastUser = some U → Before (.start (b + 1)) U := by
      refine Steps.lastUser ?_ h1 hs.ownership fun e he U hU => ?_
      · exact Nat.lt_succ_self b
      · rcases ih e he U hU with h | h
        · exact Nat.lt_succ_of_lt h
        · exact Nat.lt_succ_of_le h.1.le
    obtain ⟨-, rfl⟩ | ⟨-, hclear⟩ := hret
    · exact hp
    · have hnil := (clearRA_ok (d := phiSite ⟨0, 0⟩) hclear).2.1
      intro e he
      have he : e ∈ s2.ra.activeSet := he
      rw [hnil] at he
      cases he

/-- Without casts that are not emitted, every resident value is read from its own register. -/
theorem Reaches.readsOwn {c : Ctx} (hcast : NoAliasedCast c) {p : Point} {s : State}
    (h : Reaches c p s) : ReadsOwn s := by
  have hsteps : ∀ {d : Site} {s s' : State}, ¬d.aliased → Steps c d s s' → Ownership s.ra →
      ReadsOwn s → ReadsOwn s' := by
    intro d s s' hd hst ho hs
    refine (hst.invariant (p := ReadsOwn) (fun s1 s2 ho1 hs1 hstep e he j hj => ?_) ho hs).2
    obtain ⟨e', he', hsrc, hreg, -, hval⟩ | ⟨-, -, -, v, hval, hv⟩ := hstep.active ho1 he
    · rw [← hreg]
      exact hs1 e' he' j (by rw [hsrc, ← hval, hj])
    · rw [hj] at hval
      cases hval
      rcases hv with hv | hv | hv
      · cases hv
        rfl
      · exact absurd rfl (hv j)
      · exact absurd hv hd
  induction h with
  | init => exact fun e he => by cases he
  | begin hB hs h ih =>
    intro e he j hj
    rw [(visitBasicBlock_ok h).2.2.2.1] at hj
    cases hj
  | phi hB hn hs h ih => exact hsteps id (visitPHINode_steps hs.ownership h) hs.ownership ih
  | inst hB hx hs h ih =>
    exact hsteps (hcast _ _ _ _ _ hB hx hs) (visitInst_steps hs.ownership h) hs.ownership ih
  | @term b B s s' hB hs h ih =>
    obtain ⟨s1, s2, l, h1, rfl, -, -, hret⟩ := visitTerm_ok hs.ownership h
    have hown1 := hsteps (d := B.termSite c.F b) id h1 hs.ownership ih
    obtain ⟨-, rfl⟩ | ⟨-, hclear⟩ := hret
    · exact hown1
    · intro e he
      have he : e ∈ s2.ra.activeSet := he
      rw [(clearRA_ok (d := phiSite ⟨0, 0⟩) hclear).2.1] at he
      cases he

end SwppCompiler.Backend
