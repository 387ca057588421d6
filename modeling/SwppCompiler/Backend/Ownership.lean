import SwppCompiler.Backend.RegisterAllocator
import Mathlib

/-!
# Who owns a register

`Ownership` is the invariant of `RegisterAllocator`: each of the registers 1, …, 16 is exactly once
either free, or temporary, or given to one source, and no source has two registers.

* `Ownership.request`, `Ownership.update`, `Ownership.evict`, …: one operation keeps it.
* `Ownership.run`: every sequence of operations that violates no assertion keeps it.
* `runCalls_ownership`: what it says about `get`, temporary registers and requests after an eviction.
-/

namespace SwppCompiler.Backend

namespace RegisterAllocator

variable {ι : Type}

/-- The registers held by the active set. -/
def activeRegs (ra : RegisterAllocator ι) : List ℕ := ra.activeSet.map Allocation.regId

/-- The sources of the active set. -/
def activeSources (ra : RegisterAllocator ι) : List ι := ra.activeSet.map Allocation.source

/-- The free stack, the temporary registers and the active registers partition `{1, …, 16}`, with
    multiplicities; no source is active twice. -/
structure Ownership (ra : RegisterAllocator ι) : Prop where
  partition : (ra.freeRegisters : Multiset ℕ) + ra.tempRegisters.val + (ra.activeRegs : Multiset ℕ) =
    (Finset.Icc 1 maxRegN).val
  sources : ra.activeSources.Nodup

namespace Ownership

variable {ra ra' : RegisterAllocator ι}

theorem nodup (h : Ownership ra) : ((ra.freeRegisters : Multiset ℕ) + ra.tempRegisters.val +
    (ra.activeRegs : Multiset ℕ)).Nodup := by
  rw [h.partition]; exact (Finset.Icc 1 maxRegN).nodup

theorem free_nodup (h : Ownership ra) : ra.freeRegisters.Nodup :=
  Multiset.coe_nodup.mp (Multiset.nodup_add.mp (Multiset.nodup_add.mp h.nodup).1).1

theorem regs_nodup (h : Ownership ra) : ra.activeRegs.Nodup :=
  Multiset.coe_nodup.mp (Multiset.nodup_add.mp h.nodup).2.1

theorem free_disjoint_temp (h : Ownership ra) {r : ℕ} (hf : r ∈ ra.freeRegisters) :
    r ∉ ra.tempRegisters := fun ht =>
  Multiset.disjoint_left.mp (Multiset.nodup_add.mp (Multiset.nodup_add.mp h.nodup).1).2.2
    (Multiset.mem_coe.mpr hf) ht

theorem active_disjoint_free (h : Ownership ra) {r : ℕ} (ha : r ∈ ra.activeRegs) :
    r ∉ ra.freeRegisters := fun hf =>
  Multiset.disjoint_left.mp (Multiset.nodup_add.mp h.nodup).2.2
    (Multiset.mem_add.mpr (Or.inl (Multiset.mem_coe.mpr hf))) (Multiset.mem_coe.mpr ha)

theorem active_disjoint_temp (h : Ownership ra) {r : ℕ} (ha : r ∈ ra.activeRegs) :
    r ∉ ra.tempRegisters := fun ht =>
  Multiset.disjoint_left.mp (Multiset.nodup_add.mp h.nodup).2.2
    (Multiset.mem_add.mpr (Or.inr ht)) (Multiset.mem_coe.mpr ha)

/-- A register has an owner iff it is one of `r1`, …, `r16`. -/
theorem owned_iff (h : Ownership ra) (r : ℕ) :
    r ∈ ra.freeRegisters ∨ r ∈ ra.tempRegisters ∨ r ∈ ra.activeRegs ↔ 1 ≤ r ∧ r ≤ 16 := by
  have hm : r ∈ (ra.freeRegisters : Multiset ℕ) + ra.tempRegisters.val +
      (ra.activeRegs : Multiset ℕ) ↔ r ∈ (Finset.Icc 1 maxRegN).val := by rw [h.partition]
  simpa [Multiset.mem_add, or_assoc, maxRegN] using hm

theorem zero_notMem_free (h : Ownership ra) : 0 ∉ ra.freeRegisters := fun h0 => by
  have := (h.owned_iff 0).mp (Or.inl h0)
  omega

theorem init [DecidableEq ι] : Ownership (RegisterAllocator.init : RegisterAllocator ι) where
  partition := by
    have h16 : ((List.range' 1 maxRegN : List ℕ) : Multiset ℕ) = (Finset.Icc 1 maxRegN).val := by
      decide
    simpa [RegisterAllocator.init, activeRegs] using h16
  sources := List.nodup_nil

/-! ## One operation -/

theorem requestTempRegister (h : Ownership ra) {regId k : ℕ}
    (hr : ra.requestTempRegister regId = .ok (k, ra')) : Ownership ra' := by
  obtain ⟨-, ⟨-, rfl, -, -⟩ | ⟨-, hk, -, -, rfl⟩⟩ :=
    requestTempRegister_ok h.zero_notMem_free h.free_nodup hr
  · exact h
  · have hfree : (ra.freeRegisters : Multiset ℕ) = k ::ₘ (ra.freeRegisters.erase k : Multiset ℕ) :=
      Multiset.coe_eq_coe.mpr (List.perm_cons_erase hk)
    constructor
    · rw [← h.partition, hfree, Finset.insert_val_of_notMem (h.free_disjoint_temp hk)]
      simp only [activeRegs, Multiset.cons_add, Multiset.add_cons]
    · exact h.sources

theorem giveUpTempRegister (h : Ownership ra) {regId : ℕ}
    (hg : ra.giveUpTempRegister regId = .ok ra') : Ownership ra' := by
  obtain ⟨hm, rfl⟩ := giveUpTempRegister_ok hg
  constructor
  · have htemp : ra.tempRegisters.val = regId ::ₘ (ra.tempRegisters.erase regId).val := by
      rw [Finset.erase_val, Multiset.cons_erase hm]
    rw [← h.partition, htemp, ← Multiset.cons_coe]
    simp only [activeRegs, Multiset.cons_add, Multiset.add_cons]
  · exact h.sources

theorem reportUser (h : Ownership ra) (u : Option ι) : Ownership (ra.reportUser u) :=
  ⟨h.partition, h.sources⟩

variable [DecidableEq ι]

theorem request (h : Ownership ra) {source : ι} {k : ℕ} (hr : ra.request source = .ok (k, ra')) :
    Ownership ra' := by
  obtain ⟨hfresh, ⟨-, -, rfl⟩ | ⟨free, hf, -, rfl⟩⟩ := request_ok h.zero_notMem_free hr
  · exact h
  · constructor
    · rw [← h.partition, hf]
      simp only [activeRegs, List.map_append, List.map_cons, List.map_nil]
      rw [← Multiset.coe_add, Multiset.coe_singleton, ← Multiset.cons_coe,
        ← Multiset.singleton_add k (free : Multiset ℕ)]
      abel
    · simp only [activeSources, List.map_append, List.map_cons, List.map_nil]
      refine List.Nodup.append h.sources (List.nodup_singleton _) ?_
      intro s hs h1
      obtain ⟨e, he, rfl⟩ := List.mem_map.mp hs
      exact hfresh e he (List.mem_singleton.mp h1)

theorem update (h : Ownership ra) {source : ι} {user : Option ι} {nextAdvent : ℕ}
    (hu : ra.update source user nextAdvent = .ok ra') : Ownership ra' := by
  obtain ⟨l1, e, l2, ha, -, -, hperm, hra⟩ := update_ok hu
  have hregs : ra'.activeRegs.Perm ra.activeRegs := by
    simpa [activeRegs, ha] using hperm.map Allocation.regId
  have hsrc : ra'.activeSources.Perm ra.activeSources := by
    simpa [activeSources, ha] using hperm.map Allocation.source
  constructor
  · rw [Multiset.coe_eq_coe.mpr hregs, hra]
    exact h.partition
  · exact hsrc.nodup_iff.mpr h.sources

theorem evict (h : Ownership ra) {regId : ℕ} {r : Option (Allocation ι)}
    (he : ra.evict regId = .ok (r, ra')) : Ownership ra' := by
  obtain ⟨-, -, rfl⟩ | ⟨victim, -, hperm, -, -, hra⟩ := evict_ok he
  · exact h
  · have hregs : ra.activeRegs.Perm (victim.regId :: ra'.activeRegs) := by
      simpa [activeRegs] using hperm.map Allocation.regId
    have hsrc : ra.activeSources.Perm (victim.source :: ra'.activeSources) := by
      simpa [activeSources] using hperm.map Allocation.source
    have hfree : ra'.freeRegisters = victim.regId :: ra.freeRegisters := by rw [hra]
    have htemp : ra'.tempRegisters = ra.tempRegisters := by rw [hra]
    constructor
    · rw [← h.partition, Multiset.coe_eq_coe.mpr hregs, hfree, htemp]
      simp only [← Multiset.cons_coe, Multiset.cons_add, Multiset.add_cons]
    · exact (List.nodup_cons.mp (hsrc.nodup_iff.mp h.sources)).2

end Ownership

/-! ## Looking up a source -/

variable [DecidableEq ι]

theorem get_eq_of_mem {ra : RegisterAllocator ι} (h : ra.activeSources.Nodup) {e : Allocation ι}
    (he : e ∈ ra.activeSet) : ra.get e.source = e.regId := by
  unfold get
  cases hf : ra.activeSet.find? (fun d => d.source = e.source) with
  | none =>
    have := List.find?_eq_none.mp hf e he
    simp at this
  | some d =>
    have hd : d.source = e.source := by simpa using List.find?_some hf
    rw [List.inj_on_of_nodup_map h (List.mem_of_find?_eq_some hf) he hd]

/-- `get` reads the active set only. -/
theorem get_congr {ra ra' : RegisterAllocator ι} (h : ra'.activeSet = ra.activeSet) (source : ι) :
    ra'.get source = ra.get source := by
  unfold get
  rw [h]

theorem mem_of_get_ne_zero {ra : RegisterAllocator ι} {source : ι} (h : ra.get source ≠ 0) :
    ∃ e ∈ ra.activeSet, e.source = source ∧ e.regId = ra.get source := by
  unfold get at h ⊢
  cases hf : ra.activeSet.find? (fun e => e.source = source) with
  | none => simp [hf] at h
  | some e =>
    exact ⟨e, List.mem_of_find?_eq_some hf, by simpa using List.find?_some hf, rfl⟩

theorem Ownership.get_eq_zero_iff {ra : RegisterAllocator ι} (h : Ownership ra) {source : ι} :
    ra.get source = 0 ↔ ∀ e ∈ ra.activeSet, e.source ≠ source := by
  constructor
  · rintro h0 e he rfl
    rw [get_eq_of_mem h.sources he] at h0
    have := (h.owned_iff e.regId).mp (Or.inr (Or.inr (List.mem_map_of_mem he)))
    omega
  · intro hall
    by_contra h0
    obtain ⟨e, he, hs, -⟩ := mem_of_get_ne_zero h0
    exact hall e he hs

/-- Two sources never share a register. -/
theorem Ownership.get_injective {ra : RegisterAllocator ι} (h : Ownership ra) {s t : ι}
    (hst : ra.get s = ra.get t) (h0 : ra.get s ≠ 0) : s = t := by
  obtain ⟨d, hd, hds, hdr⟩ := mem_of_get_ne_zero h0
  obtain ⟨e, he, het, her⟩ := mem_of_get_ne_zero (hst ▸ h0)
  have : d = e := List.inj_on_of_nodup_map h.regs_nodup hd he (by rw [hdr, her, hst])
  rw [← hds, ← het, this]

theorem Ownership.get_notMem_temp {ra : RegisterAllocator ι} (h : Ownership ra) {s : ι}
    (h0 : ra.get s ≠ 0) : ra.get s ∉ ra.tempRegisters := by
  obtain ⟨e, he, -, her⟩ := mem_of_get_ne_zero h0
  rw [← her]
  exact h.active_disjoint_temp (List.mem_map_of_mem he)

/-- After an eviction that returned an allocation a request finds its register. -/
theorem Ownership.request_after_evict {ra ra' : RegisterAllocator ι} (h : Ownership ra)
    {regId : ℕ} {victim : Allocation ι} (he : ra.evict regId = .ok (some victim, ra')) {s : ι}
    (hs : ∀ e ∈ ra'.activeSet, e.source ≠ s) :
    ∃ ra'', ra'.request s = .ok (victim.regId, ra'') ∧ victim.regId ≠ 0 := by
  have h' := h.evict he
  obtain ⟨-, hnone, -⟩ | ⟨v, hv, -, -, -, hra⟩ := evict_ok he
  · cases hnone
  · cases hv
    have hfree : ra'.freeRegisters = victim.regId :: ra.freeRegisters := by rw [hra]
    obtain ⟨⟨k, ra''⟩, hr⟩ := request_isOk hs
    obtain ⟨-, ⟨hnil, -⟩ | ⟨free, hcons, hk, -⟩⟩ := request_ok h'.zero_notMem_free hr
    · rw [hfree] at hnil; cases hnil
    · rw [hfree] at hcons
      cases hcons
      exact ⟨ra'', hr, hk⟩

/-! ## The active set after an operation -/

/-- Under the policy or with a target, an eviction removes one allocation. -/
theorem Ownership.mem_evict {ra ra' : RegisterAllocator ι} (h : Ownership ra) {regId : ℕ}
    {victim : Allocation ι} (he : ra.evict regId = .ok (some victim, ra')) :
    victim ∈ ra.activeSet ∧
      ∀ e, e ∈ ra'.activeSet ↔ e ∈ ra.activeSet ∧ e.source ≠ victim.source := by
  obtain ⟨-, hnone, -⟩ | ⟨v, hv, hperm, -, -, -⟩ := evict_ok he
  · cases hnone
  · cases hv
    have hsrc : (victim.source :: ra'.activeSources).Nodup := by
      refine (List.Perm.nodup_iff ?_).mp h.sources
      simpa [activeSources] using hperm.map Allocation.source
    refine ⟨hperm.mem_iff.mpr List.mem_cons_self, fun e => ?_⟩
    rw [hperm.mem_iff, List.mem_cons]
    constructor
    · intro he'
      refine ⟨Or.inr he', fun heq => (List.nodup_cons.mp hsrc).1 ?_⟩
      exact heq ▸ List.mem_map_of_mem he'
    · rintro ⟨rfl | he', hne⟩
      · exact absurd rfl hne
      · exact he'

/-- A successful request takes the top of the free stack. -/
theorem Ownership.mem_request {ra ra' : RegisterAllocator ι} (h : Ownership ra) {source : ι} {k : ℕ}
    (hr : ra.request source = .ok (k, ra')) (hk : k ≠ 0) :
    k ∈ ra.freeRegisters ∧ (∀ e ∈ ra.activeSet, e.source ≠ source) ∧
      ∀ e, e ∈ ra'.activeSet ↔ e ∈ ra.activeSet ∨ e = ⟨source, none, k, 0⟩ := by
  obtain ⟨hfresh, ⟨-, h0, -⟩ | ⟨free, hf, -, rfl⟩⟩ := request_ok h.zero_notMem_free hr
  · exact absurd h0 hk
  · refine ⟨by rw [hf]; exact List.mem_cons_self, hfresh, fun e => ?_⟩
    rw [List.mem_append, List.mem_singleton]

/-- An update changes the last user and the next use of one allocation. -/
theorem Ownership.mem_update {ra ra' : RegisterAllocator ι} (h : Ownership ra) {source : ι}
    {user : Option ι} {n : ℕ} (hu : ra.update source user n = .ok ra') :
    ∃ d ∈ ra.activeSet, d.source = source ∧ ∀ e, e ∈ ra'.activeSet ↔
      (e ∈ ra.activeSet ∧ e.source ≠ source) ∨
        e = { d with lastUser := user, nextAdvent := n } := by
  obtain ⟨l1, d, l2, ha, hd, -, hperm, -⟩ := update_ok hu
  have hnodup := h.sources
  rw [activeSources, ha, List.map_append, List.map_cons] at hnodup
  obtain ⟨-, hnodup2, hdis⟩ := List.nodup_append.mp hnodup
  refine ⟨d, by simp [ha], hd, fun e => ?_⟩
  rw [hperm.mem_iff, ha]
  simp only [List.mem_append, List.mem_cons]
  have h1 : e ∈ l1 → e.source ≠ source := fun he heq =>
    hdis _ (List.mem_map_of_mem he) _ List.mem_cons_self (heq.trans hd.symm)
  have h2 : e ∈ l2 → e.source ≠ source := fun he heq =>
    (List.nodup_cons.mp hnodup2).1 (by rw [hd, ← heq]; exact List.mem_map_of_mem he)
  constructor
  · rintro (he | rfl | he)
    · exact Or.inl ⟨Or.inl he, h1 he⟩
    · exact Or.inr rfl
    · exact Or.inl ⟨Or.inr (Or.inr he), h2 he⟩
  · rintro (⟨he | rfl | he, hne⟩ | rfl)
    · exact Or.inl he
    · exact absurd hd hne
    · exact Or.inr (Or.inr he)
    · exact Or.inr (Or.inl rfl)

/-- A register given by `request` and `update` is the one that `get` finds. -/
theorem Ownership.get_request {ra ra1 ra2 : RegisterAllocator ι} {I : ι} {k n : ℕ}
    {U : Option ι} (h : Ownership ra) (hr : ra.request I = .ok (k, ra1)) (hk : k ≠ 0)
    (hu : ra1.update I U n = .ok ra2) : ra2.get I = k := by
  obtain ⟨-, hfresh, hmem⟩ := h.mem_request hr hk
  have h1 := h.request hr
  obtain ⟨e, he, hes, hmem2⟩ := h1.mem_update hu
  have hek : e.regId = k := by
    rcases (hmem e).mp he with he' | rfl
    · exact absurd hes (hfresh e he')
    · rfl
  have := get_eq_of_mem (h1.update hu).sources ((hmem2 _).mpr (Or.inr rfl))
  simpa [hes, hek] using this

/-- An update changes no register. -/
theorem Ownership.get_update {ra ra' : RegisterAllocator ι} {I : ι} {n : ℕ}
    {U : Option ι} (h : Ownership ra) (hu : ra.update I U n = .ok ra') (J : ι) :
    ra'.get J = ra.get J := by
  obtain ⟨d, hd, hds, hmem⟩ := h.mem_update hu
  have h' := h.update hu
  by_cases hJ : ∃ e ∈ ra.activeSet, e.source = J
  · obtain ⟨e, he, rfl⟩ := hJ
    rw [get_eq_of_mem h.sources he]
    by_cases heI : e.source = I
    · have hed : e = d := List.inj_on_of_nodup_map h.sources he hd (heI.trans hds.symm)
      have := get_eq_of_mem h'.sources ((hmem _).mpr (Or.inr rfl))
      rw [hed]
      exact this
    · exact get_eq_of_mem h'.sources ((hmem e).mpr (Or.inl ⟨he, heI⟩))
  · have h0 : ra.get J = 0 := h.get_eq_zero_iff.mpr fun e he hs => hJ ⟨e, he, hs⟩
    rw [h0]
    refine h'.get_eq_zero_iff.mpr fun e he hs => ?_
    rcases (hmem e).mp he with ⟨he, -⟩ | rfl
    · exact hJ ⟨e, he, hs⟩
    · exact hJ ⟨d, hd, hs⟩

omit [DecidableEq ι] in
/-- Temporary registers never touch the active set. -/
theorem Ownership.activeSet_requestTempRegister {ra ra' : RegisterAllocator ι} (h : Ownership ra)
    {regId k : ℕ} (hr : ra.requestTempRegister regId = .ok (k, ra')) :
    ra'.activeSet = ra.activeSet := by
  obtain ⟨-, ⟨-, rfl, -, -⟩ | ⟨-, -, -, -, rfl⟩⟩ :=
    requestTempRegister_ok h.zero_notMem_free h.free_nodup hr <;> rfl

omit [DecidableEq ι] in
theorem activeSet_giveUpTempRegister {ra ra' : RegisterAllocator ι} {regId : ℕ}
    (hg : ra.giveUpTempRegister regId = .ok ra') : ra'.activeSet = ra.activeSet := by
  obtain ⟨-, rfl⟩ := giveUpTempRegister_ok hg
  rfl

/-! ## Sequences of operations -/

/-- A call of a public method. A register id of 0 stands for a call without a target. -/
inductive Call (ι : Type)
  | request (source : ι)
  | update (source : ι) (user : Option ι) (nextAdvent : ℕ)
  | evict (regId : ℕ)
  | requestTempRegister (regId : ℕ)
  | giveUpTempRegister (regId : ℕ)
  | reportUser (user : Option ι)

/-- The state after a call that violates no assertion. -/
def Call.run (ra : RegisterAllocator ι) : Call ι → Except Fault (RegisterAllocator ι)
  | .request source => (ra.request source).map Prod.snd
  | .update source user nextAdvent => ra.update source user nextAdvent
  | .evict regId => (ra.evict regId).map Prod.snd
  | .requestTempRegister regId => (ra.requestTempRegister regId).map Prod.snd
  | .giveUpTempRegister regId => ra.giveUpTempRegister regId
  | .reportUser user => .ok (ra.reportUser user)

/-- The state after a sequence of calls. -/
def runCalls (ra : RegisterAllocator ι) (calls : List (Call ι)) :
    Except Fault (RegisterAllocator ι) :=
  calls.foldlM Call.run ra

omit [DecidableEq ι] in
theorem map_snd_ok {α : Type} {x : Except Fault (α × RegisterAllocator ι)}
    {ra : RegisterAllocator ι} (h : x.map Prod.snd = .ok ra) : ∃ a, x = .ok (a, ra) := by
  cases x with
  | error f => cases h
  | ok p => cases h; exact ⟨p.1, rfl⟩

theorem Ownership.call {ra ra' : RegisterAllocator ι} (h : Ownership ra) {c : Call ι}
    (hc : Call.run ra c = .ok ra') : Ownership ra' := by
  cases c with
  | request source => obtain ⟨k, hk⟩ := map_snd_ok hc; exact h.request hk
  | update source user nextAdvent => exact h.update hc
  | evict regId => obtain ⟨r, hr⟩ := map_snd_ok hc; exact h.evict hr
  | requestTempRegister regId => obtain ⟨k, hk⟩ := map_snd_ok hc; exact h.requestTempRegister hk
  | giveUpTempRegister regId => exact h.giveUpTempRegister hc
  | reportUser user => cases hc; exact h.reportUser user

theorem Ownership.run {calls : List (Call ι)} :
    ∀ {ra ra' : RegisterAllocator ι}, Ownership ra → runCalls ra calls = .ok ra' →
      Ownership ra' := by
  induction calls with
  | nil => intro ra ra' h hr; cases hr; exact h
  | cons c calls ih =>
    intro ra ra' h hr
    simp only [runCalls, List.foldlM_cons] at hr
    cases hc : Call.run ra c with
    | error f => rw [hc] at hr; cases hr
    | ok ra1 => rw [hc] at hr; exact ih (h.call hc) hr

/-- **Register ownership.** After every sequence of public operations, from the constructor, that
    violates no assertion: the free stack, the temporary registers and the active registers
    partition `{1, …, 16}`; every source is active at most once; `get` gives two sources different
    registers and no source a temporary one; and a request after an eviction succeeds. -/
theorem runCalls_ownership {calls : List (Call ι)} {ra : RegisterAllocator ι}
    (h : runCalls init calls = .ok ra) :
    ((ra.freeRegisters : Multiset ℕ) + ra.tempRegisters.val +
      ((ra.activeSet.map Allocation.regId : List ℕ) : Multiset ℕ) = (Finset.Icc 1 16).val) ∧
    (ra.activeSet.map Allocation.source).Nodup ∧
    (∀ s t, ra.get s = ra.get t → ra.get s ≠ 0 → s = t) ∧
    (∀ s, ra.get s ≠ 0 → ra.get s ∉ ra.tempRegisters) ∧
    (∀ regId victim ra', ra.evict regId = .ok (some victim, ra') →
      ∀ s, (∀ e ∈ ra'.activeSet, e.source ≠ s) →
        ∃ k ra'', ra'.request s = .ok (k, ra'') ∧ k ≠ 0) := by
  have ho : Ownership ra := Ownership.init.run h
  refine ⟨ho.partition, ho.sources, fun s t => ho.get_injective, fun s => ho.get_notMem_temp, ?_⟩
  intro regId victim ra' he s hs
  obtain ⟨ra'', hr, h0⟩ := ho.request_after_evict he hs
  exact ⟨victim.regId, ra'', hr, h0⟩

/-- A run through every kind of operation, with an eviction of a chosen register. -/
def exampleCalls : List (Call ℕ) :=
  [.requestTempRegister 16, .request 7, .update 7 none 3, .request 8, .update 8 (some 1) 5,
    .reportUser (some 2), .evict 0, .requestTempRegister 0, .giveUpTempRegister 16, .evict 1]

/-- The state `exampleCalls` leaves: register 2 was evicted from source 8, register 1 from 7. -/
def exampleState : RegisterAllocator ℕ where
  freeRegisters := [1, 16, 3, 4, 5, 6, 7, 8, 9, 10, 11, 12, 13, 14, 15]
  tempRegisters := {2}
  activeSet := []
  currentUser := some 2

theorem runCalls_ownership_example :
    ((exampleState.freeRegisters : Multiset ℕ) + exampleState.tempRegisters.val +
      ((exampleState.activeSet.map Allocation.regId : List ℕ) : Multiset ℕ) =
        (Finset.Icc 1 16).val) :=
  have hrun : runCalls init exampleCalls = .ok exampleState := by rfl
  (runCalls_ownership hrun).1

end RegisterAllocator

end SwppCompiler.Backend
