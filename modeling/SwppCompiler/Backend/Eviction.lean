import SwppCompiler.Backend.Arguments

/-!
# Which register is evicted

`ActiveSet` is a heap on `NextAdvent`. `request` appends to it without sifting, and `getVictim` pops
allocations out of it; `update` and `evict` rebuild it.

* `HeapOrdered.call`: every operation leaves a heap.
* `HeapOrdered.evict`: without a target, `evict` takes an allocation whose next use is the latest
  among those that the current user does not protect.
* `evictionChoice`: this holds after every sequence of operations; so a visitor that announces
  itself with `reportUser` keeps the registers of its operands.
-/

namespace SwppCompiler.Backend

open Lib.Heap Lib.StateExcept

namespace RegisterAllocator

variable {ι : Type}

theorem strictWeak_cmp : StrictWeak (Allocation.cmp : Allocation ι → Allocation ι → Bool) where
  asymm := by
    intro x y h
    simp only [Allocation.cmp, decide_eq_true_eq, decide_eq_false_iff_not] at h ⊢
    omega
  trans := by
    intro x y z hxy hyz
    simp only [Allocation.cmp, decide_eq_false_iff_not] at hxy hyz ⊢
    omega

/-- `std::is_heap(ActiveSet.begin(), ActiveSet.end(), Cmp)`. -/
def HeapOrdered (ra : RegisterAllocator ι) : Prop :=
  IsHeap Allocation.cmp ra.activeSet.length ra.activeSet

/-- The current user does not protect the allocation. The null user protects none. -/
def Evictable (ra : RegisterAllocator ι) (e : Allocation ι) : Prop :=
  ra.currentUser = none ∨ e.lastUser ≠ ra.currentUser

/-- `evict()` takes an evictable allocation with the latest next use. -/
def EvictsLatest [DecidableEq ι] (ra : RegisterAllocator ι) : Prop :=
  ∃ victim ra', ra.evict 0 = .ok (some victim, ra') ∧ victim ∈ ra.activeSet ∧
    Evictable ra victim ∧ ∀ e ∈ ra.activeSet, Evictable ra e → e.nextAdvent ≤ victim.nextAdvent

/-! ## The heap -/

/-- An allocation without a next use can be appended to a heap. -/
theorem isHeap_append {l : List (Allocation ι)} {e : Allocation ι} (he : e.nextAdvent = 0)
    (h : IsHeap Allocation.cmp l.length l) :
    IsHeap Allocation.cmp (l ++ [e]).length (l ++ [e]) := by
  intro i h0 hi _
  have hp := parent_lt h0
  rw [List.length_append, List.length_singleton] at hi
  have hpl : parent i < l.length := by omega
  unfold ltAt
  rw [List.getElem?_append_left hpl]
  by_cases hil : i < l.length
  · rw [List.getElem?_append_left hil]
    exact h i h0 hil (Nat.zero_le _)
  · obtain rfl : i = l.length := by omega
    rw [List.getElem?_concat_length, List.getElem?_eq_getElem hpl]
    simp [Allocation.cmp, he]

/-- The first element of a heap has the latest next use. -/
theorem nextAdvent_le_root {n : ℕ} {l : List (Allocation ι)} {e v : Allocation ι} {i : ℕ}
    (h : IsHeap Allocation.cmp n l) (hn : n ≤ l.length) (hi : i < n) (he : l[i]? = some e)
    (hv : l[0]? = some v) : e.nextAdvent ≤ v.nextAdvent := by
  have := h.root strictWeak_cmp hn hi
  simp only [ltAt, he, hv, Allocation.cmp, decide_eq_false_iff_not] at this
  omega

variable [DecidableEq ι] {ra ra' : RegisterAllocator ι}

theorem HeapOrdered.call (h : HeapOrdered ra) (ho : Ownership ra) {c : Call ι}
    (hc : Call.run ra c = .ok ra') : HeapOrdered ra' := by
  cases c with
  | request source =>
    obtain ⟨k, hk⟩ := map_snd_ok hc
    obtain ⟨-, ⟨-, -, rfl⟩ | ⟨free, -, -, rfl⟩⟩ := request_ok ho.zero_notMem_free hk
    · exact h
    · exact isHeap_append rfl h
  | update source user nextAdvent =>
    show HeapOrdered ra'
    simp only [Call.run, update] at hc
    split at hc
    · cases hc
      exact makeHeap_isHeap strictWeak_cmp _
    · cases hc
  | evict regId =>
    obtain ⟨r, hr⟩ := map_snd_ok hc
    unfold evict at hr
    split_ifs at hr
    · cases hr
      exact h
    · split at hr
      · cases hr
      · split at hr
        · cases hr
        · cases hr
          exact makeHeap_isHeap strictWeak_cmp _
  | requestTempRegister regId =>
    obtain ⟨k, hk⟩ := map_snd_ok hc
    rw [HeapOrdered, ho.activeSet_requestTempRegister hk]
    exact h
  | giveUpTempRegister regId =>
    rw [HeapOrdered, activeSet_giveUpTempRegister hc]
    exact h
  | reportUser user =>
    cases hc
    exact h

theorem HeapOrdered.run {calls : List (Call ι)} : ∀ {ra ra' : RegisterAllocator ι},
    HeapOrdered ra → Ownership ra → runCalls ra calls = .ok ra' → HeapOrdered ra' := by
  induction calls with
  | nil =>
    intro ra ra' h _ hr
    cases hr
    exact h
  | cons c calls ih =>
    intro ra ra' h ho hr
    simp only [runCalls, List.foldlM_cons] at hr
    cases hc : Call.run ra c with
    | error f =>
      rw [hc] at hr
      cases hr
    | ok ra1 =>
      rw [hc] at hr
      exact ih (h.call ho hc) (ho.call hc) hr

/-! ## The victim -/

/-- The search pops the allocations of the current user out of the heap; the first one that is left
    has the latest next use of all that are not the current user's. -/
theorem skipCurrentUser_latest {u : ι} : ∀ {n : ℕ} {l : List (Allocation ι)}, n ≤ l.length →
    IsHeap Allocation.cmp n l →
    (∀ i e, n ≤ i → l[i]? = some e → e.lastUser = some u) →
    (∃ e ∈ l, e.lastUser ≠ some u) →
      ∃ l' v, skipCurrentUser u n l = .ok l' ∧ l'[0]? = some v ∧ v.lastUser ≠ some u ∧
        ∀ e ∈ l, e.lastUser ≠ some u → e.nextAdvent ≤ v.nextAdvent := by
  intro n
  induction n with
  | zero =>
    intro l _ _ hpopped ⟨e, he, hne⟩
    obtain ⟨i, hi⟩ := List.mem_iff_getElem?.mp he
    exact absurd (hpopped i e (Nat.zero_le i) hi) hne
  | succ n ih =>
    intro l hn hheap hpopped hex
    obtain ⟨v, hv⟩ : ∃ v, l[0]? = some v := ⟨_, List.getElem?_eq_getElem (by omega)⟩
    rw [skipCurrentUser, List.head?_eq_getElem?, hv, Option.bind_some]
    by_cases hu : v.lastUser = some u
    · rw [if_pos hu]
      by_cases h0 : n = 0
      · obtain ⟨e, he, hne⟩ := hex
        obtain ⟨i, hi⟩ := List.mem_iff_getElem?.mp he
        rcases Nat.eq_zero_or_pos i with rfl | hpos
        · rw [hv] at hi
          cases hi
          exact absurd hu hne
        · exact absurd (hpopped i e (by omega) hi) hne
      · rw [if_neg h0]
        have hperm := popHeap_perm (Allocation.cmp (ι := ι)) l (n + 1)
        obtain ⟨l', w, hl', hw, hne, hmax⟩ := ih (l := popHeap Allocation.cmp l (n + 1))
          (by rw [hperm.length_eq]; omega) (popHeap_isHeap strictWeak_cmp hn hheap)
          (fun i e hi he => by
            rw [getElem?_popHeap strictWeak_cmp hn hi] at he
            by_cases hin : i = n
            · rw [if_pos hin, hv] at he
              cases he
              exact hu
            · rw [if_neg hin] at he
              exact hpopped i e (by omega) he)
          (by
            obtain ⟨e, he, hne⟩ := hex
            exact ⟨e, hperm.mem_iff.mpr he, hne⟩)
        exact ⟨l', w, hl', hw, hne, fun e he => hmax e (hperm.mem_iff.mpr he)⟩
    · rw [if_neg hu]
      refine ⟨l, v, rfl, hv, hu, fun e he hne => ?_⟩
      obtain ⟨i, hi⟩ := List.mem_iff_getElem?.mp he
      by_cases hin : i < n + 1
      · exact nextAdvent_le_root hheap hn hin hi hv
      · exact absurd (hpopped i e (by omega) hi) hne

/-- Without a target the victim is the first element that the search leaves. -/
theorem evict_of_getVictim {l : List (Allocation ι)} {v : Allocation ι} (hne : ra.activeSet ≠ [])
    (hg : ra.getVictim 0 = .ok (0, l)) (hv : l[0]? = some v) :
    ∃ ra', ra.evict 0 = .ok (some v, ra') ∧ v ∈ ra.activeSet := by
  have hmem : v ∈ ra.activeSet := (getVictim_ok hg).1.mem_iff.mp (List.mem_of_getElem? hv)
  have hempty : ¬ra.activeSet.isEmpty = true := fun h => hne (List.isEmpty_iff.mp h)
  unfold evict
  rw [if_neg hempty, if_neg fun h => h.1 rfl, hg]
  simp only [hv]
  exact ⟨_, rfl, hmem⟩

theorem HeapOrdered.evict (h : HeapOrdered ra) (hex : ∃ e ∈ ra.activeSet, Evictable ra e) :
    EvictsLatest ra := by
  obtain ⟨d, hd, hde⟩ := hex
  have hne : ra.activeSet ≠ [] := List.ne_nil_of_mem hd
  cases hu : ra.currentUser with
  | none =>
    obtain ⟨v, hv⟩ : ∃ v, ra.activeSet[0]? = some v :=
      ⟨_, List.getElem?_eq_getElem (List.length_pos_of_ne_nil hne)⟩
    obtain ⟨ra', he, hmem⟩ := evict_of_getVictim hne (by simp [getVictim, hu]) hv
    refine ⟨v, ra', he, hmem, Or.inl hu, fun e he _ => ?_⟩
    obtain ⟨i, hi⟩ := List.mem_iff_getElem?.mp he
    exact nextAdvent_le_root h (Nat.le_refl _) (List.getElem?_eq_some_iff.mp hi).1 hi hv
  | some u =>
    have hiff : ∀ e, Evictable ra e ↔ e.lastUser ≠ some u := fun e => by
      simp [Evictable, hu]
    obtain ⟨l, v, hl, hv, hvu, hmax⟩ := skipCurrentUser_latest (u := u) (Nat.le_refl _) h
      (fun i e hi he => by
        have := (List.getElem?_eq_some_iff.mp he).1
        omega)
      ⟨d, hd, (hiff d).mp hde⟩
    obtain ⟨ra', he, hmem⟩ := evict_of_getVictim hne (by simp [getVictim, hu, hl, Except.map]) hv
    exact ⟨v, ra', he, hmem, (hiff v).mpr hvu, fun e he hee => hmax e he ((hiff e).mp hee)⟩

end RegisterAllocator

/-! ## The operands of an instruction -/

open RegisterAllocator

/-- The instructions whose visitor announces itself with `reportUser`, translates all operands, and
    then emits the instruction. -/
def Inst.announced : Inst → Prop
  | .store _ _ | .binary _ _ _ | .icmp _ _ _ | .select _ _ _ => True
  | _ => False

/-- The register that the translation of `V` returned is still its own. -/
def KeepsRegister (s : State) (V : Operand) (p : EmitVal × ℕ) : Prop :=
  ∀ J, V.inst? = some J → p.2 ≠ 0 ∧ s.ra.get J = p.2

/-- While the operands `Vs` are translated for `U`, those that have been translated keep their
    registers. -/
def OperandsKept (c : Ctx) (U : InstRef) (Vs : List Operand) (s : State) : Prop :=
  ∀ done rest vs ws s1 s2, Vs = done ++ rest → translateAll c U done s = .ok (vs, s1) →
    translateAll c U rest s1 = .ok (ws, s2) → List.Forall₂ (KeepsRegister s2) done vs

/-- `J` has register `k` and was last used by `U`. -/
def Protected (U : InstRef) (s : State) (J : InstRef) (k : ℕ) : Prop :=
  ∃ e ∈ s.ra.activeSet, e.source = J ∧ e.regId = k ∧ e.lastUser = some U

section Operands

variable {c : Ctx} {U J : InstRef} {k : ℕ} {s s' : State}

theorem Protected.keepsRegister (ho : Ownership s.ra) (h : Protected U s J k) :
    k ≠ 0 ∧ s.ra.get J = k := by
  obtain ⟨e, he, rfl, rfl, -⟩ := h
  have := (ho.owned_iff e.regId).mp (Or.inr (Or.inr (List.mem_map_of_mem he)))
  exact ⟨by omega, get_eq_of_mem ho.sources he⟩

theorem request_currentUser {ra ra' : RegisterAllocator InstRef} (ho : Ownership ra)
    (h : ra.request J = .ok (k, ra')) : ra'.currentUser = ra.currentUser := by
  obtain ⟨-, ⟨-, -, rfl⟩ | ⟨free, -, -, rfl⟩⟩ := request_ok ho.zero_notMem_free h
  · rfl
  · rfl

/-- The translation of an operand does not announce a user. -/
theorem translate_currentUser {V : Operand} {p : EmitVal × ℕ}
    (h : translateSrcOperandToTgt c V U s = .ok (p, s')) :
    s'.ra.currentUser = s.ra.currentUser :=
  congrArg Mode.user ((translate_mode _ s rfl).2 p s' h)

/-- What is evicted for an operand of the current user was not last used by it. -/
theorem reloadVictim_lastUser {a : Allocation InstRef} (hu : s.ra.currentUser = some U)
    (h : reloadVictim s J = some a) : a.lastUser ≠ some U := by
  unfold reloadVictim at h
  split_ifs at h
  split at h
  · rename_i r ra he
    obtain ⟨-, hnone, -⟩ | ⟨a', ha, -, -, hpolicy, -⟩ := evict_ok he
    · rw [hnone] at h
      cases h
    · rw [ha] at h
      cases h
      exact hpolicy rfl U hu
  · cases h

/-- The translation of an operand for the current user protects it, and keeps the others that are
    protected. -/
theorem Protected.translate {V : Operand} {p : EmitVal × ℕ} (ho : Ownership s.ra)
    (hu : s.ra.currentUser = some U) (h : translateSrcOperandToTgt c V U s = .ok (p, s')) :
    (∀ J k, Protected U s J k → Protected U s' J k) ∧
      ∀ J, V.inst? = some J → Protected U s' J p.2 := by
  obtain ⟨v, k⟩ := p
  cases hi : V.inst? with
  | none =>
    obtain ⟨rfl, -, -⟩ := translateConst_ok hi h
    exact ⟨fun _ _ hp => hp, fun _ h => nomatch h⟩
  | some I =>
    obtain ⟨val, ty⟩ := V
    cases val <;> cases hi
    have ht := translated_of_ok ho h
    obtain ⟨n, hactive⟩ := ht.active
    have hnew : Protected U s' I k := ⟨_, (hactive _).mpr (Or.inl rfl), rfl, rfl, rfl⟩
    refine ⟨?_, fun J hJ => by cases hJ; exact hnew⟩
    rintro J r ⟨e, he, rfl, rfl, hlast⟩
    by_cases hI : e.source = I
    · obtain ⟨⟨d, hd, hds, hdk⟩, -⟩ | ⟨hfresh, -⟩ := ht.code
      · have hed : e = d := List.inj_on_of_nodup_map ho.sources he hd (hI.trans hds.symm)
        rw [hI, hed, hdk]
        exact hnew
      · exact absurd hI (hfresh e he)
    · exact ⟨e, (hactive e).mpr (Or.inr ⟨he, hI, fun hv => reloadVictim_lastUser hu hv hlast⟩), rfl,
        rfl, hlast⟩

/-- The translation of several operands for the current user protects all of them. -/
theorem Protected.translateAll {Vs : List Operand} : ∀ {vs : List (EmitVal × ℕ)} {s s' : State},
    Ownership s.ra → s.ra.currentUser = some U → translateAll c U Vs s = .ok (vs, s') →
      Ownership s'.ra ∧ s'.ra.currentUser = some U ∧
      (∀ J k, Protected U s J k → Protected U s' J k) ∧
        List.Forall₂ (fun V p => ∀ J, V.inst? = some J → Protected U s' J p.2) Vs vs := by
  induction Vs with
  | nil =>
    intro vs s s' ho hu h
    obtain ⟨rfl, rfl⟩ := pure_ok_iff.mp h
    exact ⟨ho, hu, fun _ _ hp => hp, .nil⟩
  | cons V Vs ih =>
    intro vs s s' ho hu h
    simp only [Backend.translateAll, bind_ok_iff, pure_ok_iff] at h
    obtain ⟨⟨v, k⟩, s1, hv, ws, s2, hws, rfl, rfl⟩ := h
    have ho1 := translate_ownership ho hv
    obtain ⟨hkeep, hnew⟩ := Protected.translate ho hu hv
    obtain ⟨ho2, hu2, hkeep2, hnew2⟩ := ih ho1 ((translate_currentUser hv).trans hu) hws
    exact ⟨ho2, hu2, fun J k hp => hkeep2 J k (hkeep J k hp),
      .cons (fun J hJ => hkeep2 J k (hnew J hJ)) hnew2⟩

theorem operandsKept {Vs : List Operand} (ho : Ownership s.ra) (hu : s.ra.currentUser = some U) :
    OperandsKept c U Vs s := by
  intro done rest vs ws s1 s2 _ h1 h2
  obtain ⟨ho1, hu1, -, hdone⟩ := Protected.translateAll ho hu h1
  obtain ⟨ho2, -, hkeep, -⟩ := Protected.translateAll ho1 hu1 h2
  exact hdone.imp fun V p hp J hJ => (hkeep J p.2 (hp J hJ)).keepsRegister ho2

/-- A request takes the register of at most one allocation. -/
theorem requestRegister_get {I : InstRef} {r : ℕ} (ho : Ownership s.ra)
    (h : requestRegister c I s = .ok (k, s')) (hr : r ≠ 0) (hJ : s.ra.get J = r) :
    s'.ra.get J = r ∨ k = r := by
  obtain ⟨e, he, hes, hek⟩ := mem_of_get_ne_zero (hJ ▸ hr : s.ra.get J ≠ 0)
  rw [hJ] at hek
  obtain ⟨s0, ra1, ra2, hev, hreq, hk, hu, rfl⟩ := requestRegister_ok ho h
  have ho0 := Steps.ownership (steps_of_evicted (d := phiSite I) hev) ho
  obtain ⟨-, hfresh, hmem1⟩ := ho0.mem_request hreq hk
  have ho1 := ho0.request hreq
  -- an allocation that is not evicted stays
  have hstay : e ∈ s0.ra.activeSet → ra2.get J = r := fun he0 => by
    obtain ⟨d, -, -, hmem2⟩ := ho1.mem_update hu
    have he2 := (hmem2 e).mpr (Or.inl ⟨(hmem1 e).mpr (Or.inl he0), hfresh e he0⟩)
    rw [← hes, get_eq_of_mem (ho1.update hu).sources he2, hek]
  obtain ⟨rfl, -⟩ | ⟨-, hev⟩ := hev
  · exact Or.inl (hstay he)
  · obtain ⟨a, ra, v, hevict, -, rfl⟩ := evictOne_ok hev
    obtain ⟨ha, hmem⟩ := ho.mem_evict hevict
    by_cases hea : e.source = a.source
    · right
      have heq : e = a := List.inj_on_of_nodup_map ho.sources he ha hea
      obtain ⟨ra3, hreq2, -⟩ := ho.request_after_evict hevict hfresh
      have hk2 : k = a.regId := by
        have := hreq.symm.trans hreq2
        cases this
        rfl
      rw [hk2, ← heq, hek]
    · exact Or.inl (hstay ((hmem e).mpr ⟨he, hea⟩))

end Operands

/-! ## Runs of the allocator -/

section Runs

variable {c : Ctx} {d : Site} {s s' : State}

theorem runCalls_append {ra ra1 ra2 : RegisterAllocator InstRef} {l1 l2 : List (Call InstRef)}
    (h1 : runCalls ra l1 = .ok ra1) (h2 : runCalls ra1 l2 = .ok ra2) :
    runCalls ra (l1 ++ l2) = .ok ra2 := by
  rw [runCalls, List.foldlM_append]
  show (runCalls ra l1 >>= fun ra1 => runCalls ra1 l2) = .ok ra2
  rw [h1]
  exact h2

theorem runCalls_singleton {ra ra' : RegisterAllocator InstRef} {c : Call InstRef}
    (h : Call.run ra c = .ok ra') : runCalls ra [c] = .ok ra' := by
  rw [runCalls, List.foldlM_cons, h]
  rfl

/-- A step of a visitor is a sequence of operations of the allocator. -/
theorem Step.calls (h : Step c d s s') : ∃ calls, runCalls s.ra calls = .ok s'.ra := by
  have hcalls : ∀ {source user n k ra ra'}, s.ra.request source = .ok (k, ra) →
      ra.update source user n = .ok ra' → ∃ calls, runCalls s.ra calls = .ok ra' := by
    intro source user n k ra ra' hr hu
    exact ⟨_, runCalls_append (runCalls_singleton (c := .request source) (by rw [Call.run, hr]; rfl))
      (runCalls_singleton (c := .update source user n) hu)⟩
  cases h with
  | user U => exact ⟨[.reportUser U], rfl⟩
  | @evict t a ra v he hv =>
    exact ⟨[.evict t], runCalls_singleton (by rw [Call.run, he]; rfl)⟩
  | fill hI hadv hr hk hu => exact hcalls hr hu
  | @use I t q ra v hI hadv hv hu =>
    exact ⟨[.update I (some d.user) (q.head?.getD noMoreAdvent)], runCalls_singleton hu⟩
  | @takeTemp t k ra ht hr hk =>
    exact ⟨[.requestTempRegister t], runCalls_singleton (by rw [Call.run, hr]; rfl)⟩
  | @giveTemp k ra ht hg => exact ⟨[.giveUpTempRegister k], runCalls_singleton hg⟩
  | define hd hr hk hu hlines hv => exact hcalls hr hu
  | phi hd hr hk hu => exact hcalls hr hu
  | line hl hdest => exact ⟨[], rfl⟩
  | storePhi hP hv => exact ⟨[], rfl⟩
  | flags r1 r2 => exact ⟨[], rfl⟩

theorem Steps.calls (h : Steps c d s s') : ∃ calls, runCalls s.ra calls = .ok s'.ra := by
  induction h with
  | refl => exact ⟨[], rfl⟩
  | tail _ hstep ih =>
    obtain ⟨l1, h1⟩ := ih
    obtain ⟨l2, h2⟩ := hstep.calls
    exact ⟨l1 ++ l2, runCalls_append h1 h2⟩

/-- The allocator of a translation runs through its public operations. -/
theorem Reaches.calls {p : Point} (h : Reaches c p s) :
    ∃ calls, runCalls RegisterAllocator.init calls = .ok s.ra := by
  have hsteps : ∀ {d : Site} {s s' : State}, (∃ calls, runCalls .init calls = .ok s.ra) →
      Steps c d s s' → ∃ calls, runCalls .init calls = .ok s'.ra := by
    intro d s s' ⟨l1, h1⟩ h
    obtain ⟨l2, h2⟩ := Steps.calls h
    exact ⟨l1 ++ l2, runCalls_append h1 h2⟩
  induction h with
  | init => exact ⟨[], rfl⟩
  | begin hB hs h ih =>
    rw [(visitBasicBlock_ok h).1]
    exact ih
  | phi hB hn hs h ih => exact hsteps ih (visitPHINode_steps hs.ownership h)
  | inst hB hx hs h ih => exact hsteps ih (visitInst_steps hs.ownership h)
  | term hB hs h ih =>
    obtain ⟨s1, s2, l, h1, rfl, -, -, hret⟩ := visitTerm_ok hs.ownership h
    show ∃ calls, runCalls _ calls = .ok s2.ra
    obtain ⟨-, rfl⟩ | ⟨-, hclear⟩ := hret
    · exact hsteps ih h1
    · exact hsteps (hsteps ih h1) (clearRA_ok (d := phiSite ⟨0, 0⟩) hclear).1

end Runs

/-! ## The result -/

/-- How a visitor that announces itself emits its instruction from state `s`, where the operands
    have been translated to `vs`: a store at once; the others after a register was requested for the
    result, which may be the register of an operand. -/
inductive EmitsFrom (c : Ctx) (U : InstRef) (operands : List Operand) (vs : List (EmitVal × ℕ))
    (s s' : State) : Prop
  | store {size : ℕ} {v p : EmitVal} (hvs : vs.map Prod.fst = [v, p])
      (hra : s'.ra = s.ra.reportUser none) (hcode : s'.code = s.code ++ [.store size v p])
  | result {k : ℕ} {s1 : State} {lines : List Line} {v : EmitVal}
      (hreq : requestRegister c U { s with ra := s.ra.reportUser none } = .ok (k, s1))
      (hkeeps : List.Forall₂ (fun V p => KeepsRegister s1 V p ∨ p.2 = k) operands vs)
      (hlines : ∀ l ∈ lines, l.dest? = some k) (hra : s'.ra = s1.ra)
      (hcode : s'.code = s1.code ++ lines ++ [.value U v])

section Result

variable {c : Ctx} {U : InstRef} {s s' : State} {u : Unit}

/-- The end of a visitor that announces itself and has a result. -/
theorem emitsFrom_result {Vs : List Operand} {vs : List (EmitVal × ℕ)} {s1 s2 s3 : State} {k : ℕ}
    {v : EmitVal} (ho : Ownership s.ra)
    (hvs : translateAll c U Vs { s with ra := s.ra.reportUser (some U) } = .ok (vs, s1))
    (hreq : requestRegister c U { s1 with ra := s1.ra.reportUser none } = .ok (k, s2))
    (hv : Emits k s2 v s3)
    (hs' : s' = { s3 with
      sourceToEmitMap := Function.update s3.sourceToEmitMap U (some v)
      code := s3.code ++ [.value U v] }) : EmitsFrom c U Vs vs s1 s' := by
  obtain ⟨ls, rfl, hls, -⟩ := hv
  obtain ⟨ho1, -, -, hprot⟩ := Protected.translateAll (ho.reportUser (some U)) rfl hvs
  refine .result hreq (hprot.imp fun V p hp => ?_) (fun l hl => (hls l hl).2) (by rw [hs'])
    (by rw [hs'])
  by_cases hk : p.2 = k
  · exact Or.inr hk
  · refine Or.inl fun J hJ => ?_
    obtain ⟨h0, hget⟩ := (hp J hJ).keepsRegister ho1
    exact ⟨h0, (requestRegister_get (ho1.reportUser none) hreq h0 hget).resolve_right (Ne.symm hk)⟩

theorem translateAll_nil : translateAll c U [] s = .ok ([], s) := rfl

theorem translateAll_cons_ok {V : Operand} {Vs : List Operand} {p : EmitVal × ℕ}
    {vs : List (EmitVal × ℕ)} {s1 : State} (h1 : translateSrcOperandToTgt c V U s = .ok (p, s1))
    (h2 : translateAll c U Vs s1 = .ok (vs, s')) :
    translateAll c U (V :: Vs) s = .ok (p :: vs, s') := by
  simp only [translateAll, bind_ok_iff, pure_ok_iff]
  exact ⟨p, s1, h1, vs, s', h2, rfl, rfl⟩

theorem visitInst_emitsFrom {x : Inst} (hx : x.announced) (ho : Ownership s.ra)
    (h : visitInst c U x s = .ok (u, s')) :
    ∃ vs s1, translateAll c U x.operands { s with ra := s.ra.reportUser (some U) } = .ok (vs, s1) ∧
      EmitsFrom c U x.operands vs s1 s' := by
  cases x with
  | store value ptr =>
    simp only [visitInst, visitStoreInst, bind_ok_iff, require_ok, reportUser_ok, emit_ok] at h
    obtain ⟨⟨⟩, s0, ⟨-, rfl⟩, ⟨⟩, s1, rfl, ⟨v, k⟩, s2, hv, ⟨⟩, s3, ⟨-, rfl⟩, ⟨p, j⟩, s4, hp, ⟨⟩, s5,
      rfl, rfl⟩ := h
    exact ⟨_, _, translateAll_cons_ok hv (translateAll_cons_ok hp translateAll_nil), .store rfl rfl rfl⟩
  | binary op lhs rhs =>
    obtain ⟨val, ty⟩ := lhs
    cases ty with
    | int bw =>
      simp only [visitInst, visitBinaryOperator, bind_ok_iff, require_ok, reportUser_ok,
        define_ok] at h
      obtain ⟨⟨⟩, s0, ⟨-, rfl⟩, ⟨⟩, s1, rfl, ⟨v1, k1⟩, s2, hv1, ⟨v2, k2⟩, s3, hv2, ⟨⟩, s4, rfl, k,
        s5, hreq, v, s6, hv, hs'⟩ := h
      have hvs := translateAll_cons_ok hv1 (translateAll_cons_ok hv2 translateAll_nil)
      exact ⟨_, _, hvs, emitsFrom_result ho hvs hreq (createBinOp_emits hv) hs'⟩
    | _ => exact (throw_ok_iff.mp h).elim
  | icmp pred lhs rhs =>
    simp only [visitInst, visitICmpInst, bind_ok_iff, require_ok, reportUser_ok, define_ok] at h
    obtain ⟨⟨⟩, s0, ⟨-, rfl⟩, ⟨⟩, s1, rfl, ⟨v1, k1⟩, s2, hv1, ⟨v2, k2⟩, s3, hv2, ⟨⟩, s4, rfl, k,
      s5, hreq, v, s6, hv, hs'⟩ := h
    have hvs := translateAll_cons_ok hv1 (translateAll_cons_ok hv2 translateAll_nil)
    exact ⟨_, _, hvs, emitsFrom_result ho hvs hreq (createICmp_emits hv) hs'⟩
  | select cond ifTrue ifFalse =>
    simp only [visitInst, visitSelectInst, bind_ok_iff, reportUser_ok, define_ok] at h
    obtain ⟨⟨⟩, s0, rfl, ⟨v1, k1⟩, s1, hv1, ⟨v2, k2⟩, s2, hv2, ⟨v3, k3⟩, s3, hv3, ⟨⟩, s4, rfl, k,
      s5, hreq, v, s6, hv, hs'⟩ := h
    have hvs := translateAll_cons_ok hv1 (translateAll_cons_ok hv2
      (translateAll_cons_ok hv3 translateAll_nil))
    exact ⟨_, _, hvs, emitsFrom_result ho hvs hreq (createSelect_emits hv) hs'⟩
  | _ => exact hx.elim

/-- **Eviction choice.** After every sequence of operations `ActiveSet` is a heap, and `evict()`
    takes an allocation with the latest next use among the evictable ones, if there is one; every
    state of a translation is reached by such a sequence. While a store, a binary operator, an `icmp`
    or a `select` is announced, its operands keep their registers; its own result may then take the
    register of one. -/
theorem evictionChoice :
    (∀ {calls : List (Call InstRef)} {ra : RegisterAllocator InstRef},
      runCalls RegisterAllocator.init calls = .ok ra →
        HeapOrdered ra ∧ ((∃ e ∈ ra.activeSet, Evictable ra e) → EvictsLatest ra)) ∧
    (∀ {c : Ctx} {p : Point} {s : State}, Reaches c p s →
      ∃ calls, runCalls RegisterAllocator.init calls = .ok s.ra) ∧
    ∀ {c : Ctx} {b n : ℕ} {x : Inst} {s s' : State}, Reaches c (.inst b n) s → x.announced →
      visitInst c ⟨b, n⟩ x s = .ok ((), s') →
        OperandsKept c ⟨b, n⟩ x.operands { s with ra := s.ra.reportUser (some ⟨b, n⟩) } ∧
        ∃ vs s1, translateAll c ⟨b, n⟩ x.operands
            { s with ra := s.ra.reportUser (some ⟨b, n⟩) } = .ok (vs, s1) ∧
          List.Forall₂ (KeepsRegister s1) x.operands vs ∧
          EmitsFrom c ⟨b, n⟩ x.operands vs s1 s' := by
  refine ⟨fun h => ?_, fun hs => hs.calls, fun {c b n x s s'} hs hx h => ?_⟩
  · have hinit : HeapOrdered (RegisterAllocator.init : RegisterAllocator InstRef) :=
      fun i _ hi => absurd hi (Nat.not_lt_zero i)
    have hheap := hinit.run Ownership.init h
    exact ⟨hheap, hheap.evict⟩
  · have ho := hs.ownership.reportUser (some ⟨b, n⟩)
    obtain ⟨vs, s1, hvs, hemits⟩ := visitInst_emitsFrom hx hs.ownership h
    exact ⟨operandsKept ho rfl, vs, s1, hvs,
      operandsKept ho rfl _ _ _ _ _ _ (List.append_nil _).symm hvs translateAll_nil, hemits⟩

end Result

/-- Sixteen loaded values fill the registers; the first one is added to the second one, and the
    others are used again. -/
def fullRegisters : Ctx where
  F :=
    { name := "f"
      blocks :=
        [ { phis := []
            body :=
              List.replicate 16 (.load ⟨.global 0, .ptr (.int 64)⟩) ++
                [.binary .add ⟨.inst ⟨0, 0⟩, .int 64⟩ ⟨.inst ⟨0, 1⟩, .int 64⟩,
                  .load ⟨.global 0, .ptr (.int 64)⟩] ++
                (List.range' 1 16).map fun i =>
                  .store ⟨.inst ⟨0, i⟩, .int 64⟩ ⟨.global 0, .ptr (.int 64)⟩
            term := .ret none } ] }
  gvMap := fun _ => 10232
  heapSize := 0

/-- The visit of the addition of `fullRegisters`. Its result takes register 1, that of the first
    operand. Then the second operand has a last user, and what `evict()` takes has none. -/
theorem fullRegisters_run : ∃ s s', Reaches fullRegisters (.inst 0 16) s ∧
    Reaches fullRegisters (.inst 0 17) s' ∧
    visitInst fullRegisters ⟨0, 16⟩
      (.binary .add ⟨.inst ⟨0, 0⟩, .int 64⟩ ⟨.inst ⟨0, 1⟩, .int 64⟩) s = .ok ((), s') ∧
    s.ra.get ⟨0, 0⟩ = 1 ∧ s'.ra.get ⟨0, 16⟩ = 1 ∧ s'.ra.currentUser = none ∧
    (∃ e ∈ s'.ra.activeSet, e.lastUser ≠ none) ∧
    ∃ victim ra, s'.ra.evict 0 = .ok (some victim, ra) ∧ victim.lastUser = none := by
  let x : Inst := .binary .add ⟨.inst ⟨0, 0⟩, .int 64⟩ ⟨.inst ⟨0, 1⟩, .int 64⟩
  have hrun : ((entryState? fullRegisters 16).any fun s =>
      (visitInst fullRegisters ⟨0, 16⟩ x s).toOption.any fun p =>
        s.ra.get ⟨0, 0⟩ = 1 && p.2.ra.get ⟨0, 16⟩ = 1 && p.2.ra.currentUser = none &&
          p.2.ra.activeSet.any (fun e => e.lastUser ≠ none) &&
          (p.2.ra.evict 0).toOption.any fun q =>
            q.1.any fun victim => victim.lastUser = none) = true := by
    decide +kernel
  obtain ⟨s, hs, hrun⟩ := (Option.any_eq_true _ _).mp hrun
  cases hv : visitInst fullRegisters ⟨0, 16⟩ x s with
  | error f =>
    rw [hv] at hrun
    cases hrun
  | ok p =>
    obtain ⟨⟨⟩, s'⟩ := p
    simp only [hv, Except.toOption, Option.any_some, Bool.and_eq_true, decide_eq_true_eq,
      List.any_eq_true] at hrun
    obtain ⟨⟨⟨⟨h0, h1⟩, hu⟩, hex⟩, hevict⟩ := hrun
    have hreach : Reaches fullRegisters (.inst 0 16) s := reaches_entryState rfl rfl (by decide) hs
    refine ⟨s, s', hreach, Reaches.inst (B := ⟨[], _, _⟩) (i := 16) rfl rfl hreach hv, hv, h0, h1,
      hu, hex, ?_⟩
    cases he : s'.ra.evict 0 with
    | error f =>
      rw [he] at hevict
      cases hevict
    | ok q =>
      obtain ⟨_ | victim, ra⟩ := q
      · rw [he] at hevict
        cases hevict
      · rw [he] at hevict
        exact ⟨victim, ra, rfl, of_decide_eq_true hevict⟩

theorem evictionChoice_fullRegisters : ∃ s s' : State, Reaches fullRegisters (.inst 0 17) s' ∧
    HeapOrdered s'.ra ∧ EvictsLatest s'.ra ∧
    OperandsKept fullRegisters ⟨0, 16⟩ [⟨.inst ⟨0, 0⟩, .int 64⟩, ⟨.inst ⟨0, 1⟩, .int 64⟩]
      { s with ra := s.ra.reportUser (some ⟨0, 16⟩) } := by
  obtain ⟨s, s', hs, hs', hv, -, -, hu, ⟨e, he, -⟩, -⟩ := fullRegisters_run
  obtain ⟨calls, hcalls⟩ := evictionChoice.2.1 hs'
  obtain ⟨hheap, hlatest⟩ := evictionChoice.1 hcalls
  exact ⟨s, s', hs', hheap, hlatest ⟨e, he, Or.inl hu⟩, (evictionChoice.2.2 hs (by trivial) hv).1⟩

/-- An allocation without a last user is evicted for the null user, although another one has a last
    user; and the result of an addition takes the register of its first operand. -/
theorem not_evictionChoice_fullRegisters :
    (∃ s, Reaches fullRegisters (.inst 0 17) s ∧
      (∃ e ∈ s.ra.activeSet, e.lastUser ≠ s.ra.currentUser) ∧
      ∀ victim ra, s.ra.evict 0 = .ok (some victim, ra) → ¬victim.lastUser ≠ s.ra.currentUser) ∧
    ∃ s s', Reaches fullRegisters (.inst 0 16) s ∧
      visitInst fullRegisters ⟨0, 16⟩
        (.binary .add ⟨.inst ⟨0, 0⟩, .int 64⟩ ⟨.inst ⟨0, 1⟩, .int 64⟩) s = .ok ((), s') ∧
      s.ra.get ⟨0, 0⟩ = 1 ∧ s'.ra.get ⟨0, 16⟩ = 1 := by
  obtain ⟨s, s', hs, hs', hv, h0, h1, hu, hex, victim, ra, hevict, hlast⟩ := fullRegisters_run
  refine ⟨⟨s', hs', hu ▸ hex, fun w ra' hw => ?_⟩, s, s', hs, hv, h0, h1⟩
  rw [hevict] at hw
  cases hw
  rw [hlast, hu]
  exact fun h => h rfl

end SwppCompiler.Backend
