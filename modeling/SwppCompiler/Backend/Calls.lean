import SwppCompiler.Backend.Eviction

/-!
# The arguments of a call

`visitCallInst` (`src/core/Backend.cpp`, lines 610–643) translates the arguments one after the other
without announcing itself with `reportUser`, as `visitStoreInst` or `visitICmpInst` do. So an argument
that is already in a register can be evicted when a later one has to be reloaded, although `getVictim`
"must not evict the register which is used by the current user"
(`src/core/RegisterAllocator.cpp`, line 55), and the call reads the later value twice.

* `Room`: the values in registers, ordered by their next uses, and the number of free registers, when
  the first argument is translated; `callRoom` is that of the state before the visit.
* `Spares`: no argument in a register has the latest next use when a later one needs a register.
* `callReads_iff`: the call reads the values of its arguments iff `Spares` holds.
-/

namespace SwppCompiler.Backend

open Interp Lib.Heap Lib.StateExcept RegisterAllocator

/-! ## The registers while the arguments are translated -/

/-- The registers between two arguments: how many are free, and the values in the others with their
    next uses, as `std::make_heap` arranges them. `next` are the uses to come, `inReg` tells which
    values are read from a register, and `kept` are the arguments so far that are. -/
structure Room where
  free : ℕ
  heap : List (InstRef × ℕ)
  next : InstRef → List ℕ
  inReg : InstRef → Bool
  kept : List InstRef

namespace Room

/-- The next use of the first is sooner. -/
def sooner (p q : InstRef × ℕ) : Bool := p.2 < q.2

/-- The next use of `J` becomes `n`. -/
def touch (heap : List (InstRef × ℕ)) (J : InstRef) (n : ℕ) : List (InstRef × ℕ) :=
  makeHeap sooner (heap.map fun p => if p.1 = J then (J, n) else p)

def resident (r : Room) (J : InstRef) : Prop := J ∈ r.heap.map Prod.fst

instance (r : Room) (J : InstRef) : Decidable (r.resident J) :=
  inferInstanceAs (Decidable (J ∈ r.heap.map Prod.fst))

/-- The value with the latest next use leaves its register. -/
def evict (r : Room) : Room where
  __ := r
  free := r.free + 1
  heap := makeHeap sooner r.heap.tail

/-- `J` is reloaded into a free register. -/
def fill (r : Room) (J : InstRef) : Room where
  __ := r
  free := r.free - 1
  heap := touch (r.heap ++ [(J, 0)]) J ((r.next J).head?.getD noMoreAdvent)
  inReg := Function.update r.inReg J true

/-- The argument `J` is in a register and is used. -/
def use (r : Room) (J : InstRef) : Room where
  __ := r
  heap := touch r.heap J ((r.next J).tail.head?.getD noMoreAdvent)
  next := Function.update r.next J (r.next J).tail
  kept := if r.inReg J then J :: r.kept else r.kept

/-- The argument `J` is translated. -/
def take (r : Room) (J : InstRef) : Room :=
  if r.resident J then r.use J
  else ((if r.free = 0 then r.evict else r).fill J).use J

/-- No argument so far is evicted for the argument `J`. -/
def Spares (r : Room) (J : InstRef) : Prop :=
  ¬r.resident J → r.free = 0 → ∀ p ∈ r.heap.head?, p.1 ∉ r.kept

end Room

/-- No argument is evicted for a later one: whenever an argument is in no register and no register is
    free, the value with the latest next use is not an earlier argument that is read from one. -/
def Spares : Room → List Operand → Prop
  | _, [] => True
  | r, V :: Vs =>
    match V.inst? with
    | none => Spares r Vs
    | some J => r.Spares J ∧ Spares (r.take J) Vs

/-- The value of an allocation and its next use. -/
def Allocation.key (e : Allocation InstRef) : InstRef × ℕ := (e.source, e.nextAdvent)

/-- Is the value that stands for `J` read from a register? -/
def State.inReg (s : State) (J : InstRef) : Bool :=
  match s.sourceToEmitMap J with
  | some (.reg _) => true
  | _ => false

/-- The registers in state `s`. -/
def State.room (s : State) : Room where
  free := s.ra.freeRegisters.length
  heap := s.ra.activeSet.map Allocation.key
  next := s.adventMap
  inReg := s.inReg
  kept := []

/-- The registers for the arguments of a call of `callee` that is visited in state `s`: the register
    of the reference stack pointer is reserved by `__set_ref__`, and free while it is spilled. -/
def callRoom (callee : String) (s : State) : Room :=
  if !s.refSet && callee = setRefName then
    if refSPId ∈ s.ra.freeRegisters then { s.room with free := s.room.free - 1 }
    else
      { s.room with
        heap := makeHeap Room.sooner
          ((s.ra.activeSet.eraseP fun e => e.regId = refSPId).map Allocation.key) }
  else if s.refSet && callee = spillRefName then s.room
  else if s.refSpilled then { s.room with free := s.room.free + 1 }
  else s.room

/-! ## What the allocator does with the next uses -/

section Keys

variable {ra ra' : RegisterAllocator InstRef} {J : InstRef} {n : ℕ}

theorem cmp_eq_sooner (d e : Allocation InstRef) : Room.sooner d.key e.key = Allocation.cmp d e :=
  rfl

theorem key_updateFirst {user : Option InstRef} : ∀ {l l' : List (Allocation InstRef)},
    (l.map Allocation.source).Nodup → updateFirst J user n l = some l' →
    l'.map Allocation.key =
      (l.map Allocation.key).map fun p => if p.1 = J then (J, n) else p := by
  intro l
  induction l with
  | nil =>
    intro l' _ h
    cases h
  | cons e l ih =>
    intro l' hnd h
    rw [List.map_cons, List.nodup_cons] at hnd
    rw [updateFirst] at h
    split_ifs at h with he
    · cases h
      have hrest : (l.map Allocation.key).map (fun p => if p.1 = J then (J, n) else p) =
          l.map Allocation.key := by
        rw [List.map_map]
        refine List.map_congr_left fun d hd => if_neg fun hdJ => hnd.1 ?_
        rw [he, ← show d.source = J from hdJ]
        exact List.mem_map_of_mem hd
      rw [List.map_cons, List.map_cons, List.map_cons, hrest,
        if_pos (show e.key.1 = J from he)]
      exact congrArg (fun J => (J, n) :: l.map Allocation.key) he
    · obtain ⟨m, hm, rfl⟩ := Option.map_eq_some_iff.mp h
      rw [List.map_cons, List.map_cons, List.map_cons, ih hnd.2 hm,
        if_neg (show ¬e.key.1 = J from he)]

/-- `update` changes one next use. -/
theorem key_update {user : Option InstRef} (ho : Ownership ra)
    (h : ra.update J user n = .ok ra') :
    ra'.activeSet.map Allocation.key = Room.touch (ra.activeSet.map Allocation.key) J n := by
  unfold RegisterAllocator.update at h
  cases hu : updateFirst J user n ra.activeSet with
  | none =>
    rw [hu] at h
    cases h
  | some l =>
    rw [hu] at h
    cases h
    rw [Room.touch, ← key_updateFirst ho.sources hu]
    exact (makeHeap_map cmp_eq_sooner l).symm

/-- Without a current user `evict` takes the first allocation. -/
theorem key_evict {a : Allocation InstRef} (hu : ra.currentUser = none)
    (h : ra.evict 0 = .ok (some a, ra')) : ra.activeSet.head? = some a ∧
      ra'.activeSet.map Allocation.key =
        makeHeap Room.sooner (ra.activeSet.map Allocation.key).tail ∧
      ra'.freeRegisters = a.regId :: ra.freeRegisters := by
  simp only [RegisterAllocator.evict, ne_eq, not_true_eq_false, false_and, if_false, getVictim,
    hu] at h
  split_ifs at h
  · cases h
  · cases hl : ra.activeSet with
    | nil =>
      rw [hl] at h
      cases h
    | cons e l =>
      rw [hl] at h
      cases h
      exact ⟨rfl, (makeHeap_map cmp_eq_sooner l).symm, rfl⟩

/-- `evict` of a register takes the allocation that has it. -/
theorem key_evictTarget {t : ℕ} {a : Allocation InstRef} (ht : t ≠ 0)
    (h : ra.evict t = .ok (some a, ra')) :
    ra'.activeSet.map Allocation.key =
        makeHeap Room.sooner ((ra.activeSet.eraseP fun e => e.regId = t).map Allocation.key) ∧
      ra'.freeRegisters = t :: ra.freeRegisters := by
  have hat : a.regId = t := by
    obtain ⟨-, h, -⟩ | ⟨b, hb, -, hb2, -⟩ := evict_ok h
    · cases h
    · cases hb
      exact hb2 ht
  simp only [RegisterAllocator.evict, getVictim, if_pos ht] at h
  split_ifs at h
  · cases h
  · rw [List.eraseP_eq_eraseIdx]
    cases hf : ra.activeSet.findIdx? fun e => e.regId = t with
    | none =>
      rw [hf] at h
      cases h
    | some i =>
      simp only [hf] at h
      cases hi : ra.activeSet[i]? with
      | none =>
        simp only [hi] at h
        cases h
      | some b =>
        simp only [hi] at h
        cases h
        exact ⟨(makeHeap_map cmp_eq_sooner _).symm, congrArg (· :: ra.freeRegisters) hat⟩

end Keys

/-! ## One argument -/

section Argument

variable {c : Ctx} {U J : InstRef} {ty : Ty} {v : EmitVal} {k : ℕ} {r : Room} {s s' : State}

theorem inReg_iff : s.inReg J = true ↔ ∃ j, s.sourceToEmitMap J = some (.reg j) := by
  unfold State.inReg
  split
  · rename_i j h
    simp [h]
  · rename_i h
    simpa using h

theorem inReg_congr (h : s'.sourceToEmitMap = s.sourceToEmitMap) : s'.inReg = s.inReg := by
  funext K
  rw [State.inReg, State.inReg, h]

theorem inReg_update {j : ℕ} : ({ s with
    sourceToEmitMap := Function.update s.sourceToEmitMap J (some (.reg j)) } : State).inReg =
      Function.update s.inReg J true := by
  funext K
  by_cases hK : K = J
  · subst hK
    simp [State.inReg]
  · simp [State.inReg, Function.update_of_ne hK]

/-- The registers of `r` are those of the state. -/
structure Sees (r : Room) (s : State) : Prop where
  user : s.ra.currentUser = none
  free : s.ra.freeRegisters.length = r.free
  heap : s.ra.activeSet.map Allocation.key = r.heap
  next : s.adventMap = r.next
  inReg : s.inReg = r.inReg

theorem sees_room (h : s.ra.currentUser = none) : Sees s.room s := ⟨h, rfl, rfl, rfl, rfl⟩

theorem Sees.resident_iff (h : Sees r s) (ho : Ownership s.ra) :
    r.resident J ↔ s.ra.get J ≠ 0 := by
  rw [Room.resident, ← h.heap, List.map_map, ne_eq, ho.get_eq_zero_iff]
  simp [Allocation.key]

theorem Sees.free_iff (h : Sees r s) : r.free = 0 ↔ s.ra.freeRegisters = [] := by
  rw [← h.free, List.length_eq_zero_iff]

theorem Sees.evict (h : Sees r s) {u : Unit} (hev : evictOne c 0 s = .ok (u, s')) :
    Sees r.evict s' := by
  obtain ⟨a, ra, v, he, -, rfl⟩ := evictOne_ok hev
  obtain ⟨-, hkeys, hfree⟩ := key_evict h.user he
  refine ⟨(evict_currentUser he).trans h.user, ?_, ?_, h.next, h.inReg⟩
  · rw [Room.evict, ← h.free]
    exact congrArg List.length hfree
  · rw [Room.evict, ← h.heap]
    exact hkeys

theorem Sees.fill (h : Sees r s) (ho : Ownership s.ra) {ra ra' : RegisterAllocator InstRef}
    (hr : s.ra.request J = .ok (k, ra)) (hk : k ≠ 0)
    (hu : ra.update J none (s.nextAdvent J) = .ok ra') : Sees (r.fill J) { s with
      ra := ra'
      sourceToEmitMap := Function.update s.sourceToEmitMap J (some (.reg k))
      code := s.code ++ [.fill k J] } := by
  have ho1 := ho.request hr
  obtain ⟨-, ⟨-, h0, -⟩ | ⟨free, hfree, -, rfl⟩⟩ := request_ok ho.zero_notMem_free hr
  · exact absurd h0 hk
  have hfree' : ra'.freeRegisters = free := by
    obtain ⟨-, -, -, -, -, -, -, hra⟩ := update_ok hu
    rw [hra]
  refine ⟨(update_currentUser hu).trans h.user, ?_, ?_, h.next, ?_⟩
  · show ra'.freeRegisters.length = r.free - 1
    rw [hfree', ← h.free, hfree, List.length_cons, Nat.add_sub_cancel]
  · rw [Room.fill, ← h.heap, ← h.next]
    refine (key_update ho1 hu).trans ?_
    rw [List.map_append]
    rfl
  · rw [Room.fill, ← h.inReg]
    exact inReg_update

theorem Sees.use (h : Sees r s) (ho : Ownership s.ra) {t : ℕ} {q : List ℕ}
    {ra : RegisterAllocator InstRef} (hq : s.adventMap J = t :: q)
    (hu : s.ra.update J (some U) (q.head?.getD noMoreAdvent) = .ok ra) :
    Sees (r.use J) { s with ra := ra, adventMap := Function.update s.adventMap J q } := by
  have htail : (r.next J).tail = q := by rw [← h.next, hq, List.tail_cons]
  have hfree : ra.freeRegisters = s.ra.freeRegisters := by
    obtain ⟨-, -, -, -, -, -, -, hra⟩ := update_ok hu
    rw [hra]
  refine ⟨(update_currentUser hu).trans h.user, ?_, ?_, ?_, h.inReg⟩
  · show ra.freeRegisters.length = r.free
    rw [hfree, h.free]
  · rw [Room.use, htail, ← h.heap]
    exact key_update ho hu
  · rw [Room.use, htail, ← h.next]

/-- The registers after an argument. -/
theorem Sees.take (h : Sees r s) (ho : Ownership s.ra)
    (ht : translateSrcOperandToTgt c ⟨.inst J, ty⟩ U s = .ok ((v, k), s')) :
    Sees (r.take J) s' := by
  obtain ⟨s1, t, q, ra, hget, hq, -, hu, rfl⟩ := translateInst_ok ht
  obtain ⟨hk, hgetJ, hcase⟩ := getRegister_ok ho hget
  unfold Room.take
  obtain rfl | ⟨h0, s0, ra1, ra2, hev, hr, hu2, rfl⟩ := hcase
  · rw [if_pos ((h.resident_iff ho).mpr (hgetJ ▸ hk))]
    exact h.use ho hq hu
  · rw [if_neg fun hres => (h.resident_iff ho).mp hres h0]
    have ho0 := Steps.ownership (steps_of_evicted (d := phiSite U) hev) ho
    have hroom : Sees (if r.free = 0 then r.evict else r) s0 := by
      obtain ⟨rfl, hfree⟩ | ⟨hfree, hev⟩ := hev
      · rw [if_neg (mt h.free_iff.mp hfree)]
        exact h
      · rw [if_pos (h.free_iff.mpr hfree)]
        exact h.evict hev
    exact (hroom.fill ho0 hr hk hu2).use ((ho0.request hr).update hu2) hq hu

/-- The room of the arguments that follow: `kept` are the values in registers that the call reads
    there. -/
structure Tracks (U : InstRef) (r : Room) (s : State) : Prop where
  sees : Sees r s
  kept : ∀ e ∈ s.ra.activeSet, e.source ∈ r.kept ↔ e.lastUser = some U ∧ s.inReg e.source = true

/-- The victim of a reload is the first allocation. -/
theorem reloadVictim_eq (hu : s.ra.currentUser = none) : reloadVictim s J =
    if s.ra.get J = 0 ∧ s.ra.freeRegisters = [] then s.ra.activeSet.head? else none := by
  unfold reloadVictim
  refine if_congr Iff.rfl ?_ rfl
  cases he : s.ra.evict 0 with
  | error f =>
    simp only [RegisterAllocator.evict, ne_eq, not_true_eq_false, false_and, if_false, getVictim,
      hu] at he
    split_ifs at he with hnil
    cases hl : s.ra.activeSet with
    | nil => exact absurd (List.isEmpty_iff.mpr hl) hnil
    | cons e l =>
      rw [hl] at he
      cases he
  | ok p =>
    obtain ⟨a, ra⟩ := p
    cases a with
    | none =>
      obtain ⟨hnil, -, -⟩ | ⟨b, hb, -⟩ := evict_ok he
      · rw [hnil]
        rfl
      · cases hb
    | some a => exact (key_evict hu he).1.symm

theorem Tracks.spares_iff (h : Tracks U r s) (ho : Ownership s.ra) :
    (∀ a j, reloadVictim s J = some a → a.lastUser = some U →
      s.sourceToEmitMap a.source ≠ some (.reg j)) ↔ r.Spares J := by
  rw [reloadVictim_eq h.sees.user, Room.Spares, h.sees.resident_iff ho, h.sees.free_iff, not_not,
    ← h.sees.heap, List.head?_map]
  constructor
  · intro hno h0 hfree p hp hkept
    rw [if_pos ⟨h0, hfree⟩] at hno
    obtain ⟨a, ha, rfl⟩ := Option.map_eq_some_iff.mp hp
    obtain ⟨hlast, hreg⟩ := (h.kept a (List.mem_of_mem_head? ha)).mp hkept
    obtain ⟨j, hj⟩ := inReg_iff.mp hreg
    exact hno a j ha hlast hj
  · intro hsp a j ha hlast hj
    split_ifs at ha with hcond
    exact hsp hcond.1 hcond.2 a.key (Option.mem_map_of_mem _ ha)
      ((h.kept a (List.mem_of_mem_head? ha)).mpr ⟨hlast, inReg_iff.mpr ⟨j, hj⟩⟩)

/-- What `take` makes of the arguments in registers. -/
theorem Room.kept_take (r : Room) (J : InstRef) :
    (r.take J).kept = if (r.take J).inReg J then J :: r.kept else r.kept := by
  unfold Room.take
  split_ifs <;> simp_all [Room.use, Room.fill, Room.evict]

theorem Tracks.take (h : Tracks U r s) (ho : Ownership s.ra)
    (ht : translateSrcOperandToTgt c ⟨.inst J, ty⟩ U s = .ok ((v, k), s')) :
    Tracks U (r.take J) s' := by
  have hsees := h.sees.take ho ht
  have htr := translated_of_ok ho ht
  obtain ⟨n, hmem⟩ := htr.active
  refine ⟨hsees, fun e he => ?_⟩
  rw [Room.kept_take, ← hsees.inReg]
  obtain rfl | ⟨he, hne, -⟩ := (hmem e).mp he
  · show J ∈ (if s'.inReg J then J :: r.kept else r.kept) ↔ some U = some U ∧ s'.inReg J = true
    by_cases hreg : s'.inReg J = true
    · simp [hreg]
    · obtain ⟨⟨d, hd, rfl, -⟩, -, hmap, -⟩ | ⟨-, rfl, -⟩ := htr.code
      · simp [hreg, h.kept d hd, ← inReg_congr hmap]
      · exact absurd (inReg_iff.mpr ⟨k, htr.value⟩) hreg
  · have hsame : s'.inReg e.source = s.inReg e.source := by
      unfold State.inReg
      rw [htr.others _ hne]
    rw [hsame, ← h.kept e he]
    split_ifs
    · simp [hne]
    · rfl

end Argument

/-! ## All arguments -/

section Arguments

variable {c : Ctx} {U : InstRef} {s s' : State}

/-- What is evicted while the arguments are translated can be told from the room before them. -/
theorem Tracks.noOwnVictim_iff : ∀ {Vs : List Operand} {r : Room} {vs : List (EmitVal × ℕ)}
    {s s' : State}, Tracks U r s → Ownership s.ra → translateAll c U Vs s = .ok (vs, s') →
    (NoOwnVictim c U Vs s ↔ Spares r Vs) := by
  intro Vs
  induction Vs with
  | nil => exact fun _ _ _ => Iff.rfl
  | cons V Vs ih =>
    intro r vs s s' ht ho h
    simp only [translateAll, bind_ok_iff] at h
    obtain ⟨⟨v, k⟩, s1, hv, ws, s2, hws, -⟩ := h
    have ho1 := translate_ownership ho hv
    have hrest : (∀ p s', translateSrcOperandToTgt c V U s = .ok (p, s') → NoOwnVictim c U Vs s') ↔
        NoOwnVictim c U Vs s1 := by
      constructor
      · exact fun hno => hno _ _ hv
      · intro hno p s3 h3
        rw [hv] at h3
        cases h3
        exact hno
    rw [NoOwnVictim, Spares, hrest]
    cases hi : V.inst? with
    | none =>
      obtain ⟨rfl, -, -⟩ := translateConst_ok hi hv
      simp only [reduceCtorEq, false_imp_iff, implies_true, true_and]
      exact ih ht ho hws
    | some J =>
      obtain ⟨val, ty⟩ := V
      cases val <;> cases hi
      have hJ : (∀ K a j, some J = some K → reloadVictim s K = some a → a.lastUser = some U →
          s.sourceToEmitMap a.source ≠ some (.reg j)) ↔ r.Spares J := by
        rw [← ht.spares_iff ho]
        exact ⟨fun hno a j => hno J a j rfl, fun hno K a j hK => by cases hK; exact hno a j⟩
      exact and_congr hJ (ih (ht.take ho hv) ho1 hws)

theorem callRoom_kept {callee : String} : (callRoom callee s).kept = [] := by
  unfold callRoom
  split_ifs <;> rfl

/-- Register `t` is reserved: it is free, or the value in it is evicted. -/
theorem reserve_ok {t k : ℕ} (ht : t ≠ 0) (ho : Ownership s.ra)
    (h : requestTempRegister c t s = .ok (k, s')) :
    s'.adventMap = s.adventMap ∧ s'.sourceToEmitMap = s.sourceToEmitMap ∧
      (t ∈ s.ra.freeRegisters ∧ s'.ra.activeSet = s.ra.activeSet ∧
          s'.ra.freeRegisters.length = s.ra.freeRegisters.length - 1 ∨
        t ∉ s.ra.freeRegisters ∧ s'.ra.activeSet.map Allocation.key = makeHeap Room.sooner
            ((s.ra.activeSet.eraseP fun e => e.regId = t).map Allocation.key) ∧
          s'.ra.freeRegisters.length = s.ra.freeRegisters.length) := by
  obtain ⟨hk, s0, ra, hev, hr, rfl⟩ := takeTemp_ok ho h
  obtain rfl | hev := hev
  · obtain ⟨-, ⟨h0, -⟩ | ⟨-, hmem, hkt, -, rfl⟩⟩ :=
      requestTempRegister_ok ho.zero_notMem_free ho.free_nodup hr
    · exact absurd h0 hk
    · cases hkt ht
      exact ⟨rfl, rfl, Or.inl ⟨hmem, rfl, List.length_erase_of_mem hmem⟩⟩
  · have ho0 := (evictOne_steps (d := phiSite ⟨0, 0⟩) hev).ownership ho
    obtain ⟨a, ra0, v, he, -, rfl⟩ := evictOne_ok hev
    obtain ⟨hkeys, hfree⟩ := key_evictTarget ht he
    have hnd : (t :: s.ra.freeRegisters).Nodup := hfree ▸ ho0.free_nodup
    obtain ⟨-, ⟨h0, -⟩ | ⟨-, -, hkt, -, rfl⟩⟩ :=
      requestTempRegister_ok ho0.zero_notMem_free ho0.free_nodup hr
    · exact absurd h0 hk
    · cases hkt ht
      refine ⟨rfl, rfl, Or.inr ⟨(List.nodup_cons.mp hnd).1, hkeys, ?_⟩⟩
      show (ra0.freeRegisters.erase t).length = _
      rw [hfree, List.erase_cons_head]

/-- The registers when the first argument is translated. -/
theorem sees_callRoom {callee : String} {u : Unit} (hu : s.ra.currentUser = none)
    (ho : Ownership s.ra) (h : handOverRef c callee s = .ok (u, s')) :
    Sees (callRoom callee s) s' := by
  have huser := (handOverRef_user h).trans hu
  unfold handOverRef at h
  unfold callRoom
  split_ifs at h ⊢ with hset hfree
  · obtain ⟨⟨k, s1⟩, hr, heq⟩ := map_ok_iff.mp h
    cases heq
    obtain ⟨hadv, hmap, ⟨-, hactive, hlen⟩ | ⟨hno, -⟩⟩ :=
      reserve_ok (s := { s with refSet := true }) (t := refSPId) (by decide) ho hr
    · exact ⟨huser, hlen, congrArg _ hactive, hadv, inReg_congr hmap⟩
    · exact absurd hfree hno
  · obtain ⟨⟨k, s1⟩, hr, heq⟩ := map_ok_iff.mp h
    cases heq
    obtain ⟨hadv, hmap, ⟨hyes, -⟩ | ⟨-, hkeys, hlen⟩⟩ :=
      reserve_ok (s := { s with refSet := true }) (t := refSPId) (by decide) ho hr
    · exact absurd hyes hfree
    · exact ⟨huser, hlen, hkeys, hadv, inReg_congr hmap⟩
  · cases h
    exact ⟨hu, rfl, rfl, rfl, rfl⟩
  · obtain ⟨ra, hg, rfl⟩ := giveUpTempRegister_iff.mp h
    obtain ⟨-, rfl⟩ := giveUpTempRegister_ok hg
    exact ⟨hu, rfl, rfl, rfl, rfl⟩
  · cases h
    exact ⟨hu, rfl, rfl, rfl, rfl⟩

end Arguments

/-- **The arguments of a call.** If those of its operands that are in registers are read from their
    own, the emitted call reads the values of its arguments iff, in the registers before the visit,
    no argument has the latest next use when a later one needs a register. -/
theorem callReads_iff {c : Ctx} {b n : ℕ} {s s' : State} {callee : String} {args : List Operand}
    {ty : Option Ty} (hs : Reaches c (.inst b n) s)
    (hown : OwnOperands (fun J => ∃ V ∈ args, V.inst? = some J) s)
    (h : visitCallInst c ⟨b, n⟩ callee args ty s = .ok ((), s')) :
    CallReads c s s' args ↔ Spares (callRoom callee s) args := by
  simp only [visitCallInst, bind_ok_iff] at h
  obtain ⟨⟨⟩, s1, h1, vs, s2, h2, ⟨⟩, s3, h3, h4⟩ := h
  have ho := hs.ownership
  have ho1 := Steps.ownership (handOverRef_steps (d := ⟨⟨b, n⟩, [], [], False, False, True⟩)
    trivial ho h1).1 ho
  obtain ⟨hactive, hmap, spills1, hspills1, hcode1⟩ := handOverRef_onlySpills ho h1
  -- no allocation was last used by this call yet
  have hlast : ∀ e ∈ s1.ra.activeSet, e.lastUser ≠ some ⟨b, n⟩ := by
    intro e he hlast
    rcases hs.lastUser e (hactive e he) _ hlast with h | h
    · exact absurd h (lt_irrefl b)
    · exact absurd h.2 (lt_irrefl n)
  have htracks : Tracks ⟨b, n⟩ (callRoom callee s) s1 := by
    refine ⟨sees_callRoom hs.user ho h1, fun e he => ?_⟩
    simp [callRoom_kept, hlast e he]
  rw [← htracks.noOwnVictim_iff ho1 h2]
  have hinv : ArgsInv ⟨b, n⟩ (fun J => ∃ V ∈ args, V.inst? = some J) s.sourceToEmitMap (holder s)
      [] s1 := by
    refine ⟨fun e he => holder_of_mem ho (hactive e he), fun e he hop j hj => ?_, by simp,
      fun e he hl => absurd hl (hlast e he), fun J v hv _ => hmap ▸ hv⟩
    exact hown e (hactive e he) hop j (by rw [← hmap]; exact hj)
  obtain ⟨lines, hcode2, hcall2, ho2, hfix, hinv2, hkept, hdist⟩ :=
    hinv.all (fun V hV J hJ => ⟨V, hV, hJ⟩) ho1 h2
  rw [List.nil_append] at hinv2 hkept hdist
  obtain ⟨spills3, d, rest, hspills3, hcode3⟩ := emitCall_ok ho2 h3
  obtain ⟨-, -, ls4, hcode4⟩ := Steps.frame (takeBackRef_steps
    (d := ⟨⟨b, n⟩, [], [], True, False, True⟩) trivial (Steps.ownership (emitCall_steps
      (d := ⟨⟨b, n⟩, [], [], True, False, True⟩) trivial ho2 h3) ho2) h4).1
  -- what the registers hold at the call
  have hhold : holdAfter (holder s) (spills1 ++ lines ++ spills3) = holdAfter (holder s) lines := by
    rw [holdAfter_append, holdAfter_append, holdAfter_spills hspills1, holdAfter_spills hspills3]
  have hcode : s'.code = s.code ++ (spills1 ++ lines ++ spills3) ++
      .call d callee (vs.map Prod.fst) :: (rest ++ ls4) := by
    rw [hcode4, hcode3, hcode2, hcode1]
    simp only [List.append_assoc, List.cons_append]
  have hcall : ∀ l ∈ spills1 ++ lines ++ spills3, ∀ d f vs, l ≠ .call d f vs := by
    intro l hl
    simp only [List.mem_append] at hl
    rcases hl with (hl | hl) | hl
    · exact ne_call_of_isSpill (hspills1 l hl)
    · exact hcall2 l hl
    · exact ne_call_of_isSpill (hspills3 l hl)
  constructor
  · rintro ⟨lines', d', callee', vals, rest', heq, hcall', hreads⟩
    rw [hcode, List.append_assoc s.code, List.append_assoc s.code, List.append_cancel_left_eq] at heq
    obtain ⟨rfl, rfl⟩ := first_call_unique hcall hcall' heq
    rw [hhold, forall₂_readsHeld] at hreads
    refine hdist fun p hp q hq hpq => Option.some.inj ?_
    rw [← hreads.2 p hp, ← hreads.2 q hq, hpq]
  · intro hno
    refine ⟨_, d, callee, _, _, hcode, hcall, ?_⟩
    rw [hhold, forall₂_readsHeld]
    refine ⟨hfix, fun p hp => ?_⟩
    obtain ⟨e, he, hes, hek, -, -⟩ := hkept hno (fun p hp => by cases hp) p hp
    rw [← hek, hinv2.held e he, hes]

/-- A loaded value is passed on. -/
def oneArgument : Ctx where
  F :=
    { name := "f"
      blocks :=
        [ { phis := []
            body :=
              [ .load ⟨.global 0, .ptr (.int 64)⟩,
                .call "f" [⟨.inst ⟨0, 0⟩, .int 64⟩] none ]
            term := .ret none } ] }
  gvMap := fun _ => 0
  heapSize := 0

theorem callReads_iff_oneArgument : ∃ s s', Reaches oneArgument (.inst 0 1) s ∧
    CallReads oneArgument s s' [⟨.inst ⟨0, 0⟩, .int 64⟩] := by
  have hrun : ((entryState? oneArgument 1).any fun s =>
      s.ra.get ⟨0, 0⟩ ≠ 0 && !s.refSet && !s.refSpilled &&
        (visitCallInst oneArgument ⟨0, 1⟩ "f" [⟨.inst ⟨0, 0⟩, .int 64⟩] none s).isOk) = true := by
    decide +kernel
  obtain ⟨s, hs, hrun⟩ := (Option.any_eq_true _ _).mp hrun
  simp only [Bool.and_eq_true, decide_eq_true_eq, Bool.not_eq_true'] at hrun
  obtain ⟨⟨⟨hget, hset⟩, hspilled⟩, hok⟩ := hrun
  have hreach : Reaches oneArgument (.inst 0 1) s := reaches_entryState rfl rfl (by decide) hs
  have hcast : NoAliasedCast oneArgument := by
    intro b B i x s hB hx _
    obtain ⟨hb, rfl⟩ := List.getElem?_eq_some_iff.mp hB
    obtain rfl : b = 0 := by simpa [oneArgument] using hb
    obtain ⟨hi, rfl⟩ := List.getElem?_eq_some_iff.mp hx
    have hi' : i = 0 ∨ i = 1 := by
      have hi : i < 2 := hi
      omega
    rcases hi' with rfl | rfl <;> exact id
  cases hv : visitCallInst oneArgument ⟨0, 1⟩ "f" [⟨.inst ⟨0, 0⟩, .int 64⟩] none s with
  | error f =>
    rw [hv] at hok
    cases hok
  | ok p =>
    obtain ⟨⟨⟩, s'⟩ := p
    have hown : OwnOperands (fun J => ∃ V ∈ [(⟨.inst ⟨0, 0⟩, .int 64⟩ : Operand)],
        V.inst? = some J) s := fun e he _ => hreach.readsOwn hcast e he
    have hroom : callRoom "f" s = s.room := by
      rw [callRoom, hset, hspilled]
      rfl
    refine ⟨s, s', hreach, (callReads_iff hreach hown hv).mpr ?_⟩
    rw [hroom]
    exact ⟨fun hno => absurd hget
      (mt ((sees_room hreach.user).resident_iff hreach.ownership).mpr hno), trivial⟩

/-- Seventeen loaded values and sixteen registers: the last value and the one before it are passed
    to `f` when the register of the latter has been given away and all others are used soon. -/
def reloadedArguments : Ctx where
  F :=
    { name := "f"
      blocks :=
        [ { phis := []
            body :=
              List.replicate 17 (.load ⟨.global 0, .ptr (.int 64)⟩) ++
                (List.range 15).map (fun i =>
                  .store ⟨.inst ⟨0, i⟩, .int 64⟩ ⟨.global 0, .ptr (.int 64)⟩) ++
                [.call "f" [⟨.inst ⟨0, 16⟩, .int 64⟩, ⟨.inst ⟨0, 15⟩, .int 64⟩] none] ++
                (List.range 15).map fun i =>
                  .store ⟨.inst ⟨0, i⟩, .int 64⟩ ⟨.global 0, .ptr (.int 64)⟩
            term := .ret none } ] }
  gvMap := fun _ => 10232
  heapSize := 0

/-- The call is emitted as `call f r16 r16`. -/
theorem not_callReads_reloadedArguments : ∃ s s', Reaches reloadedArguments (.inst 0 32) s ∧
    visitInst reloadedArguments ⟨0, 32⟩
      (.call "f" [⟨.inst ⟨0, 16⟩, .int 64⟩, ⟨.inst ⟨0, 15⟩, .int 64⟩] none) s = .ok ((), s') ∧
    ¬CallReads reloadedArguments s s' [⟨.inst ⟨0, 16⟩, .int 64⟩, ⟨.inst ⟨0, 15⟩, .int 64⟩] := by
  let x : Inst := .call "f" [⟨.inst ⟨0, 16⟩, .int 64⟩, ⟨.inst ⟨0, 15⟩, .int 64⟩] none
  let isCall : Line → Bool := fun l =>
    match l with
    | .call _ _ _ => true
    | _ => false
  have hrun : ((entryState? reloadedArguments 32).any fun s =>
      match visitInst reloadedArguments ⟨0, 32⟩ x s with
      | .ok (_, s') =>
        (s'.code.drop s.code.length).find? isCall = some (.call none "f" [.reg 16, .reg 16])
      | .error _ => false) = true := by
    decide +kernel
  obtain ⟨s, hs, hrun⟩ := (Option.any_eq_true _ _).mp hrun
  cases hv : visitInst reloadedArguments ⟨0, 32⟩ x s with
  | error f =>
    rw [hv] at hrun
    cases hrun
  | ok p =>
    obtain ⟨⟨⟩, s'⟩ := p
    simp only [hv, decide_eq_true_eq] at hrun
    refine ⟨s, s', reaches_entryState rfl rfl (by decide) hs, hv, ?_⟩
    rintro ⟨lines, d, f, vals, rest, hcode, hnot, hreads⟩
    have hnone : lines.find? isCall = none := by
      refine List.find?_eq_none.mpr fun l hl hcall => ?_
      cases l <;> first | exact hnot _ hl _ _ _ rfl | cases hcall
    have hvals : vals = [.reg 16, .reg 16] := by
      rw [hcode, List.append_assoc, List.drop_left, List.find?_append, hnone, Option.none_or,
        List.find?_cons_of_pos rfl] at hrun
      cases hrun
      rfl
    rw [hvals] at hreads
    obtain ⟨h16, hreads⟩ := List.forall₂_cons.mp hreads
    obtain ⟨h15, -⟩ := List.forall₂_cons.mp hreads
    -- register 16 cannot hold both values
    have := (h16.held ⟨0, 16⟩ 16 rfl rfl).symm.trans (h15.held ⟨0, 15⟩ 16 rfl rfl)
    revert this
    decide

end SwppCompiler.Backend
