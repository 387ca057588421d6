import SwppCompiler.Lib.Heap
import Mathlib

/-!
# The register allocator

Model of `class RegisterAllocator` (`src/core/RegisterAllocator.cpp`, lines 13–182). An
`Instruction *` is an element of a type `ι`; the null user is `none`. A failing `assert` is a
`Fault`.

`request_ok`, `update_ok`, `evict_ok`, `requestTempRegister_ok` and `giveUpTempRegister_ok` say what
one operation that violates no assertion does.
-/

namespace SwppCompiler.Backend

open Lib.Heap

/-- The ways in which the backend aborts: its failing assertions, and the uses of a null pointer
    or of an empty queue. -/
inductive Fault
  /-- `HeapEnd != ActiveSet.begin()` (`RegisterAllocator.cpp`, line 60). -/
  | onlyCurrentUser
  /-- `Victim != ActiveSet.end()` (`RegisterAllocator.cpp`, line 64). -/
  | victimNotFound
  /-- "Requested Source is already allocated." (`RegisterAllocator.cpp`, line 94). -/
  | alreadyAllocated
  /-- "update is called with an unallocated Source!" (`RegisterAllocator.cpp`, line 112). -/
  | updateUnallocated
  /-- `TempRegisters.count(RegId) == 0` in `evict` (`RegisterAllocator.cpp`, line 122). -/
  | evictTemp
  /-- `TempRegisters.count(RegId) == 0` in `requestTempRegister` (`RegisterAllocator.cpp`, line
      146). -/
  | tempRequested
  /-- "Cannot give up an unrequested temp register." (`RegisterAllocator.cpp`, line 172). -/
  | tempNotRequested
  /-- `AdventMap[Source].pop()` on an empty queue (`Backend.cpp`, line 124). -/
  | popEmpty
  /-- `evict(nullptr)` (`Backend.cpp`, line 130). -/
  | nullEvicted
  /-- A null `Value *` is used as an operand. -/
  | nullValue
  /-- "request after an eviction should work!" (`Backend.cpp`, line 142), and its sibling for
      temporary registers (line 160). -/
  | requestAfterEvict
  /-- An instruction, type or operand that the backend does not accept. -/
  | unsupported
deriving DecidableEq, Repr

/-- `RegisterAllocator::NO_MORE_ADVENT`, the `unsigned` `-1`. -/
def noMoreAdvent : ℕ := 2 ^ 32 - 1

/-- `MAX_REG_N`. -/
def maxRegN : ℕ := 16

/-- `struct Allocation` (`RegisterAllocator.cpp`, lines 17–23). -/
structure Allocation (ι : Type) where
  source : ι
  lastUser : Option ι
  regId : ℕ
  nextAdvent : ℕ
deriving DecidableEq, Repr

/-- `Comparator` (`RegisterAllocator.cpp`, lines 30–34). -/
def Allocation.cmp {ι : Type} (a1 a2 : Allocation ι) : Bool := a1.nextAdvent < a2.nextAdvent

/-- The data members of `RegisterAllocator`; the head of `freeRegisters` is the stack's top. -/
structure RegisterAllocator (ι : Type) where
  freeRegisters : List ℕ
  tempRegisters : Finset ℕ
  activeSet : List (Allocation ι)
  currentUser : Option ι
deriving DecidableEq

namespace RegisterAllocator

variable {ι : Type} [DecidableEq ι]

/-- The constructor (`RegisterAllocator.cpp`, lines 69–75): registers 16, 15, …, 1 are pushed in
    turn. -/
def init : RegisterAllocator ι where
  freeRegisters := List.range' 1 maxRegN
  tempRegisters := ∅
  activeSet := []
  currentUser := none

/-- `allocateNewRegister` (`RegisterAllocator.cpp`, lines 36–41): zero when no register is free. -/
def allocateNewRegister (ra : RegisterAllocator ι) : ℕ × RegisterAllocator ι :=
  match ra.freeRegisters with
  | [] => (0, ra)
  | r :: free => (r, { ra with freeRegisters := free })

/-- The loop of `getVictim` (`RegisterAllocator.cpp`, lines 57–61) on the first `heapEnd` elements:
    the allocations last used by `u` are popped out of the heap. -/
def skipCurrentUser (u : ι) :
    (heapEnd : ℕ) → List (Allocation ι) → Except Fault (List (Allocation ι))
  | 0, _ => .error .onlyCurrentUser
  | heapEnd + 1, l =>
    if l.head?.bind Allocation.lastUser = some u then
      if heapEnd = 0 then .error .onlyCurrentUser
      else skipCurrentUser u heapEnd (popHeap Allocation.cmp l (heapEnd + 1))
    else .ok l

/-- `getVictim` (`RegisterAllocator.cpp`, lines 43–66): the victim's position, and the active set
    that the search leaves. -/
def getVictim (ra : RegisterAllocator ι) (regId : ℕ) :
    Except Fault (ℕ × List (Allocation ι)) :=
  if regId ≠ 0 then
    match ra.activeSet.findIdx? (fun e => e.regId = regId) with
    | some i => .ok (i, ra.activeSet)
    | none => .error .victimNotFound
  else
    match ra.currentUser with
    | none => .ok (0, ra.activeSet)
    | some u => (skipCurrentUser u ra.activeSet.length ra.activeSet).map fun l => (0, l)

/-- `get` (`RegisterAllocator.cpp`, lines 81–86). -/
def get (ra : RegisterAllocator ι) (source : ι) : ℕ :=
  match ra.activeSet.find? (fun e => e.source = source) with
  | some e => e.regId
  | none => 0

/-- `request` (`RegisterAllocator.cpp`, lines 92–102). -/
def request (ra : RegisterAllocator ι) (source : ι) : Except Fault (ℕ × RegisterAllocator ι) :=
  if ∃ e ∈ ra.activeSet, e.source = source then .error .alreadyAllocated
  else
    let (regId, ra) := ra.allocateNewRegister
    if regId ≠ 0 then
      .ok (regId, { ra with activeSet := ra.activeSet ++ [⟨source, none, regId, 0⟩] })
    else .ok (0, ra)

/-- The loop of `update` (`RegisterAllocator.cpp`, lines 106–111): the first allocation of `source`
    is changed. -/
def updateFirst (source : ι) (user : Option ι) (nextAdvent : ℕ) :
    List (Allocation ι) → Option (List (Allocation ι))
  | [] => none
  | e :: l =>
    if e.source = source then some ({ e with lastUser := user, nextAdvent := nextAdvent } :: l)
    else (updateFirst source user nextAdvent l).map (e :: ·)

/-- `update` (`RegisterAllocator.cpp`, lines 105–113). -/
def update (ra : RegisterAllocator ι) (source : ι) (user : Option ι) (nextAdvent : ℕ) :
    Except Fault (RegisterAllocator ι) :=
  match updateFirst source user nextAdvent ra.activeSet with
  | some l => .ok { ra with activeSet := makeHeap Allocation.cmp l }
  | none => .error .updateUnallocated

/-- `evict` (`RegisterAllocator.cpp`, lines 120–131); `regId = 0` leaves the choice to the policy. -/
def evict (ra : RegisterAllocator ι) (regId : ℕ) :
    Except Fault (Option (Allocation ι) × RegisterAllocator ι) :=
  if ra.activeSet.isEmpty then .ok (none, ra)
  else if regId ≠ 0 ∧ regId ∈ ra.tempRegisters then .error .evictTemp
  else
    match ra.getVictim regId with
    | .error f => .error f
    | .ok (i, l) =>
      match l[i]? with
      | none => .error .victimNotFound
      | some victim =>
        .ok (some victim,
          { ra with
            activeSet := makeHeap Allocation.cmp (l.eraseIdx i)
            freeRegisters := victim.regId :: ra.freeRegisters })

/-- The first loop of `requestTempRegister(RegId)` (`RegisterAllocator.cpp`, lines 151–159), on
    `(Temp, FoundId)`. -/
def drainFree (regId : ℕ) : (free temp : List ℕ) → (foundId : ℕ) → List ℕ × ℕ
  | [], temp, foundId => (temp, foundId)
  | r :: free, temp, foundId =>
    if r = regId then drainFree regId free temp regId else drainFree regId free (r :: temp) foundId

/-- Its second loop (`RegisterAllocator.cpp`, lines 161–164): the stack is refilled. -/
def refillFree : (temp free : List ℕ) → List ℕ
  | [], free => free
  | r :: temp, free => refillFree temp (r :: free)

/-- `requestTempRegister` (`RegisterAllocator.cpp`, lines 135–141 for `regId = 0`, lines 145–169 for
    a target). -/
def requestTempRegister (ra : RegisterAllocator ι) (regId : ℕ) :
    Except Fault (ℕ × RegisterAllocator ι) :=
  if regId ∈ ra.tempRegisters then .error .tempRequested
  else if regId = 0 then
    let (r, ra) := ra.allocateNewRegister
    if r ≠ 0 then .ok (r, { ra with tempRegisters := insert r ra.tempRegisters }) else .ok (0, ra)
  else
    let (temp, foundId) := drainFree regId ra.freeRegisters [] 0
    let ra := { ra with freeRegisters := refillFree temp [] }
    if foundId ≠ 0 then
      .ok (foundId, { ra with tempRegisters := insert foundId ra.tempRegisters })
    else .ok (0, ra)

/-- `giveUpTempRegister` (`RegisterAllocator.cpp`, lines 171–176). -/
def giveUpTempRegister (ra : RegisterAllocator ι) (regId : ℕ) :
    Except Fault (RegisterAllocator ι) :=
  if regId ∈ ra.tempRegisters then
    .ok { ra with
      tempRegisters := ra.tempRegisters.erase regId
      freeRegisters := regId :: ra.freeRegisters }
  else .error .tempNotRequested

/-- `reportUser` (`RegisterAllocator.cpp`, lines 179–181). -/
def reportUser (ra : RegisterAllocator ι) (u : Option ι) : RegisterAllocator ι :=
  { ra with currentUser := u }

/-! ## What each operation does -/

theorem request_ok {ra ra' : RegisterAllocator ι} {source : ι} {k : ℕ}
    (h0 : 0 ∉ ra.freeRegisters) (h : ra.request source = .ok (k, ra')) :
    (∀ e ∈ ra.activeSet, e.source ≠ source) ∧
      ((ra.freeRegisters = [] ∧ k = 0 ∧ ra' = ra) ∨
        ∃ free, ra.freeRegisters = k :: free ∧ k ≠ 0 ∧
          ra' = { ra with
            freeRegisters := free
            activeSet := ra.activeSet ++ [⟨source, none, k, 0⟩] }) := by
  unfold request at h
  split_ifs at h with hmem
  refine ⟨fun e he hs => hmem ⟨e, he, hs⟩, ?_⟩
  cases hf : ra.freeRegisters with
  | nil =>
    left
    simp only [allocateNewRegister, hf] at h
    cases h
    exact ⟨rfl, rfl, rfl⟩
  | cons r free =>
    right
    have hr : r ≠ 0 := by rintro rfl; exact h0 (by simp [hf])
    simp only [allocateNewRegister, hf, ne_eq, hr, not_false_eq_true, ite_true] at h
    cases h
    exact ⟨free, rfl, hr, rfl⟩

theorem request_isOk {ra : RegisterAllocator ι} {source : ι}
    (h : ∀ e ∈ ra.activeSet, e.source ≠ source) : ∃ r, ra.request source = .ok r := by
  unfold request
  rw [if_neg (by rintro ⟨e, he, hs⟩; exact h e he hs)]
  simp only
  split_ifs <;> exact ⟨_, rfl⟩

theorem updateFirst_some {source : ι} {user : Option ι} {nextAdvent : ℕ} :
    ∀ {l l' : List (Allocation ι)}, updateFirst source user nextAdvent l = some l' →
      ∃ l1 e l2, l = l1 ++ e :: l2 ∧ e.source = source ∧ (∀ x ∈ l1, x.source ≠ source) ∧
        l' = l1 ++ { e with lastUser := user, nextAdvent := nextAdvent } :: l2 := by
  intro l
  induction l with
  | nil => intro l' h; cases h
  | cons e l ih =>
    intro l' h
    rw [updateFirst] at h
    split_ifs at h with hs
    · cases h
      exact ⟨[], e, l, rfl, hs, by simp, rfl⟩
    · obtain ⟨m, hm, rfl⟩ := Option.map_eq_some_iff.mp h
      obtain ⟨l1, d, l2, rfl, hd, hl1, rfl⟩ := ih hm
      refine ⟨e :: l1, d, l2, rfl, hd, ?_, rfl⟩
      intro x hx
      rcases List.mem_cons.mp hx with rfl | hx
      · exact hs
      · exact hl1 x hx

theorem update_ok {ra ra' : RegisterAllocator ι} {source : ι} {user : Option ι} {nextAdvent : ℕ}
    (h : ra.update source user nextAdvent = .ok ra') :
    ∃ l1 e l2, ra.activeSet = l1 ++ e :: l2 ∧ e.source = source ∧
      (∀ x ∈ l1, x.source ≠ source) ∧
      ra'.activeSet.Perm (l1 ++ { e with lastUser := user, nextAdvent := nextAdvent } :: l2) ∧
      ra' = { ra with activeSet := ra'.activeSet } := by
  unfold update at h
  cases hu : updateFirst source user nextAdvent ra.activeSet with
  | none => rw [hu] at h; cases h
  | some l =>
    rw [hu] at h
    cases h
    obtain ⟨l1, e, l2, ha, hs, hl1, rfl⟩ := updateFirst_some hu
    exact ⟨l1, e, l2, ha, hs, hl1, makeHeap_perm _ _, rfl⟩

theorem skipCurrentUser_perm {u : ι} :
    ∀ {n : ℕ} {l l' : List (Allocation ι)}, skipCurrentUser u n l = .ok l' → l'.Perm l := by
  intro n
  induction n with
  | zero => intro l l' h; cases h
  | succ n ih =>
    intro l l' h
    rw [skipCurrentUser] at h
    split_ifs at h with h1 h2
    · exact (ih h).trans (popHeap_perm _ _ _)
    · cases h
      exact List.Perm.refl l

/-- The allocation that the search stops at was not last used by the current user. -/
theorem skipCurrentUser_head {u : ι} :
    ∀ {n : ℕ} {l l' : List (Allocation ι)}, skipCurrentUser u n l = .ok l' →
      l'.head?.bind Allocation.lastUser ≠ some u := by
  intro n
  induction n with
  | zero => intro l l' h; cases h
  | succ n ih =>
    intro l l' h
    rw [skipCurrentUser] at h
    split_ifs at h with h1 h2
    · exact ih h
    · cases h
      exact h1

theorem getVictim_ok {ra : RegisterAllocator ι} {regId i : ℕ} {l : List (Allocation ι)}
    (h : ra.getVictim regId = .ok (i, l)) :
    l.Perm ra.activeSet ∧
      (regId ≠ 0 → l = ra.activeSet ∧ ∃ hi : i < l.length, l[i].regId = regId) ∧
      (regId = 0 → i = 0 ∧ ∀ u, ra.currentUser = some u →
        l.head?.bind Allocation.lastUser ≠ some u) := by
  unfold getVictim at h
  split_ifs at h with hr
  · cases hf : ra.activeSet.findIdx? (fun e => e.regId = regId) with
    | none => rw [hf] at h; cases h
    | some j =>
      rw [hf] at h
      cases h
      obtain ⟨hi, hp, -⟩ := List.findIdx?_eq_some_iff_getElem.mp hf
      exact ⟨List.Perm.refl _, fun _ => ⟨rfl, hi, by simpa using hp⟩, fun h0 => absurd h0 hr⟩
  · cases hu : ra.currentUser with
    | none =>
      rw [hu] at h
      cases h
      exact ⟨List.Perm.refl _, fun h0 => absurd h0 hr, fun _ => ⟨rfl, by simp⟩⟩
    | some u =>
      simp only [hu] at h
      cases hs : skipCurrentUser u ra.activeSet.length ra.activeSet with
      | error f => rw [hs] at h; cases h
      | ok m =>
        rw [hs] at h
        cases h
        refine ⟨skipCurrentUser_perm hs, fun h0 => absurd h0 hr, fun _ => ⟨rfl, ?_⟩⟩
        rintro v ⟨⟩
        exact skipCurrentUser_head hs

/-- A successful `evict` returns null on an empty active set and otherwise moves one allocation's
    register to the top of the free stack. -/
theorem evict_ok {ra ra' : RegisterAllocator ι} {regId : ℕ} {r : Option (Allocation ι)}
    (h : ra.evict regId = .ok (r, ra')) :
    (ra.activeSet = [] ∧ r = none ∧ ra' = ra) ∨
      ∃ victim, r = some victim ∧ ra.activeSet.Perm (victim :: ra'.activeSet) ∧
        (regId ≠ 0 → victim.regId = regId) ∧
        (regId = 0 → ∀ u, ra.currentUser = some u → victim.lastUser ≠ some u) ∧
        ra' = { ra with
          activeSet := ra'.activeSet
          freeRegisters := victim.regId :: ra.freeRegisters } := by
  unfold evict at h
  split_ifs at h with he ht
  · cases h
    exact Or.inl ⟨List.isEmpty_iff.mp he, rfl, rfl⟩
  · right
    cases hv : ra.getVictim regId with
    | error f => rw [hv] at h; cases h
    | ok p =>
      obtain ⟨i, l⟩ := p
      rw [hv] at h
      obtain ⟨hperm, htarget, hpolicy⟩ := getVictim_ok hv
      cases hl : l[i]? with
      | none => simp only [hl] at h; cases h
      | some victim =>
        simp only [hl] at h
        cases h
        obtain ⟨hi, hvi⟩ := List.getElem?_eq_some_iff.mp hl
        refine ⟨victim, rfl, ?_, ?_, ?_, rfl⟩
        · have h1 : (victim :: l.eraseIdx i).Perm l := by
            rw [← hvi]; exact List.getElem_cons_eraseIdx_perm hi
          have h2 := (makeHeap_perm Allocation.cmp (l.eraseIdx i)).cons victim
          exact hperm.symm.trans (h1.symm.trans h2.symm)
        · intro hr
          obtain ⟨-, hi', hid⟩ := htarget hr
          rw [← hvi]; exact hid
        · intro hr u hu
          obtain ⟨rfl, hlast⟩ := hpolicy hr
          have := hlast u hu
          rwa [List.head?_eq_getElem?, hl, Option.bind_some] at this

theorem drainFree_eq (regId : ℕ) :
    ∀ (free temp : List ℕ) (foundId : ℕ), drainFree regId free temp foundId =
      ((free.filter (· ≠ regId)).reverse ++ temp, if regId ∈ free then regId else foundId) := by
  intro free
  induction free with
  | nil => intro temp foundId; simp [drainFree]
  | cons r free ih =>
    intro temp foundId
    rw [drainFree]
    by_cases hr : r = regId
    · subst hr
      simp [ih]
    · rw [if_neg hr, ih]
      simp [hr, Ne.symm hr]

theorem refillFree_eq : ∀ (temp free : List ℕ), refillFree temp free = temp.reverse ++ free := by
  intro temp
  induction temp with
  | nil => intro free; rfl
  | cons r temp ih => intro free; rw [refillFree, ih]; simp

omit [DecidableEq ι] in
/-- A successful `requestTempRegister` takes nothing (and returns zero) or takes one free
    register, the target if there is one. -/
theorem requestTempRegister_ok {ra ra' : RegisterAllocator ι} {regId k : ℕ}
    (h0 : 0 ∉ ra.freeRegisters) (hn : ra.freeRegisters.Nodup)
    (h : ra.requestTempRegister regId = .ok (k, ra')) :
    regId ∉ ra.tempRegisters ∧
      ((k = 0 ∧ ra' = ra ∧ (regId = 0 → ra.freeRegisters = []) ∧ regId ∉ ra.freeRegisters) ∨
        (k ≠ 0 ∧ k ∈ ra.freeRegisters ∧ (regId ≠ 0 → k = regId) ∧
          (regId = 0 → ra.freeRegisters.head? = some k) ∧
          ra' = { ra with
            freeRegisters := ra.freeRegisters.erase k
            tempRegisters := insert k ra.tempRegisters })) := by
  unfold requestTempRegister at h
  split_ifs at h with ht hz
  · refine ⟨ht, ?_⟩
    cases hf : ra.freeRegisters with
    | nil =>
      left
      simp only [allocateNewRegister, hf] at h
      cases h
      exact ⟨rfl, rfl, fun _ => rfl, by simp⟩
    | cons r free =>
      right
      have hr : r ≠ 0 := by rintro rfl; exact h0 (by simp [hf])
      simp only [allocateNewRegister, hf, ne_eq, hr, not_false_eq_true, ite_true] at h
      cases h
      exact ⟨hr, by simp, fun hne => absurd hz hne, fun _ => by simp, by simp⟩
  · refine ⟨ht, ?_⟩
    simp only [drainFree_eq, refillFree_eq, List.append_nil, List.reverse_reverse] at h
    by_cases hm : regId ∈ ra.freeRegisters
    · right
      simp only [hm, ite_true, ne_eq, hz, not_false_eq_true] at h
      cases h
      refine ⟨hz, hm, fun _ => rfl, fun h => absurd h hz, ?_⟩
      rw [hn.erase_eq_filter]
      congr 1
      exact List.filter_congr fun x _ => by by_cases hx : x = regId <;> simp [hx]
    · left
      simp only [hm, ite_false, ne_eq, not_true_eq_false] at h
      cases h
      refine ⟨rfl, ?_, fun h => absurd h hz, hm⟩
      have : ra.freeRegisters.filter (· ≠ regId) = ra.freeRegisters := by
        rw [List.filter_eq_self]
        intro x hx
        simpa using fun hxr : x = regId => hm (hxr ▸ hx)
      rw [this]

omit [DecidableEq ι] in
theorem giveUpTempRegister_ok {ra ra' : RegisterAllocator ι} {regId : ℕ}
    (h : ra.giveUpTempRegister regId = .ok ra') :
    regId ∈ ra.tempRegisters ∧
      ra' = { ra with
        tempRegisters := ra.tempRegisters.erase regId
        freeRegisters := regId :: ra.freeRegisters } := by
  unfold giveUpTempRegister at h
  split_ifs at h with hm
  cases h
  exact ⟨hm, rfl⟩

end RegisterAllocator

end SwppCompiler.Backend
