import SwppCompiler.Backend.BlockLevel

/-!
# Allocation and emission agree

`RA` records a register for each active source, `SourceToEmitMap` the value that is read for it.
They agree as long as every instruction that gets a register also gets a value in it.

Two paths of `src/core/Backend.cpp` break this. A cast that `IRBuilder` does not emit (lines 541–563
and 565–571) is read from the register of its operand, while the allocator has another one for it;
and a block that starts with something active (lines 646–653) has no value for it.

* `Visits`: where a visit starts; `Steps` from there are the states that it passes through.
* `agreement_of_startsClear`: without the two, the maps agree at every point of the translation.
* `not_agreement_identityCast`: a cast to the same type is read from the wrong register.
-/

namespace SwppCompiler.Backend

open Interp Lib.StateExcept RegisterAllocator

/-- Every active source has a value: a constant, an argument, or an emitted instruction named by
    the source's own register. -/
def Agree (s : State) : Prop :=
  ∀ e ∈ s.ra.activeSet, ∃ v, s.sourceToEmitMap e.source = some v ∧
    (v = .reg e.regId ∨ ∀ j, v ≠ .reg j)

variable {c : Ctx}

theorem Steps.agree {d : Site} {s s' : State} (hd : ¬d.aliased) (h : Steps c d s s')
    (ho : Ownership s.ra) (hs : Agree s) : Agree s' := by
  refine (h.invariant (p := Agree) (fun s1 s2 ho1 hs1 hstep e he => ?_) ho hs).2
  obtain ⟨e', he', hsrc, hreg, -, hval⟩ | ⟨-, -, -, v, hval, hv⟩ := hstep.active ho1 he
  · obtain ⟨v, hv, hvr⟩ := hs1 e' he'
    exact ⟨v, by rw [hval, ← hsrc, hv], hreg ▸ hvr⟩
  · rcases hv with hv | hv | hv
    · exact ⟨v, hval, Or.inl hv⟩
    · exact ⟨v, hval, Or.inr hv⟩
    · exact absurd hv hd

/-- The translation starts the visit of the site `d` in state `s`: that of a PHI node, of another
    instruction, or of a terminator. -/
inductive Visits (c : Ctx) : Site → State → Prop
  | phi {b n : ℕ} {B : Block} {s : State} (hB : c.F.blocks[b]? = some B) (hn : n < B.phis.length)
      (hs : Reaches c (.inst b n) s) : Visits c (phiSite ⟨b, n⟩) s
  | inst {b i : ℕ} {B : Block} {x : Inst} {s : State} (hB : c.F.blocks[b]? = some B)
      (hx : B.body[i]? = some x) (hs : Reaches c (.inst b (B.phis.length + i)) s) :
      Visits c (x.site c s ⟨b, B.phis.length + i⟩) s
  | term {b : ℕ} {B : Block} {s : State} (hB : c.F.blocks[b]? = some B)
      (hs : Reaches c (.inst b B.termIdx) s) : Visits c (B.termSite c.F b) s

/-- The allocator and `SourceToEmitMap` agree at every point of the translation: between two visits,
    and in every state that a visit passes through. The visit of a terminator includes the fills and
    evictions for the PHI nodes of its successors and for its condition, and those of `clearRA`. -/
structure Agreement (c : Ctx) : Prop where
  between : ∀ p s, Reaches c p s → Agree s
  within : ∀ d s s', Visits c d s → Steps c d s s' → Agree s'

/-- Every block starts with nothing active. -/
def StartsClear (c : Ctx) : Prop :=
  ∀ b s, b < c.F.blocks.length → Reaches c (.start b) s → s.ra.activeSet = []

/-- No visited instruction is a cast that `IRBuilder` does not emit. -/
def NoAliasedCast (c : Ctx) : Prop :=
  ∀ b B i x s, c.F.blocks[b]? = some B → B.body[i]? = some x →
    Reaches c (.inst b (B.phis.length + i)) s → ¬x.aliased c s

/-- The site of a visit is no cast that `IRBuilder` does not emit. -/
theorem Visits.not_aliased (hcast : NoAliasedCast c) {d : Site} {s : State} (h : Visits c d s) :
    ¬d.aliased := by
  cases h with
  | phi hB hn hs => exact id
  | inst hB hx hs => exact hcast _ _ _ _ _ hB hx hs
  | term hB hs => exact id

theorem Visits.ownership {d : Site} {s : State} (h : Visits c d s) : Ownership s.ra := by
  cases h with
  | phi hB hn hs => exact hs.ownership
  | inst hB hx hs => exact hs.ownership
  | term hB hs => exact hs.ownership

/-- A visit keeps the agreement, in every state that it passes through. -/
theorem Visits.agree (hcast : NoAliasedCast c) {d : Site} {s s' : State} (h : Visits c d s)
    (hs : Agree s) (hsteps : Steps c d s s') : Agree s' :=
  hsteps.agree (h.not_aliased hcast) h.ownership hs

/-- The states between two visits agree. -/
theorem Reaches.agree (hstart : StartsClear c) (hcast : NoAliasedCast c) {p : Point} {s : State}
    (h : Reaches c p s) : Agree s := by
  induction h with
  | init => exact fun e he => by cases he
  | begin hB hs h ih =>
    have hnil := hstart _ _ (List.getElem?_eq_some_iff.mp hB).1 hs
    rw [← (visitBasicBlock_ok h).1] at hnil
    exact fun e he => by simp [hnil] at he
  | phi hB hn hs h ih =>
    exact (Visits.phi hB hn hs).agree hcast ih (visitPHINode_steps hs.ownership h)
  | inst hB hx hs h ih =>
    exact (Visits.inst hB hx hs).agree hcast ih (visitInst_steps hs.ownership h)
  | term hB hs h ih =>
    obtain ⟨s1, l, hsteps, rfl⟩ := visitTerm_steps hs.ownership h
    have hs1 : Agree s1 := (Visits.term hB hs).agree hcast ih hsteps
    exact hs1

/-- **Agreement.** In a translation whose blocks start with nothing active and whose casts are all
    emitted, the register that is read for a source is the one that the allocator recorded. -/
theorem agreement_of_startsClear (hstart : StartsClear c) (hcast : NoAliasedCast c) :
    Agreement c := by
  refine ⟨fun p s h => h.agree hstart hcast, fun d s s' h hsteps => ?_⟩
  -- the state at the start of a visit is one between two visits
  have hs : Agree s := by
    cases h with
    | phi hB hn hs => exact hs.agree hstart hcast
    | inst hB hx hs => exact hs.agree hstart hcast
    | term hB hs => exact hs.agree hstart hcast
  exact h.agree hcast hs hsteps

/-- A cast of a loaded pointer to another type. -/
def realCast : Ctx where
  F :=
    { name := "f"
      blocks :=
        [ { phis := []
            body :=
              [ .load ⟨.global 0, .ptr i8Ptr⟩,
                .bitcast ⟨.inst ⟨0, 0⟩, i8Ptr⟩ (.ptr (.int 64)) ]
            term := .ret none } ] }
  gvMap := fun _ => 0
  heapSize := 0

theorem agreement_realCast : Agreement realCast := by
  refine agreement_of_startsClear (fun b s hb h => ?_) fun b B i x s hB hx _ => ?_
  · obtain rfl : b = 0 := by simpa [realCast] using hb
    cases h
    rfl
  · obtain ⟨hb, rfl⟩ := List.getElem?_eq_some_iff.mp hB
    obtain rfl : b = 0 := by simpa [realCast] using hb
    obtain ⟨hi, rfl⟩ := List.getElem?_eq_some_iff.mp hx
    have hi' : i = 0 ∨ i = 1 := by
      have hi : i < 2 := hi
      omega
    rcases hi' with rfl | rfl
    · exact id
    · rintro ⟨hty, -⟩
      revert hty
      decide

/-- The value is stored through the pointer cast to the type that it has. -/
def identityCast : Ctx where
  F :=
    { name := "f"
      blocks :=
        [ { phis := []
            body :=
              [ .load ⟨.global 0, .ptr i8Ptr⟩,
                .bitcast ⟨.inst ⟨0, 0⟩, i8Ptr⟩ i8Ptr,
                .store ⟨.constInt 1, .int 8⟩ ⟨.inst ⟨0, 1⟩, i8Ptr⟩ ]
            term := .ret none } ] }
  gvMap := fun _ => 0
  heapSize := 0

/-- The register of the cast is 2, but its value is read from register 1. -/
theorem not_agreement_identityCast : ¬Agreement identityCast := by
  let B : Block := ⟨[], [.load ⟨.global 0, .ptr i8Ptr⟩, .bitcast ⟨.inst ⟨0, 0⟩, i8Ptr⟩ i8Ptr,
    .store ⟨.constInt 1, .int 8⟩ ⟨.inst ⟨0, 1⟩, i8Ptr⟩], .ret none⟩
  let visits : M Unit := do
    visitBasicBlock identityCast 0 B
    visitInst identityCast ⟨0, 0⟩ (.load ⟨.global 0, .ptr i8Ptr⟩)
    visitInst identityCast ⟨0, 1⟩ (.bitcast ⟨.inst ⟨0, 0⟩, i8Ptr⟩ i8Ptr)
  let bad : State → Bool := fun s =>
    s.ra.activeSet.any fun e => e.regId = 2 && s.sourceToEmitMap e.source = some (.reg 1)
  have hrun : (match visits initState with | .ok (_, s) => bad s | .error _ => false) = true := by
    decide +kernel
  intro hag
  cases hv : visits initState with
  | error f => rw [hv] at hrun; cases hrun
  | ok p =>
    obtain ⟨⟨⟩, s⟩ := p
    rw [hv] at hrun
    simp only [visits, bind_ok_iff] at hv
    obtain ⟨⟨⟩, s1, h1, ⟨⟩, s2, h2, h3⟩ := hv
    have hB : identityCast.F.blocks[0]? = some B := rfl
    have hs : Reaches identityCast (.inst 0 2) s :=
      .inst (i := 1) hB rfl (.inst (i := 0) hB rfl (.begin hB .init h1) h2) h3
    obtain ⟨e, he, hbad⟩ := List.any_eq_true.mp hrun
    simp only [Bool.and_eq_true, decide_eq_true_eq] at hbad
    obtain ⟨v, hval, hreg⟩ := hag.between _ s hs e he
    rw [hbad.2] at hval
    cases hval
    rcases hreg with hreg | hreg
    · rw [hbad.1] at hreg; cases hreg
    · exact hreg 1 rfl

end SwppCompiler.Backend
