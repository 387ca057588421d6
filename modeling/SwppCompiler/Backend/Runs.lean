import SwppCompiler.Backend.Visitors

/-!
# The points of a translation

`Reaches c p s`: the translation of the function passes point `p`, between two visits, in state `s`.
An invariant of the translation is proved by induction on `Reaches`, one case for each kind of visit.

* `visitFunction_reaches`: a translation that does not abort passes the point after the last block.
* `visitFunction_error`: one that aborts does so in a visit from a point that it passes.
-/

namespace SwppCompiler.Backend

open Lib.StateExcept RegisterAllocator

/-- A point of the translation: before block `b`, or before instruction `n` of block `b`. -/
inductive Point
  | start (b : ℕ)
  | inst (b n : ℕ)

/-- The translation of the function passes a point in a state. -/
inductive Reaches (c : Ctx) : Point → State → Prop
  | init : Reaches c (.start 0) initState
  | begin {b : ℕ} {B : Block} {s s' : State} (hB : c.F.blocks[b]? = some B)
      (hs : Reaches c (.start b) s) (h : visitBasicBlock c b B s = .ok ((), s')) :
      Reaches c (.inst b 0) s'
  | phi {b n : ℕ} {B : Block} {s s' : State} (hB : c.F.blocks[b]? = some B)
      (hn : n < B.phis.length) (hs : Reaches c (.inst b n) s)
      (h : visitPHINode c ⟨b, n⟩ s = .ok ((), s')) : Reaches c (.inst b (n + 1)) s'
  | inst {b i : ℕ} {B : Block} {x : Inst} {s s' : State} (hB : c.F.blocks[b]? = some B)
      (hx : B.body[i]? = some x) (hs : Reaches c (.inst b (B.phis.length + i)) s)
      (h : visitInst c ⟨b, B.phis.length + i⟩ x s = .ok ((), s')) :
      Reaches c (.inst b (B.phis.length + i + 1)) s'
  | term {b : ℕ} {B : Block} {s s' : State} (hB : c.F.blocks[b]? = some B)
      (hs : Reaches c (.inst b B.termIdx) s)
      (h : visitTerm c ⟨b, B.termIdx⟩ B s = .ok ((), s')) :
      Reaches c (.start (b + 1)) { s' with emitted := s'.emitted ++ [s'.code] }

/-- A visit from a point that the translation passes fails with `f`. -/
inductive Aborts (c : Ctx) (f : Fault) : Prop
  | begin {b : ℕ} {B : Block} {s : State} (hB : c.F.blocks[b]? = some B)
      (hs : Reaches c (.start b) s) (h : visitBasicBlock c b B s = .error f)
  | phi {b n : ℕ} {B : Block} {s : State} (hB : c.F.blocks[b]? = some B)
      (hn : n < B.phis.length) (hs : Reaches c (.inst b n) s)
      (h : visitPHINode c ⟨b, n⟩ s = .error f)
  | inst {b i : ℕ} {B : Block} {x : Inst} {s : State} (hB : c.F.blocks[b]? = some B)
      (hx : B.body[i]? = some x) (hs : Reaches c (.inst b (B.phis.length + i)) s)
      (h : visitInst c ⟨b, B.phis.length + i⟩ x s = .error f)
  | term {b : ℕ} {B : Block} {s : State} (hB : c.F.blocks[b]? = some B)
      (hs : Reaches c (.inst b B.termIdx) s)
      (h : visitTerm c ⟨b, B.termIdx⟩ B s = .error f)

variable {c : Ctx} {b : ℕ} {B : Block}

theorem visitPhis_points (hB : c.F.blocks[b]? = some B) : ∀ {phis : List Phi} {n : ℕ} {s : State},
    n + phis.length = B.phis.length → Reaches c (.inst b n) s →
    (∀ s', visitPhis c b n phis s = .ok ((), s') → Reaches c (.inst b B.phis.length) s') ∧
      ∀ f, visitPhis c b n phis s = .error f → Aborts c f := by
  intro phis
  induction phis with
  | nil =>
    intro n s hn hs
    obtain rfl : n = B.phis.length := by simpa using hn
    refine ⟨fun s' h => ?_, fun f h => by cases h⟩
    obtain ⟨-, rfl⟩ := pure_ok_iff.mp h
    exact hs
  | cons P phis ih =>
    intro n s hn hs
    rw [List.length_cons] at hn
    refine ⟨fun s' h => ?_, fun f h => ?_⟩
    · simp only [visitPhis, bind_ok_iff] at h
      obtain ⟨⟨⟩, s1, h1, h2⟩ := h
      exact (ih (by omega) (hs.phi hB (by omega) h1)).1 s' h2
    · simp only [visitPhis, bind_error_iff] at h
      obtain h1 | ⟨⟨⟩, s1, h1, h2⟩ := h
      · exact .phi hB (by omega) hs h1
      · exact (ih (by omega) (hs.phi hB (by omega) h1)).2 f h2

/-- The instructions from position `i` of the body on, or the first ones of them. -/
theorem visitBody_points (hB : c.F.blocks[b]? = some B) : ∀ {body : List Inst} {i : ℕ} {s : State},
    body <+: B.body.drop i → Reaches c (.inst b (B.phis.length + i)) s →
    (∀ s', visitBody c b (B.phis.length + i) body s = .ok ((), s') →
        Reaches c (.inst b (B.phis.length + i + body.length)) s') ∧
      ∀ f, visitBody c b (B.phis.length + i) body s = .error f → Aborts c f := by
  intro body
  induction body with
  | nil =>
    intro i s _ hs
    refine ⟨fun s' h => ?_, fun f h => by cases h⟩
    obtain ⟨-, rfl⟩ := pure_ok_iff.mp h
    exact hs
  | cons x body ih =>
    rintro i s ⟨rest, hi⟩ hs
    have hx : B.body[i]? = some x := by
      rw [← List.head?_drop, ← hi, List.cons_append, List.head?_cons]
    have hi' : body <+: B.body.drop (i + 1) := by
      rw [← List.tail_drop, ← hi, List.cons_append, List.tail_cons]
      exact List.prefix_append _ _
    have hlen : B.phis.length + i + (x :: body).length =
        B.phis.length + (i + 1) + body.length := by
      rw [List.length_cons]; omega
    refine ⟨fun s' h => ?_, fun f h => ?_⟩
    · simp only [visitBody, bind_ok_iff] at h
      obtain ⟨⟨⟩, s1, h1, h2⟩ := h
      rw [hlen]
      exact (ih hi' (hs.inst hB hx h1)).1 s' h2
    · simp only [visitBody, bind_error_iff] at h
      obtain h1 | ⟨⟨⟩, s1, h1, h2⟩ := h
      · exact .inst hB hx hs h1
      · exact (ih hi' (hs.inst hB hx h1)).2 f h2

theorem visitBlock_points (hB : c.F.blocks[b]? = some B) {s : State}
    (hs : Reaches c (.start b) s) :
    (∀ s', visitBlock c b B s = .ok ((), s') → Reaches c (.start (b + 1)) s') ∧
      ∀ f, visitBlock c b B s = .error f → Aborts c f := by
  refine ⟨fun s' h => ?_, fun f h => ?_⟩
  · simp only [visitBlock, bind_ok_iff, modify_ok_iff] at h
    obtain ⟨⟨⟩, s1, h1, ⟨⟩, s2, h2, ⟨⟩, s3, h3, ⟨⟩, s4, h4, rfl⟩ := h
    have hs1 := hs.begin hB h1
    have hs2 := (visitPhis_points hB (by simp) hs1).1 s2 h2
    have hs3 := (visitBody_points hB (i := 0) List.prefix_rfl hs2).1 s3 h3
    exact hs3.term hB h4
  · simp only [visitBlock, bind_error_iff] at h
    obtain h1 | ⟨⟨⟩, s1, h1, h2 | ⟨⟨⟩, s2, h2, h3 | ⟨⟨⟩, s3, h3, h4 | ⟨⟨⟩, s4, h4, h5⟩⟩⟩⟩ := h
    · exact .begin hB hs h1
    all_goals have hs1 := hs.begin hB h1
    · exact (visitPhis_points hB (by simp) hs1).2 f h2
    all_goals have hs2 := (visitPhis_points hB (by simp) hs1).1 s2 h2
    · exact (visitBody_points hB (i := 0) List.prefix_rfl hs2).2 f h3
    all_goals have hs3 := (visitBody_points hB (i := 0) List.prefix_rfl hs2).1 s3 h3
    · exact .term hB hs3 h4
    · cases h5

theorem visitBlocks_points : ∀ {blocks : List Block} {b : ℕ} {s : State},
    c.F.blocks.drop b = blocks → Reaches c (.start b) s →
    (∀ s', visitBlocks c b blocks s = .ok ((), s') →
        Reaches c (.start (b + blocks.length)) s') ∧
      ∀ f, visitBlocks c b blocks s = .error f → Aborts c f := by
  intro blocks
  induction blocks with
  | nil =>
    intro b s _ hs
    refine ⟨fun s' h => ?_, fun f h => by cases h⟩
    obtain ⟨-, rfl⟩ := pure_ok_iff.mp h
    exact hs
  | cons B blocks ih =>
    intro b s hb hs
    have hB : c.F.blocks[b]? = some B := by
      rw [← List.head?_drop, hb, List.head?_cons]
    have hb' : c.F.blocks.drop (b + 1) = blocks := by
      rw [← List.tail_drop, hb, List.tail_cons]
    have hlen : b + (B :: blocks).length = b + 1 + blocks.length := by
      rw [List.length_cons]; omega
    refine ⟨fun s' h => ?_, fun f h => ?_⟩
    · simp only [visitBlocks, bind_ok_iff] at h
      obtain ⟨⟨⟩, s1, h1, h2⟩ := h
      rw [hlen]
      exact (ih hb' ((visitBlock_points hB hs).1 s1 h1)).1 s' h2
    · simp only [visitBlocks, bind_error_iff] at h
      obtain h1 | ⟨⟨⟩, s1, h1, h2⟩ := h
      · exact (visitBlock_points hB hs).2 f h1
      · exact (ih hb' ((visitBlock_points hB hs).1 s1 h1)).2 f h2

/-- The fault that the translation aborts with. -/
def fault? (c : Ctx) : Option Fault :=
  match visitFunction c with
  | .error f => some f
  | .ok _ => none

theorem fault?_eq_some {f : Fault} : fault? c = some f ↔ visitFunction c = .error f := by
  unfold fault?
  cases visitFunction c <;> simp

/-- The code of a translation that does not abort. -/
def emitted? (c : Ctx) : Option (List (List Line)) :=
  match visitFunction c with
  | .error _ => none
  | .ok s => some s.emitted

theorem emitted?_eq_some {codes : List (List Line)} :
    emitted? c = some codes ↔ ∃ s, visitFunction c = .ok s ∧ s.emitted = codes := by
  unfold emitted?
  cases visitFunction c <;> simp

/-- The state before instruction `n` of the entry block, which has no PHI nodes. -/
def entryState? (c : Ctx) (n : ℕ) : Option State :=
  match c.F.blocks[0]? with
  | none => none
  | some B =>
    let visits : M Unit := do
      visitBasicBlock c 0 B
      visitBody c 0 B.phis.length (B.body.take n)
    match visits initState with
    | .error _ => none
    | .ok (_, s) => some s

theorem reaches_entryState (hB : c.F.blocks[0]? = some B) (hphis : B.phis = []) {n : ℕ}
    (hn : n ≤ B.body.length) {s : State} (h : entryState? c n = some s) :
    Reaches c (.inst 0 n) s := by
  unfold entryState? at h
  simp only [hB] at h
  split at h
  · cases h
  · rename_i s1 hv
    cases h
    simp only [bind_ok_iff] at hv
    obtain ⟨⟨⟩, s2, h1, h2⟩ := hv
    have hs2 : Reaches c (.inst 0 (B.phis.length + 0)) s2 := by
      rw [hphis]
      exact .begin hB .init h1
    have := (visitBody_points hB (i := 0) (List.take_prefix n B.body) hs2).1 s h2
    simpa only [hphis, List.length_take, Nat.min_eq_left hn, List.length_nil, Nat.zero_add] using this

/-- The result of the translation is its state after the last block. -/
theorem visitFunction_reaches {s : State} (h : visitFunction c = .ok s) :
    Reaches c (.start c.F.blocks.length) s := by
  obtain ⟨⟨⟨⟩, s'⟩, hrun, rfl⟩ := map_ok_iff.mp h
  simpa using (visitBlocks_points (b := 0) (by simp) .init).1 s' hrun

/-- A translation that aborts does so in a visit. -/
theorem visitFunction_error {f : Fault} (h : visitFunction c = .error f) : Aborts c f := by
  unfold visitFunction at h
  cases hr : (visitBlocks c 0 c.F.blocks).run initState with
  | ok p => rw [hr] at h; cases h
  | error f' =>
    rw [hr] at h
    cases h
    exact (visitBlocks_points (b := 0) (by simp) .init).2 f hr

/-- Every state that the translation passes has well-owned registers. -/
theorem Reaches.ownership {p : Point} {s : State} (h : Reaches c p s) : Ownership s.ra := by
  induction h with
  | init => exact Ownership.init
  | begin hB hs h ih =>
    simp only [visitBasicBlock, bind_ok_iff, require_ok, modify_ok_iff] at h
    obtain ⟨⟨⟩, s1, ⟨-, rfl⟩, rfl⟩ := h
    exact ih
  | phi hB hn hs h ih => exact Steps.ownership (visitPHINode_steps ih h) ih
  | inst hB hx hs h ih => exact Steps.ownership (visitInst_steps ih h) ih
  | term hB hs h ih =>
    obtain ⟨s1, s2, l, h1, rfl, -, -, ⟨-, rfl⟩ | ⟨-, hclear⟩⟩ := visitTerm_ok ih h
    · have ho1 := Steps.ownership h1 ih
      exact ho1
    · have ho2 := Steps.ownership (clearRA_ok (d := phiSite ⟨0, 0⟩) hclear).1
        (Steps.ownership h1 ih)
      exact ho2

end SwppCompiler.Backend
