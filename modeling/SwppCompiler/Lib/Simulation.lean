import SwppCompiler.Lib.StateExcept
import Mathlib

/-!
# Runs and simulations of machines

A machine either goes on to a next state or ends with a result.

* `Star.invariant`: what each step keeps holds in every state of a run.
* `halts_of_simulation` and `halts_of_simulation'`: if one machine does each step of another after
  some steps of its own, then the one halts iff the other does, with related results.
* `Simulates.star`, `Follows.star`: what the one machine reaches, the other reaches too.
* `Related`: two programs that keep their states related and give related results; `Related.bind`
  composes them.
-/

namespace SwppCompiler.Lib

open StateExcept

variable {σ τ ρ q : Type}

/-- Some steps. -/
inductive Star (step : σ → σ ⊕ ρ) : σ → σ → Prop
  | refl {s : σ} : Star step s s
  | next {s s' s'' : σ} (h : step s = .inl s') (hs : Star step s' s'') : Star step s s''

/-- The run from a state ends after `n` steps. -/
inductive HaltsIn (step : σ → σ ⊕ ρ) : ℕ → σ → ρ → Prop
  | done {s : σ} {r : ρ} (h : step s = .inr r) : HaltsIn step 0 s r
  | next {n : ℕ} {s s' : σ} {r : ρ} (h : step s = .inl s') (hs : HaltsIn step n s' r) :
      HaltsIn step (n + 1) s r

/-- The run from a state ends. -/
def Halts (step : σ → σ ⊕ ρ) (s : σ) (r : ρ) : Prop := ∃ n, HaltsIn step n s r

section

variable {step : σ → σ ⊕ ρ} {step' : τ → τ ⊕ q} {s s' : σ} {t t' : τ} {r : ρ} {n : ℕ}

theorem Star.single (h : step s = .inl s') : Star step s s' := .next h .refl

theorem Star.trans {s'' : σ} (h : Star step s s') (h' : Star step s' s'') : Star step s s'' := by
  induction h with
  | refl => exact h'
  | next hstep _ ih => exact .next hstep (ih h')

theorem Star.invariant {p : σ → Prop} (hp : ∀ s s', p s → step s = .inl s' → p s')
    (h : Star step s s') (hs : p s) : p s' := by
  induction h with
  | refl => exact hs
  | next hstep _ ih => exact ih (hp _ _ hs hstep)

theorem Star.haltsIn (h : Star step s s') (hn : HaltsIn step n s' r) : Halts step s r := by
  induction h with
  | refl => exact ⟨n, hn⟩
  | next hstep _ ih =>
    obtain ⟨m, hm⟩ := ih hn
    exact ⟨m + 1, .next hstep hm⟩

/-- A run that ends goes through the states that it reaches. -/
theorem HaltsIn.of_star (hn : HaltsIn step n s r) (h : Star step s s') :
    ∃ m ≤ n, HaltsIn step m s' r := by
  induction h generalizing n with
  | refl => exact ⟨n, le_rfl, hn⟩
  | next hstep _ ih =>
    cases hn with
    | done h => rw [hstep] at h; cases h
    | next h hs =>
      rw [hstep] at h
      cases h
      obtain ⟨m, hle, hm⟩ := ih hs
      exact ⟨m, hle.trans (Nat.le_succ _), hm⟩

/-- A run that ends does so from a state that it reaches. -/
theorem HaltsIn.last (hn : HaltsIn step n s r) : ∃ s', Star step s s' ∧ step s' = .inr r := by
  induction hn with
  | done h => exact ⟨_, .refl, h⟩
  | next h _ ih =>
    obtain ⟨s', hstar, hs'⟩ := ih
    exact ⟨s', .next h hstar, hs'⟩

/-- The second machine may make steps of its own before it makes a step of the first. -/
def Simulates (step : σ → σ ⊕ ρ) (step' : τ → τ ⊕ q) (R : σ → τ → Prop) (Q : ρ → q → Prop) : Prop :=
  ∀ s t, R s t → ∃ t', Star step' t t' ∧ Sum.LiftRel R Q (step s) (step' t')

/-- Each step of the second machine is one of its own, or one of the first. -/
def Follows (step : σ → σ ⊕ ρ) (step' : τ → τ ⊕ q) (R : σ → τ → Prop) : Prop :=
  ∀ s t t', R s t → step' t = .inl t' → R s t' ∨ ∃ s', step s = .inl s' ∧ R s' t'

theorem Simulates.star {R : σ → τ → Prop} {Q : ρ → q → Prop} (hsim : Simulates step step' R Q)
    (hR : R s t) (h : Star step s s') : ∃ t', Star step' t t' ∧ R s' t' := by
  induction h generalizing t with
  | refl => exact ⟨t, .refl, hR⟩
  | next hstep _ ih =>
    obtain ⟨u, hstar, hrel⟩ := hsim _ _ hR
    rw [hstep] at hrel
    cases hu : step' u with
    | inl v =>
      rw [hu] at hrel
      cases hrel with
      | inl hR' =>
        obtain ⟨t', hstar', hR''⟩ := ih hR'
        exact ⟨t', hstar.trans (.next hu hstar'), hR''⟩
    | inr r' => rw [hu] at hrel; cases hrel

theorem Follows.star {R : σ → τ → Prop} (hfol : Follows step step' R) (hR : R s t)
    (h : Star step' t t') : ∃ s', Star step s s' ∧ R s' t' := by
  induction h generalizing s with
  | refl => exact ⟨s, .refl, hR⟩
  | next hstep _ ih =>
    rcases hfol _ _ _ hR hstep with hR' | ⟨s₁, hs, hR'⟩
    · exact ih hR'
    · obtain ⟨s', hstar, hR''⟩ := ih hR'
      exact ⟨s', .next hs hstar, hR''⟩

theorem halts_of_simulation {R : σ → τ → Prop} {Q : ρ → q → Prop}
    (hsim : Simulates step step' R Q) (hR : R s t) (h : Halts step s r) :
    ∃ r', Halts step' t r' ∧ Q r r' := by
  obtain ⟨n, h⟩ := h
  induction h generalizing t with
  | done h =>
    obtain ⟨t', hstar, hrel⟩ := hsim _ _ hR
    rw [h] at hrel
    cases ht : step' t' with
    | inl u => rw [ht] at hrel; cases hrel
    | inr r' =>
      rw [ht] at hrel
      cases hrel with
      | inr hQ => exact ⟨r', hstar.haltsIn (.done ht), hQ⟩
  | next h _ ih =>
    obtain ⟨t', hstar, hrel⟩ := hsim _ _ hR
    rw [h] at hrel
    cases ht : step' t' with
    | inl u =>
      rw [ht] at hrel
      cases hrel with
      | inl hR' =>
        obtain ⟨r', ⟨m, hm⟩, hQ⟩ := ih hR'
        exact ⟨r', hstar.haltsIn (.next ht hm), hQ⟩
    | inr r' => rw [ht] at hrel; cases hrel

/-- Conversely, by induction on the length of the run of the second machine. -/
theorem halts_of_simulation' {R : σ → τ → Prop} {Q : ρ → q → Prop}
    (hsim : Simulates step step' R Q) (hR : R s t) {r' : q} (h : Halts step' t r') :
    ∃ r, Halts step s r ∧ Q r r' := by
  obtain ⟨n, h⟩ := h
  induction n using Nat.strong_induction_on generalizing s t with
  | _ n ih =>
    obtain ⟨t', hstar, hrel⟩ := hsim _ _ hR
    obtain ⟨m, hle, hm⟩ := h.of_star hstar
    cases hm with
    | done ht =>
      rw [ht] at hrel
      cases hs : step s with
      | inl u => rw [hs] at hrel; cases hrel
      | inr r =>
        rw [hs] at hrel
        cases hrel with
        | inr hQ => exact ⟨r, ⟨0, .done hs⟩, hQ⟩
    | next ht hrest =>
      rw [ht] at hrel
      cases hs : step s with
      | inl u =>
        rw [hs] at hrel
        cases hrel with
        | inl hR' =>
          obtain ⟨r, ⟨k, hk⟩, hQ⟩ := ih _ (by omega) hR' hrest
          exact ⟨r, ⟨k + 1, .next hs hk⟩, hQ⟩
      | inr r => rw [hs] at hrel; cases hrel

end

/-! ## Related programs -/

/-- Both succeed with related values, or both fail with one error. -/
inductive ExceptRel {ε α β : Type} (R : α → β → Prop) : Except ε α → Except ε β → Prop
  | ok {a : α} {b : β} (h : R a b) : ExceptRel R (.ok a) (.ok b)
  | error (e : ε) : ExceptRel R (.error e) (.error e)

/-- From related states the programs give related results, and leave related states. -/
def Related {ε α β : Type} (S : σ → τ → Prop) (R : α → β → Prop) (m : ExceptT ε (StateM σ) α)
    (m' : ExceptT ε (StateM τ) β) : Prop :=
  ∀ s t, S s t → ExceptRel R (m.run s).1 (m'.run t).1 ∧ S (m.run s).2 (m'.run t).2

section

variable {ε α β α' β' : Type} {S : σ → τ → Prop} {R : α → β → Prop} {R' : α' → β' → Prop}
  {m : ExceptT ε (StateM σ) α} {m' : ExceptT ε (StateM τ) β}

theorem Related.pure {a : α} {b : β} (h : R a b) : Related S R (pure a : ExceptT ε (StateM σ) α)
    (pure b : ExceptT ε (StateM τ) β) := fun _ _ hst => ⟨.ok h, hst⟩

theorem Related.throw (e : ε) : Related S R (throw e : ExceptT ε (StateM σ) α)
    (throw e : ExceptT ε (StateM τ) β) := fun _ _ hst => ⟨.error e, hst⟩

theorem Related.bind {f : α → ExceptT ε (StateM σ) α'} {f' : β → ExceptT ε (StateM τ) β'}
    (h : Related S R m m') (hf : ∀ a b, R a b → Related S R' (f a) (f' b)) :
    Related S R' (m >>= f) (m' >>= f') := by
  intro s t hst
  obtain ⟨hres, hst'⟩ := h s t hst
  rw [run_bind, run_bind]
  generalize (m.run s).1 = x at hres
  generalize (m'.run t).1 = y at hres
  cases hres with
  | ok hR => exact hf _ _ hR _ _ hst'
  | error e => exact ⟨.error e, hst'⟩

end

end SwppCompiler.Lib
