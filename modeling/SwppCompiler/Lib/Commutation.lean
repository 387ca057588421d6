import Mathlib

/-!
# Steps in another order

A label says which step is made, and what it did.

* `Runs step s l s'`: from `s`, the steps with the labels `l` lead to `s'`, one after the other.
* `Commuting step inv indep`: adjacent steps with independent labels may be exchanged.
* `Runs.reorder`: then the steps may be made in any order that keeps the pairs that are bound.
-/

namespace SwppCompiler.Lib.Commutation

variable {σ α : Type}

/-- The steps of a list of labels. -/
inductive Runs (step : α → σ → σ → Prop) : σ → List α → σ → Prop
  | nil {s : σ} : Runs step s [] s
  | cons {s s1 s2 : σ} {a : α} {l : List α} (h : step a s s1) (hrest : Runs step s1 l s2) :
      Runs step s (a :: l) s2

/-- Steps keep the invariant. Two steps that are independent do the same in the other order. -/
structure Commuting (step : α → σ → σ → Prop) (inv : σ → Prop) (indep : α → α → Prop) : Prop where
  keeps : ∀ {a s s'}, inv s → step a s s' → inv s'
  swap : ∀ {a b s s1 s2}, inv s → indep a b → step a s s1 → step b s1 s2 →
    ∃ s1', step b s s1' ∧ step a s1' s2

variable {step : α → σ → σ → Prop} {inv : σ → Prop} {indep bound : α → α → Prop} {s s' : σ}

/-- A step that is independent of those before it may be made first. -/
theorem Runs.toFront (hc : Commuting step inv indep) {l l' : List α} {a : α} (hs : inv s)
    (h : Runs step s (l ++ a :: l') s') (hl : ∀ b ∈ l, indep b a) :
    Runs step s (a :: (l ++ l')) s' := by
  induction l generalizing s with
  | nil => exact h
  | cons b l ih =>
    cases h with
    | cons hb hrest =>
      have hfront := ih (hc.keeps hs hb) hrest fun d hd => hl d (List.mem_cons_of_mem b hd)
      cases hfront with
      | cons ha hrest =>
        obtain ⟨s1, ha', hb'⟩ := hc.swap hs (hl b List.mem_cons_self) hb ha
        exact .cons ha' (.cons hb' hrest)

/-- **Reordering.** Every two steps are independent or bound to their order. Then the same steps in
another order that keeps the bound pairs lead to the same state. -/
theorem Runs.reorder (hc : Commuting step inv indep) {l l' : List α} (hs : inv s)
    (h : Runs step s l s') (hl : l.Pairwise fun a b => indep a b ∨ bound a b) (hperm : l'.Perm l)
    (hl' : l'.Pairwise fun a b => ¬bound b a) : Runs step s l' s' := by
  induction l' generalizing s l with
  | nil =>
    rw [← hperm.nil_eq] at h
    exact h
  | cons a l' ih =>
    obtain ⟨hbound, hl'⟩ := List.pairwise_cons.mp hl'
    obtain ⟨l1, l2, rfl⟩ := List.append_of_mem (hperm.mem_iff.mp List.mem_cons_self)
    have hrest : l'.Perm (l1 ++ l2) :=
      (List.perm_cons a).mp (hperm.trans List.perm_middle)
    have hfront : Runs step s (a :: (l1 ++ l2)) s' := by
      refine h.toFront hc hs fun b hb => ?_
      have hba := (List.pairwise_append.mp hl).2.2 b hb a List.mem_cons_self
      -- a label before `a` comes after it in the new order
      exact hba.resolve_right (hbound b (hrest.mem_iff.mpr (List.mem_append_left l2 hb)))
    cases hfront with
    | cons ha hruns =>
      have hsub : (l1 ++ l2).Sublist (l1 ++ a :: l2) :=
        List.Sublist.append_left (List.sublist_cons_self a l2) l1
      exact .cons ha (ih (hc.keeps hs ha) hruns (hl.sublist hsub) hrest hl')

end SwppCompiler.Lib.Commutation
