import Mathlib

/-!
# Scheduling in two classes

Items depend on each other, and some of them belong to one of two classes. A schedule is made in
phases: each one blocks a class, in turn, and takes all other items that become ready.

* `Phases.taken`: a schedule takes items once, and respects the dependences.
* `Phases.progress`: of two phases, one takes something.
* `Phases.switches_le`: another order that respects the dependences has at most one change of class
  less than the schedule.
-/

namespace SwppCompiler.Lib.Schedule

/-! ## Changes of class -/

/-- The changes in a list, if `c` stands before it. -/
def changesFrom (c : Bool) : List Bool → ℕ
  | [] => 0
  | a :: l => if a = c then changesFrom c l else changesFrom a l + 1

/-- The changes in a list. -/
def changes : List Bool → ℕ
  | [] => 0
  | a :: l => changesFrom a l

section

variable {c d : Bool} {l m : List Bool}

theorem changes_le_changesFrom : changes l ≤ changesFrom c l := by
  cases l with
  | nil => exact le_rfl
  | cons a l =>
    rw [changes, changesFrom]
    split_ifs with h
    · rw [h]
    · exact Nat.le_succ _

theorem changesFrom_le : changesFrom c l ≤ changes l + 1 := by
  cases l with
  | nil => exact Nat.zero_le _
  | cons a l =>
    rw [changes, changesFrom]
    split_ifs with h
    · rw [h]
      exact Nat.le_succ _
    · exact le_rfl

/-- The class that is current after a list. -/
def lastFrom (c : Bool) (l : List Bool) : Bool := l.getLastD c

theorem changesFrom_append :
    changesFrom c (l ++ m) = changesFrom c l + changesFrom (lastFrom c l) m := by
  induction l generalizing c with
  | nil => simp [changesFrom, lastFrom]
  | cons a l ih =>
    have hlast : lastFrom c (a :: l) = lastFrom a l := by
      unfold lastFrom
      rw [List.getLastD_cons]
    rw [List.cons_append, changesFrom, changesFrom, hlast]
    split_ifs with h
    · rw [ih, h]
    · rw [ih]
      omega

/-- Changes are counted by the class that they lead to. -/
theorem lastFrom_eq : lastFrom c l = (c ^^ decide (changesFrom c l % 2 = 1)) := by
  induction l generalizing c with
  | nil => simp [changesFrom, lastFrom]
  | cons a l ih =>
    have hlast : lastFrom c (a :: l) = lastFrom a l := by
      unfold lastFrom
      rw [List.getLastD_cons]
    rw [hlast, ih, changesFrom]
    by_cases h : a = c
    · rw [if_pos h, h]
    · rw [if_neg h]
      have hac : a = !c := by
        cases a <;> cases c <;> simp_all
      rw [hac]
      rcases Nat.mod_two_eq_zero_or_one (changesFrom (!c) l) with h0 | h0
      · have h1 : (changesFrom (!c) l + 1) % 2 = 1 := by omega
        simp [h0, h1]
      · have h1 : (changesFrom (!c) l + 1) % 2 = 0 := by omega
        simp [h0, h1]

theorem changesFrom_le_one (h : ∀ a ∈ l, a = d) : changesFrom c l ≤ 1 := by
  have hsame : ∀ l : List Bool, (∀ a ∈ l, a = d) → changesFrom d l = 0 := by
    intro l hl
    induction l with
    | nil => rfl
    | cons a l ih =>
      rw [changesFrom, if_pos (hl a List.mem_cons_self)]
      exact ih fun b hb => hl b (List.mem_cons_of_mem _ hb)
  cases l with
  | nil => exact Nat.zero_le _
  | cons a l =>
    have ha := h a List.mem_cons_self
    have hl := hsame l fun b hb => h b (List.mem_cons_of_mem _ hb)
    rw [changesFrom]
    split_ifs with hac
    · rw [← hac, ha, hl]
      exact Nat.zero_le _
    · rw [ha, hl]

theorem changesFrom_eq_zero (h : ∀ a ∈ l, a = c) : changesFrom c l = 0 := by
  induction l with
  | nil => rfl
  | cons a l ih =>
    rw [changesFrom, if_pos (h a List.mem_cons_self)]
    exact ih fun b hb => h b (List.mem_cons_of_mem _ hb)

end

/-! ## Phases -/

variable {ι : Type} (dep : ι → ι → Prop) (items : List ι) (cls : ι → Option Bool)

/-- No item comes before one that it depends on: `dep a b` is read as "`a` before `b`". -/
def Respects (order : List ι) : Prop := order.Pairwise fun a b => ¬dep b a

/-- Items for which `p` holds are taken, each after those that it depends on. -/
inductive Fill (p : ι → Prop) : List ι → List ι → Prop
  | refl (done : List ι) : Fill p done done
  | push {done done' : List ι} {x : ι} (h : Fill p done done') (hx : x ∈ items) (hfresh : x ∉ done')
      (hp : p x) (hready : ∀ y ∈ items, dep y x → y ∈ done') : Fill p done (done' ++ [x])

/-- What is left and not blocked waits for something that is left. -/
def Closed (p : ι → Prop) (done : List ι) : Prop :=
  ∀ x ∈ items, x ∉ done → p x → ∃ y ∈ items, dep y x ∧ y ∉ done

/-- The class that phase `k` blocks, if the first one blocks `b`. -/
def blocked (b : Bool) (k : ℕ) : Bool := b ^^ decide (k % 2 = 1)

/-- What phase `k` does not block. -/
def Free (b : Bool) (k : ℕ) (x : ι) : Prop := cls x ≠ some (blocked b k)

/-- The items that `k` phases take; a phase begins as long as something is left. -/
inductive Phases (b : Bool) : ℕ → List ι → Prop
  | start : Phases b 0 []
  | next {k : ℕ} {done done' : List ι} (h : Phases b k done) (hleft : ∃ x ∈ items, x ∉ done)
      (hfill : Fill dep items (Free cls b k) done done')
      (hclosed : Closed dep items (Free cls b k) done') : Phases b (k + 1) done'

variable {dep items cls}

/-- An order that has every item once respects the dependences iff it has items where these say. -/
theorem respects_iff [BEq ι] [LawfulBEq ι] {order : List ι} (hnodup : order.Nodup)
    (hall : ∀ x, x ∈ order) (hirr : ∀ x, ¬dep x x) :
    Respects dep order ↔ ∀ x y, dep x y → order.idxOf x < order.idxOf y := by
  rw [Respects, List.pairwise_iff_getElem]
  constructor
  · intro h x y hdep
    have hx := List.idxOf_lt_length_iff.mpr (hall x)
    have hy := List.idxOf_lt_length_iff.mpr (hall y)
    by_contra hlt
    rcases (not_lt.mp hlt).lt_or_eq with hlt | heq
    · have := h _ _ hy hx hlt
      rw [List.getElem_idxOf, List.getElem_idxOf] at this
      exact this hdep
    · rw [(List.idxOf_inj (hall y)).mp heq] at hdep
      exact hirr x hdep
  · intro h a b ha hb hab hdep
    have := h _ _ hdep
    rw [hnodup.idxOf_getElem, hnodup.idxOf_getElem] at this
    omega

section Fill

variable {p : ι → Prop} {done done' : List ι}

theorem Fill.trans {done'' : List ι} (h1 : Fill dep items p done done')
    (h2 : Fill dep items p done' done'') : Fill dep items p done done'' := by
  induction h2 with
  | refl => exact h1
  | push _ hx hfresh hp hready ih => exact .push ih hx hfresh hp hready

theorem Fill.exists_append (h : Fill dep items p done done') :
    ∃ l, done' = done ++ l ∧ ∀ x ∈ l, p x := by
  induction h with
  | refl => exact ⟨[], (List.append_nil _).symm, by simp⟩
  | @push _ x _ _ _ hp _ ih =>
    obtain ⟨l, rfl, hl⟩ := ih
    refine ⟨l ++ [x], List.append_assoc .., fun y hy => ?_⟩
    rcases List.mem_append.mp hy with hy | hy
    · exact hl y hy
    · rwa [List.mem_singleton.mp hy]

/-- What is taken is an item, once, and after what it depends on. -/
structure Taken (dep : ι → ι → Prop) (items done : List ι) : Prop where
  nodup : done.Nodup
  subset : done ⊆ items
  before : ∀ x ∈ done, ∀ y ∈ items, dep y x → y ∈ done
  respects : Respects dep done

theorem Taken.fill (h : Taken dep items done) (hfill : Fill dep items p done done') :
    Taken dep items done' := by
  induction hfill with
  | refl => exact h
  | @push done' x _ hx hfresh _ hready ih =>
    refine ⟨?_, ?_, fun z hz y hy hyz => ?_, ?_⟩
    · refine List.nodup_append.mpr ⟨ih.nodup, by simp, fun a ha b hb => ?_⟩
      rw [List.mem_singleton.mp hb]
      rintro rfl
      exact hfresh ha
    · exact List.append_subset.mpr ⟨ih.subset, by simpa using hx⟩
    · refine List.mem_append_left _ ?_
      rcases List.mem_append.mp hz with hz | hz
      · exact ih.before z hz y hy hyz
      · rw [List.mem_singleton.mp hz] at hyz
        exact hready y hy hyz
    · refine List.pairwise_append.mpr ⟨ih.respects, List.pairwise_singleton .., fun a ha b hb => ?_⟩
      rw [List.mem_singleton.mp hb]
      exact fun hdep => hfresh (ih.before a ha x hx hdep)

end Fill

section Phases

variable {b : Bool} {k : ℕ} {done : List ι}

theorem Phases.taken (h : Phases dep items cls b k done) : Taken dep items done := by
  induction h with
  | start => exact ⟨List.nodup_nil, List.nil_subset _, by simp, List.Pairwise.nil⟩
  | next _ _ hfill _ ih => exact ih.fill hfill

/-- Every phase but the first adds at most one change. -/
theorem Phases.changesFrom_le (h : Phases dep items cls b k done) :
    changesFrom (!b) (done.filterMap cls) ≤ k - 1 := by
  induction h with
  | start => exact le_rfl
  | @next k done _ h _ hfill _ ih =>
    obtain ⟨l, rfl, hl⟩ := hfill.exists_append
    have hclass : ∀ c ∈ l.filterMap cls, c = !blocked b k := by
      intro c hc
      obtain ⟨x, hx, hxc⟩ := List.mem_filterMap.mp hc
      have hfree := hl x hx
      rw [Free, hxc] at hfree
      cases c <;> cases hb : blocked b k <;> simp_all
    rw [List.filterMap_append, changesFrom_append]
    cases k with
    | zero =>
      have hdone : done = [] := by
        cases h
        rfl
      have hzero : changesFrom (!b) (l.filterMap cls) = 0 :=
        changesFrom_eq_zero fun c hc => (hclass c hc).trans (by simp [blocked])
      rw [hdone]
      show 0 + changesFrom (!b) (l.filterMap cls) ≤ 0
      omega
    | succ k =>
      have := changesFrom_le_one (c := lastFrom (!b) (done.filterMap cls)) hclass
      omega

/-- A prefix of another order, with fewer changes than there were phases, has been taken. -/
theorem Phases.prefix_subset (h : Phases dep items cls b k done) (hirr : ∀ x, ¬dep x x)
    {order : List ι} (horder : order.Perm items) (hresp : Respects dep order) {l : List ι}
    (hl : l <+: order)
    (hk : changesFrom (!b) (l.filterMap cls) < k) : l ⊆ done := by
  induction h generalizing l with
  | start => exact absurd hk (Nat.not_lt_zero _)
  | @next k done done' h _ hfill hclosed ih =>
    obtain ⟨new, hdone', -⟩ := hfill.exists_append
    have hsub : done ⊆ done' := hdone' ▸ List.subset_append_left ..
    induction l using List.reverseRecOn with
    | nil => exact List.nil_subset _
    | append_singleton l x ihl =>
      have hmono : changesFrom (!b) (l.filterMap cls) ≤ changesFrom (!b) ((l ++ [x]).filterMap cls) := by
        rw [List.filterMap_append, changesFrom_append]
        exact Nat.le_add_right _ _
      have hl' : l ⊆ done' := ihl ((List.prefix_append l [x]).trans hl) (hmono.trans_lt hk)
      refine List.append_subset.mpr ⟨hl', fun z hz => ?_⟩
      obtain rfl := List.mem_singleton.mp hz
      obtain ⟨rest, rfl⟩ := hl
      have hx : z ∈ items := horder.subset (by simp)
      by_contra hnot
      have htotal : changesFrom (!b) ((l ++ [z]).filterMap cls) = k := by
        refine le_antisymm (Nat.lt_succ_iff.mp hk) (not_lt.mp fun hlt => hnot ?_)
        exact hsub (ih (List.prefix_append _ _) hlt (by simp))
      have hfree : Free cls b k z := by
        intro hblocked
        have hlast := lastFrom_eq (c := !b) (l := (l ++ [z]).filterMap cls)
        rw [htotal, List.filterMap_append, List.filterMap_cons_some hblocked, List.filterMap_nil,
          lastFrom, List.getLastD_concat, blocked] at hlast
        cases b <;> simp at hlast
      obtain ⟨y, hy, hdep, hynot⟩ := hclosed z hx hnot hfree
      -- `y` is before `z` in the other order
      obtain ⟨-, -, hafter⟩ := List.pairwise_append.mp hresp
      rcases List.mem_append.mp (horder.symm.subset hy) with hy | hy
      · rcases List.mem_append.mp hy with hy | hy
        · exact hynot (hl' hy)
        · rw [List.mem_singleton.mp hy] at hdep
          exact hirr z hdep
      · exact hafter z (by simp) y hy hdep

/-- **The schedule is good.** Another order that respects the dependences has at most one change of
    class less. -/
theorem Phases.switches_le (h : Phases dep items cls b k done) (hirr : ∀ x, ¬dep x x)
    {order : List ι} (horder : order.Perm items) (hresp : Respects dep order) :
    changes (done.filterMap cls) ≤ changes (order.filterMap cls) + 1 := by
  have hdone : changes (done.filterMap cls) ≤ k - 1 :=
    changes_le_changesFrom.trans h.changesFrom_le
  cases h with
  | start => exact hdone.trans (Nat.zero_le _)
  | @next k before _ h hleft _ _ =>
    have hk : k ≤ changesFrom (!b) (order.filterMap cls) := by
      by_contra hlt
      obtain ⟨x, hx, hnot⟩ := hleft
      exact hnot (h.prefix_subset hirr horder hresp List.prefix_rfl (not_le.mp hlt)
        (horder.symm.subset hx))
    have := SwppCompiler.Lib.Schedule.changesFrom_le (c := !b) (l := order.filterMap cls)
    omega

/-- The first item that is left is of the class that was blocked. -/
theorem Phases.exists_blocked (h : Phases dep items cls b (k + 1) done) (hwf : WellFounded dep)
    (hleft : ∃ x ∈ items, x ∉ done) :
    ∃ x ∈ items, x ∉ done ∧ cls x = some (blocked b k) ∧ ∀ y ∈ items, dep y x → y ∈ done := by
  obtain ⟨x, ⟨hx, hnot⟩, hmin⟩ := hwf.has_min {x | x ∈ items ∧ x ∉ done} hleft
  have hready : ∀ y ∈ items, dep y x → y ∈ done := fun y hy hdep => by
    by_contra hynot
    exact hmin y ⟨hy, hynot⟩ hdep
  cases h with
  | next _ _ _ hclosed =>
    refine ⟨x, hx, hnot, ?_, hready⟩
    by_contra hfree
    obtain ⟨y, hy, hdep, hynot⟩ := hclosed x hx hnot hfree
    exact hynot (hready y hy hdep)

/-- Of two phases, one takes something. -/
theorem Phases.progress (h : Phases dep items cls b (k + 1) done) (hwf : WellFounded dep)
    (hleft : ∃ x ∈ items, x ∉ done) : ¬Closed dep items (Free cls b (k + 1)) done := by
  intro hclosed
  obtain ⟨x, hx, hnot, hblocked, hready⟩ := h.exists_blocked hwf hleft
  have hfree : Free cls b (k + 1) x := by
    rw [Free, hblocked]
    intro heq
    have := Option.some.inj heq
    unfold blocked at this
    rcases Nat.mod_two_eq_zero_or_one k with h0 | h0
    · have h1 : (k + 1) % 2 = 1 := by omega
      cases b <;> simp [h0, h1] at this
    · have h1 : (k + 1) % 2 = 0 := by omega
      cases b <;> simp [h0, h1] at this
  obtain ⟨y, hy, hdep, hynot⟩ := hclosed x hx hnot hfree
  exact hynot (hready y hy hdep)

end Phases

end SwppCompiler.Lib.Schedule
