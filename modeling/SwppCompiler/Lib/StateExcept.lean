import Mathlib

/-!
# Programs over a state that may fail

* Inversion of a successful run of a `StateT σ (Except ε)` program, one rule for each way to build
  one: `bind_ok_iff` takes a sequence apart, the others close its leaves.
* `Avoids bad p m q`: a triple that also excludes the faults `bad`; `Avoids.bind` composes them.
* `Post err post x`: the same without a state; `Post.foldlM` is the rule of a loop that a second loop
  keeps up with.
* `Ensures err p m q`: the triple of a program that keeps its state when it fails.
-/

namespace SwppCompiler.Lib.StateExcept

variable {σ ε α β : Type}

/-- A sequence succeeds iff its two parts do, through some state in between. -/
theorem bind_ok_iff {m : StateT σ (Except ε) α} {f : α → StateT σ (Except ε) β} {s s'' : σ}
    {b : β} :
    (m >>= f) s = .ok (b, s'') ↔ ∃ a s', m s = .ok (a, s') ∧ f a s' = .ok (b, s'') := by
  have hbind : (m >>= f) s = (m s >>= fun p => f p.1 p.2) := rfl
  rw [hbind]
  cases h : m s with
  | error e =>
    constructor
    · intro h'; cases h'
    · rintro ⟨a, s', h', -⟩; cases h'
  | ok p =>
    obtain ⟨a, s'⟩ := p
    constructor
    · intro h'; exact ⟨a, s', rfl, h'⟩
    · rintro ⟨a', s1, h1, h2⟩; cases h1; exact h2

/-- A sequence fails iff its first part fails, or the second one after it. -/
theorem bind_error_iff {m : StateT σ (Except ε) α} {f : α → StateT σ (Except ε) β} {s : σ} {e : ε} :
    (m >>= f) s = .error e ↔
      m s = .error e ∨ ∃ a s', m s = .ok (a, s') ∧ f a s' = .error e := by
  have hbind : (m >>= f) s = (m s >>= fun p => f p.1 p.2) := rfl
  rw [hbind]
  cases h : m s with
  | error e' =>
    constructor
    · intro h'; cases h'; exact Or.inl rfl
    · rintro (h' | ⟨a, s', h', -⟩)
      · cases h'; rfl
      · cases h'
  | ok p =>
    obtain ⟨a, s'⟩ := p
    constructor
    · intro h'; exact Or.inr ⟨a, s', rfl, h'⟩
    · rintro (h' | ⟨a', s1, h1, h2⟩)
      · cases h'
      · cases h1; exact h2

theorem pure_ok_iff {a b : α} {s s' : σ} :
    (pure a : StateT σ (Except ε) α) s = .ok (b, s') ↔ b = a ∧ s' = s := by
  have hpure : (pure a : StateT σ (Except ε) α) s = .ok (a, s) := rfl
  rw [hpure]
  constructor
  · rintro ⟨⟩; exact ⟨rfl, rfl⟩
  · rintro ⟨rfl, rfl⟩; rfl

theorem throw_ok_iff {e : ε} {s : σ} {r : α × σ} :
    (throw e : StateT σ (Except ε) α) s = .ok r ↔ False := by
  constructor
  · intro h; cases h
  · exact False.elim

theorem modify_ok_iff {f : σ → σ} {s s' : σ} {u : PUnit} :
    (modify f : StateT σ (Except ε) PUnit) s = .ok (u, s') ↔ s' = f s := by
  have hmodify : (modify f : StateT σ (Except ε) PUnit) s = .ok (⟨⟩, f s) := rfl
  rw [hmodify]
  constructor
  · rintro ⟨⟩; rfl
  · rintro rfl; rfl

theorem ite_ok_iff {p : Prop} [Decidable p] {m n : StateT σ (Except ε) α} {s : σ} {r : α × σ} :
    (if p then m else n) s = .ok r ↔ (p ∧ m s = .ok r) ∨ (¬p ∧ n s = .ok r) := by
  by_cases hp : p <;> simp [hp]

theorem map_ok_iff {x : Except ε α} {f : α → β} {b : β} :
    x.map f = .ok b ↔ ∃ a, x = .ok a ∧ f a = b := by
  cases x with
  | error e => simp [Except.map]
  | ok a => simp [Except.map]

/-! ## Triples -/

/-- From `p`, the program does not fail with a fault of `bad`, and where it succeeds `q` holds. -/
def Avoids (bad : ε → Prop) (p : σ → Prop) (m : StateT σ (Except ε) α) (q : α → σ → Prop) : Prop :=
  ∀ s, p s → (∀ e, m s = .error e → ¬bad e) ∧ ∀ a s', m s = .ok (a, s') → q a s'

namespace Avoids

variable {bad : ε → Prop} {p : σ → Prop} {m : StateT σ (Except ε) α} {q : α → σ → Prop}

theorem bind {f : α → StateT σ (Except ε) β} {r : β → σ → Prop} (hm : Avoids bad p m q)
    (hf : ∀ a, Avoids bad (q a) (f a) r) : Avoids bad p (m >>= f) r := by
  intro s hs
  obtain ⟨herr, hok⟩ := hm s hs
  constructor
  · intro e h
    rcases bind_error_iff.mp h with h | ⟨a, s', h1, h2⟩
    · exact herr e h
    · exact (hf a s' (hok a s' h1)).1 e h2
  · intro b s'' h
    obtain ⟨a, s', h1, h2⟩ := bind_ok_iff.mp h
    exact (hf a s' (hok a s' h1)).2 b s'' h2

theorem pure {a : α} (h : ∀ s, p s → q a s) : Avoids bad p (pure a) q := by
  intro s hs
  refine ⟨fun e he => (by cases he), fun b s' hb => ?_⟩
  obtain ⟨rfl, rfl⟩ := pure_ok_iff.mp hb
  exact h s' hs

theorem throw {e : ε} (h : ¬bad e) : Avoids bad p (throw e : StateT σ (Except ε) α) q := by
  intro s _
  refine ⟨fun e' he => ?_, fun a s' h => by cases h⟩
  cases he
  exact h

theorem modify {f : σ → σ} {q : PUnit → σ → Prop} (h : ∀ s, p s → q ⟨⟩ (f s)) :
    Avoids bad p (modify f) q := by
  intro s hs
  refine ⟨fun e he => (by cases he), fun u s' hu => ?_⟩
  rw [modify_ok_iff.mp hu]
  exact h s hs

theorem ite {c : Prop} [Decidable c] {n : StateT σ (Except ε) α} (hm : c → Avoids bad p m q)
    (hn : ¬c → Avoids bad p n q) : Avoids bad p (if c then m else n) q := by
  by_cases h : c
  · rw [if_pos h]; exact hm h
  · rw [if_neg h]; exact hn h

/-- What a success implies may be proved apart. -/
theorem and_ok {q' : α → σ → Prop} (hm : Avoids bad p m q)
    (h : ∀ s a s', p s → m s = .ok (a, s') → q' a s') :
    Avoids bad p m (fun a s => q a s ∧ q' a s) := fun s hs =>
  ⟨(hm s hs).1, fun a s' hok => ⟨(hm s hs).2 a s' hok, h s a s' hs hok⟩⟩

theorem weaken {p' : σ → Prop} {q' : α → σ → Prop} (hm : Avoids bad p m q)
    (hp : ∀ s, p' s → p s) (hq : ∀ a s, q a s → q' a s) : Avoids bad p' m q' := fun s hs =>
  ⟨(hm s (hp s hs)).1, fun a s' hok => hq a s' ((hm s (hp s hs)).2 a s' hok)⟩

end Avoids

/-! ## Programs without a state -/

/-- If the program fails, then with an error of `err`; if it succeeds, `post` holds of its result. -/
def Post (err : ε → Prop) (post : α → Prop) : Except ε α → Prop
  | .error e => err e
  | .ok a => post a

namespace Post

variable {err : ε → Prop} {post : α → Prop} {x : Except ε α}

theorem weaken {post' : α → Prop} (hx : Post err post x) (h : ∀ a, post a → post' a) :
    Post err post' x := by
  cases x with
  | error e => exact hx
  | ok a => exact h a hx

theorem bind {f : α → Except ε β} {post' : β → Prop} (hx : Post err post x)
    (hf : ∀ a, post a → Post err post' (f a)) : Post err post' (x >>= f) := by
  cases x with
  | error e => exact hx
  | ok a => exact hf a hx

theorem map {f : α → β} {post' : β → Prop} (hx : Post err post x) (h : ∀ a, post a → post' (f a)) :
    Post err post' (x.map f) := by
  cases x with
  | error e => exact hx
  | ok a => exact h a hx

theorem ite {c : Prop} [Decidable c] {y : Except ε α} (hx : c → Post err post x)
    (hy : ¬c → Post err post y) : Post err post (if c then x else y) := by
  by_cases h : c
  · rw [if_pos h]; exact hx h
  · rw [if_neg h]; exact hy h

/-- What a success implies. -/
theorem of_ok {a : α} (hx : Post err post x) (h : x = .ok a) : post a := by
  rw [h] at hx
  exact hx

/-- A list of programs. -/
theorem mapM {f : α → Except ε β} {post : β → Prop} (hf : ∀ a, Post err post (f a)) (l : List α) :
    Post err (fun bs => ∀ b ∈ bs, post b) (l.mapM f) := by
  induction l with
  | nil => exact fun _ h => absurd h List.not_mem_nil
  | cons a l ih =>
    rw [List.mapM_cons]
    refine (hf a).bind fun b hb => ih.bind fun bs hbs => ?_
    exact List.forall_mem_cons.mpr ⟨hb, hbs⟩

/-- A loop, and a second loop that keeps up with it. The relation may speak of what is to come. -/
theorem foldlM {γ : Type} {f : β → α → Except ε β} {g : γ → α → γ} {R : List α → β → γ → Prop}
    (h : ∀ b c a l, R (a :: l) b c → Post err (fun b' => R l b' (g c a)) (f b a)) {l : List α}
    {b : β} {c : γ} (hR : R l b c) :
    Post err (fun b' => R [] b' (l.foldl g c)) (l.foldlM f b) := by
  induction l generalizing b c with
  | nil => exact hR
  | cons a l ih =>
    rw [List.foldlM_cons]
    exact (h b c a l hR).bind fun b' hb' => ih hb'

end Post

/-! ## Programs that keep their state when they fail -/

/-- A sequence runs its second part from the state in which the first one succeeds. -/
theorem run_bind (m : ExceptT ε (StateM σ) α) (f : α → ExceptT ε (StateM σ) β) (s : σ) :
    (m >>= f).run s = match (m.run s).1 with
      | .ok a => (f a).run (m.run s).2
      | .error e => (.error e, (m.run s).2) := by
  show (ExceptT.bindCont f (m.run s).1).run (m.run s).2 = _
  cases (m.run s).1 <;> rfl

/-- From `p`, a failure is one of `err`, and where the program succeeds `q` holds. -/
def Ensures (err : ε → Prop) (p : σ → Prop) (m : ExceptT ε (StateM σ) α) (q : α → σ → Prop) : Prop :=
  ∀ s, p s → Post err (fun a => q a (m.run s).2) (m.run s).1

namespace Ensures

variable {err : ε → Prop} {p : σ → Prop} {m : ExceptT ε (StateM σ) α} {q : α → σ → Prop}

theorem bind {f : α → ExceptT ε (StateM σ) β} {r : β → σ → Prop} (hm : Ensures err p m q)
    (hf : ∀ a, Ensures err (q a) (f a) r) : Ensures err p (m >>= f) r := by
  intro s hs
  have hpost := hm s hs
  rw [run_bind]
  generalize (m.run s).1 = x at hpost
  cases x with
  | error e => exact hpost
  | ok a => exact hf a _ hpost

theorem pure {a : α} (h : ∀ s, p s → q a s) : Ensures err p (pure a) q := h

theorem throw {e : ε} (h : err e) : Ensures err p (throw e : ExceptT ε (StateM σ) α) q := fun _ _ => h

theorem modify {f : σ → σ} {q : PUnit → σ → Prop} (h : ∀ s, p s → q ⟨⟩ (f s)) :
    Ensures err p (modify f : ExceptT ε (StateM σ) PUnit) q := h

theorem weaken {err' : ε → Prop} {p' : σ → Prop} (hm : Ensures err p m q)
    (herr : ∀ e, err e → err' e) (hp : ∀ s, p' s → p s) : Ensures err' p' m q := by
  intro s hs
  have hpost := hm s (hp s hs)
  generalize (m.run s).1 = x at hpost
  cases x with
  | error e => exact herr e hpost
  | ok a => exact hpost

end Ensures

end SwppCompiler.Lib.StateExcept
