import SwppCompiler.Lib.Regex

/-!
# Words between separators

* `words`: the maximal runs of letters that are not separators, and `words_append`.
* `Alternates.words`: the words of a text that matches a regular expression of words and gaps.
-/

namespace SwppCompiler.Lib

open Computability Regex

variable {α : Type} {sep : α → Bool}

/-- The text is empty or begins with a separator. -/
def ClosedStart (sep : α → Bool) (s : List α) : Prop := ∀ a ∈ s.head?, sep a = true

instance (sep : α → Bool) (s : List α) : Decidable (ClosedStart sep s) :=
  inferInstanceAs (Decidable (∀ a ∈ s.head?, sep a = true))

/-- The text is empty or ends with a separator. -/
def ClosedEnd (sep : α → Bool) (s : List α) : Prop := ∀ a ∈ s.getLast?, sep a = true

/-- The words of a text. -/
def words (sep : α → Bool) : List α → List (List α)
  | [] => []
  | a :: s =>
    if sep a then words sep s
    else if ClosedStart sep s then [a] :: words sep s
    else
      match words sep s with
      | [] => [[a]]
      | w :: ws => (a :: w) :: ws

/-- The words, each but the first after the separator `a`. -/
def unwords (a : α) : List (List α) → List α
  | [] => []
  | w :: ws => w ++ ws.flatMap (a :: ·)

/-- A word. -/
def IsWord (sep : α → Bool) (s : List α) : Prop := s ≠ [] ∧ ∀ a ∈ s, sep a = false

/-- A gap between words. -/
def IsGap (sep : α → Bool) (s : List α) : Prop := s ≠ [] ∧ ∀ a ∈ s, sep a = true

instance [DecidableEq α] (s : List α) : Decidable (IsWord sep s) :=
  inferInstanceAs (Decidable (_ ∧ _))

instance [DecidableEq α] (s : List α) : Decidable (IsGap sep s) :=
  inferInstanceAs (Decidable (_ ∧ _))

section

variable {s t u w : List α} {a : α}

@[simp] theorem words_nil : words sep [] = [] := rfl

theorem words_cons_sep (h : sep a = true) : words sep (a :: s) = words sep s := if_pos h

theorem words_cons_closed (h : sep a = false) (hs : ClosedStart sep s) :
    words sep (a :: s) = [a] :: words sep s := by
  rw [words, if_neg (by rw [h]; exact Bool.false_ne_true), if_pos hs]

theorem words_cons_open {ws : List (List α)} (h : sep a = false) (hs : ¬ClosedStart sep s)
    (hw : words sep s = w :: ws) : words sep (a :: s) = (a :: w) :: ws := by
  rw [words, if_neg (by rw [h]; exact Bool.false_ne_true), if_neg hs, hw]

theorem closedStart_cons : ClosedStart sep (a :: s) ↔ sep a = true := by simp [ClosedStart]

theorem closedStart_append (h : ClosedStart sep s) (ht : s = [] → ClosedStart sep t) :
    ClosedStart sep (s ++ t) := by
  cases s with
  | nil => exact ht rfl
  | cons a s => exact closedStart_cons.mpr (closedStart_cons.mp h)

/-- A text that begins with a letter that is not a separator has a word. -/
theorem words_of_open (h : ¬ClosedStart sep s) : ∃ w ws, words sep s = w :: ws := by
  induction s with
  | nil => exact absurd (by simp [ClosedStart]) h
  | cons a s ih =>
    rw [closedStart_cons, Bool.not_eq_true] at h
    by_cases hs : ClosedStart sep s
    · exact ⟨_, _, words_cons_closed h hs⟩
    · obtain ⟨w, ws, hw⟩ := ih hs
      exact ⟨_, _, words_cons_open h hs hw⟩

/-- The words of two texts that do not share one. -/
theorem words_append (h : ClosedEnd sep s ∨ ClosedStart sep t) :
    words sep (s ++ t) = words sep s ++ words sep t := by
  induction s with
  | nil => rfl
  | cons a s ih =>
    have hih : words sep (s ++ t) = words sep s ++ words sep t := by
      cases s with
      | nil => rfl
      | cons b s => exact ih (h.imp_left fun h => h)
    cases ha : sep a with
    | true => rw [List.cons_append, words_cons_sep ha, words_cons_sep ha, hih]
    | false =>
      by_cases hs : ClosedStart sep s
      · have hst : ClosedStart sep (s ++ t) := by
          refine closedStart_append hs fun hnil => ?_
          subst hnil
          refine h.resolve_left fun hend => ?_
          rw [hend a rfl] at ha
          cases ha
        rw [List.cons_append, words_cons_closed ha hst, words_cons_closed ha hs, hih]
        rfl
      · obtain ⟨w, ws, hw⟩ := words_of_open hs
        have hst : ¬ClosedStart sep (s ++ t) := by
          cases s with
          | nil => exact absurd (by simp [ClosedStart]) hs
          | cons b s => exact hs
        rw [List.cons_append, words_cons_open ha hst (hih.trans (by rw [hw]; rfl)),
          words_cons_open ha hs hw]
        rfl

theorem words_of_sep (h : ∀ a ∈ s, sep a = true) : words sep s = [] := by
  induction s with
  | nil => rfl
  | cons a s ih =>
    rw [words_cons_sep (h a List.mem_cons_self), ih fun b hb => h b (List.mem_cons_of_mem _ hb)]

theorem words_of_isWord (h : IsWord sep s) : words sep s = [s] := by
  obtain ⟨hne, hall⟩ := h
  induction s with
  | nil => exact absurd rfl hne
  | cons a s ih =>
    obtain ⟨ha, hs⟩ := List.forall_mem_cons.mp hall
    cases s with
    | nil => exact words_cons_closed ha (by simp [ClosedStart])
    | cons b s =>
      refine words_cons_open ha ?_ (ih (List.cons_ne_nil _ _) hs)
      rw [closedStart_cons, hs b List.mem_cons_self]
      exact Bool.false_ne_true

theorem IsGap.closedStart (h : IsGap sep s) : ClosedStart sep s := fun a ha =>
  h.2 a (List.mem_of_mem_head? ha)

theorem IsGap.closedEnd (h : IsGap sep s) : ClosedEnd sep s := fun a ha =>
  h.2 a (List.mem_of_mem_getLast? ha)

theorem IsGap.closedStart_append (h : IsGap sep s) : ClosedStart sep (s ++ t) :=
  Lib.closedStart_append h.closedStart fun hnil => absurd hnil h.1

theorem IsGap.words_append (h : IsGap sep s) : words sep (s ++ t) = words sep t := by
  rw [Lib.words_append (Or.inl h.closedEnd), words_of_sep h.2]
  rfl

theorem IsWord.words_append (h : IsWord sep s) (ht : ClosedStart sep t) :
    words sep (s ++ t) = s :: words sep t := by
  rw [Lib.words_append (Or.inr ht), words_of_isWord h]
  rfl

theorem words_flatMap {l : List (List α)} (ha : sep a = true) (h : ∀ w ∈ l, IsWord sep w) :
    words sep (l.flatMap (a :: ·)) = l := by
  induction l with
  | nil => rfl
  | cons w l ih =>
    obtain ⟨hw, hl⟩ := List.forall_mem_cons.mp h
    have hstart : ClosedStart sep (l.flatMap (a :: ·)) := by
      cases l with
      | nil => simp [ClosedStart]
      | cons v l => exact closedStart_cons.mpr ha
    rw [List.flatMap_cons, List.cons_append, words_cons_sep ha, hw.words_append hstart, ih hl]

/-- The words of a text are those it is made of. -/
theorem words_unwords {l : List (List α)} (ha : sep a = true) (h : ∀ w ∈ l, IsWord sep w) :
    words sep (unwords a l) = l := by
  cases l with
  | nil => rfl
  | cons w l =>
    have hw := words_flatMap ha h
    rwa [List.flatMap_cons, List.cons_append, words_cons_sep ha] at hw

/-- Separators around a text do not matter. -/
theorem words_spaced (hs : ∀ a ∈ s, sep a = true) (ht : ∀ a ∈ t, sep a = true) :
    words sep (s ++ (u ++ t)) = words sep u := by
  have hend : ClosedEnd sep s := fun a ha => hs a (List.mem_of_mem_getLast? ha)
  have hstart : ClosedStart sep t := fun a ha => ht a (List.mem_of_mem_head? ha)
  rw [words_append (Or.inl hend), words_append (Or.inr hstart), words_of_sep hs, words_of_sep ht,
    List.nil_append, List.append_nil]

end

/-! ## Regular expressions of words and gaps -/

/-- Only words match. -/
def WordRe (sep : α → Bool) (r : Regex α) : Prop := ∀ s ∈ r.lang, IsWord sep s

/-- Only gaps match. -/
def GapRe (sep : α → Bool) (r : Regex α) : Prop := ∀ s ∈ r.lang, IsGap sep s

section

variable {r g q : Regex α} {rs : List (Regex α)} {s t : List α} {a : α}

theorem mem_seqs_cons : s ∈ (seqs (r :: rs)).lang ↔
    ∃ a ∈ r.lang, ∃ t ∈ (seqs rs).lang, a ++ t = s := Language.mem_mul

theorem mem_seqs_nil : s ∈ (seqs ([] : List (Regex α))).lang ↔ s = [] := Language.mem_one s

theorem mem_seqs_singleton : s ∈ (seqs [r]).lang ↔ s ∈ r.lang := by
  rw [mem_seqs_cons]
  simp [mem_seqs_nil]

theorem mem_seqs_append {qs : List (Regex α)} : s ∈ (seqs (rs ++ qs)).lang ↔
    ∃ a ∈ (seqs rs).lang, ∃ t ∈ (seqs qs).lang, a ++ t = s := by
  induction rs generalizing s with
  | nil => simp [mem_seqs_nil]
  | cons r rs ih =>
    rw [List.cons_append, mem_seqs_cons]
    constructor
    · rintro ⟨a, ha, u, hu, rfl⟩
      obtain ⟨b, hb, t, ht, rfl⟩ := ih.mp hu
      exact ⟨a ++ b, mem_seqs_cons.mpr ⟨a, ha, b, hb, rfl⟩, t, ht, List.append_assoc ..⟩
    · rintro ⟨v, hv, t, ht, rfl⟩
      obtain ⟨a, ha, b, hb, rfl⟩ := mem_seqs_cons.mp hv
      exact ⟨a, ha, b ++ t, ih.mpr ⟨b, hb, t, ht, rfl⟩, (List.append_assoc ..).symm⟩

/-- An optional part at the beginning. -/
theorem mem_seqs_opt {qs : List (Regex α)} : s ∈ (seqs (opt (seqs qs) :: rs)).lang ↔
    s ∈ (seqs rs).lang ∨ s ∈ (seqs (qs ++ rs)).lang := by
  rw [mem_seqs_cons, mem_seqs_append]
  constructor
  · rintro ⟨a, ha | rfl, t, ht, rfl⟩
    · exact Or.inr ⟨a, ha, t, ht, rfl⟩
    · exact Or.inl ht
  · rintro (h | ⟨a, ha, t, ht, rfl⟩)
    · exact ⟨[], Or.inr rfl, s, h, rfl⟩
    · exact ⟨a, Or.inl ha, t, ht, rfl⟩

/-- Words and gaps by turns: the regular expressions, and those of the words. -/
inductive Alternates (sep : α → Bool) : List (Regex α) → List (Regex α) → Prop
  | last {r : Regex α} (hr : WordRe sep r) : Alternates sep [r] [r]
  | next {r g : Regex α} {rs ws : List (Regex α)} (hr : WordRe sep r) (hg : GapRe sep g)
      (h : Alternates sep rs ws) : Alternates sep (r :: g :: rs) (r :: ws)

/-- The words match one by one. -/
def WordsMatch (l : List (List α)) (ws : List (Regex α)) : Prop :=
  List.Forall₂ (fun w r => w ∈ r.lang) l ws

theorem wordsMatch_nil {l : List (List α)} : WordsMatch l [] ↔ l = [] := List.forall₂_nil_right_iff

theorem wordsMatch_cons {l : List (List α)} : WordsMatch l (r :: rs) ↔
    ∃ w l', w ∈ r.lang ∧ WordsMatch l' rs ∧ l = w :: l' := List.forall₂_cons_right_iff

/-- The words of such a text, before a text that does not go on with the last one. -/
theorem Alternates.words_append {ws : List (Regex α)} (h : Alternates sep rs ws)
    (hs : s ∈ (seqs rs).lang) (ht : ClosedStart sep t) :
    ∃ l, words sep (s ++ t) = l ++ words sep t ∧ WordsMatch l ws := by
  induction h generalizing s with
  | last hr =>
    have hs := mem_seqs_singleton.mp hs
    exact ⟨[s], (hr s hs).words_append ht, .cons hs .nil⟩
  | next hr hg _ ih =>
    obtain ⟨w, hw, v, hv, rfl⟩ := mem_seqs_cons.mp hs
    obtain ⟨u, hu, x, hx, rfl⟩ := mem_seqs_cons.mp hv
    obtain ⟨l, hl, hmatch⟩ := ih hx
    refine ⟨w :: l, ?_, .cons hw hmatch⟩
    rw [List.append_assoc, List.append_assoc, (hr w hw).words_append (hg u hu).closedStart_append,
      (hg u hu).words_append, hl]
    rfl

theorem Alternates.words {ws : List (Regex α)} (h : Alternates sep rs ws)
    (hs : s ∈ (seqs rs).lang) : WordsMatch (words sep s) ws := by
  obtain ⟨l, hl, hmatch⟩ := h.words_append hs (t := []) (by simp [ClosedStart])
  rw [List.append_nil, words_nil, List.append_nil] at hl
  rw [hl]
  exact hmatch

/-- The words of such a text with a tail. -/
theorem Alternates.words_tail {ws qs : List (Regex α)} (h : Alternates sep rs ws)
    (hq : ∀ t ∈ (seqs qs).lang, ClosedStart sep t) (hs : s ∈ (seqs (rs ++ qs)).lang) :
    ∃ l, ∃ t ∈ (seqs qs).lang, Lib.words sep s = l ++ Lib.words sep t ∧ WordsMatch l ws := by
  obtain ⟨a, ha, t, ht, rfl⟩ := mem_seqs_append.mp hs
  obtain ⟨l, hl, hmatch⟩ := h.words_append ha (hq t ht)
  exact ⟨l, t, ht, hl, hmatch⟩

/-- Words that match are a text that matches. -/
theorem flatMap_mem_seqs {ws : List (List α)} (hg : [a] ∈ g.lang) (h : WordsMatch ws rs) :
    ws.flatMap (a :: ·) ∈ (seqs (rs.flatMap fun r => [g, r])).lang := by
  induction h with
  | nil => exact mem_seqs_nil.mpr rfl
  | @cons w r ws rs hw _ ih =>
    exact mem_seqs_cons.mpr ⟨[a], hg, _, mem_seqs_cons.mpr ⟨w, hw, _, ih, rfl⟩, rfl⟩

theorem unwords_mem_seqs {w : List α} {ws : List (List α)} (hg : [a] ∈ g.lang)
    (h : WordsMatch (w :: ws) (r :: rs)) :
    unwords a (w :: ws) ∈ (seqs (r :: rs.flatMap fun r => [g, r])).lang := by
  obtain ⟨hw, hws⟩ := List.forall₂_cons.mp h
  exact mem_seqs_cons.mpr ⟨w, hw, _, flatMap_mem_seqs hg hws, rfl⟩

/-- Words that match over and over. -/
theorem flatMap_mem_star {ls : List (List (List α))} (hg : [a] ∈ g.lang)
    (h : ∀ ws ∈ ls, WordsMatch ws rs) :
    ls.flatten.flatMap (a :: ·) ∈ (star (seqs (rs.flatMap fun r => [g, r]))).lang := by
  refine Language.mem_kstar.mpr ⟨ls.map (·.flatMap (a :: ·)), ?_, ?_⟩
  · rw [List.flatMap_def, List.map_flatten, List.flatten_flatten, List.map_map]
    rfl
  · intro s hs
    obtain ⟨ws, hws, rfl⟩ := List.mem_map.mp hs
    exact flatMap_mem_seqs hg (h ws hws)

/-- An iteration of what begins with gaps. -/
theorem closedStart_of_mem_star (hq : ∀ t ∈ q.lang, ClosedStart sep t) (h : s ∈ (star q).lang) :
    ClosedStart sep s := by
  obtain ⟨ls, rfl, hls⟩ := Language.mem_kstar.mp h
  clear h
  induction ls with
  | nil => simp [ClosedStart]
  | cons t ls ih =>
    obtain ⟨ht, hls⟩ := List.forall_mem_cons.mp hls
    rw [List.flatten_cons]
    exact closedStart_append (hq t ht) fun _ => ih hls

/-- The words of an iteration are those of its parts. -/
theorem words_of_mem_star (hq : ∀ t ∈ q.lang, ClosedStart sep t) (h : s ∈ (star q).lang) :
    ∃ ls : List (List α), (∀ t ∈ ls, t ∈ q.lang) ∧ words sep s = (ls.map (words sep)).flatten := by
  obtain ⟨ls, rfl, hls⟩ := Language.mem_kstar.mp h
  refine ⟨ls, hls, ?_⟩
  clear h
  induction ls with
  | nil => rfl
  | cons t ls ih =>
    obtain ⟨-, hls'⟩ := List.forall_mem_cons.mp hls
    have hstart : ClosedStart sep ls.flatten :=
      closedStart_of_mem_star hq (Language.join_mem_kstar hls')
    rw [List.flatten_cons, words_append (Or.inr hstart), ih hls', List.map_cons, List.flatten_cons]

end

end SwppCompiler.Lib
