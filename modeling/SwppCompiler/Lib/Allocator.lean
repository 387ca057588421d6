import Mathlib

/-!
# What an allocator does

* `Run`: an allocator gives out blocks that do not overlap the blocks that are live, and takes live
  ones back. `Run.pairwise`: live blocks never overlap.
* `first?` and `last?`: the ends of a finite ordered set, as the iterators of an ordered container
  give them.
-/

namespace SwppCompiler.Lib.Allocator

/-! ## Blocks -/

/-- A block of addresses; it is not empty. -/
structure Block where
  start : ℕ
  size : ℕ
  size_pos : 0 < size
deriving DecidableEq

/-- The addresses of a block. -/
def Block.range (b : Block) : Set ℕ := Set.Ico b.start (b.start + b.size)

/-- A call of the allocator, with the block it gives out or takes back. -/
inductive Event
  | alloc (b : Block)
  | free (b : Block)

/-- The calls that an allocator may answer, and the blocks that are live afterwards. -/
inductive Run : List Event → List Block → Prop
  | init : Run [] []
  | alloc {events : List Event} {live : List Block} {b : Block} (h : Run events live)
      (hfresh : ∀ d ∈ live, Disjoint b.range d.range) : Run (events ++ [.alloc b]) (b :: live)
  | free {events : List Event} {live live' : List Block} {b : Block} (h : Run events live)
      (hb : live.Perm (b :: live')) : Run (events ++ [.free b]) live'

/-- Live blocks do not overlap. -/
theorem Run.pairwise {events : List Event} {live : List Block} (h : Run events live) :
    live.Pairwise fun a b => Disjoint a.range b.range := by
  induction h with
  | init => exact .nil
  | alloc _ hfresh ih => exact .cons hfresh ih
  | free _ hb ih => exact ((hb.pairwise_iff fun h => h.symm).mp ih).of_cons

/-! ## Ordered sets -/

section

variable {α : Type} [LinearOrder α] {s : Finset α} {a : α}

/-- The first element. -/
def first? (s : Finset α) : Option α := s.min.recTopCoe none some

/-- The last element. -/
def last? (s : Finset α) : Option α := s.max.recBotCoe none some

theorem first?_eq_some (h : first? s = some a) : a ∈ s ∧ ∀ b ∈ s, a ≤ b := by
  unfold first? at h
  cases hm : s.min with
  | top => rw [hm] at h; cases h
  | coe x =>
    rw [hm] at h
    cases h
    exact ⟨Finset.mem_of_min hm, fun b hb => Finset.min_le_of_eq hb hm⟩

theorem first?_isSome (h : a ∈ s) : ∃ b, first? s = some b := by
  obtain ⟨b, hb⟩ := Finset.min_of_mem h
  exact ⟨b, by rw [first?, hb]; rfl⟩

theorem last?_eq_some (h : last? s = some a) : a ∈ s ∧ ∀ b ∈ s, b ≤ a := by
  unfold last? at h
  cases hm : s.max with
  | bot => rw [hm] at h; cases h
  | coe x =>
    rw [hm] at h
    cases h
    exact ⟨Finset.mem_of_max hm, fun b hb => Finset.le_max_of_eq hb hm⟩

theorem last?_mem (h : last? s = some a) : a ∈ s := (last?_eq_some h).1

theorem last?_isSome (h : a ∈ s) : ∃ b, last? s = some b := by
  obtain ⟨b, hb⟩ := Finset.max_of_mem h
  exact ⟨b, by rw [last?, hb]; rfl⟩

theorem first?_eq_of_mem (h : a ∈ s) (hle : ∀ b ∈ s, a ≤ b) : first? s = some a := by
  obtain ⟨b, hb⟩ := first?_isSome h
  obtain ⟨hmem, hmin⟩ := first?_eq_some hb
  rw [hb, le_antisymm (hmin a h) (hle b hmem)]

theorem last?_eq_of_mem (h : a ∈ s) (hle : ∀ b ∈ s, b ≤ a) : last? s = some a := by
  have hmax : s.max = (a : WithBot α) :=
    le_antisymm (Finset.max_le fun b hb => WithBot.coe_le_coe.mpr (hle b hb)) (Finset.le_max h)
  rw [last?, hmax]
  rfl

end

end SwppCompiler.Lib.Allocator
