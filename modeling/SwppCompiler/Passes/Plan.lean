import SwppCompiler.Passes.PackRegisters

/-!
# The plan of `ArgumentPackingInfo`

* `ArgumentPackingInfo.of_eq`: a plan is a list of slots, each for one argument or for several that fit
  into its type.
* `packingPlan`: what the maps and types of a plan are for every function.
-/

namespace SwppCompiler.Passes.PackRegisters

open Interp

theorem Argument.bits_le (A : Argument) : A.bits ≤ 64 := bwOf_le A.type

/-! ## Slots -/

/-- A parameter of the new function: an argument, or several that share it. -/
inductive Slot
  | alone (A : Argument)
  | shared (packType : Size) (pack : List Argument)

/-- The bits of some arguments together. -/
def bits (pack : List Argument) : ℕ := (pack.map Argument.bits).sum

@[simp] theorem bits_cons (A : Argument) (pack : List Argument) : bits (A :: pack) = A.bits + bits pack :=
  rfl

theorem bits_append (p q : List Argument) : bits (p ++ q) = bits p + bits q := by
  simp [bits]

namespace Slot

def type : Slot → Size
  | alone A => A.type
  | shared packType _ => packType

/-- Its old arguments. -/
def arguments : Slot → List Argument
  | alone A => [A]
  | shared _ pack => pack

/-- Arguments that share a parameter are several, and have room in it. -/
def Fits : Slot → Prop
  | alone _ => True
  | shared packType pack => 3 ≤ pack.length ∧ bits pack ≤ bwOf packType

/-- The type of a shared parameter is the first one with room. -/
def Tight : Slot → Prop
  | alone _ => True
  | shared packType pack => (packTypes.find? fun ty => bits pack ≤ bwOf ty) = some packType

/-- Its entry in `NotPack`, and in `WillPack`. -/
def notPack : Slot × ℕ → Option (ℕ × Argument)
  | (alone A, i) => some (i, A)
  | (shared _ _, _) => none

@[inherit_doc notPack] def willPack : Slot × ℕ → Option (ℕ × List Argument)
  | (alone _, _) => none
  | (shared _ pack, i) => some (i, pack)

end Slot

/-- The plan that has these parameters. -/
def infoOf (slots : List Slot) : ArgumentPackingInfo where
  argTy := slots.map Slot.type
  notPack := slots.zipIdx.filterMap Slot.notPack
  willPack := slots.zipIdx.filterMap Slot.willPack
  packedArgCount := slots.length

theorem infoOf_alone (slots : List Slot) (A : Argument) : infoOf (slots ++ [.alone A]) =
    { infoOf slots with
      argTy := (infoOf slots).argTy ++ [A.type]
      notPack := (infoOf slots).notPack ++ [((infoOf slots).packedArgCount, A)]
      packedArgCount := (infoOf slots).packedArgCount + 1 } := by
  simp [infoOf, List.zipIdx_append, Slot.type, Slot.notPack, Slot.willPack]

theorem infoOf_shared (slots : List Slot) (packType : Size) (pack : List Argument) :
    infoOf (slots ++ [.shared packType pack]) =
    { infoOf slots with
      argTy := (infoOf slots).argTy ++ (some packType).toList
      willPack := (infoOf slots).willPack ++ [((infoOf slots).packedArgCount, pack)]
      packedArgCount := (infoOf slots).packedArgCount + 1 } := by
  simp [infoOf, List.zipIdx_append, Slot.type, Slot.notPack, Slot.willPack]

theorem mem_notPack {slots : List Slot} {i : ℕ} {A : Argument} :
    (i, A) ∈ (infoOf slots).notPack ↔ slots[i]? = some (.alone A) := by
  rw [infoOf, List.mem_filterMap]
  constructor
  · rintro ⟨⟨s, j⟩, hs, hA⟩
    cases s with
    | alone B =>
      cases hA
      exact List.mem_zipIdx_iff_getElem?.mp hs
    | shared ty pack => cases hA
  · exact fun h => ⟨(.alone A, i), List.mem_zipIdx_iff_getElem?.mpr h, rfl⟩

theorem mem_willPack {slots : List Slot} {i : ℕ} {pack : List Argument} :
    (i, pack) ∈ (infoOf slots).willPack ↔ ∃ ty, slots[i]? = some (.shared ty pack) := by
  rw [infoOf, List.mem_filterMap]
  constructor
  · rintro ⟨⟨s, j⟩, hs, hA⟩
    cases s with
    | alone B => cases hA
    | shared ty pack' =>
      cases hA
      exact ⟨ty, List.mem_zipIdx_iff_getElem?.mp hs⟩
  · exact fun ⟨ty, h⟩ => ⟨(.shared ty pack, i), List.mem_zipIdx_iff_getElem?.mpr h, rfl⟩

theorem argTy_eq {slots : List Slot} {i : ℕ} {s : Slot} (h : slots[i]? = some s) :
    (infoOf slots).argTy[i]? = some s.type := by
  rw [infoOf, List.getElem?_map, h]
  rfl

/-! ## The window -/

section

variable {args : List Argument}

/-- The bits of the arguments from `lo` up to `hi`. -/
def between (args : List Argument) (lo hi : ℕ) : ℕ := bits ((args.drop lo).take (hi - lo))

theorem between_self (lo : ℕ) : between args lo lo = 0 := by
  simp [between, bits]

theorem between_succ {lo hi : ℕ} (hle : lo ≤ hi) (hhi : hi < args.length) :
    between args lo (hi + 1) = between args lo hi + args[hi].bits := by
  have hget : (args.drop lo)[hi - lo]? = some args[hi] := by
    rw [List.getElem?_drop, Nat.add_sub_cancel' hle, List.getElem?_eq_getElem hhi]
  rw [between, Nat.sub_add_comm hle, List.take_add_one, hget, bits_append]
  rfl

theorem between_cons {lo hi : ℕ} (hlt : lo < hi) (hlo : lo < args.length) :
    between args lo hi = args[lo].bits + between args (lo + 1) hi := by
  obtain ⟨n, rfl⟩ : ∃ n, hi = lo + 1 + n := ⟨hi - (lo + 1), by omega⟩
  have h1 : lo + 1 + n - lo = n + 1 := by omega
  have h2 : lo + 1 + n - (lo + 1) = n := by omega
  rw [between, between, h1, h2, List.drop_eq_getElem_cons hlo, List.take_succ_cons, bits_cons]

/-- The window between `PackedFrom` and `PackedNow`, and its size. -/
structure Window (args : List Argument) (packedSize packedFrom packedNow : ℕ) : Prop where
  size : packedSize = between args packedFrom (packedNow + 1)
  le : packedSize ≤ 64
  from_le : packedFrom ≤ packedNow + 1
  now_lt : packedNow < args.length

/-- The inner loop widens the window. -/
theorem Window.lookahead {packedSize packedFrom packedNow : ℕ}
    (h : Window args packedSize packedFrom packedNow) :
    Window args (lookahead args packedSize packedNow).1 packedFrom
        (lookahead args packedSize packedNow).2 ∧
      packedNow ≤ (PackRegisters.lookahead args packedSize packedNow).2 := by
  fun_induction PackRegisters.lookahead args packedSize packedNow with
  | case1 packedSize packedNow hlt hle ih =>
    have hnext : Window args (packedSize + args[packedNow + 1].bits) packedFrom (packedNow + 1) :=
      ⟨by rw [between_succ h.from_le hlt, ← h.size], hle, h.from_le.trans (Nat.le_succ _), hlt⟩
    exact ⟨(ih hnext).1, (Nat.le_succ _).trans (ih hnext).2⟩
  | case2 packedSize packedNow hlt hgt => exact ⟨h, le_rfl⟩
  | case3 packedSize packedNow hge => exact ⟨h, le_rfl⟩

/-- After it, the window is not empty. -/
theorem Window.lookahead_pos {packedSize packedFrom packedNow : ℕ}
    (h : Window args packedSize packedFrom packedNow) (hfrom : packedFrom < args.length) :
    packedFrom ≤ (PackRegisters.lookahead args packedSize packedNow).2 := by
  rcases h.from_le.lt_or_eq with hlt | rfl
  · exact (Nat.lt_succ_iff.mp hlt).trans h.lookahead.2
  · have hsize : packedSize = 0 := h.size.trans (between_self _)
    have hbits := args[packedNow + 1].bits_le
    have hnext : Window args (packedSize + args[packedNow + 1].bits) (packedNow + 1) (packedNow + 1) :=
      ⟨by rw [between_succ le_rfl hfrom, ← h.size], by omega, Nat.le_succ _, hfrom⟩
    rw [PackRegisters.lookahead, dif_pos hfrom, if_pos (by simp only [packMaxSize]; omega)]
    exact hnext.lookahead.2

/-- A window has room in one of the types. -/
theorem packTypes_find? {n : ℕ} (h : n ≤ 64) :
    ∃ ty, (packTypes.find? fun ty => n ≤ bwOf ty) = some ty ∧ n ≤ bwOf ty := by
  have hsome : (packTypes.find? fun ty => n ≤ bwOf ty).isSome = true := by
    rw [List.find?_isSome]
    exact ⟨.size64, by simp [packTypes], decide_eq_true h⟩
  obtain ⟨ty, hty⟩ := Option.isSome_iff_exists.mp hsome
  have hle := List.find?_some hty
  exact ⟨ty, hty, of_decide_eq_true hle⟩

/-- The outer loop adds slots for the arguments from `PackedFrom` on. -/
theorem Window.plan {packedSize packedFrom packedNow : ℕ} (slots : List Slot)
    (h : Window args packedSize packedFrom packedNow) :
    ∃ slots', plan args packedSize packedFrom packedNow (infoOf slots) = infoOf (slots ++ slots') ∧
      slots'.flatMap Slot.arguments = args.drop packedFrom ∧ ∀ s ∈ slots', s.Fits ∧ s.Tight := by
  induction hn : args.length - packedFrom using Nat.strong_induction_on
    generalizing packedSize packedFrom packedNow slots with
  | _ n ih =>
    rw [PackRegisters.plan]
    split_ifs with hfrom
    · have hwindow := h.lookahead.1
      have hpos := h.lookahead_pos hfrom
      generalize PackRegisters.lookahead args packedSize packedNow = r at hwindow hpos
      obtain ⟨packedSize, packedNow⟩ := r
      dsimp only at hwindow hpos ⊢
      have hnow := hwindow.now_lt
      split_ifs with hcount
      · obtain ⟨ty, hfind, hroom⟩ := packTypes_find? hwindow.le
        have hnext : Window args 0 (packedNow + 1) packedNow :=
          ⟨(between_self _).symm, Nat.zero_le _, le_rfl, hnow⟩
        let pack := (args.drop packedFrom).take (packedNow + 1 - packedFrom)
        obtain ⟨slots', heq, hargs, hfits⟩ :=
          ih _ (by omega) (slots ++ [.shared ty pack]) hnext rfl
        rw [infoOf_shared, List.append_assoc] at heq
        rw [hfind]
        refine ⟨.shared ty pack :: slots', heq, ?_, List.forall_mem_cons.mpr ⟨⟨⟨?_, ?_⟩, ?_⟩, hfits⟩⟩
        · have hdrop : args.drop (packedNow + 1) =
              (args.drop packedFrom).drop (packedNow + 1 - packedFrom) := by
            rw [List.drop_drop, Nat.add_sub_cancel' hwindow.from_le]
          rw [List.flatMap_cons, hargs, hdrop]
          exact List.take_append_drop _ _
        · rw [List.length_take, List.length_drop]
          simp only [packValidCount] at hcount
          omega
        · rw [hwindow.size] at hroom
          exact hroom
        · rw [hwindow.size] at hfind
          exact hfind
      · have hsize := hwindow.size
        rw [between_cons (Nat.lt_succ_of_le hpos) hfrom] at hsize
        have hle := hwindow.le
        have hnext : Window args (packedSize - args[packedFrom].bits) (packedFrom + 1) packedNow :=
          ⟨Nat.sub_eq_of_eq_add' hsize, (Nat.sub_le _ _).trans hle, Nat.succ_le_succ hpos, hnow⟩
        obtain ⟨slots', heq, hargs, hfits⟩ :=
          ih _ (by omega) (slots ++ [.alone args[packedFrom]]) hnext rfl
        rw [infoOf_alone, List.append_assoc] at heq
        refine ⟨.alone args[packedFrom] :: slots', heq, ?_,
          List.forall_mem_cons.mpr ⟨⟨trivial, trivial⟩, hfits⟩⟩
        rw [List.flatMap_cons, hargs]
        exact (List.drop_eq_getElem_cons hfrom).symm
    · refine ⟨[], by rw [List.append_nil], ?_, fun _ h => absurd h List.not_mem_nil⟩
      rw [List.drop_eq_nil_of_le (not_lt.mp hfrom)]
      rfl

end

/-- The plan of a function: every argument has a slot, and shared ones have room. -/
theorem ArgumentPackingInfo.of_eq (F : List Size) : ∃ slots, ArgumentPackingInfo.of F = infoOf slots ∧
    (slots.flatMap Slot.arguments).Perm (PackRegisters.arguments F) ∧
      ∀ s ∈ slots, s.Fits ∧ s.Tight := by
  have hperm := List.mergeSort_perm (PackRegisters.arguments F) sortedBefore
  unfold ArgumentPackingInfo.of
  generalize (PackRegisters.arguments F).mergeSort sortedBefore = args at hperm
  cases args with
  | nil => exact ⟨[], rfl, hperm, fun _ h => absurd h List.not_mem_nil⟩
  | cons A args =>
    have hwindow : Window (A :: args) A.bits 0 0 :=
      ⟨by simp [between, bits], A.bits_le, Nat.zero_le _, by simp⟩
    obtain ⟨slots, heq, hargs, hfits⟩ := hwindow.plan []
    exact ⟨slots, heq, hargs ▸ hperm, hfits⟩

/-! ## The maps -/

section

variable {slots : List Slot}

/-- The keys of the two maps are the numbers of the slots. -/
theorem keys_perm : ((infoOf slots).notPack.map Prod.fst ++ (infoOf slots).willPack.map Prod.fst).Perm
    (List.range slots.length) := by
  induction slots using List.reverseRecOn with
  | nil => exact .nil
  | append_singleton slots s ih =>
    rw [List.length_append, List.length_singleton, List.range_succ]
    cases s with
    | alone A =>
      rw [infoOf_alone, List.map_append, List.append_assoc]
      refine (List.perm_append_comm.append_left _).trans ?_
      rw [← List.append_assoc]
      exact ih.append_right _
    | shared packType pack =>
      rw [infoOf_shared, List.map_append, ← List.append_assoc]
      exact ih.append_right _

/-- The arguments in the two maps are those of the slots. -/
theorem values_perm : ((infoOf slots).notPack.map Prod.snd ++ (infoOf slots).willPack.flatMap Prod.snd).Perm
    (slots.flatMap Slot.arguments) := by
  induction slots using List.reverseRecOn with
  | nil => exact .nil
  | append_singleton slots s ih =>
    rw [List.flatMap_append]
    cases s with
    | alone A =>
      rw [infoOf_alone, List.map_append, List.append_assoc]
      refine (List.perm_append_comm.append_left _).trans ?_
      rw [← List.append_assoc]
      exact ih.append_right _
    | shared packType pack =>
      rw [infoOf_shared, List.flatMap_append, ← List.append_assoc]
      exact ih.append_right _

end

/-- The first type with room is the smallest one. -/
theorem packTypes_find?_least {n : ℕ} {ty : Size}
    (h : (packTypes.find? fun ty => n ≤ bwOf ty) = some ty) {ty' : Size} (hmem : ty' ∈ packTypes)
    (hroom : n ≤ bwOf ty') : bwOf ty ≤ bwOf ty' := by
  have hsorted : packTypes.Pairwise fun a b => bwOf a ≤ bwOf b := by decide
  obtain ⟨-, before, after, heq, hnone⟩ := List.find?_eq_some_iff_append.mp h
  rw [heq] at hmem hsorted
  rcases List.mem_append.mp hmem with hmem | hmem
  · have hsmall := hnone ty' hmem
    simp only [hroom, decide_true, Bool.not_true, Bool.false_eq_true] at hsmall
  · rcases List.mem_cons.mp hmem with rfl | hmem
    · exact le_rfl
    · exact (List.pairwise_cons.mp (List.pairwise_append.mp hsorted).2.1).1 ty' hmem

/-- **The packing plan.** For every function, each argument is in one of the two maps, once; their
    keys are the numbers of the new parameters, each of which has a type; an argument that is not
    packed keeps its type, and a pack has at least three members that together fit into its type, the
    smallest one with room for them. -/
theorem packingPlan (F : List Size) :
    ((ArgumentPackingInfo.of F).notPack.map Prod.snd ++
      (ArgumentPackingInfo.of F).willPack.flatMap Prod.snd).Perm (arguments F) ∧
    (arguments F).Nodup ∧
    ((ArgumentPackingInfo.of F).notPack.map Prod.fst ++
      (ArgumentPackingInfo.of F).willPack.map Prod.fst).Perm
        (List.range (ArgumentPackingInfo.of F).packedArgCount) ∧
    (ArgumentPackingInfo.of F).argTy.length = (ArgumentPackingInfo.of F).packedArgCount ∧
    (∀ i A, (i, A) ∈ (ArgumentPackingInfo.of F).notPack →
      (ArgumentPackingInfo.of F).argTy[i]? = some A.type) ∧
    ∀ i pack, (i, pack) ∈ (ArgumentPackingInfo.of F).willPack →
      packValidCount ≤ pack.length ∧ bits pack ≤ packMaxSize ∧
      ∃ ty, (ArgumentPackingInfo.of F).argTy[i]? = some ty ∧ ty ∈ packTypes ∧
        bits pack ≤ bwOf ty ∧ ∀ ty' ∈ packTypes, bits pack ≤ bwOf ty' → bwOf ty ≤ bwOf ty' := by
  obtain ⟨slots, heq, hperm, hslots⟩ := ArgumentPackingInfo.of_eq F
  rw [heq]
  refine ⟨values_perm.trans hperm, ?_, keys_perm, List.length_map _, fun i A hA => ?_,
    fun i pack hpack => ?_⟩
  · have hno : (arguments F).map Argument.argNo = List.range F.length := by
      apply List.ext_getElem <;> simp [arguments]
    exact .of_map Argument.argNo (hno ▸ List.nodup_range)
  · exact argTy_eq (mem_notPack.mp hA)
  · obtain ⟨ty, hty⟩ := mem_willPack.mp hpack
    obtain ⟨⟨hcount, hroom⟩, hfind⟩ := hslots _ (List.mem_of_getElem? hty)
    exact ⟨hcount, hroom.trans (bwOf_le ty), ty, argTy_eq hty, List.mem_of_find?_eq_some hfind, hroom,
      fun ty' hmem => packTypes_find?_least hfind hmem⟩

end SwppCompiler.Passes.PackRegisters
