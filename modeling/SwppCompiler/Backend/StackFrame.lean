import SwppCompiler.Backend.Globals
import Mathlib

/-!
# Stack frames

Model of `StackFrame` and of the visitors of `AssemblyEmitterImpl` that use it
(`src/core/AssemblyEmitter.cpp`, lines 141–160 and 284–317), of `GarbageSlotEliminator`
(`src/core/Backend.cpp`, lines 772–790), and of the size of a frame in `AssemblyEmitter::run`
(`src/core/AssemblyEmitter.cpp`, lines 540–573).

`addAlloca` takes the size of the allocated type and leaves the array size of the `alloca` out, and it
adds the sizes in an `unsigned`.

* `emit_ok`: no skipped `alloca` is referenced, and every other one has an offset.
* `frameOk_iff`: no two objects of a frame overlap iff none has more bytes than one element takes, and
  the frame has less than 2^32 bytes.
-/

namespace SwppCompiler.Backend.Frame

open Interp

/-! ## The emitter -/

/-- An `alloca` of the depromoted function: a slot, or a source `alloca` with the register of its name.
    `arraySize` is the value of the operand in the run. -/
structure Alloca where
  allocated : Ty
  arraySize : Word
  reg : Option ℕ
deriving DecidableEq

/-- An instruction, as far as the frame goes; an `alloca` among its operands is given by its position. -/
inductive FrameInst
  | alloca (A : Alloca)
  | other (operands : List ℕ)

/-- A depromoted function, in the order in which it is emitted: an `alloca` is in the entry block, before
    its uses. -/
structure Function where
  name : String
  insts : List FrameInst
  defined : ∀ (j : ℕ) (ops : List ℕ), insts[j]? = some (FrameInst.other ops) →
    ∀ k ∈ ops, k < j ∧ ∃ A, insts[k]? = some (FrameInst.alloca A)

/-- `getNumUses() != 0`; the name of any other `alloca` ends in `_garbage` after
    `GarbageSlotEliminator`. -/
def Function.isUsed (F : Function) (k : ℕ) : Bool :=
  F.insts.any fun I =>
    match I with
    | .alloca _ => false
    | .other ops => ops.contains k

/-- An entry of `AllocaStackOffset`. -/
structure Slot where
  id : ℕ
  alloca : Alloca
  offset : BitVec 32

/-- `StackFrame`. -/
structure StackFrame where
  allocaStackOffset : List Slot
  usedStackSize : BitVec 32

/-- `addAlloca`. -/
def StackFrame.addAlloca (f : StackFrame) (k : ℕ) (A : Alloca) : Option StackFrame :=
  if f.allocaStackOffset.any fun s => s.id = k then none
  else some ⟨f.allocaStackOffset ++ [⟨k, A, f.usedStackSize⟩],
    f.usedStackSize + roundedSize A.allocated⟩

/-- `getStackOffset`. -/
def StackFrame.getStackOffset (f : StackFrame) (k : ℕ) : Option (BitVec 32) :=
  (f.allocaStackOffset.find? fun s => s.id = k).map Slot.offset

/-- How a line refers to an `alloca`: by its offset, or by its register. -/
inductive Ref
  | offset (k : ℕ) (ofs : BitVec 32)
  | register (k : ℕ)

/-- The `alloca` that is referred to. -/
def Ref.id : Ref → ℕ
  | .offset k _ => k
  | .register k => k

/-- `CurrentStackFrame`, and the references of each line of `FnBody`. -/
structure Emitter where
  currentStackFrame : StackFrame
  fnBody : List (List Ref)

/-- `getOperand` of an `alloca`. -/
def getOperand (F : Function) (f : StackFrame) (k : ℕ) : Option Ref :=
  match F.insts[k]? with
  | some (.alloca A) =>
    if A.reg.isSome then some (.register k) else (f.getStackOffset k).map (Ref.offset k)
  | _ => none

/-- The visitor of instruction `k`. -/
def visit (F : Function) (k : ℕ) (s : Emitter) : FrameInst → Option Emitter
  | .alloca A =>
    if F.isUsed k then do
      let f ← s.currentStackFrame.addAlloca k A
      if A.reg.isSome then
        let ofs ← f.getStackOffset k
        some ⟨f, s.fnBody ++ [[.offset k ofs]]⟩
      else some ⟨f, s.fnBody⟩
    else some s
  | .other ops => do
    let refs ← ops.mapM (getOperand F s.currentStackFrame)
    some { s with fnBody := s.fnBody ++ [refs] }

/-- The instructions from `k` on. -/
def emitFrom (F : Function) (k : ℕ) (s : Emitter) : List FrameInst → Option Emitter
  | [] => some s
  | I :: rest => (visit F k s I).bind fun s => emitFrom F (k + 1) s rest

/-- `Em.visit(F)`. -/
def emit (F : Function) : Option Emitter := emitFrom F 0 ⟨⟨[], 0⟩, []⟩ F.insts

/-- What `AssemblyEmitter::run` subtracts from `sp` (`AssemblyEmitter.cpp`, lines 559–571). -/
def prologueSize (F : Function) (globals : List Ty) (f : StackFrame) : BitVec 32 :=
  if F.name = "main" then
    f.usedStackSize + gvStackUsage (setGVFn (gvSizes (visitModule globals).gvLocs).2)
  else f.usedStackSize

/-! ## The property -/

/-- The bytes of the object. -/
def Alloca.bytes (A : Alloca) : ℕ := A.allocated.bytes * A.arraySize.toNat

/-- The bytes at `offset`, relative to `sp`. -/
def Slot.range (s : Slot) : Set ℕ := Set.Ico s.offset.toNat (s.offset.toNat + s.alloca.bytes)

/-- `sp` in `main`, which the interpreter starts with `sp = 10240`. -/
def mainSP (F : Function) (globals : List Ty) (f : StackFrame) : ℕ :=
  stackMax - (prologueSize F globals f).toNat

/-- The frame of `main`. -/
def mainFrame (F : Function) (globals : List Ty) (f : StackFrame) : Set ℕ :=
  Set.Ico (mainSP F globals f) (mainSP F globals f + f.usedStackSize.toNat)

/-- The layout of a frame, in a module whose global variables are laid out as documented. -/
structure LaidOut (F : Function) (globals : {g : List Ty // Admissible g}) (f : StackFrame) : Prop where
  disjoint : f.allocaStackOffset.Pairwise fun s t => Disjoint s.range t.range
  aligned : ∀ s ∈ f.allocaStackOffset, 8 ∣ s.offset.toNat
  inside : ∀ s ∈ f.allocaStackOffset, s.range ⊆ Set.Ico 0 f.usedStackSize.toNat
  /-- Where `run` accepts the frame of `main`. -/
  main : F.name = "main" → (prologueSize F globals f).toNat < 10240 →
    mainFrame F globals f ⊆ Set.Ico 0 stackMax ∧
      ∀ p ∈ globals.val.zip (visitModule globals).gvLocs, p.2.inHeap = false →
        Disjoint (mainFrame F globals f) (gvRange p)

/-- What is emitted is well laid out, and refers to no skipped `alloca`. -/
def FrameOk (F : Function) (globals : {g : List Ty // Admissible g}) : Prop :=
  ∃ s, emit F = some s ∧ LaidOut F globals s.currentStackFrame ∧
    ∀ refs ∈ s.fnBody, ∀ r ∈ refs, F.isUsed r.id = true

/-- The allocas of `F` that are used, from position `k` on. -/
def framed (F : Function) (k : ℕ) : List FrameInst → List (ℕ × Alloca)
  | [] => []
  | .alloca A :: rest => if F.isUsed k then (k, A) :: framed F (k + 1) rest else framed F (k + 1) rest
  | .other _ :: rest => framed F (k + 1) rest

/-- The allocas that get a place in the frame. -/
def Function.allocas (F : Function) : List Alloca := (framed F 0 F.insts).map Prod.snd

/-- The bytes above the frame, in the stack. -/
def Function.gvBytes (F : Function) (globals : List Ty) : ℕ :=
  if F.name = "main" then stackMax - (greedy globals).1 else 0

/-- No object has more bytes than one element, rounded up to 8; and nothing wraps. -/
def Function.Fits (F : Function) (globals : List Ty) : Prop :=
  (∀ A ∈ F.allocas, A.bytes ≤ A.allocated.rounded) ∧
    (F.allocas.map fun A => A.allocated.rounded).sum + F.gvBytes globals < 2 ^ 32

/-! ## What is emitted -/

theorem framed_append (F : Function) (k : ℕ) (pre post : List FrameInst) :
    framed F k (pre ++ post) = framed F k pre ++ framed F (k + pre.length) post := by
  induction pre generalizing k with
  | nil => simp [framed]
  | cons I pre ih =>
    have hk : k + (I :: pre).length = k + 1 + pre.length := by
      rw [List.length_cons]
      omega
    rw [hk]
    cases I with
    | alloca A =>
      by_cases hused : F.isUsed k = true
      · simp [framed, hused, ih]
      · simp [framed, hused, ih]
    | other ops => simp [framed, ih]

theorem mem_framed {F : Function} {k j : ℕ} {A : Alloca} {insts : List FrameInst} :
    (j, A) ∈ framed F k insts ↔
      k ≤ j ∧ insts[j - k]? = some (.alloca A) ∧ F.isUsed j = true := by
  induction insts generalizing k with
  | nil => simp [framed]
  | cons I rest ih =>
    have hcons : k ≤ j ∧ (I :: rest)[j - k]? = some (.alloca A) ∧ F.isUsed j = true ↔
        (j = k ∧ I = .alloca A ∧ F.isUsed j = true) ∨
          (k + 1 ≤ j ∧ rest[j - (k + 1)]? = some (.alloca A) ∧ F.isUsed j = true) := by
      by_cases hjk : j = k
      · subst hjk
        simp
      · by_cases hle : k ≤ j
        · obtain ⟨d, rfl⟩ : ∃ d, j = k + 1 + d := ⟨j - (k + 1), by omega⟩
          have hd : k + 1 + d - k = d + 1 := by omega
          have hd' : k + 1 + d - (k + 1) = d := by omega
          rw [hd, hd', List.getElem?_cons_succ]
          simp [hjk]
          omega
        · simp [hjk, hle]
          omega
    rw [hcons, ← ih]
    cases I with
    | alloca B =>
      by_cases hused : F.isUsed k = true
      · simp only [framed, if_pos hused, List.mem_cons, Prod.mk.injEq, FrameInst.alloca.injEq]
        constructor
        · rintro (⟨rfl, rfl⟩ | h)
          · exact Or.inl ⟨rfl, rfl, hused⟩
          · exact Or.inr h
        · rintro (⟨rfl, rfl, -⟩ | h)
          · exact Or.inl ⟨rfl, rfl⟩
          · exact Or.inr h
      · simp only [framed, if_neg hused, FrameInst.alloca.injEq]
        constructor
        · exact Or.inr
        · rintro (⟨rfl, -, h⟩ | h)
          · exact absurd h hused
          · exact h
    | other ops => simp [framed]

/-- The size of a slot. -/
def Slot.size (s : Slot) : ℕ := (roundedSize s.alloca.allocated).toNat

/-- The frame after the allocas in `pre`. -/
structure Laid (F : Function) (pre : List FrameInst) (f : StackFrame) : Prop where
  slots : f.allocaStackOffset.map (fun s => (s.id, s.alloca)) = framed F 0 pre
  offset : ∀ before s after, f.allocaStackOffset = before ++ s :: after →
    s.offset.toNat = (before.map Slot.size).sum % 2 ^ 32
  used : f.usedStackSize.toNat = (f.allocaStackOffset.map Slot.size).sum % 2 ^ 32

/-- The entry of a used `alloca`. -/
theorem Laid.mem_slots {F : Function} {pre : List FrameInst} {f : StackFrame} (h : Laid F pre f)
    (k : ℕ) : (∃ s ∈ f.allocaStackOffset, s.id = k) ↔
      ∃ A, pre[k]? = some (.alloca A) ∧ F.isUsed k = true := by
  have hmem : ∀ A, (k, A) ∈ framed F 0 pre ↔ pre[k]? = some (.alloca A) ∧ F.isUsed k = true := by
    intro A
    rw [mem_framed]
    simp
  constructor
  · rintro ⟨s, hs, rfl⟩
    refine ⟨s.alloca, (hmem s.alloca).mp ?_⟩
    rw [← h.slots]
    exact List.mem_map_of_mem hs
  · rintro ⟨A, hA⟩
    have hframed := (hmem A).mpr hA
    rw [← h.slots] at hframed
    obtain ⟨s, hs, heq⟩ := List.mem_map.mp hframed
    exact ⟨s, hs, (Prod.mk.inj heq).1⟩

theorem Laid.getStackOffset_isSome {F : Function} {pre : List FrameInst} {f : StackFrame}
    (h : Laid F pre f) {k : ℕ} {A : Alloca} (hA : pre[k]? = some (.alloca A))
    (hused : F.isUsed k = true) : ∃ ofs, f.getStackOffset k = some ofs := by
  obtain ⟨s, hs, hid⟩ := (h.mem_slots k).mpr ⟨A, hA, hused⟩
  have hfind : (f.allocaStackOffset.find? fun s => s.id = k).isSome := by
    rw [List.find?_isSome]
    exact ⟨s, hs, by simpa using hid⟩
  obtain ⟨t, ht⟩ := Option.isSome_iff_exists.mp hfind
  exact ⟨t.offset, by rw [StackFrame.getStackOffset, ht]; rfl⟩

/-- `addAlloca` of the next instruction. -/
theorem Laid.addAlloca {F : Function} {pre : List FrameInst} {f : StackFrame} (h : Laid F pre f)
    (A : Alloca) (hused : F.isUsed pre.length = true) :
    ∃ f', f.addAlloca pre.length A = some f' ∧ Laid F (pre ++ [.alloca A]) f' := by
  have hnew : ¬ (f.allocaStackOffset.any fun s => s.id = pre.length) = true := by
    intro hany
    obtain ⟨s, hs, hid⟩ := List.any_eq_true.mp hany
    obtain ⟨B, hB, -⟩ := (h.mem_slots pre.length).mp ⟨s, hs, by simpa using hid⟩
    rw [List.getElem?_eq_none le_rfl] at hB
    cases hB
  refine ⟨_, if_neg hnew, ?_, fun before s after heq => ?_, ?_⟩
  · rw [framed_append, List.map_append, h.slots, Nat.zero_add]
    simp [framed, hused]
  · dsimp only at heq
    obtain rfl | ⟨after', t, rfl⟩ := after.eq_nil_or_concat
    · obtain ⟨hbefore, hs⟩ := List.append_inj' heq rfl
      obtain rfl := (List.cons.inj hs).1
      rw [← hbefore]
      exact h.used
    · have hfront : f.allocaStackOffset = before ++ s :: after' := by
        have hsplit : before ++ s :: (after' ++ [t]) = (before ++ s :: after') ++ [t] := by simp
        rw [List.concat_eq_append, hsplit] at heq
        exact (List.append_inj' heq rfl).1
      exact h.offset before s after' hfront
  · show (f.usedStackSize + roundedSize A.allocated).toNat = _
    rw [BitVec.toNat_add, h.used, List.map_append, List.sum_append]
    simp only [List.map_cons, List.map_nil, List.sum_cons, List.sum_nil, Slot.size]
    omega

theorem Laid.skip {F : Function} {pre : List FrameInst} {f : StackFrame} (h : Laid F pre f)
    {I : FrameInst} (hI : framed F pre.length [I] = []) : Laid F (pre ++ [I]) f := by
  refine ⟨?_, h.offset, h.used⟩
  rw [framed_append, Nat.zero_add, hI, List.append_nil, h.slots]

/-- The lines so far refer to used allocas only. -/
def Referenced (F : Function) (s : Emitter) : Prop :=
  ∀ refs ∈ s.fnBody, ∀ r ∈ refs, F.isUsed r.id = true

theorem Referenced.snoc {F : Function} {s : Emitter} (h : Referenced F s) {f : StackFrame}
    {refs : List Ref} (hrefs : ∀ r ∈ refs, F.isUsed r.id = true) :
    Referenced F ⟨f, s.fnBody ++ [refs]⟩ := by
  intro refs' hmem
  obtain hmem | hmem := List.mem_append.mp hmem
  · exact h refs' hmem
  · rw [List.mem_singleton.mp hmem]
    exact hrefs

theorem mapM_ok {α β : Type} {f : α → Option β} {P : β → Prop} {l : List α}
    (h : ∀ a ∈ l, ∃ b, f a = some b ∧ P b) : ∃ bs, l.mapM f = some bs ∧ ∀ b ∈ bs, P b := by
  induction l with
  | nil => exact ⟨[], rfl, by simp⟩
  | cons a l ih =>
    obtain ⟨b, hb, hP⟩ := h a List.mem_cons_self
    obtain ⟨bs, hbs, hall⟩ := ih fun a' ha' => h a' (List.mem_cons_of_mem a ha')
    exact ⟨b :: bs, by simp [hb, hbs], List.forall_mem_cons.mpr ⟨hP, hall⟩⟩

/-- One instruction. -/
theorem visit_ok (F : Function) {pre post : List FrameInst} {I : FrameInst}
    (hF : F.insts = pre ++ I :: post) {s : Emitter} (h : Laid F pre s.currentStackFrame)
    (hrefs : Referenced F s) :
    ∃ s', visit F pre.length s I = some s' ∧ Laid F (pre ++ [I]) s'.currentStackFrame ∧
      Referenced F s' := by
  have hI : F.insts[pre.length]? = some I := by rw [hF]; simp
  cases I with
  | alloca A =>
    by_cases hused : F.isUsed pre.length = true
    · obtain ⟨f, hf, hlaid⟩ := h.addAlloca A hused
      have hlast : (pre ++ [.alloca A])[pre.length]? = some (.alloca A) := by simp
      by_cases hreg : A.reg.isSome = true
      · obtain ⟨ofs, hofs⟩ := hlaid.getStackOffset_isSome hlast hused
        refine ⟨⟨f, s.fnBody ++ [[.offset pre.length ofs]]⟩, ?_, hlaid, hrefs.snoc ?_⟩
        · simp [visit, hused, hf, hreg, hofs]
        · simpa [Ref.id] using hused
      · exact ⟨⟨f, s.fnBody⟩, by simp [visit, hused, hf, hreg], hlaid, hrefs⟩
    · exact ⟨s, by simp [visit, hused], h.skip (by simp [framed, hused]), hrefs⟩
  | other ops =>
    have hop : ∀ k ∈ ops, ∃ r, getOperand F s.currentStackFrame k = some r ∧
        F.isUsed r.id = true := by
      intro k hk
      obtain ⟨hlt, A, hA⟩ := F.defined pre.length ops hI k hk
      have hused : F.isUsed k = true :=
        List.any_eq_true.mpr ⟨.other ops, List.mem_of_getElem? hI, by simpa using hk⟩
      have hpre : pre[k]? = some (.alloca A) := by
        rw [hF, List.getElem?_append_left hlt] at hA
        exact hA
      by_cases hreg : A.reg.isSome = true
      · exact ⟨.register k, by simp [getOperand, hA, hreg], hused⟩
      · obtain ⟨ofs, hofs⟩ := h.getStackOffset_isSome hpre hused
        exact ⟨.offset k ofs, by simp [getOperand, hA, hreg, hofs], hused⟩
    obtain ⟨refs, hrefs', hall⟩ := mapM_ok hop
    exact ⟨⟨s.currentStackFrame, s.fnBody ++ [refs]⟩, by simp [visit, hrefs'],
      h.skip rfl, hrefs.snoc hall⟩

theorem emitFrom_ok (F : Function) {pre post : List FrameInst} (hF : F.insts = pre ++ post)
    {s : Emitter} (h : Laid F pre s.currentStackFrame) (hrefs : Referenced F s) :
    ∃ s', emitFrom F pre.length s post = some s' ∧ Laid F F.insts s'.currentStackFrame ∧
      Referenced F s' := by
  induction post generalizing pre s with
  | nil =>
    rw [List.append_nil] at hF
    exact ⟨s, rfl, by rw [hF]; exact h, hrefs⟩
  | cons I post ih =>
    obtain ⟨s₁, hs₁, hlaid, hrefs₁⟩ := visit_ok F hF h hrefs
    obtain ⟨s', hs', hlaid', hrefs'⟩ := ih (by rw [hF]; simp) hlaid hrefs₁
    rw [List.length_append] at hs'
    exact ⟨s', by rw [emitFrom, hs₁]; exact hs', hlaid', hrefs'⟩

/-- Every function can be emitted; only the allocas that are used get a place, and are referenced. -/
theorem emit_ok (F : Function) :
    ∃ s, emit F = some s ∧ Laid F F.insts s.currentStackFrame ∧ Referenced F s := by
  have hnil : Laid F [] ⟨[], 0⟩ := ⟨rfl, by simp, rfl⟩
  exact @emitFrom_ok F [] _ rfl _ hnil (by simp [Referenced])

/-! ## Sizes -/

theorem Slot.size_dvd (s : Slot) : 8 ∣ s.size := by
  have h8 : (8 : BitVec 32).toNat = 8 := rfl
  unfold size roundedSize
  rw [BitVec.toNat_mul, BitVec.toNat_udiv, h8]
  omega

theorem Slot.size_eq {s : Slot} (h : s.alloca.allocated.rounded < 2 ^ 32) :
    s.size = s.alloca.allocated.rounded := by
  have hsize := roundedSize_eq h
  rw [BitVec.toNat_setWidth] at hsize
  unfold size
  omega

theorem sum_dvd (slots : List Slot) : 8 ∣ (slots.map Slot.size).sum := by
  induction slots with
  | nil => simp
  | cons s slots ih => exact dvd_add s.size_dvd ih

theorem Laid.dvd {F : Function} {pre : List FrameInst} {f : StackFrame} (h : Laid F pre f) :
    8 ∣ f.usedStackSize.toNat ∧ ∀ s ∈ f.allocaStackOffset, 8 ∣ s.offset.toNat := by
  have hmod : ∀ n, 8 ∣ n → 8 ∣ n % 2 ^ 32 := by
    intro n hn
    omega
  refine ⟨by rw [h.used]; exact hmod _ (sum_dvd _), fun s hs => ?_⟩
  obtain ⟨before, after, heq⟩ := List.append_of_mem hs
  rw [h.offset before s after heq]
  exact hmod _ (sum_dvd _)

theorem Laid.map_slots {F : Function} {f : StackFrame} (h : Laid F F.insts f) :
    f.allocaStackOffset.map Slot.alloca = F.allocas := by
  unfold Function.allocas
  rw [← h.slots, List.map_map]
  rfl

/-- Where nothing wraps, the sizes are those of the types. -/
theorem Laid.sizes {F : Function} {f : StackFrame} (h : Laid F F.insts f)
    (hsum : (F.allocas.map fun A => A.allocated.rounded).sum < 2 ^ 32) :
    (∀ s ∈ f.allocaStackOffset, s.size = s.alloca.allocated.rounded) ∧
      (f.allocaStackOffset.map Slot.size).sum = (F.allocas.map fun A => A.allocated.rounded).sum := by
  have hsize : ∀ s ∈ f.allocaStackOffset, s.size = s.alloca.allocated.rounded := by
    intro s hs
    refine Slot.size_eq (lt_of_le_of_lt ?_ hsum)
    refine List.single_le_sum (by simp) _ (List.mem_map.mpr ⟨s.alloca, ?_, rfl⟩)
    rw [← h.map_slots]
    exact List.mem_map_of_mem hs
  refine ⟨hsize, ?_⟩
  rw [← h.map_slots, List.map_map]
  exact congrArg List.sum (List.map_congr_left hsize)

/-! ## No overlap where every object fits -/

theorem pairwise_of_splits {α : Type} {R : α → α → Prop} {l : List α}
    (h : ∀ a p b q c, l = a ++ p :: (b ++ q :: c) → R p q) : l.Pairwise R := by
  induction l with
  | nil => exact List.Pairwise.nil
  | cons x l ih =>
    refine List.pairwise_cons.mpr ⟨fun q hq => ?_, ih fun a p b q c heq => ?_⟩
    · obtain ⟨b, c, rfl⟩ := List.append_of_mem hq
      exact h [] x b q c rfl
    · exact h (x :: a) p b q c (by rw [heq]; rfl)

section Fits

variable {F : Function} {f : StackFrame}

/-- Where nothing wraps, a slot starts where those before it end. -/
theorem Laid.offset_eq (h : Laid F F.insts f)
    (hsum : (F.allocas.map fun A => A.allocated.rounded).sum < 2 ^ 32) {before after : List Slot}
    {s : Slot} (heq : f.allocaStackOffset = before ++ s :: after) :
    s.offset.toNat = (before.map Slot.size).sum ∧
      (before.map Slot.size).sum + s.size + (after.map Slot.size).sum = f.usedStackSize.toNat := by
  obtain ⟨-, htotal⟩ := h.sizes hsum
  have hused := h.used
  rw [htotal, Nat.mod_eq_of_lt hsum, ← htotal, heq] at hused
  rw [heq] at htotal
  simp only [List.map_append, List.map_cons, List.sum_append, List.sum_cons] at hused htotal
  rw [h.offset before s after heq]
  omega

theorem gvBytes_main (f : StackFrame) (globals : {g : List Ty // Admissible g})
    (hmain : F.name = "main") : F.gvBytes globals ≤ 5120 ∧
      (prologueSize F globals f).toNat = (f.usedStackSize.toNat + F.gvBytes globals) % 2 ^ 32 ∧
      ∀ p ∈ globals.val.zip (visitModule globals).gvLocs, p.2.inHeap = false →
        stackMax ≤ p.2.addr.toNat + F.gvBytes globals := by
  have hplaced := globals.property.kept
  have hbounds := hplaced.bounds
  have hgv : F.gvBytes globals = stackMax - (greedy globals.val).1 := if_pos hmain
  refine ⟨?_, ?_, fun p hp hstack => ?_⟩
  · rw [hgv]
    simp only [stackMax, stackSafeRegion] at *
    omega
  · unfold prologueSize
    rw [if_pos hmain, gvStackUsage_setGVFn, BitVec.toNat_add, hplaced.stackSize, hgv]
  · have haddr := hplaced.inStack p hp hstack
    rw [hgv]
    omega

theorem Laid.laidOut (h : Laid F F.insts f) (globals : {g : List Ty // Admissible g})
    (hfits : F.Fits globals) : LaidOut F globals f := by
  obtain ⟨hobjects, hbytes⟩ := hfits
  have hsum : (F.allocas.map fun A => A.allocated.rounded).sum < 2 ^ 32 := by omega
  obtain ⟨hsizes, htotal⟩ := h.sizes hsum
  have hused : f.usedStackSize.toNat = (F.allocas.map fun A => A.allocated.rounded).sum := by
    rw [h.used, htotal, Nat.mod_eq_of_lt hsum]
  have hobject : ∀ s ∈ f.allocaStackOffset, s.alloca.bytes ≤ s.size := by
    intro s hs
    rw [hsizes s hs]
    refine hobjects s.alloca ?_
    rw [← h.map_slots]
    exact List.mem_map_of_mem hs
  refine ⟨pairwise_of_splits fun a p b q c heq => ?_, h.dvd.2, fun s hs => ?_, fun hmain haccept => ?_⟩
  · have hp := hobject p (by rw [heq]; simp)
    have hstart := (h.offset_eq hsum heq).1
    have heq' : f.allocaStackOffset = (a ++ p :: b) ++ q :: c := by rw [heq]; simp
    have hnext := (h.offset_eq hsum heq').1
    simp only [List.map_append, List.map_cons, List.sum_append, List.sum_cons] at hnext
    unfold Slot.range
    rw [Set.Ico_disjoint_Ico]
    omega
  · obtain ⟨before, after, heq⟩ := List.append_of_mem hs
    obtain ⟨hstart, hend⟩ := h.offset_eq hsum heq
    have hs' := hobject s hs
    exact Set.Ico_subset_Ico (Nat.zero_le _) (by omega)
  · obtain ⟨hgv, hsize, hglobals⟩ := gvBytes_main f globals hmain
    rw [Nat.mod_eq_of_lt (by omega)] at hsize
    unfold mainFrame mainSP
    constructor
    · refine Set.Ico_subset_Ico (Nat.zero_le _) ?_
      simp only [stackMax] at *
      omega
    · intro p hp hstack
      have haddr := hglobals p hp hstack
      rw [gvRange, Set.Ico_disjoint_Ico]
      simp only [stackMax] at *
      omega

end Fits

/-! ## Where something does not fit -/

/-- Disjoint sets below `n` have at most `n` elements. -/
theorem sum_card_le {n : ℕ} {l : List (Finset ℕ)} (hdisjoint : l.Pairwise Disjoint)
    (hsub : ∀ s ∈ l, s ⊆ Finset.range n) : (l.map Finset.card).sum ≤ n := by
  have hunion : (l.map Finset.card).sum = (l.foldr (· ∪ ·) ∅).card := by
    clear hsub
    induction l with
    | nil => rfl
    | cons s l ih =>
      obtain ⟨hs, hl⟩ := List.pairwise_cons.mp hdisjoint
      have hrest : Disjoint s (l.foldr (· ∪ ·) ∅) := by
        clear ih hl hdisjoint
        induction l with
        | nil => exact Finset.disjoint_empty_right s
        | cons t l ih =>
          exact Finset.disjoint_union_right.mpr ⟨hs t List.mem_cons_self,
            ih fun u hu => hs u (List.mem_cons_of_mem t hu)⟩
      rw [List.map_cons, List.sum_cons, ih hl, List.foldr_cons, Finset.card_union_of_disjoint hrest]
  have hbelow : l.foldr (· ∪ ·) ∅ ⊆ Finset.range n := by
    clear hunion hdisjoint
    induction l with
    | nil => exact Finset.empty_subset _
    | cons s l ih =>
      exact Finset.union_subset (hsub s List.mem_cons_self)
        (ih fun t ht => hsub t (List.mem_cons_of_mem s ht))
  rw [hunion, ← Finset.card_range n]
  exact Finset.card_le_card hbelow

/-- The bytes of the object, rounded up to a multiple of 8. -/
def Slot.need (s : Slot) : ℕ := (s.alloca.bytes + 7) / 8 * 8

/-- Aligned objects that are apart stay apart when they are rounded up. -/
theorem need_le {F : Function} {f : StackFrame} (h : Laid F F.insts f)
    (hdisjoint : f.allocaStackOffset.Pairwise fun s t => Disjoint s.range t.range)
    (hinside : ∀ s ∈ f.allocaStackOffset, s.range ⊆ Set.Ico 0 f.usedStackSize.toNat) :
    (f.allocaStackOffset.map Slot.need).sum ≤ f.usedStackSize.toNat := by
  obtain ⟨hused, haligned⟩ := h.dvd
  have hcard : ∀ s : Slot, (Finset.Ico s.offset.toNat (s.offset.toNat + s.need)).card = s.need :=
    fun s => by rw [Nat.card_Ico, Nat.add_sub_cancel_left]
  have hle := sum_card_le (n := f.usedStackSize.toNat)
    (l := f.allocaStackOffset.map fun s => Finset.Ico s.offset.toNat (s.offset.toNat + s.need)) ?_ ?_
  · rw [List.map_map] at hle
    rwa [show (Finset.card ∘ fun s : Slot => Finset.Ico s.offset.toNat (s.offset.toNat + s.need)) =
      Slot.need from funext hcard] at hle
  · rw [List.pairwise_map]
    refine List.Pairwise.imp_of_mem (fun {s t} hs ht hst => ?_) hdisjoint
    have hs8 := haligned s hs
    have ht8 := haligned t ht
    rw [Finset.disjoint_left]
    intro x hxs hxt
    rw [Finset.mem_Ico] at hxs hxt
    unfold Slot.need at hxs hxt
    unfold Slot.range at hst
    rw [Set.Ico_disjoint_Ico] at hst
    omega
  · intro X hX
    obtain ⟨s, hs, rfl⟩ := List.mem_map.mp hX
    have hs8 := haligned s hs
    have hsub := hinside s hs
    intro x hx
    rw [Finset.mem_Ico] at hx
    rw [Finset.mem_range]
    have hpos : 0 < s.alloca.bytes := by
      unfold Slot.need at hx
      omega
    have hlast : s.offset.toNat + s.alloca.bytes - 1 ∈ s.range :=
      ⟨by omega, by omega⟩
    have hbound := (hsub hlast).2
    unfold Slot.need at hx
    omega

theorem LaidOut.fits {F : Function} {globals : {g : List Ty // Admissible g}} {f : StackFrame}
    (h : Laid F F.insts f) (hlaid : LaidOut F globals f) (hsize : ∀ A ∈ F.allocas, A.arraySize ≠ 0) :
    F.Fits globals := by
  have hneed := need_le h hlaid.disjoint hlaid.inside
  have hsizes : ∀ s ∈ f.allocaStackOffset, s.alloca.allocated.rounded ≤ s.need := by
    intro s hs
    have hA : s.alloca ∈ F.allocas := by
      rw [← h.map_slots]
      exact List.mem_map_of_mem hs
    have hone : 1 ≤ s.alloca.arraySize.toNat := by
      have hne := hsize s.alloca hA
      have hzero : s.alloca.arraySize.toNat ≠ 0 := fun h0 => hne (BitVec.eq_of_toNat_eq h0)
      omega
    have hbytes : s.alloca.allocated.bytes ≤ s.alloca.bytes := Nat.le_mul_of_pos_right _ hone
    unfold Ty.rounded Slot.need
    omega
  have hmap : (F.allocas.map fun A => A.allocated.rounded) =
      f.allocaStackOffset.map fun s => s.alloca.allocated.rounded := by
    rw [← h.map_slots, List.map_map]
    rfl
  have hle : (F.allocas.map fun A => A.allocated.rounded).sum ≤
      (f.allocaStackOffset.map Slot.need).sum := by
    rw [hmap]
    exact List.sum_le_sum hsizes
  have hsum : (F.allocas.map fun A => A.allocated.rounded).sum < 2 ^ 32 :=
    lt_of_le_of_lt (hle.trans hneed) f.usedStackSize.isLt
  obtain ⟨-, htotal⟩ := h.sizes hsum
  have hused : f.usedStackSize.toNat = (F.allocas.map fun A => A.allocated.rounded).sum := by
    rw [h.used, htotal, Nat.mod_eq_of_lt hsum]
  constructor
  · intro A hA
    rw [← h.map_slots] at hA
    obtain ⟨s, hs, rfl⟩ := List.mem_map.mp hA
    have heq : s.need ≤ s.alloca.allocated.rounded := by
      by_contra hlt
      have hstrict := List.sum_lt_sum (fun s : Slot => s.alloca.allocated.rounded) Slot.need hsizes
        ⟨s, hs, not_le.mp hlt⟩
      rw [hmap] at hused
      omega
    unfold Slot.need at heq
    omega
  · by_cases hmain : F.name = "main"
    · by_contra hwrap
      obtain ⟨hgv, hprologue, -⟩ := gvBytes_main f globals hmain
      have hsmall : (prologueSize F globals f).toNat < 10240 := by omega
      obtain ⟨hframe, -⟩ := hlaid.main hmain hsmall
      unfold mainFrame mainSP at hframe
      have hlast : stackMax - (prologueSize F globals f).toNat + f.usedStackSize.toNat - 1 ∈
          Set.Ico (stackMax - (prologueSize F globals f).toNat)
            (stackMax - (prologueSize F globals f).toNat + f.usedStackSize.toNat) :=
        ⟨by omega, by omega⟩
      have hbound := (hframe hlast).2
      simp only [stackMax] at *
      omega
    · rw [Function.gvBytes, if_neg hmain]
      exact hsum

/-- **Stack frames.** The objects of a frame are apart, aligned and inside the frame, and the frame of
    `main` below the global variables, where no object has more bytes than one element takes and nothing
    wraps; and only there, if every array has an element. -/
theorem frameOk_iff (F : Function) (globals : {g : List Ty // Admissible g}) :
    (F.Fits globals → FrameOk F globals) ∧
      ((∀ A ∈ F.allocas, A.arraySize ≠ 0) → (FrameOk F globals ↔ F.Fits globals)) := by
  obtain ⟨s, hs, hlaid, hrefs⟩ := emit_ok F
  have hok : F.Fits globals → FrameOk F globals :=
    fun hfits => ⟨s, hs, hlaid.laidOut globals hfits, hrefs⟩
  refine ⟨hok, fun hsize => ⟨?_, hok⟩⟩
  rintro ⟨s', hs', hout, -⟩
  obtain rfl : s = s' := Option.some.inj (hs.symm.trans hs')
  exact hout.fits hlaid hsize

/-- `%a = alloca i64, i64 2` and `%b = alloca i64`, both used. -/
def arrayOfTwo : Function where
  name := "f"
  insts := [.alloca ⟨.int 64, 2, some 1⟩, .alloca ⟨.int 64, 1, some 2⟩, .other [0], .other [1]]
  defined := by
    intro j ops hj k hk
    match j, hj with
    | 2, hj =>
      obtain rfl : [0] = ops := by simpa using hj
      obtain rfl := List.mem_singleton.mp hk
      exact ⟨by omega, _, rfl⟩
    | 3, hj =>
      obtain rfl : [1] = ops := by simpa using hj
      obtain rfl := List.mem_singleton.mp hk
      exact ⟨by omega, _, rfl⟩
    | 0, hj => simp at hj
    | 1, hj => simp at hj
    | j + 4, hj => simp at hj

/-- A module without global variables. -/
def noGlobals : {g : List Ty // Admissible g} := ⟨[], placement_nil.laidOut.admissible⟩

/-- The second element of `%a` is where `%b` is. -/
theorem not_frameOk_arrayOfTwo : ¬ FrameOk arrayOfTwo noGlobals := by
  rintro ⟨s, hs, hlaid, -⟩
  have hemit : (emit arrayOfTwo).map (fun s => s.currentStackFrame.allocaStackOffset) =
      some [⟨0, ⟨.int 64, 2, some 1⟩, 0⟩, ⟨1, ⟨.int 64, 1, some 2⟩, 8⟩] := rfl
  rw [hs, Option.map_some, Option.some.injEq] at hemit
  have hdisjoint := hlaid.disjoint
  rw [hemit] at hdisjoint
  have hpair := (List.pairwise_cons.mp hdisjoint).1 _ List.mem_cons_self
  exact Set.disjoint_left.mp hpair (show (8 : ℕ) ∈ _ from ⟨by decide, by decide⟩)
    ⟨by decide, by decide⟩

end SwppCompiler.Backend.Frame
