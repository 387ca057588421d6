import SwppCompiler.Backend.Depromote
import SwppCompiler.Interp.Memory
import SwppCompiler.Interp.Text
import SwppCompiler.Lib.StateExcept

/-!
# Where global variables go

Model of the part of `DepromoteRegisters::visitModule` that gives addresses to the global variables
(`src/core/Backend.cpp`, lines 229–266), of the allocation in the entry block of `main` (lines
319–341), and of what `AssemblyEmitter::run` reads of it (`src/core/AssemblyEmitter.cpp`, lines
540–560). `unsigned` has 32 bits, `uint64_t` 64.

* `layout_iff`: the layout is as documented iff no variable is larger than what the stack has left, and
  the variables in the heap have less than 2^32 bytes. The test of line 254 is on the difference of two
  `uint64_t`, which wraps for a larger variable: `not_laidOut_largeArray`.
* `LaidOut.allocates`: then the entry block of `main` allocates the variables that are in the heap.
-/

namespace SwppCompiler.Backend

open Interp Lib

/-- `STACK_SAFE_REGION` (`Backend.h`, line 18). -/
def stackSafeRegion : ℕ := 5120

/-- An element of `GVLocs`. -/
structure GVLoc where
  addr : Word
  inHeap : Bool
  size : Word
deriving DecidableEq, Repr

/-- `GVHeapOffset`, `GVStackOffset` and `GVLocs`. -/
structure GVOffsets where
  gvHeapOffset : Word
  gvStackOffset : Word
  gvLocs : List GVLoc
deriving DecidableEq, Repr

/-- `sz` (`Backend.cpp`, line 252): an `unsigned`. -/
def roundedSize (ty : Ty) : BitVec 32 := (BitVec.ofNat 32 (getAccessSize ty) + 7) / 8 * 8

/-- One global variable (`Backend.cpp`, lines 252–264). -/
def placeGlobal (s : GVOffsets) (ty : Ty) : GVOffsets :=
  let sz := (roundedSize ty).setWidth 64
  if BitVec.ofNat 64 stackSafeRegion ≤ s.gvStackOffset - sz then
    { s with
      gvStackOffset := s.gvStackOffset - sz
      gvLocs := s.gvLocs ++ [⟨s.gvStackOffset - sz, false, sz⟩] }
  else
    { s with
      gvHeapOffset := s.gvHeapOffset + sz
      gvLocs := s.gvLocs ++ [⟨s.gvHeapOffset, true, sz⟩] }

/-- The loop of `visitModule` over the global variables, given by the types of their values. -/
def visitModule (globals : List Ty) : GVOffsets :=
  globals.foldl placeGlobal ⟨20480, 10240, []⟩

/-- The loop over `GVLocs` in the entry block of `main` (`Backend.cpp`, lines 322–329): `HeapSize`
    and `StackSize`. -/
def gvSizes (gvLocs : List GVLoc) : BitVec 32 × BitVec 32 :=
  gvLocs.foldl
    (fun sizes loc =>
      if loc.inHeap then (sizes.1 + loc.size.setWidth 32, sizes.2)
      else (sizes.1, sizes.2 + loc.size.setWidth 32))
    (0, 0)

/-- What the visitors of the function `F` read. -/
def globalsCtx (F : Func) (globals : List Ty) : Ctx where
  F := F
  gvMap g := ((visitModule globals).gvLocs[g]?.map GVLoc.addr).getD 0
  heapSize := (gvSizes (visitModule globals).gvLocs).1.setWidth 64

/-- The call of `malloc` in the entry block of `main` (`Backend.cpp`, lines 335–340). -/
def mainEntry (heapSize : Word) : List Line :=
  if heapSize ≠ 0 then [.call (some 1) "malloc" [.const heapSize]] else []

/-- The entry block of `main` begins with the call. -/
theorem visitBasicBlock_main {c : Ctx} {B : Block} {s s' : State} (hmain : c.F.name = "main")
    (h : visitBasicBlock c 0 B s = .ok ((), s')) : s'.code = mainEntry c.heapSize := by
  obtain ⟨⟨⟩, s1, -, hs⟩ := StateExcept.bind_ok_iff.mp h
  rw [StateExcept.modify_ok_iff.mp hs]
  simp only [mainEntry, hmain, true_and]

/-! ## The stack frame of `main` -/

/-- The first characters of the name that hands `StackSize` over. -/
def setGlobalStackName : Text := "__set_global_stack_".toList

/-- The function that is declared for it (`Backend.cpp`, lines 330–334). -/
def setGVFn (stackSize : BitVec 32) : List Text :=
  if stackSize ≠ 0 then [setGlobalStackName ++ Interp.toString stackSize.toNat] else []

/-- `atoi`, converted to `unsigned`. -/
def atoi (s : Text) : BitVec 32 :=
  match scanInt s with
  | none => 0
  | some (negative, n) => if negative then -BitVec.ofNat 32 n else BitVec.ofNat 32 n

/-- `GVStackUsage` (`AssemblyEmitter.cpp`, lines 543–549): what `run` adds to the frame of `main`. -/
def gvStackUsage (declared : List Text) : BitVec 32 :=
  declared.foldl
    (fun usage name => if name.take 19 = setGlobalStackName then atoi (name.drop 19) else usage) 0

theorem gvStackUsage_setGVFn (stackSize : BitVec 32) :
    gvStackUsage (setGVFn stackSize) = stackSize := by
  unfold setGVFn
  split_ifs with hne
  · have htake : (setGlobalStackName ++ Interp.toString stackSize.toNat).take 19 = setGlobalStackName :=
      List.take_left' rfl
    have hdrop : (setGlobalStackName ++ Interp.toString stackSize.toNat).drop 19 =
        Interp.toString stackSize.toNat := List.drop_left' rfl
    show (if (setGlobalStackName ++ Interp.toString stackSize.toNat).take 19 = setGlobalStackName then
      atoi ((setGlobalStackName ++ Interp.toString stackSize.toNat).drop 19) else 0) = stackSize
    rw [if_pos htake, hdrop, atoi, scanInt_toString]
    exact BitVec.ofNat_toNat 32 stackSize
  · exact (not_not.mp hne).symm

/-! ## The layout -/

/-- The size of a value in bytes, which `getAccessSize` computes modulo 2^32. -/
def Ty.bytes : Ty → ℕ
  | .ptr _ => 8
  | .int bw => if bw = 1 then 1 else bw / 8
  | .array n elem => elem.bytes * n

/-- It, rounded up to a multiple of 8. -/
def Ty.rounded (ty : Ty) : ℕ := (ty.bytes + 7) / 8 * 8

/-- The addresses of a variable. -/
def gvRange (p : Ty × GVLoc) : Set ℕ := Set.Ico p.2.addr.toNat (p.2.addr.toNat + p.1.rounded)

/-- The lowest address of a variable in the stack. -/
def lowestInStack (gvLocs : List GVLoc) : ℕ :=
  ((gvLocs.filter fun loc => !loc.inHeap).map fun loc => loc.addr.toNat).foldl min stackMax

/-- The bytes that the calls in a code allocate. -/
def allocated (code : List Line) : ℕ :=
  (code.map fun l =>
    match l with
    | .call _ "malloc" [.const w] => w.toNat
    | _ => 0).sum

/-- The layout is as documented. -/
structure LaidOut (globals : List Ty) : Prop where
  disjoint : (globals.zip (visitModule globals).gvLocs).Pairwise fun p q =>
    Disjoint (gvRange p) (gvRange q)
  aligned : ∀ p ∈ globals.zip (visitModule globals).gvLocs, 8 ∣ p.2.addr.toNat
  inStack : ∀ p ∈ globals.zip (visitModule globals).gvLocs, p.2.inHeap = false →
    gvRange p ⊆ Set.Ico stackSafeRegion stackMax
  inHeap : ∀ p ∈ globals.zip (visitModule globals).gvLocs, p.2.inHeap = true →
    gvRange p ⊆ Set.Ico heapMin
      (heapMin + allocated (mainEntry ((gvSizes (visitModule globals).gvLocs).1.setWidth 64)))
  stackSize : (gvStackUsage (setGVFn (gvSizes (visitModule globals).gvLocs).2)).toNat =
    stackMax - lowestInStack (visitModule globals).gvLocs

/-- The stack offset and the bytes in the heap when sizes are natural numbers. -/
def greedy (globals : List Ty) : ℕ × ℕ :=
  globals.foldl
    (fun s ty =>
      if stackSafeRegion ≤ s.1 - ty.rounded then (s.1 - ty.rounded, s.2) else (s.1, s.2 + ty.rounded))
    (stackMax, 0)

/-- No variable is larger than the stack offset that it finds, and the heap has less than 2^32
    bytes. -/
structure Admissible (globals : List Ty) : Prop where
  fits : ∀ pre ty post, globals = pre ++ ty :: post → ty.rounded ≤ (greedy pre).1
  heap : (greedy globals).2 < 2 ^ 32

/-! ## One variable -/

theorem bytes_mod (ty : Ty) : getAccessSize ty % 2 ^ 32 = ty.bytes % 2 ^ 32 := by
  induction ty with
  | ptr elem => rfl
  | int bw => rfl
  | array n elem ih =>
    rw [getAccessSize, Ty.bytes, Nat.mod_mod, Nat.mul_mod, ih, ← Nat.mul_mod]

/-- A size that is not too large is not cut off. -/
theorem roundedSize_eq {ty : Ty} (h : ty.rounded < 2 ^ 32) :
    ((roundedSize ty).setWidth 64).toNat = ty.rounded := by
  have hmod : (BitVec.ofNat 32 (getAccessSize ty)).toNat = ty.bytes % 2 ^ 32 := by
    rw [BitVec.toNat_ofNat, bytes_mod]
  have h8 : (8 : BitVec 32).toNat = 8 := rfl
  have h7 : (7 : BitVec 32).toNat = 7 := rfl
  unfold Ty.rounded at h ⊢
  rw [BitVec.toNat_setWidth, roundedSize, BitVec.toNat_mul, BitVec.toNat_udiv, BitVec.toNat_add, hmod,
    h7, h8]
  omega

theorem roundedSize_toNat_lt (ty : Ty) : ((roundedSize ty).setWidth 64).toNat < 2 ^ 32 := by
  rw [BitVec.toNat_setWidth]
  exact (Nat.mod_le _ _).trans_lt (roundedSize ty).isLt

/-- The test: it is passed where the difference is large, and where it wraps. -/
theorem le_sub_iff {stack sz : Word} (hs : stack.toNat ≤ stackMax) (hsz : sz.toNat < 2 ^ 32) :
    BitVec.ofNat 64 stackSafeRegion ≤ stack - sz ↔
      stackSafeRegion + sz.toNat ≤ stack.toNat ∨ stack.toNat < sz.toNat := by
  rw [BitVec.le_def, BitVec.toNat_sub, BitVec.toNat_ofNat]
  simp only [stackSafeRegion, stackMax] at hs ⊢
  omega

theorem visitModule_concat (globals : List Ty) (ty : Ty) :
    visitModule (globals ++ [ty]) = placeGlobal (visitModule globals) ty := List.foldl_concat ..

theorem greedy_concat (globals : List Ty) (ty : Ty) : greedy (globals ++ [ty]) =
    if stackSafeRegion ≤ (greedy globals).1 - ty.rounded then
      ((greedy globals).1 - ty.rounded, (greedy globals).2)
    else ((greedy globals).1, (greedy globals).2 + ty.rounded) := List.foldl_concat ..

theorem gvSizes_concat (gvLocs : List GVLoc) (loc : GVLoc) : gvSizes (gvLocs ++ [loc]) =
    if loc.inHeap then ((gvSizes gvLocs).1 + loc.size.setWidth 32, (gvSizes gvLocs).2)
    else ((gvSizes gvLocs).1, (gvSizes gvLocs).2 + loc.size.setWidth 32) := List.foldl_concat ..

theorem lowestInStack_concat (gvLocs : List GVLoc) (loc : GVLoc) : lowestInStack (gvLocs ++ [loc]) =
    if loc.inHeap then lowestInStack gvLocs else min (lowestInStack gvLocs) loc.addr.toNat := by
  unfold lowestInStack
  cases h : loc.inHeap <;> simp [h, List.filter_append]

/-- An entry is added for every variable. -/
theorem placeGlobal_gvLocs (s : GVOffsets) (ty : Ty) :
    ∃ loc, (placeGlobal s ty).gvLocs = s.gvLocs ++ [loc] := by
  unfold placeGlobal
  dsimp only
  split_ifs <;> exact ⟨_, rfl⟩

theorem visitModule_append (pre post : List Ty) :
    ∃ locs, (visitModule (pre ++ post)).gvLocs = (visitModule pre).gvLocs ++ locs := by
  induction post using List.reverseRecOn with
  | nil => exact ⟨[], by rw [List.append_nil, List.append_nil]⟩
  | append_singleton post ty ih =>
    obtain ⟨locs, hlocs⟩ := ih
    obtain ⟨loc, hloc⟩ := placeGlobal_gvLocs (visitModule (pre ++ post)) ty
    rw [← List.append_assoc, visitModule_concat, hloc, hlocs, List.append_assoc]
    exact ⟨_, rfl⟩

/-! ## While nothing wraps -/

/-- The variables so far, where no size was too large. -/
structure Placement (globals : List Ty) (s : GVOffsets) : Prop where
  stack : s.gvStackOffset.toNat = (greedy globals).1
  heap : s.gvHeapOffset.toNat = heapMin + (greedy globals).2
  bounds : stackSafeRegion ≤ (greedy globals).1 ∧ (greedy globals).1 ≤ stackMax
  need : (greedy globals).2 < 2 ^ 32
  dvd : 8 ∣ (greedy globals).1 ∧ 8 ∣ (greedy globals).2
  length : globals.length = s.gvLocs.length
  disjoint : (globals.zip s.gvLocs).Pairwise fun p q => Disjoint (gvRange p) (gvRange q)
  aligned : ∀ p ∈ globals.zip s.gvLocs, 8 ∣ p.2.addr.toNat
  inStack : ∀ p ∈ globals.zip s.gvLocs, p.2.inHeap = false →
    (greedy globals).1 ≤ p.2.addr.toNat ∧ p.2.addr.toNat + p.1.rounded ≤ stackMax
  inHeap : ∀ p ∈ globals.zip s.gvLocs, p.2.inHeap = true →
    heapMin ≤ p.2.addr.toNat ∧ p.2.addr.toNat + p.1.rounded ≤ heapMin + (greedy globals).2
  heapSize : (gvSizes s.gvLocs).1.toNat = (greedy globals).2
  stackSize : (gvSizes s.gvLocs).2.toNat = stackMax - (greedy globals).1
  lowest : lowestInStack s.gvLocs = (greedy globals).1

theorem placement_nil : Placement [] (visitModule []) where
  stack := rfl
  heap := rfl
  bounds := by decide
  need := by decide
  dvd := by decide
  length := rfl
  disjoint := .nil
  aligned _ h := absurd h List.not_mem_nil
  inStack _ h := absurd h List.not_mem_nil
  inHeap _ h := absurd h List.not_mem_nil
  heapSize := rfl
  stackSize := rfl
  lowest := rfl

theorem gvRange_disjoint {p q : Ty × GVLoc} (h : p.2.addr.toNat + p.1.rounded ≤ q.2.addr.toNat ∨
    q.2.addr.toNat + q.1.rounded ≤ p.2.addr.toNat) : Disjoint (gvRange p) (gvRange q) := by
  rw [gvRange, gvRange, Set.Ico_disjoint_Ico]
  omega

theorem rounded_dvd (ty : Ty) : 8 ∣ ty.rounded := Dvd.intro_left _ rfl

/-- The entry of a variable: just below those in the stack, or just after those in the heap. -/
inductive Next (globals : List Ty) (ty : Ty) (loc : GVLoc) : Prop
  | stack (hloc : loc.inHeap = false) (haddr : loc.addr.toNat + ty.rounded = (greedy globals).1)
      (hsafe : stackSafeRegion ≤ loc.addr.toNat)
      (hgreedy : greedy (globals ++ [ty]) = (loc.addr.toNat, (greedy globals).2))
  | heap (hloc : loc.inHeap = true) (haddr : loc.addr.toNat = heapMin + (greedy globals).2)
      (hgreedy : greedy (globals ++ [ty]) = ((greedy globals).1, (greedy globals).2 + ty.rounded))

/-- Its range is apart from those of the other variables. -/
theorem Placement.next_disjoint {globals : List Ty} {s : GVOffsets} (h : Placement globals s) {ty : Ty}
    {loc : GVLoc} (hnext : Next globals ty loc) :
    ∀ p ∈ globals.zip s.gvLocs, Disjoint (gvRange p) (gvRange (ty, loc)) := by
  intro p hp
  refine gvRange_disjoint ?_
  have hbounds := h.bounds
  have hinStack := h.inStack p hp
  have hinHeap := h.inHeap p hp
  have hsep : stackMax ≤ heapMin := by decide
  show p.2.addr.toNat + p.1.rounded ≤ loc.addr.toNat ∨ loc.addr.toNat + ty.rounded ≤ p.2.addr.toNat
  cases hnext with
  | stack hloc haddr =>
    cases hb : p.2.inHeap with
    | false => exact Or.inr (haddr ▸ (hinStack hb).1)
    | true =>
      have hp := hinHeap hb
      omega
  | heap hloc haddr =>
    cases hb : p.2.inHeap with
    | false =>
      have hp := hinStack hb
      omega
    | true => exact Or.inl (haddr ▸ (hinHeap hb).2)

/-- It is where it should be, and the others stay. -/
theorem Placement.next_inside {globals : List Ty} {s : GVOffsets} (h : Placement globals s) {ty : Ty}
    {loc : GVLoc} (hnext : Next globals ty loc) :
    (∀ p ∈ globals.zip s.gvLocs ++ [(ty, loc)], 8 ∣ p.2.addr.toNat) ∧
    (∀ p ∈ globals.zip s.gvLocs ++ [(ty, loc)], p.2.inHeap = false →
      (greedy (globals ++ [ty])).1 ≤ p.2.addr.toNat ∧ p.2.addr.toNat + p.1.rounded ≤ stackMax) ∧
    ∀ p ∈ globals.zip s.gvLocs ++ [(ty, loc)], p.2.inHeap = true →
      heapMin ≤ p.2.addr.toNat ∧
        p.2.addr.toNat + p.1.rounded ≤ heapMin + (greedy (globals ++ [ty])).2 := by
  have hr := rounded_dvd ty
  have hdvd := h.dvd
  have hbounds := h.bounds
  simp only [List.forall_mem_append, List.forall_mem_singleton]
  cases hnext with
  | stack hloc haddr hsafe hgreedy =>
    rw [hgreedy]
    refine ⟨⟨h.aligned, by omega⟩, ⟨fun p hp hb => ?_, fun _ => ⟨le_rfl, haddr ▸ hbounds.2⟩⟩,
      h.inHeap, fun hb => ?_⟩
    · have hp := h.inStack p hp hb
      exact ⟨(Nat.le.intro haddr).trans hp.1, hp.2⟩
    · rw [hloc] at hb
      cases hb
  | heap hloc haddr hgreedy =>
    rw [hgreedy]
    refine ⟨⟨h.aligned, ?_⟩, ⟨h.inStack, fun hb => ?_⟩, fun p hp hb => ?_, fun _ => ⟨?_, ?_⟩⟩
    · simp only [heapMin] at haddr
      omega
    · rw [hloc] at hb
      cases hb
    · have hp := h.inHeap p hp hb
      exact ⟨hp.1, hp.2.trans (by dsimp only; omega)⟩
    · exact Nat.le.intro haddr.symm
    · rw [haddr, Nat.add_assoc]

/-- The sum of the sizes, with one more. -/
theorem toNat_add_setWidth {a : BitVec 32} {sz : Word} {n : ℕ} (hn : a.toNat + sz.toNat = n)
    (hlt : n < 2 ^ 32) : (a + sz.setWidth 32).toNat = n := by
  rw [BitVec.toNat_add, BitVec.toNat_setWidth]
  omega

/-- The next variable. -/
theorem Placement.next {globals : List Ty} {s s' : GVOffsets} (h : Placement globals s) {ty : Ty}
    {loc : GVLoc}
    (hnext : Next globals ty loc) (hneed : (greedy (globals ++ [ty])).2 < 2 ^ 32)
    (hsize : loc.size.toNat = ty.rounded) (hlocs : s'.gvLocs = s.gvLocs ++ [loc])
    (hstack : s'.gvStackOffset.toNat = (greedy (globals ++ [ty])).1)
    (hheap : s'.gvHeapOffset.toNat = heapMin + (greedy (globals ++ [ty])).2) :
    Placement (globals ++ [ty]) s' := by
  have hzip : (globals ++ [ty]).zip s'.gvLocs = globals.zip s.gvLocs ++ [(ty, loc)] := by
    rw [hlocs, List.zip_append h.length]
    rfl
  have hr := rounded_dvd ty
  have hdvd := h.dvd
  have hbounds := h.bounds
  obtain ⟨haligned, hinStack, hinHeap⟩ := h.next_inside hnext
  have hheapSize := h.heapSize
  have hstackSize := h.stackSize
  have hlowest := h.lowest
  rw [← hzip] at haligned hinStack hinHeap
  refine ⟨hstack, hheap, ?_, hneed, ?_, ?_, ?_, haligned, hinStack, hinHeap, ?_, ?_, ?_⟩
  · cases hnext with
    | stack hloc haddr hsafe hgreedy =>
      rw [hgreedy]
      exact ⟨hsafe, (Nat.le.intro haddr).trans hbounds.2⟩
    | heap hloc haddr hgreedy => rw [hgreedy]; exact hbounds
  · cases hnext with
    | stack hloc haddr hsafe hgreedy => rw [hgreedy]; exact ⟨by omega, hdvd.2⟩
    | heap hloc haddr hgreedy => rw [hgreedy]; exact ⟨hdvd.1, dvd_add hdvd.2 hr⟩
  · rw [hlocs, List.length_append, List.length_append, h.length]
    rfl
  · rw [hzip]
    refine List.pairwise_append.mpr ⟨h.disjoint, List.pairwise_singleton _ _, fun p hp q hq => ?_⟩
    rw [List.mem_singleton.mp hq]
    exact h.next_disjoint hnext p hp
  · rw [hlocs, gvSizes_concat]
    cases hnext with
    | stack hloc haddr hsafe hgreedy =>
      rw [hgreedy, if_neg (by rw [hloc]; exact Bool.false_ne_true)]
      exact hheapSize
    | heap hloc haddr hgreedy =>
      rw [hgreedy] at hneed ⊢
      rw [if_pos hloc]
      exact toNat_add_setWidth (by rw [hheapSize, hsize]) hneed
  · rw [hlocs, gvSizes_concat]
    cases hnext with
    | stack hloc haddr hsafe hgreedy =>
      rw [hgreedy, if_neg (by rw [hloc]; exact Bool.false_ne_true)]
      simp only [stackMax] at *
      exact toNat_add_setWidth (by rw [hstackSize, hsize]; omega) (by omega)
    | heap hloc haddr hgreedy =>
      rw [hgreedy, if_pos hloc]
      exact hstackSize
  · rw [hlocs, lowestInStack_concat]
    cases hnext with
    | stack hloc haddr hsafe hgreedy =>
      rw [hgreedy, if_neg (by rw [hloc]; exact Bool.false_ne_true), hlowest]
      exact min_eq_right (Nat.le.intro haddr)
    | heap hloc haddr hgreedy =>
      rw [hgreedy, if_pos hloc]
      exact hlowest

/-- A variable for which there is room. -/
theorem Placement.step {globals : List Ty} {s : GVOffsets} (h : Placement globals s) {ty : Ty}
    (hfits : ty.rounded ≤ (greedy globals).1) (hneed : (greedy (globals ++ [ty])).2 < 2 ^ 32) :
    Placement (globals ++ [ty]) (placeGlobal s ty) := by
  have hbounds := h.bounds
  have hstack := h.stack
  have hheap := h.heap
  have hle : ty.rounded ≤ stackMax := hfits.trans hbounds.2
  have hsize : ((roundedSize ty).setWidth 64).toNat = ty.rounded :=
    roundedSize_eq (hle.trans_lt (by decide))
  have htest := le_sub_iff (hstack ▸ hbounds.2) (hsize ▸ hle.trans_lt (by decide))
  rw [hsize, hstack] at htest
  have hgreedy := greedy_concat globals ty
  by_cases hroom : stackSafeRegion + ty.rounded ≤ (greedy globals).1
  · have haddr : (s.gvStackOffset - (roundedSize ty).setWidth 64).toNat =
        (greedy globals).1 - ty.rounded := by
      rw [BitVec.toNat_sub, hsize, hstack]
      simp only [stackMax] at *
      omega
    rw [if_pos (by omega)] at hgreedy
    have hplace : placeGlobal s ty = { s with
        gvStackOffset := s.gvStackOffset - (roundedSize ty).setWidth 64
        gvLocs := s.gvLocs ++ [⟨s.gvStackOffset - (roundedSize ty).setWidth 64, false,
          (roundedSize ty).setWidth 64⟩] } := if_pos (htest.mpr (Or.inl hroom))
    rw [hplace]
    refine h.next (.stack rfl ?_ ?_ ?_) hneed hsize rfl ?_ ?_
    · rw [haddr]
      omega
    · rw [haddr]
      omega
    · rw [haddr]
      exact hgreedy
    · rw [hgreedy]
      exact haddr
    · rw [hgreedy]
      exact hheap
  · rw [if_neg (by simp only [stackSafeRegion] at *; omega)] at hgreedy
    have hplace : placeGlobal s ty = { s with
        gvHeapOffset := s.gvHeapOffset + (roundedSize ty).setWidth 64
        gvLocs := s.gvLocs ++ [⟨s.gvHeapOffset, true, (roundedSize ty).setWidth 64⟩] } :=
      if_neg fun hpass => by
        have := htest.mp hpass
        omega
    rw [hplace]
    refine h.next (.heap rfl hheap hgreedy) hneed hsize rfl ?_ ?_
    · rw [hgreedy]
      exact hstack
    · rw [hgreedy] at hneed ⊢
      simp only [heapMin] at *
      rw [BitVec.toNat_add, hsize, hheap]
      omega

/-! ## Exactly when the layout is as documented -/

theorem allocated_mainEntry (heapSize : Word) : allocated (mainEntry heapSize) = heapSize.toNat := by
  unfold mainEntry
  split_ifs with h
  · exact Nat.add_zero _
  · rw [not_not.mp h]
    rfl

theorem Placement.laidOut {globals : List Ty} (h : Placement globals (visitModule globals)) :
    LaidOut globals where
  disjoint := h.disjoint
  aligned := h.aligned
  inStack p hp hb := by
    have hp := h.inStack p hp hb
    exact Set.Ico_subset_Ico (h.bounds.1.trans hp.1) hp.2
  inHeap p hp hb := by
    have hp := h.inHeap p hp hb
    have hneed := h.need
    rw [allocated_mainEntry, BitVec.toNat_setWidth, h.heapSize, Nat.mod_eq_of_lt (by omega)]
    exact Set.Ico_subset_Ico hp.1 hp.2
  stackSize := by rw [gvStackUsage_setGVFn, h.stackSize, h.lowest]

/-- The bytes in the heap only get more. -/
theorem greedy_mono (pre post : List Ty) : (greedy pre).2 ≤ (greedy (pre ++ post)).2 := by
  induction post using List.reverseRecOn with
  | nil => rw [List.append_nil]
  | append_singleton post ty ih =>
    rw [← List.append_assoc, greedy_concat]
    split_ifs
    · exact ih
    · exact ih.trans (Nat.le_add_right _ _)

theorem Admissible.kept {globals : List Ty} (h : Admissible globals) :
    Placement globals (visitModule globals) := by
  suffices hpre : ∀ pre post, globals = pre ++ post → Placement pre (visitModule pre) from
    hpre globals [] (List.append_nil _).symm
  intro pre
  induction pre using List.reverseRecOn with
  | nil => exact fun _ _ => placement_nil
  | append_singleton pre ty ih =>
    intro post heq
    have heq' : globals = pre ++ ty :: post := heq.trans (List.append_assoc ..)
    rw [visitModule_concat]
    refine (ih (ty :: post) heq').step (h.fits pre ty post heq') ?_
    exact (greedy_mono (pre ++ [ty]) post).trans_lt (heq ▸ h.heap)

/-- A range that is not empty lies between the bounds. -/
theorem gvRange_bounds {p : Ty × GVLoc} {lo hi : ℕ} (h : gvRange p ⊆ Set.Ico lo hi)
    (hpos : 0 < p.1.rounded) : lo ≤ p.2.addr.toNat ∧ p.2.addr.toNat + p.1.rounded ≤ hi :=
  (Set.Ico_subset_Ico_iff (Nat.lt_add_of_pos_right hpos)).mp h

/-- The entry of a variable is found where the variable is. -/
theorem Placement.mem_zip {globals pre post : List Ty} {ty : Ty} {loc : GVLoc}
    (hkept : Placement pre (visitModule pre)) (heq : globals = pre ++ ty :: post)
    (hloc : (placeGlobal (visitModule pre) ty).gvLocs = (visitModule pre).gvLocs ++ [loc]) :
    (ty, loc) ∈ globals.zip (visitModule globals).gvLocs := by
  obtain ⟨locs, hlocs⟩ := visitModule_append (pre ++ [ty]) post
  have hglobals : pre ++ [ty] ++ post = globals := by rw [heq, List.append_assoc]; rfl
  rw [hglobals, visitModule_concat, hloc, List.append_assoc, List.singleton_append] at hlocs
  rw [hlocs, heq, List.zip_append hkept.length]
  exact List.mem_append_right _ List.mem_cons_self

/-- In a documented layout the next variable is not too large. -/
theorem LaidOut.step {globals pre post : List Ty} {ty : Ty} (h : LaidOut globals)
    (heq : globals = pre ++ ty :: post) (hkept : Placement pre (visitModule pre)) :
    ty.rounded ≤ (greedy pre).1 ∧ (greedy (pre ++ [ty])).2 < 2 ^ 32 := by
  have hbounds := hkept.bounds
  have hneed := hkept.need
  have htest := le_sub_iff (hkept.stack ▸ hbounds.2) (roundedSize_toNat_lt ty)
  rw [hkept.stack] at htest
  -- once the size is not cut off, the test tells where the variable goes
  have hgreedy : ty.rounded ≤ (greedy pre).1 → (greedy pre).2 + ty.rounded < 2 ^ 32 ∨
      stackSafeRegion + ty.rounded ≤ (greedy pre).1 → (greedy (pre ++ [ty])).2 < 2 ^ 32 := by
    intro hfits hor
    rw [greedy_concat]
    split_ifs with hroom
    · exact hneed
    · exact hor.resolve_right fun hle => hroom (by omega)
  by_cases hpass : BitVec.ofNat 64 stackSafeRegion ≤
      (visitModule pre).gvStackOffset - (roundedSize ty).setWidth 64
  · have hplace : (placeGlobal (visitModule pre) ty).gvLocs = (visitModule pre).gvLocs ++
        [⟨(visitModule pre).gvStackOffset - (roundedSize ty).setWidth 64, false,
          (roundedSize ty).setWidth 64⟩] := congrArg GVOffsets.gvLocs (if_pos hpass)
    have hrange := h.inStack _ (hkept.mem_zip heq hplace) rfl
    have hfits : ty.rounded ≤ (greedy pre).1 := by
      rcases ty.rounded.eq_zero_or_pos with hzero | hpos
      · rw [hzero]
        exact Nat.zero_le _
      · have hr := gvRange_bounds hrange hpos
        simp only [stackSafeRegion, stackMax] at *
        omega
    refine ⟨hfits, hgreedy hfits (Or.inr ?_)⟩
    have hsize : ((roundedSize ty).setWidth 64).toNat = ty.rounded :=
      roundedSize_eq (by simp only [stackMax] at *; omega)
    rw [hsize] at htest
    exact (htest.mp hpass).resolve_right (not_lt.mpr hfits)
  · have hplace : (placeGlobal (visitModule pre) ty).gvLocs = (visitModule pre).gvLocs ++
        [⟨(visitModule pre).gvHeapOffset, true, (roundedSize ty).setWidth 64⟩] :=
      congrArg GVOffsets.gvLocs (if_neg hpass)
    have hrange := h.inHeap _ (hkept.mem_zip heq hplace) rfl
    rw [allocated_mainEntry] at hrange
    have hlt : (greedy pre).2 + ty.rounded < 2 ^ 32 := by
      rcases ty.rounded.eq_zero_or_pos with hzero | hpos
      · rw [hzero]
        exact hneed
      · have hr := gvRange_bounds hrange hpos
        have hheap := hkept.heap
        have hsize := (gvSizes (visitModule globals).gvLocs).1.isLt
        have hmod := Nat.mod_le (gvSizes (visitModule globals).gvLocs).1.toNat (2 ^ 64)
        rw [BitVec.toNat_setWidth] at hr
        dsimp only at hr
        omega
    have hsize : ((roundedSize ty).setWidth 64).toNat = ty.rounded := roundedSize_eq (by omega)
    rw [hsize] at htest
    have hfits : ty.rounded ≤ (greedy pre).1 := not_lt.mp fun hgt => hpass (htest.mpr (Or.inr hgt))
    exact ⟨hfits, hgreedy hfits (Or.inl hlt)⟩

theorem LaidOut.admissible {globals : List Ty} (h : LaidOut globals) : Admissible globals := by
  have hpre : ∀ pre post, globals = pre ++ post → Placement pre (visitModule pre) := by
    intro pre
    induction pre using List.reverseRecOn with
    | nil => exact fun _ _ => placement_nil
    | append_singleton pre ty ih =>
      intro post heq
      have heq' : globals = pre ++ ty :: post := heq.trans (List.append_assoc ..)
      have hkept := ih (ty :: post) heq'
      have hstep := h.step heq' hkept
      rw [visitModule_concat]
      exact hkept.step hstep.1 hstep.2
  refine ⟨fun pre ty post heq => (h.step heq (hpre pre _ heq)).1, ?_⟩
  exact (hpre globals [] (List.append_nil _).symm).need

/-- Where the layout is as documented, the code that the visit of the entry block of `main` begins with
    allocates every variable that is in the heap. -/
theorem LaidOut.allocates {F : Func} {globals : List Ty} {B : Block} {s s' : State}
    (h : LaidOut globals) (hmain : F.name = "main")
    (hentry : visitBasicBlock (globalsCtx F globals) 0 B s = .ok ((), s')) :
    ∀ p ∈ globals.zip (visitModule globals).gvLocs, p.2.inHeap = true →
      gvRange p ⊆ Set.Ico heapMin (heapMin + allocated s'.code) := by
  have hcode : s'.code = mainEntry (globalsCtx F globals).heapSize := visitBasicBlock_main hmain hentry
  rw [hcode]
  exact h.inHeap

/-- **Layout of the global variables.** For every list of variables the ranges are disjoint, aligned
    and inside the stack region or the allocated block, and the frame of `main` grows by what they need,
    just where no variable is larger than the stack offset that it finds and the heap gets less than
    2^32 bytes. -/
theorem layout_iff (globals : List Ty) : LaidOut globals ↔ Admissible globals :=
  ⟨LaidOut.admissible, fun h => h.kept.laidOut⟩

/-- An array of 16000 bytes, more than the whole stack: its address wraps. -/
theorem not_laidOut_largeArray : ¬LaidOut [.array 2000 (.int 64)] ∧
    (visitModule [.array 2000 (.int 64)]).gvLocs = [⟨BitVec.ofNat 64 (2 ^ 64 - 5760), false, 16000⟩] := by
  refine ⟨fun h => ?_, by decide⟩
  exact absurd (h.admissible.fits [] _ [] rfl) (by decide)

end SwppCompiler.Backend
