import SwppCompiler.Backend.Holding

/-!
# `getelementptr`

`visitGetElementPtrInst` (`src/core/Backend.cpp`, lines 513–562) keeps the address in a temporary
register while it scales and adds the indices, and gives the register to the result in the end. An
index that is a function argument has register number 0 (`translateSrcOperandToTgt`, line 187), as
a constant has; the branch meant for constants then multiplies it into `__r0__`.

* `Holding.visit`: the emitted lines compute the address and keep the operands.
* `gepLowering_iff`: the emitted lines are accepted and compute the address iff no function argument
  is an index that has to be scaled, and the emitter has names for the arguments.
* `not_gepLowered_twoElements`: `getelementptr [8 x i32], [8 x i32]* %a, i64 0, i64 %i`.
-/

namespace SwppCompiler.Backend

open Interp Lib.StateExcept RegisterAllocator

/-- The element types that the indices of a `getelementptr` step over. -/
def Ty.levels : Ty → List Ty
  | .array n elem => .array n elem :: elem.levels
  | ty => [ty]

/-- The address of the element of a `getelementptr` on a pointer to `elem`. -/
def elementAddress (elem : Ty) (base : Word) (indices : List Word) : Word :=
  base + (List.zipWith (fun i ty => i * BitVec.ofNat 64 (getAccessSize ty)) indices elem.levels).sum

/-! ## The loop -/

/-- The element type of an array. -/
def Ty.element? : Ty → Option Ty
  | .array _ elem => some elem
  | _ => none

/-- The types that the indices step over, from the next one on. -/
def levelsFrom (elemTy : Option Ty) : List Ty := elemTy.elim [] Ty.levels

theorem levelsFrom_some (ty : Ty) : levelsFrom (some ty) = ty :: levelsFrom ty.element? := by
  cases ty <;> rfl

/-- Only elements of size 1 are stepped over by an index that is a function argument. -/
def ArgsUnscaled (levels : List Ty) (indices : List Operand) : Prop :=
  ∀ p ∈ indices.zip levels, ∀ n, p.1.val = .arg n → getAccessSize p.2 = 1

/-- What the visitor of a `getelementptr` does, for the steps of its loop. -/
def gepSite (U : InstRef) (indices : List Operand) : Site := ⟨U, indices, [], False, False, True⟩

section Loop

variable {c : Ctx} {U : InstRef} {known : Prop} {ops need : InstRef → Prop} {val : InstRef → Word}
  {arg : ℕ → Word} {A : Answer} {s s' s1 : State} {m m' m1 : Machine} {t : ℕ}

/-- One round of the loop. -/
theorem gepLoop_cons_ok {idx : Operand} {idxs : List Operand} {elemTy : Option Ty} {p p' : EmitVal}
    (h : gepLoop c U t (idx :: idxs) elemTy p s = .ok (p', s')) :
    ∃ ty v k s1 sv s2 q s3, elemTy = some ty ∧
      translateSrcOperandToTgt c idx U s = .ok ((v, k), s1) ∧
      scaleIndex c (getAccessSize ty) v k s1 = .ok (sv, s2) ∧
      addIndex t p sv s2 = .ok (q, s3) ∧
      gepLoop c U t idxs ty.element? q s3 = .ok (p', s') := by
  cases elemTy with
  | none => exact (throw_ok_iff.mp h).elim
  | some ty =>
    simp only [gepLoop, bind_ok_iff, require_ok] at h
    obtain ⟨⟨⟩, s0, ⟨-, rfl⟩, ⟨v, k⟩, s1, hidx, sv, s2, hsc, q, s3, hadd, hrest⟩ := h
    exact ⟨ty, v, k, s1, sv, s2, q, s3, rfl, hidx, hsc, hadd, hrest⟩

theorem mul_total (x y : Word) : ∃ z, BinaryOps.mul.eval x y = some z := ⟨_, rfl⟩

theorem add_total (x y : Word) : ∃ z, BinaryOps.add.eval x y = some z := ⟨_, rfl⟩

theorem Holding.scale {sz k : ℕ} {idx v : EmitVal} (hh : Holding U known ops need val arg s m)
    (h : scaleIndex c sz idx k s = .ok (v, s')) (hres : ∀ j, idx = .reg j → Reserved U s j)
    (hidx : known → idx.Named) (hk : k = 0 → sz = 1 ∨ idx.isConst = true) :
    ∃ m', Advances known A s m s' m' ∧ Holding U known ops need val arg s' m' ∧
      KeepsReserved U s m s' m' ∧
      (∀ x, idx.Holds m x → v.Holds m' (x * BitVec.ofNat 64 sz)) ∧ (known → v.Named) := by
  by_cases hsz : sz = 1
  · simp only [scaleIndex, hsz, if_true, pure_ok_iff] at h
    obtain ⟨rfl, rfl⟩ := h
    refine ⟨m, .refl, hh, .refl, fun x hx => ?_, hidx⟩
    rw [hsz]
    show v.Holds m (x * 1#64)
    rwa [BitVec.mul_one]
  · simp only [scaleIndex, hsz, if_false, bind_ok_iff, require_ok, ite_ok_iff] at h
    obtain ⟨⟨⟩, s1, ⟨-, rfl⟩, ⟨h0, h⟩ | ⟨-, r, s1, hr, ⟨⟩, s2, hg, h⟩⟩ := h
    · -- the product of two constants
      have hconst := (hk h0).resolve_left hsz
      have h0 : 0 ∉ s.ra.activeRegs := fun h0 => by
        have := (hh.ownership.owned_iff 0).mp (Or.inr (Or.inr h0))
        omega
      obtain ⟨m', hadv, hh', hv, hra, -, hnamed, hreg⟩ := hh.binOp (A := A) h mul_total h0
        (fun hnot => absurd ⟨hconst, rfl⟩ hnot) hidx fun _ => trivial
      refine ⟨m', hadv, hh', .of_ra hra fun j hj => hreg j ?_,
        fun x hx => hv x _ _ hx holds_const rfl, fun _ => hnamed⟩
      rintro rfl
      have := named_iff.mp (hj.named hh.ownership)
      omega
    · obtain ⟨m2, ha2, hh2, hk2, hfree⟩ := hh.takeGive (A := A) hr hg
      obtain ⟨m', hadv, hh', hv, hra, -, hnamed, hreg⟩ := hh2.binOp (A := A) h mul_total
        (fun ha => hh2.ownership.active_disjoint_free ha hfree)
        (fun _ => named_of_owned hh2.ownership (Or.inl hfree)) hidx fun _ => trivial
      refine ⟨m', ha2.trans hadv, hh', hk2.trans (.of_ra hra fun j hj => hreg j ?_),
        fun x hx => hv x _ _ (hx.congr (hh2.arg.trans hh.arg.symm) fun j hj =>
          (hk2.reg j (hres j hj)).2) holds_const rfl, fun _ => hnamed⟩
      rintro rfl
      exact hj.notMem_free hh2.ownership hfree

theorem Holding.addIndex {p idx v : EmitVal} (hh : Holding U known ops need val arg s m)
    (h : addIndex t p idx s = .ok (v, s')) (ht : t ∈ s.ra.tempRegisters)
    (hp : ∀ j, p = .reg j → Reserved U s j) (hpn : known → p.Named) (hidx : known → idx.Named) :
    ∃ m', Advances known A s m s' m' ∧ Holding U known ops need val arg s' m' ∧ s'.ra = s.ra ∧
      (∀ w x, p.Holds m w → idx.Holds m x → v.Holds m' (w + x)) ∧
      (∀ j, v = .reg j → Reserved U s' j) ∧ (known → v.Named) := by
  simp only [Backend.addIndex, ite_ok_iff, pure_ok_iff] at h
  obtain ⟨rfl, rfl, rfl⟩ | ⟨-, h⟩ := h
  · refine ⟨m, .refl, hh, rfl, fun w x hw hx => ?_, hp, hpn⟩
    rw [← hx.const_eq]
    show v.Holds m (w + 0#64)
    rwa [BitVec.add_zero]
  · have htr : Reserved U s t := Or.inl ht
    obtain ⟨m', hadv, hh', hv, hra, hreg, hnamed, -⟩ := hh.binOp (A := A) h add_total
      (fun ha => hh.ownership.active_disjoint_temp ha ht) (fun _ => htr.named hh.ownership) hpn hidx
    refine ⟨m', hadv, hh', hra, fun w x hw hx => hv w x _ hw hx rfl, ?_, fun _ => hnamed⟩
    rintro j rfl
    obtain hreg | hreg := hreg
    · cases hreg
      exact Or.inl (hra ▸ ht)
    · cases hreg

/-- The loop leaves the address of the element, and protects the indices. -/
theorem Holding.gepLoop {idxs : List Operand} : ∀ {elemTy : Option Ty} {p p' : EmitVal}
    {s s' : State} {m : Machine}, Holding U known ops need val arg s m → t ∈ s.ra.tempRegisters →
    (∀ j, p = .reg j → Reserved U s j) → (known → p.Named) →
    (∀ V ∈ idxs, ∀ J, V.inst? = some J → ops J) → (known → ∀ V ∈ idxs, V.Named) →
    ArgsUnscaled (levelsFrom elemTy) idxs → gepLoop c U t idxs elemTy p s = .ok (p', s') →
    ∃ m', Advances known A s m s' m' ∧ Holding U known ops need val arg s' m' ∧
      (∀ w xs, p.Holds m w → (∀ V ∈ idxs, ∀ J, V.inst? = some J → need J) →
        List.Forall₂ (fun V x => V.eval c val arg = some x) idxs xs →
        p'.Holds m' (w + (List.zipWith (fun i ty => i * BitVec.ofNat 64 (getAccessSize ty)) xs
          (levelsFrom elemTy)).sum)) ∧
      (∀ j, p' = .reg j → Reserved U s' j) ∧ (known → p'.Named) ∧ t ∈ s'.ra.tempRegisters ∧
      (∀ J k, Protected U s J k → Protected U s' J k) ∧
      ∀ V ∈ idxs, ∀ J, V.inst? = some J → ∃ k, Protected U s' J k := by
  induction idxs with
  | nil =>
    intro elemTy p p' s s' m hh ht hp hpn _ _ _ h
    obtain ⟨rfl, rfl⟩ := pure_ok_iff.mp h
    refine ⟨m, .refl, hh, fun w xs hw _ hxs => ?_, hp, hpn, ht, fun _ _ h => h, by simp⟩
    cases hxs
    rw [List.zipWith_nil_left, List.sum_nil]
    show p'.Holds m (w + 0#64)
    rwa [BitVec.add_zero]
  | cons idx idxs ih =>
    intro elemTy p p' s s' m hh ht hp hpn hops hnames hargs h
    obtain ⟨ty, v, k, s1, sv, s2, q, s3, rfl, hidx, hsc, hadd, hrest⟩ := gepLoop_cons_ok h
    rw [levelsFrom_some] at hargs ⊢
    have hargs1 : ∀ n, idx.val = .arg n → getAccessSize ty = 1 :=
      hargs (idx, ty) List.mem_cons_self
    have htemp1 := (translateSrcOperandToTgt_frame hh.ownership hidx).temp
    obtain ⟨m1, ha1, hh1, hk1, hv, hvres, hvn, hk0, hprot⟩ :=
      hh.translate (A := A) (hops idx List.mem_cons_self) hidx
    have hscale : k = 0 → getAccessSize ty = 1 ∨ v.isConst = true := fun h0 => by
      obtain ⟨-, -, hval⟩ := translateConst_ok (hk0.mp h0) hidx
      have hi := hk0.mp h0
      obtain ⟨y, yty⟩ := idx
      cases y with
      | inst J => cases hi
      | arg n => exact Or.inl (hargs1 n rfl)
      | _ =>
        cases hval
        exact Or.inr rfl
    have htemp2 := (scaleIndex_ok (d := gepSite U []) trivial hh1.ownership hsc).2.1.temp
    obtain ⟨m2, ha2, hh2, hk2, hsv, hnamed⟩ := hh1.scale (A := A) hsc hvres
      (fun hknown => hvn hknown (hnames hknown idx List.mem_cons_self)) hscale
    have hkeep := hk1.trans hk2
    have ht2 : t ∈ s2.ra.tempRegisters := by rwa [htemp2, htemp1]
    obtain ⟨m3, ha3, hh3, hra3, hq, hqres, hqn⟩ := hh2.addIndex (A := A) hadd ht2
      (fun j hj => (hkeep.reg j (hp j hj)).1) hpn hnamed
    have hprot3 : ∀ J k, Protected U s2 J k → Protected U s3 J k := fun J k h => by
      unfold Protected
      rwa [hra3]
    obtain ⟨m4, ha4, hh4, hp', hpres, hpn', ht4, hprot4, hprots⟩ := ih hh3 (hra3 ▸ ht2) hqres hqn
      (fun V hV => hops V (List.mem_cons_of_mem _ hV))
      (fun hknown V hV => hnames hknown V (List.mem_cons_of_mem _ hV))
      (fun y hy => hargs y (List.mem_cons_of_mem _ hy)) hrest
    refine ⟨m4, ((ha1.trans ha2).trans ha3).trans ha4, hh4, fun w xs hw hneed hxs => ?_, hpres, hpn',
      ht4, fun J k h => hprot4 J k (hprot3 J k (hkeep.prot J k h)), fun V hV J hJ => ?_⟩
    · obtain _ | @⟨_, x, _, xs, hx, hxs⟩ := hxs
      have hw2 : p.Holds m2 w :=
        hw.congr (hh2.arg.trans hh.arg.symm) fun j hj => (hkeep.reg j (hp j hj)).2
      have hx2 := hsv x (hv x (hneed idx List.mem_cons_self) hx)
      rw [List.zipWith_cons_cons, List.sum_cons, ← BitVec.add_assoc]
      exact hp' _ xs (hq w _ hw2 hx2) (fun V hV => hneed V (List.mem_cons_of_mem _ hV)) hxs
    · rcases List.mem_cons.mp hV with rfl | hV
      · obtain ⟨k, hk⟩ := hprot J hJ
        exact ⟨k, hprot4 J k (hprot3 J k (hk2.prot J k hk))⟩
      · exact hprots V hV J hJ

/-- A queue of next uses is only popped. -/
theorem Step.advent {d : Site} (h : Step c d s s') {J : InstRef} (hJ : s'.adventMap J ≠ []) :
    s.adventMap J ≠ [] := by
  cases h with
  | @use I t q ra v hI hadv hv hu =>
    by_cases hJI : J = I
    · rw [hJI, hadv]
      exact List.cons_ne_nil t q
    · have hJ : Function.update s.adventMap I q J ≠ [] := hJ
      rwa [Function.update_of_ne hJI] at hJ
  | _ => exact hJ

theorem Steps.advent {d : Site} (h : Steps c d s s') {J : InstRef} (hJ : s'.adventMap J ≠ []) :
    s.adventMap J ≠ [] := by
  induction h with
  | refl => exact hJ
  | tail _ hstep ih => exact ih (hstep.advent hJ)

/-- An operand that is translated had a next use. -/
theorem translate_advent {V : Operand} {p : EmitVal × ℕ} {J : InstRef} (ho : Ownership s.ra)
    (hJ : V.inst? = some J) (h : translateSrcOperandToTgt c V U s = .ok (p, s')) :
    s.adventMap J ≠ [] := by
  obtain ⟨v, k⟩ := p
  obtain ⟨x, ty⟩ := V
  cases x <;> cases hJ
  obtain ⟨s1, t, q, ra, hget, hadv, -, -, -⟩ := translateInst_ok h
  obtain ⟨-, -, hcase⟩ := getRegister_ok ho hget
  have hs1 : s1.adventMap J ≠ [] := by
    rw [hadv]
    exact List.cons_ne_nil t q
  obtain rfl | ⟨-, s0, ra1, ra2, hev, -, -, rfl⟩ := hcase
  · exact hs1
  · exact Steps.advent (steps_of_evicted (d := phiSite U) hev) hs1

theorem addIndex_ra {p idx v : EmitVal} (h : addIndex t p idx s = .ok (v, s')) :
    s'.ra = s.ra ∧ s'.adventMap = s.adventMap ∧ ∃ lines, s'.code = s.code ++ lines := by
  rcases addIndex_ok h with ⟨lines, rfl, -, -⟩ | ⟨-, -, rfl⟩
  · exact ⟨rfl, rfl, lines, rfl⟩
  · exact ⟨rfl, rfl, [], (List.append_nil _).symm⟩

/-- One round of the loop, in steps. -/
theorem gepRound (idxs : List Operand) {idx : Operand} {v sv p q : EmitVal} {k sz : ℕ}
    {s2 s3 : State} (ho : Ownership s.ra) (ht : t ∈ s.ra.tempRegisters)
    (hidx : translateSrcOperandToTgt c idx U s = .ok ((v, k), s1))
    (hsc : scaleIndex c sz v k s1 = .ok (sv, s2)) (hadd : addIndex t p sv s2 = .ok (q, s3)) :
    Steps c (gepSite U (idx :: idxs)) s s2 ∧ Ownership s3.ra ∧ t ∈ s3.ra.tempRegisters ∧
      s3.adventMap = s2.adventMap := by
  obtain ⟨h1, -, -⟩ := translateSrcOperandToTgt_steps (d := gepSite U (idx :: idxs))
    List.mem_cons_self ho hidx
  have hf1 := translateSrcOperandToTgt_frame ho hidx
  obtain ⟨h2, hf2, -⟩ :=
    scaleIndex_ok (d := gepSite U (idx :: idxs)) trivial (Steps.ownership h1 ho) hsc
  obtain ⟨hra, hadv, -⟩ := addIndex_ra hadd
  refine ⟨h1.trans h2, hra ▸ Steps.ownership (h1.trans h2) ho, ?_, hadv⟩
  rwa [hra, hf2.temp, hf1.temp]

theorem gepLoop_advent {idxs : List Operand} : ∀ {elemTy : Option Ty} {p p' : EmitVal}
    {s s' : State}, Ownership s.ra → t ∈ s.ra.tempRegisters →
    gepLoop c U t idxs elemTy p s = .ok (p', s') →
    ∀ V ∈ idxs, ∀ J, V.inst? = some J → s.adventMap J ≠ [] := by
  induction idxs with
  | nil =>
    intro elemTy p p' s s' _ _ _ V hV
    cases hV
  | cons idx idxs ih =>
    intro elemTy p p' s s' ho ht h V hV J hJ
    obtain ⟨ty, v, k, s1, sv, s2, q, s3, rfl, hidx, hsc, hadd, hrest⟩ := gepLoop_cons_ok h
    rcases List.mem_cons.mp hV with rfl | hV
    · exact translate_advent ho hJ hidx
    · obtain ⟨hsteps, ho3, ht3, hadv⟩ := gepRound idxs ho ht hidx hsc hadd
      exact hsteps.advent (hadv ▸ ih ho3 ht3 hrest V hV J hJ)

/-- A line that `P` holds of has been emitted between the two states. -/
def EmitsLine (P : Line → Prop) (s s' : State) : Prop :=
  ∃ code l, s.code <+: code ∧ code ++ [l] <+: s'.code ∧ P l

theorem EmitsLine.mono {P : Line → Prop} {s0 : State} (h : EmitsLine P s s')
    (h0 : s0.code <+: s.code) (h1 : s'.code <+: s1.code) : EmitsLine P s0 s1 := by
  obtain ⟨code, l, hcode, hl, hP⟩ := h
  exact ⟨code, l, h0.trans hcode, hl.trans h1, hP⟩

theorem emitsLine_emit {P : Line → Prop} {l : Line} (h : s'.code = s.code ++ [l]) (hP : P l) :
    EmitsLine P s s' :=
  ⟨s.code, l, List.prefix_rfl, h ▸ List.prefix_rfl, hP⟩

theorem Steps.code_prefix {d : Site} (h : Steps c d s s') : s.code <+: s'.code := by
  obtain ⟨-, -, lines, hcode⟩ := h.frame
  exact ⟨lines, hcode.symm⟩

theorem createBinOp_reads {op : BinaryOps} {dest bw n : ℕ} {a b v : EmitVal}
    (h : createBinOp dest op bw a b s = .ok (v, s')) (hn : a = .arg n ∨ b = .arg n) :
    ∃ l : Line, l.dest? = some dest ∧ .arg n ∈ l.reads ∧ s'.code = s.code ++ [l] := by
  have hconst : (a.isConst && b.isConst) = false := by
    rcases hn with rfl | rfl
    · rfl
    · exact Bool.and_false _
  rw [createBinOp, hconst, if_neg Bool.false_ne_true] at h
  simp only [bind_ok_iff, emit_ok, pure_ok_iff] at h
  obtain ⟨⟨⟩, s1, rfl, -, rfl⟩ := h
  refine ⟨_, rfl, ?_, rfl⟩
  rcases hn with rfl | rfl <;> simp [Line.reads]

theorem createBitCast_reads {dest n : ℕ} {v : EmitVal} {src ty : Ty}
    (h : createBitCast dest (.arg n) src ty s = .ok (v, s')) :
    v = .arg n ∧ s' = s ∨ EmitsLine (.arg n ∈ ·.reads) s s' := by
  simp only [createBitCast, ite_ok_iff, bind_ok_iff, pure_ok_iff, emit_ok] at h
  obtain ⟨-, rfl, rfl⟩ | ⟨-, ⟨⟩, s1, rfl, -, rfl⟩ := h
  · exact Or.inl ⟨rfl, rfl⟩
  · exact Or.inr (emitsLine_emit rfl (by simp [Line.reads]))

/-- A function argument is multiplied into `__r0__`, unless the elements have size 1. -/
theorem scaleIndex_arg {sz n : ℕ} {v : EmitVal} (h : scaleIndex c sz (.arg n) 0 s = .ok (v, s')) :
    sz = 1 ∧ v = .arg n ∧ s' = s ∨
      EmitsLine (fun l => .arg n ∈ l.reads ∧ l.dest? = some 0) s s' := by
  by_cases hsz : sz = 1
  · simp only [scaleIndex, hsz, if_true, pure_ok_iff] at h
    exact Or.inl ⟨hsz, h⟩
  · unfold scaleIndex at h
    rw [if_neg hsz] at h
    obtain ⟨⟨⟩, s1, hreq, h⟩ := bind_ok_iff.mp h
    obtain ⟨-, rfl⟩ := require_ok.mp hreq
    rw [if_pos rfl] at h
    obtain ⟨l, hdest, hreads, hcode⟩ := createBinOp_reads h (Or.inl rfl)
    exact Or.inr (emitsLine_emit hcode ⟨hreads, hdest⟩)

/-- A function argument is added to the address. -/
theorem addIndex_arg {n : ℕ} {p idx v : EmitVal} (h : addIndex t p idx s = .ok (v, s')) :
    (idx = .arg n → EmitsLine (.arg n ∈ ·.reads) s s') ∧
      (p = .arg n → v = .arg n ∨ EmitsLine (.arg n ∈ ·.reads) s s') := by
  simp only [addIndex, ite_ok_iff, pure_ok_iff] at h
  obtain ⟨rfl, rfl, -⟩ | ⟨-, h⟩ := h
  · refine ⟨fun hidx => ?_, Or.inl⟩
    cases hidx
  · have hadd : ∀ {a : EmitVal}, a = .arg n → (a = p ∨ a = idx) →
        EmitsLine (.arg n ∈ ·.reads) s s' := by
      rintro a rfl ha
      obtain ⟨l, -, hreads, hcode⟩ := createBinOp_reads (n := n) h (ha.imp Eq.symm Eq.symm)
      exact emitsLine_emit hcode hreads
    exact ⟨fun hidx => hadd hidx (Or.inr rfl), fun hp => Or.inr (hadd hp (Or.inl rfl))⟩

theorem gepLoop_code {idxs : List Operand} {elemTy : Option Ty} {p p' : EmitVal}
    (ho : Ownership s.ra) (ht : t ∈ s.ra.tempRegisters)
    (h : gepLoop c U t idxs elemTy p s = .ok (p', s')) : s.code <+: s'.code :=
  Steps.code_prefix (gepLoop_ok (d := gepSite U idxs) trivial (fun _ h => h) ho ht h).1

/-- An index that is a function argument is read by a line, which multiplies it into `__r0__` unless
    the elements have size 1. -/
theorem gepLoop_arg {idxs : List Operand} : ∀ {elemTy : Option Ty} {p p' : EmitVal}
    {s s' : State}, Ownership s.ra → t ∈ s.ra.tempRegisters →
    gepLoop c U t idxs elemTy p s = .ok (p', s') →
    ∀ q ∈ idxs.zip (levelsFrom elemTy), ∀ n, q.1.val = .arg n →
      EmitsLine (fun l => .arg n ∈ l.reads ∧ (getAccessSize q.2 ≠ 1 → l.dest? = some 0)) s s' := by
  induction idxs with
  | nil =>
    intro elemTy p p' s s' _ _ _ q hq
    cases hq
  | cons idx idxs ih =>
    intro elemTy p p' s s' ho ht h q hq n hn
    obtain ⟨ty, v, k, s1, sv, s2, r, s3, rfl, hidx, hsc, hadd, hrest⟩ := gepLoop_cons_ok h
    rw [levelsFrom_some] at hq
    obtain ⟨hsteps, ho3, ht3, -⟩ := gepRound idxs ho ht hidx hsc hadd
    obtain ⟨-, -, l3, hcode3⟩ := addIndex_ra hadd
    have hcode3 : s2.code <+: s3.code := ⟨l3, hcode3.symm⟩
    rcases List.mem_cons.mp hq with rfl | hq
    · have hn : idx.val = .arg n := hn
      obtain ⟨rfl, rfl, hval⟩ := translateConst_ok (by simp [Operand.inst?, hn]) hidx
      simp only [OperandVal, hn] at hval
      subst hval
      have hcode4 := gepLoop_code ho3 ht3 hrest
      obtain ⟨hsz, rfl, rfl⟩ | ⟨code, l, hcode, hl, hreads, hdest⟩ := scaleIndex_arg hsc
      · obtain ⟨code, l, hcode, hl, hreads⟩ := (addIndex_arg hadd).1 rfl
        exact ⟨code, l, hcode, hl.trans hcode4, hreads, fun hne => absurd hsz hne⟩
      · exact ⟨code, l, hcode, (hl.trans hcode3).trans hcode4, hreads, fun _ => hdest⟩
    · exact (ih ho3 ht3 hrest q hq n hn).mono (hsteps.code_prefix.trans hcode3) List.prefix_rfl

/-- There is a level for every index. -/
theorem gepLoop_levels {idxs : List Operand} : ∀ {elemTy : Option Ty} {p p' : EmitVal}
    {s s' : State}, gepLoop c U t idxs elemTy p s = .ok (p', s') →
    idxs.length ≤ (levelsFrom elemTy).length := by
  induction idxs with
  | nil =>
    intro elemTy p p' s s' _
    exact Nat.zero_le _
  | cons idx idxs ih =>
    intro elemTy p p' s s' h
    obtain ⟨ty, v, k, s1, sv, s2, r, s3, rfl, -, -, -, hrest⟩ := gepLoop_cons_ok h
    rw [levelsFrom_some]
    exact Nat.succ_le_succ (ih hrest)

/-- A base that is a function argument is read by a line, or is the address. -/
theorem gepLoop_base {idxs : List Operand} {n : ℕ} : ∀ {elemTy : Option Ty} {p' : EmitVal}
    {s s' : State}, Ownership s.ra → t ∈ s.ra.tempRegisters →
    gepLoop c U t idxs elemTy (.arg n) s = .ok (p', s') →
    p' = .arg n ∨ EmitsLine (.arg n ∈ ·.reads) s s' := by
  induction idxs with
  | nil =>
    intro elemTy p' s s' _ _ h
    exact Or.inl (pure_ok_iff.mp h).1
  | cons idx idxs ih =>
    intro elemTy p' s s' ho ht h
    obtain ⟨ty, v, k, s1, sv, s2, r, s3, rfl, hidx, hsc, hadd, hrest⟩ := gepLoop_cons_ok h
    obtain ⟨hsteps, ho3, ht3, -⟩ := gepRound idxs ho ht hidx hsc hadd
    obtain ⟨-, -, l3, hcode3⟩ := addIndex_ra hadd
    have hcode3 : s2.code <+: s3.code := ⟨l3, hcode3.symm⟩
    obtain rfl | hem := (addIndex_arg hadd).2 rfl
    · exact (ih ho3 ht3 hrest).imp_right fun hem =>
        hem.mono (hsteps.code_prefix.trans hcode3) List.prefix_rfl
    · exact Or.inr (hem.mono hsteps.code_prefix (gepLoop_code ho3 ht3 hrest))

end Loop

/-! ## The visitor -/

/-- The visit of `I`, with base `ptr` that points to `elem`, emits lines that the assembly emitter
    accepts, and a value that it has a name for. If the values of the operands are where the
    allocator has them, the lines leave the address of the element, and the operands in registers
    that still hold their values. -/
def GepLowered (c : Ctx) (I : InstRef) (elem : Ty) (ptr : Operand) (indices : List Operand)
    (s s' : State) : Prop :=
  ∃ lines v, s'.code = s.code ++ lines ++ [.value I v] ∧ s'.sourceToEmitMap I = some v ∧
    (∀ l ∈ lines, l.Accepted) ∧ v.Named ∧
    ∀ A m val base xs,
      (∀ V ∈ ptr :: indices, ∀ J, V.inst? = some J → Realizes s m J (val J)) →
      ptr.eval c val m.arg = some base →
      List.Forall₂ (fun V x => V.eval c val m.arg = some x) indices xs →
      ∃ m', execLines A m lines = some m' ∧ v.Holds m' (elementAddress elem base xs) ∧
        ∀ V ∈ ptr :: indices, ∀ J, V.inst? = some J → s'.ra.get J ≠ 0 ∧
          ∃ x, s'.sourceToEmitMap J = some x ∧ x.Holds m' (val J)

section Visit

variable {c : Ctx} {I : InstRef} {known : Prop} {ops need : InstRef → Prop} {val : InstRef → Word}
  {arg : ℕ → Word} {A : Answer} {s s' : State} {m : Machine} {u : Unit}

/-- The temporary register that is given up is the next one that is requested. -/
theorem giveUp_requestRegister {t k : ℕ} {ra : RegisterAllocator InstRef} (ho : Ownership s.ra)
    (hg : s.ra.giveUpTempRegister t = .ok ra)
    (hreq : requestRegister c I { s with ra := ra } = .ok (k, s')) :
    k = t ∧ ∃ ra1 ra2 n, ra.request I = .ok (t, ra1) ∧ t ≠ 0 ∧ ra1.update I none n = .ok ra2 ∧
      s' = { s with ra := ra2 } := by
  have ho' : Ownership ra := ho.giveUpTempRegister hg
  obtain ⟨-, rfl⟩ := giveUpTempRegister_ok hg
  obtain ⟨s0, ra1, ra2, ⟨rfl, -⟩ | ⟨hnil, -⟩, hr, hk0, hu, rfl⟩ := requestRegister_ok ho' hreq
  · obtain ⟨-, ⟨hnil, -, -⟩ | ⟨free, hcons, -, -⟩⟩ := request_ok ho'.zero_notMem_free hr
    · cases hnil
    · obtain rfl : k = t := (List.cons.inj hcons).1.symm
      exact ⟨rfl, ra1, ra2, _, hr, hk0, hu, rfl⟩
  · cases hnil

/-- The visitor from its start to the end of its loop, and what it does then. -/
theorem visitGetElementPtrInst_ok {ptr : Operand} {indices : List Operand} {ty : Ty}
    (h : visitGetElementPtrInst c I ptr indices ty s = .ok (u, s')) :
    ∃ elem pv pk t p0 p1 v s2 s3 s4 s5 ra k s8 s9, ptr.ty = .ptr elem ∧
      translateSrcOperandToTgt c ptr I { s with ra := s.ra.reportUser (some I) } =
        .ok ((pv, pk), s2) ∧
      requestTempRegister c 0 s2 = .ok (t, s3) ∧
      createBitCast t pv (.ptr elem) i8Ptr s3 = .ok (p0, s4) ∧
      gepLoop c I t indices (some elem) p0 s4 = .ok (p1, s5) ∧
      (s5.ra.reportUser none).giveUpTempRegister t = .ok ra ∧
      requestRegister c I { s5 with ra := ra } = .ok (k, s8) ∧
      createBitCast k p1 i8Ptr ty s8 = .ok (v, s9) ∧
      s' = { s9 with
        sourceToEmitMap := Function.update s9.sourceToEmitMap I (some v)
        code := s9.code ++ [.value I v] } := by
  cases hty : ptr.ty with
  | ptr elem =>
    simp only [visitGetElementPtrInst, hty, bind_ok_iff, reportUser_ok, define_ok] at h
    obtain ⟨⟨⟩, s1, rfl, ⟨pv, pk⟩, s2, hptr, t, s3, ht, p0, s4, hcast, p1, s5, hloop, ⟨⟩, s6, rfl,
      ⟨⟩, s7, hgive, k, s8, hreq, v, s9, hv, hs'⟩ := h
    obtain ⟨ra, hg, rfl⟩ := giveUpTempRegister_iff.mp hgive
    exact ⟨elem, pv, pk, t, p0, p1, v, s2, s3, s4, s5, ra, k, s8, s9, rfl, hptr, ht, hcast, hloop,
      hg, hreq, hv, hs'⟩
  | _ =>
    simp only [visitGetElementPtrInst, hty] at h
    exact (throw_ok_iff.mp h).elim

/-- The address as an `i8 *`. -/
theorem Holding.castBase {U : InstRef} {t : ℕ} {pv p0 : EmitVal} {src : Ty}
    (hh : Holding U known ops need val arg s m) (h : createBitCast t pv src i8Ptr s = .ok (p0, s'))
    (ht : t ∈ s.ra.tempRegisters) (hp : ∀ j, pv = .reg j → Reserved U s j)
    (hpn : known → pv.Named) :
    ∃ m', Advances known A s m s' m' ∧ Holding U known ops need val arg s' m' ∧ s'.ra = s.ra ∧
      (∀ w, pv.Holds m w → p0.Holds m' w) ∧ (∀ j, p0 = .reg j → Reserved U s' j) ∧
      (known → p0.Named) := by
  have htr : Reserved U s t := Or.inl ht
  have hnamed := htr.named hh.ownership
  obtain ⟨rfl, rfl⟩ | ⟨hp0, hs', hacc, hexec⟩ :=
    createBitCast_advances (m := m) (A := A) h hnamed hpn
  · exact ⟨m, .refl, hh, rfl, fun w hw => hw, hp, hpn⟩
  · rw [hp0, hs']
    obtain ⟨hadv, hh'⟩ :=
      hh.line (A := A) hexec (fun ha => hh.ownership.active_disjoint_temp ha ht) hacc
    refine ⟨_, hadv, hh', rfl, fun w hw => ⟨by simp, ?_⟩, fun j hj => ?_, fun _ => hnamed⟩
    · rw [read_reg_setReg, hw.2]
    · cases hj
      exact htr

/-- The address as a value of the result's type, after the temporary register has become that of
    the result: the operands keep their registers and values. -/
theorem Holding.castResult {t n : ℕ} {ra ra1 ra2 : RegisterAllocator InstRef} {p v : EmitVal}
    {ty : Ty} {s5 s9 : State} {m5 : Machine} (hh : Holding I known ops need val arg s5 m5)
    (ht : t ∈ s5.ra.tempRegisters) (hp : known → p.Named)
    (hg : (s5.ra.reportUser none).giveUpTempRegister t = .ok ra)
    (hr : ra.request I = .ok (t, ra1)) (ht0 : t ≠ 0) (hu : ra1.update I none n = .ok ra2)
    (hv : createBitCast t p i8Ptr ty { s5 with ra := ra2 } = .ok (v, s9))
    (hs' : s' = { s9 with
      sourceToEmitMap := Function.update s9.sourceToEmitMap I (some v)
      code := s9.code ++ [.value I v] }) :
    ∃ m' lines, s'.code = s5.code ++ lines ++ [.value I v] ∧ s'.sourceToEmitMap I = some v ∧
      execLines A m5 lines = some m' ∧ (known → (∀ l ∈ lines, l.Accepted) ∧ v.Named) ∧
      (∀ w, p.Holds m5 w → v.Holds m' w) ∧ ∀ J k, Protected I s5 J k → s'.ra.get J ≠ 0 ∧
        (need J → ∃ x, s'.sourceToEmitMap J = some x ∧ x.Holds m' (val J)) := by
  have hnamed : (EmitVal.reg t).Named := Reserved.named (U := I) hh.ownership (Or.inl ht)
  have ho : Ownership ra := (hh.ownership.reportUser none).giveUpTempRegister hg
  have hset : ra.activeSet = s5.ra.activeSet := (activeSet_giveUpTempRegister hg).trans rfl
  have hmem := mem_requestUpdate ho hr ht0 hu
  obtain ⟨-, hfresh, -⟩ := ho.mem_request hr ht0
  -- an operand is not the result, and what it is read from is not overwritten
  have hkeep : ∀ {m' : Machine} {map : InstRef → Option EmitVal}, m'.arg = m5.arg →
      (∀ j, j ≠ t → m'.reg j = m5.reg j) → map = Function.update s5.sourceToEmitMap I (some v) →
      ∀ J k, Protected I s5 J k → ra2.get J ≠ 0 ∧
        (need J → ∃ x, map J = some x ∧ x.Holds m' (val J)) := by
    rintro m' map harg hreg rfl J k ⟨e, he, rfl, -, -⟩
    have hne : e.source ≠ I := hfresh e (hset ▸ he)
    have he5 : s5.ra.get e.source ≠ 0 := by
      rw [get_eq_of_mem hh.ownership.sources he]
      have := (hh.ownership.owned_iff e.regId).mp (Or.inr (Or.inr (List.mem_map_of_mem he)))
      omega
    refine ⟨?_, fun hJ => ?_⟩
    · rw [get_eq_of_mem ((ho.request hr).update hu).sources ((hmem e).mpr (Or.inr (hset ▸ he))),
        ← get_eq_of_mem hh.ownership.sources he]
      exact he5
    · obtain ⟨x, hx, hxw⟩ := (hh.realizes _ hJ).resident he5
      refine ⟨x, (Function.update_of_ne hne ..).trans hx, hxw.congr harg fun j hj => hreg j ?_⟩
      rintro rfl
      exact hh.ownership.active_disjoint_temp (hh.mem_activeRegs (hh.reads _ hJ) he5 (hj ▸ hx)) ht
  obtain ⟨hs9, rfl⟩ | ⟨hvt, hs9, hacc, hexec⟩ :=
    createBitCast_advances (m := m5) (A := A) hv hnamed hp
  · subst hs9
    rw [hs']
    exact ⟨m5, [], by simp, Function.update_self .., rfl, fun hknown => ⟨by simp, hp hknown⟩,
      fun w hw => hw,
      hkeep rfl (fun _ _ => rfl) rfl⟩
  · subst hvt hs9
    rw [hs']
    refine ⟨m5.setReg t (p.read m5), [.copy t p], rfl, Function.update_self ..,
      execLines_singleton.trans hexec, fun hknown => ⟨fun l hl => ?_, hnamed⟩,
      fun w hw => ⟨by simp, ?_⟩, hkeep rfl (fun j hj => Machine.setReg_reg_of_ne hj) rfl⟩
    · rw [List.mem_singleton.mp hl]
      exact hacc hknown
    · rw [read_reg_setReg, hw.2]

/-- What the visit emits keeps the values of the operands and leaves that of the result. -/
theorem Holding.visit {ptr : Operand} {indices : List Operand} {ty elem : Ty}
    (hty : ptr.ty = .ptr elem) (hargs : ArgsUnscaled elem.levels indices)
    (hops : ∀ V ∈ ptr :: indices, ∀ J, V.inst? = some J → ops J)
    (hnames : known → ∀ V ∈ ptr :: indices, V.Named)
    (hh : Holding I known ops need val arg { s with ra := s.ra.reportUser (some I) } m)
    (h : visitGetElementPtrInst c I ptr indices ty s = .ok (u, s')) :
    ∃ m' lines v, s'.code = s.code ++ lines ++ [.value I v] ∧ s'.sourceToEmitMap I = some v ∧
      execLines A m lines = some m' ∧ (known → (∀ l ∈ lines, l.Accepted) ∧ v.Named) ∧
      (∀ base xs, (∀ V ∈ ptr :: indices, ∀ J, V.inst? = some J → need J) →
        ptr.eval c val arg = some base →
        List.Forall₂ (fun V x => V.eval c val arg = some x) indices xs →
        v.Holds m' (elementAddress elem base xs)) ∧
      ∀ V ∈ ptr :: indices, ∀ J, V.inst? = some J → s'.ra.get J ≠ 0 ∧
        (need J → ∃ x, s'.sourceToEmitMap J = some x ∧ x.Holds m' (val J)) := by
  obtain ⟨elem', pv, pk, t, p0, p1, v, s2, s3, s4, s5, ra, k, s8, s9, hty', hptr, htemp, hcast,
    hloop, hg, hreq, hv, hs'⟩ := visitGetElementPtrInst_ok h
  obtain rfl : elem = elem' := Ty.ptr.inj (hty.symm.trans hty')
  -- the base, its register, and its address in the temporary register
  obtain ⟨m2, ha2, hh2, -, hpv, hpres, hpvn, -, hpprot⟩ :=
    hh.translate (A := A) (hops ptr List.mem_cons_self) hptr
  obtain ⟨m3, ha3, hh3, hk3, -, ht3⟩ := hh2.takeTemp (A := A) htemp
  obtain ⟨m4, ha4, hh4, hra4, hp0, hp0res, hp0n⟩ := hh3.castBase (A := A) hcast ht3
    (fun j hj => (hk3.reg j (hpres j hj)).1)
    fun hknown => hpvn hknown (hnames hknown ptr List.mem_cons_self)
  have hprot4 : ∀ J j, Protected I s3 J j → Protected I s4 J j := fun J j hJ => by
    unfold Protected
    rwa [hra4]
  -- the indices, and the address as the result
  have hargs : ArgsUnscaled (levelsFrom (some elem)) indices := hargs
  obtain ⟨m5, ha5, hh5, hp1, -, hp1n, ht5, hprot5, hidx⟩ :=
    hh4.gepLoop (A := A) (hra4 ▸ ht3) hp0res hp0n (fun V hV => hops V (List.mem_cons_of_mem _ hV))
      (fun hknown V hV => hnames hknown V (List.mem_cons_of_mem _ hV)) hargs hloop
  obtain ⟨rfl, ra1, ra2, n, hr, ht0, hu, rfl⟩ :=
    giveUp_requestRegister (s := { s5 with ra := s5.ra.reportUser none })
      (hh5.ownership.reportUser none) hg hreq
  obtain ⟨m', l2, hcode, hmap, hexec, hacc, hres, hkeep⟩ :=
    hh5.castResult (A := A) ht5 hp1n hg hr ht0 hu hv hs'
  obtain ⟨l1, hcode5, hexec5, hacc5⟩ := ((ha2.trans ha3).trans ha4).trans ha5
  refine ⟨m', l1 ++ l2, v, ?_, hmap, ?_, fun hknown => ⟨fun l hl => ?_, (hacc hknown).2⟩,
    fun base xs hneed hbase hxs => ?_, ?_⟩
  · rw [hcode, hcode5]
    simp
  · rw [execLines_append, hexec5]
    exact hexec
  · exact (List.mem_append.mp hl).elim (hacc5 hknown l) ((hacc hknown).1 l)
  · have hw2 : pv.Holds m2 base := hpv base (hneed ptr List.mem_cons_self) hbase
    have hw3 : pv.Holds m3 base := hw2.congr (hh3.arg.trans hh2.arg.symm) fun j hj =>
      (hk3.reg j (hpres j hj)).2
    exact hres _ (hp1 base xs (hp0 base hw3)
      (fun V hV => hneed V (List.mem_cons_of_mem _ hV)) hxs)
  · intro V hV J hJ
    rcases List.mem_cons.mp hV with rfl | hV
    · obtain ⟨j, hj⟩ := hpprot J hJ
      exact hkeep J j (hprot5 J j (hprot4 J j (hk3.prot J j hj)))
    · obtain ⟨j, hj⟩ := hidx V hV J hJ
      exact hkeep J j hj

/-- What the visit does before its loop, in steps. -/
theorem gepEntry (indices : List Operand) {ptr : Operand} {elem : Ty} {pv p0 : EmitVal} {pk t : ℕ}
    {s1 s2 s3 s4 : State} (ho : Ownership s1.ra)
    (hptr : translateSrcOperandToTgt c ptr I s1 = .ok ((pv, pk), s2))
    (htemp : requestTempRegister c 0 s2 = .ok (t, s3))
    (hcast : createBitCast t pv (.ptr elem) i8Ptr s3 = .ok (p0, s4)) :
    Steps c (gepSite I (ptr :: indices)) s1 s3 ∧ Ownership s4.ra ∧ t ∈ s4.ra.tempRegisters ∧
      s4.adventMap = s3.adventMap ∧ ∃ lines, s4.code = s1.code ++ lines := by
  obtain ⟨h2, -, -⟩ := translateSrcOperandToTgt_steps (d := gepSite I (ptr :: indices))
    List.mem_cons_self ho hptr
  obtain ⟨h3, -, ht3, -⟩ := requestTempRegister_steps (d := gepSite I (ptr :: indices)) trivial
    (Steps.ownership h2 ho) htemp
  have hsteps := h2.trans h3
  have ho3 := Steps.ownership hsteps ho
  have ht : t ∈ s3.ra.tempRegisters := ht3 ▸ Finset.mem_insert_self ..
  obtain ⟨-, -, l3, hcode3⟩ := Steps.frame hsteps
  obtain ⟨l4, rfl, -, -⟩ | ⟨-, -, rfl⟩ := createBitCast_ok hcast
  · refine ⟨hsteps, ho3, ht, rfl, l3 ++ l4, ?_⟩
    show s3.code ++ l4 = _
    rw [hcode3, List.append_assoc]
  · exact ⟨hsteps, ho3, ht, rfl, l3, hcode3⟩

/-- The operands of a visit had next uses. -/
theorem visitGetElementPtrInst_advent {ptr : Operand} {indices : List Operand} {ty : Ty}
    (ho : Ownership s.ra) (h : visitGetElementPtrInst c I ptr indices ty s = .ok (u, s')) :
    ∀ V ∈ ptr :: indices, ∀ J, V.inst? = some J → s.adventMap J ≠ [] := by
  intro V hV J hJ
  obtain ⟨elem, pv, pk, t, p0, p1, v, s2, s3, s4, s5, ra, k, s8, s9, -, hptr, htemp, hcast, hloop,
    -⟩ := visitGetElementPtrInst_ok h
  have ho1 := ho.reportUser (some I)
  rcases List.mem_cons.mp hV with rfl | hV
  · exact translate_advent (s := { s with ra := s.ra.reportUser (some I) }) ho1 hJ hptr
  · obtain ⟨hsteps, ho4, ht, hadv, -⟩ := gepEntry indices ho1 hptr htemp hcast
    exact Steps.advent hsteps (hadv ▸ gepLoop_advent ho4 ht hloop V hV J hJ)

/-- What the visit does with the operands that are function arguments: an index is read by a line,
    which multiplies it into `__r0__` if it has to be scaled, and the base is read by a line or is
    the result. -/
theorem visitGetElementPtrInst_args {ptr : Operand} {indices : List Operand} {ty elem : Ty}
    {lines : List Line} {v : EmitVal} (ho : Ownership s.ra) (hty : ptr.ty = .ptr elem)
    (h : visitGetElementPtrInst c I ptr indices ty s = .ok (u, s'))
    (hcode : s'.code = s.code ++ lines ++ [.value I v]) :
    (∀ q ∈ indices.zip elem.levels, ∀ n, q.1.val = .arg n →
      ∃ l ∈ lines, .arg n ∈ l.reads ∧ (getAccessSize q.2 ≠ 1 → l.dest? = some 0)) ∧
    indices.length ≤ elem.levels.length ∧
    ∀ n, ptr.val = .arg n → v = .arg n ∨ ∃ l ∈ lines, .arg n ∈ l.reads := by
  obtain ⟨elem', pv, pk, t, p0, p1, v', s2, s3, s4, s5, ra, k, s8, s9, hty', hptr, htemp, hcast,
    hloop, hg, hreq, hv, hs'⟩ := visitGetElementPtrInst_ok h
  obtain rfl : elem = elem' := Ty.ptr.inj (hty.symm.trans hty')
  obtain ⟨hsteps, ho4, ht, -, -⟩ := gepEntry indices (ho.reportUser (some I)) hptr htemp hcast
  have ho5 : Ownership s5.ra := Steps.ownership
    (gepLoop_ok (d := gepSite I indices) trivial (fun _ h => h) ho4 ht hloop).1 ho4
  obtain ⟨rfl, ra1, ra2, n, -, -, -, rfl⟩ :=
    giveUp_requestRegister (s := { s5 with ra := s5.ra.reportUser none })
      (ho5.reportUser none) hg hreq
  -- the code grows from state to state
  have hcreated : ∀ {d : ℕ} {x y : EmitVal} {src ty : Ty} {s s' : State},
      createBitCast d x src ty s = .ok (y, s') → s.code <+: s'.code := by
    intro d x y src ty s s' h
    obtain ⟨lines, rfl, -⟩ | ⟨-, -, rfl⟩ := createBitCast_ok h
    · exact ⟨lines, rfl⟩
    · exact List.prefix_rfl
  have h13 : s.code <+: s3.code := hsteps.code_prefix
  have h14 := h13.trans (hcreated hcast)
  have h45 := gepLoop_code ho4 ht hloop
  have h59 : s5.code <+: s9.code := by
    have := hcreated hv
    exact this
  rw [hs'] at hcode
  obtain ⟨hlines, hvalue⟩ := List.append_inj' hcode rfl
  obtain rfl : v' = v := by
    cases hvalue
    rfl
  have hmem : ∀ {P : Line → Prop} {sa sb : State}, s.code <+: sa.code → sb.code <+: s9.code →
      EmitsLine P sa sb → ∃ l ∈ lines, P l := by
    rintro P sa sb ha hb ⟨code, l, hcode, hl, hP⟩
    obtain ⟨l1, rfl⟩ := ha.trans hcode
    obtain ⟨l2, hl2⟩ := hl.trans hb
    refine ⟨l, ?_, hP⟩
    rw [hlines, List.append_assoc, List.append_assoc] at hl2
    rw [← List.append_cancel_left hl2]
    simp
  refine ⟨fun q hq n hn => hmem h14 h59 (gepLoop_arg ho4 ht hloop q hq n hn),
    gepLoop_levels hloop, fun n hn => ?_⟩
  obtain ⟨rfl, -, hval⟩ := translateConst_ok (by simp [Operand.inst?, hn]) hptr
  simp only [OperandVal, hn] at hval
  subst hval
  obtain ⟨rfl, rfl⟩ | hem := createBitCast_reads hcast
  · obtain hp1 | hem := gepLoop_base ho4 ht hloop
    · rw [hp1] at hv
      obtain ⟨hvn, -⟩ | hem := createBitCast_reads hv
      · exact Or.inl hvn
      · exact Or.inr (hmem (h14.trans h45) List.prefix_rfl hem)
    · exact Or.inr (hmem h14 h59 hem)
  · exact Or.inr (hmem h13 (h45.trans h59) hem)

/-- What has to hold for the lines to be accepted. -/
theorem GepLowered.accepts {ptr : Operand} {indices : List Operand} {ty elem : Ty}
    (hl : GepLowered c I elem ptr indices s s') (ho : Ownership s.ra) (hty : ptr.ty = .ptr elem)
    (h : visitGetElementPtrInst c I ptr indices ty s = .ok (u, s')) :
    ArgsUnscaled elem.levels indices ∧ ∀ V ∈ ptr :: indices, V.Named := by
  obtain ⟨lines, v, hcode, -, hacc, hv, -⟩ := hl
  obtain ⟨hargs, hlen, hbase⟩ := visitGetElementPtrInst_args ho hty h hcode
  refine ⟨fun q hq n hn => ?_, fun V hV n hn => ?_⟩
  · by_contra hsz
    obtain ⟨l, hl, -, hdest⟩ := hargs q hq n hn
    have := named_iff.mp ((hacc l hl).1 0 (hdest hsz))
    omega
  · rcases List.mem_cons.mp hV with rfl | hV
    · obtain rfl | ⟨l, hl, hreads⟩ := hbase n hn
      · exact hv
      · exact (hacc l hl).2 _ hreads
    · rw [← List.map_fst_zip hlen] at hV
      obtain ⟨q, hq, rfl⟩ := List.mem_map.mp hV
      obtain ⟨l, hl, hreads, -⟩ := hargs q hq n hn
      exact (hacc l hl).2 _ hreads

end Visit

/-! ## The registers that values are read from -/

/-- The values that are in registers are in registers that have names. -/
def NamedRegisters (s : State) : Prop :=
  ∀ J j, s.sourceToEmitMap J = some (.reg j) → (EmitVal.reg j).Named

section Registers

variable {c : Ctx} {I : InstRef} {s s' : State} {u : Unit}

theorem NamedRegisters.update {J : InstRef} {v : EmitVal} (hn : NamedRegisters s)
    (hv : ∀ j, v = .reg j → (EmitVal.reg j).Named)
    (hs' : s'.sourceToEmitMap = Function.update s.sourceToEmitMap J (some v)) :
    NamedRegisters s' := by
  intro K j hK
  rw [hs'] at hK
  by_cases hKJ : K = J
  · subst hKJ
    rw [Function.update_self] at hK
    exact hv j (Option.some.inj hK)
  · rw [Function.update_of_ne hKJ] at hK
    exact hn K j hK

theorem Steps.namedRegisters {d : Site} (hd : ¬d.aliased) (h : Steps c d s s')
    (ho : Ownership s.ra) (hn : NamedRegisters s) : NamedRegisters s' := by
  refine (h.invariant (p := NamedRegisters) (fun s1 s2 ho1 hn1 hstep => ?_) ho hn).2
  have hnew : ∀ {J : InstRef} {k : ℕ} {ra : RegisterAllocator InstRef},
      s1.ra.request J = .ok (k, ra) → k ≠ 0 → ∀ j, .reg k = EmitVal.reg j → (EmitVal.reg j).Named := by
    rintro J k ra hr hk j ⟨⟩
    exact named_of_owned ho1 (Or.inl (ho1.mem_request hr hk).1)
  cases hstep with
  | fill hI hadv hr hk hu => exact hn1.update (hnew hr hk) rfl
  | define hdef hr hk hu hlines hv =>
    refine hn1.update (fun j hj => ?_) rfl
    obtain rfl | hv | hv := hv
    · exact hnew hr hk j hj
    · exact absurd hj (hv j)
    · exact absurd hv hd
  | phi hdef hr hk hu => exact hn1.update (hnew hr hk) rfl
  | _ => exact hn1

/-- The result of a cast is in the register of the instruction, if not where the operand is. -/
theorem NamedRegisters.cast {k : ℕ} {v op : EmitVal} {src ty : Ty} {s1 s2 : State}
    (hn : NamedRegisters s) (ho : Ownership s.ra) (hop : ∀ j, op = .reg j → (EmitVal.reg j).Named)
    (hreq : requestRegister c I s = .ok (k, s1)) (hv : createBitCast k op src ty s1 = .ok (v, s2))
    (hs' : s'.sourceToEmitMap = Function.update s2.sourceToEmitMap I (some v)) :
    NamedRegisters s' := by
  obtain ⟨s0, ra, ra', hev, hr, hk, -, rfl⟩ := requestRegister_ok ho hreq
  have h0 : Steps c (phiSite I) s s0 := steps_of_evicted hev
  have ho0 := Steps.ownership h0 ho
  have hn0 : NamedRegisters s0 := Steps.namedRegisters id h0 ho hn
  have hname := named_of_owned ho0 (Or.inl (ho0.mem_request hr hk).1)
  rcases createBitCast_ok hv with ⟨lines, rfl, -, hvk⟩ | ⟨-, rfl, rfl⟩
  · refine hn0.update (fun j hj => ?_) hs'
    obtain rfl | hvk := hvk
    · cases hj
      exact hname
    · exact absurd hj (hvk j)
  · exact hn0.update hop hs'

theorem OperandVal.named {V : Operand} {v : EmitVal} (hval : OperandVal c s V v)
    (hn : NamedRegisters s) : ∀ j, v = .reg j → (EmitVal.reg j).Named := by
  rintro j rfl
  obtain ⟨val, ty⟩ := V
  cases val with
  | inst J => exact hn J j hval.2
  | _ => cases hval

theorem visitBitCastInst_namedRegisters {src : Operand} {ty : Ty} (ho : Ownership s.ra)
    (hn : NamedRegisters s) (h : visitBitCastInst c I src ty s = .ok (u, s')) :
    NamedRegisters s' := by
  simp only [visitBitCastInst, bind_ok_iff, define_ok] at h
  obtain ⟨⟨op, kop⟩, s1, hop, k, s2, hreq, v, s3, hv, rfl⟩ := h
  obtain ⟨h1, hval, -⟩ := translateSrcOperandToTgt_steps (d := gepSite I [src]) List.mem_cons_self
    ho hop
  have hn1 := Steps.namedRegisters id h1 ho hn
  exact hn1.cast (Steps.ownership h1 ho) (hval.named hn1) hreq hv rfl

theorem visitGetElementPtrInst_namedRegisters {ptr : Operand} {indices : List Operand} {ty : Ty}
    (ho : Ownership s.ra) (hn : NamedRegisters s)
    (h : visitGetElementPtrInst c I ptr indices ty s = .ok (u, s')) : NamedRegisters s' := by
  obtain ⟨elem, pv, pk, t, p0, p1, v, s2, s3, s4, s5, ra, k, s8, s9, -, hptr, htemp, hcast, hloop,
    hg, hreq, hv, rfl⟩ := visitGetElementPtrInst_ok h
  have ho1 := ho.reportUser (some I)
  obtain ⟨h2, hval, -⟩ := translateSrcOperandToTgt_steps (d := gepSite I (ptr :: indices))
    List.mem_cons_self ho1 hptr
  have hn2 := Steps.namedRegisters id h2 ho1 hn
  obtain ⟨h3, ho4, ht, -, -⟩ := gepEntry indices ho1 hptr htemp hcast
  have hn3 := Steps.namedRegisters id h3 ho1 hn
  have htn : (EmitVal.reg t).Named := named_of_owned ho4 (Or.inr (Or.inl ht))
  -- the address is in the temporary register, or where the base is
  have hcast4 : NamedRegisters s4 ∧ ∀ j, p0 = .reg j → (EmitVal.reg j).Named := by
    rcases createBitCast_ok hcast with ⟨lines, rfl, -, hp0⟩ | ⟨-, rfl, rfl⟩
    · refine ⟨hn3, fun j hj => ?_⟩
      obtain rfl | hp0 := hp0
      · cases hj
        exact htn
      · exact absurd hj (hp0 j)
    · exact ⟨hn3, hval.named hn2⟩
  obtain ⟨h5, -, hp1⟩ := gepLoop_ok (d := gepSite I indices) trivial (fun _ h => h) ho4 ht hloop
  have hn5 := Steps.namedRegisters id h5 ho4 hcast4.1
  have ho5 := Steps.ownership h5 ho4
  have hp1n : ∀ j, p1 = .reg j → (EmitVal.reg j).Named := by
    intro j hj
    obtain rfl | hp1 | ⟨rfl, -⟩ := hp1
    · cases hj
      exact htn
    · exact absurd hj (hp1 j)
    · exact hcast4.2 j hj
  have hn7 : NamedRegisters { s5 with ra := ra } := hn5
  exact hn7.cast ((ho5.reportUser none).giveUpTempRegister hg) hp1n hreq hv rfl

/-- In every state that the translation passes, values are read from registers that have names. -/
theorem Reaches.namedRegisters {p : Point} (h : Reaches c p s) : NamedRegisters s := by
  induction h with
  | init => exact fun J j hJ => by cases hJ
  | begin hB hs h ih =>
    intro J j hJ
    rw [(visitBasicBlock_ok h).2.2.2.1] at hJ
    cases hJ
  | phi hB hn hs h ih =>
    exact Steps.namedRegisters (d := phiSite _) id (visitPHINode_steps hs.ownership h) hs.ownership ih
  | @inst b i B x s s' hB hx hs h ih =>
    cases x with
    | bitcast src ty => exact visitBitCastInst_namedRegisters hs.ownership ih h
    | gep ptr indices ty => exact visitGetElementPtrInst_namedRegisters hs.ownership ih h
    | _ => exact Steps.namedRegisters id (visitInst_steps hs.ownership h) hs.ownership ih
  | term hB hs h ih =>
    obtain ⟨s1, l, h1, rfl⟩ := visitTerm_steps hs.ownership h
    have hn1 := Steps.namedRegisters id h1 hs.ownership ih
    exact hn1

end Registers

/-- **The lowering of `getelementptr`.** If its operands in registers are read from their own, and
    what else is active is not read from an argument without a name, a visit lowers the instruction
    iff no index that is a function argument steps over elements of a size other than 1, and the
    emitter has names for the arguments among the operands. -/
theorem gepLowering_iff {c : Ctx} {b n : ℕ} {ptr : Operand} {indices : List Operand} {ty elem : Ty}
    {s s' : State} (hs : Reaches c (.inst b n) s)
    (hown : OwnOperands (fun J => ∃ V ∈ ptr :: indices, V.inst? = some J) s)
    (hnames : ∀ e ∈ s.ra.activeSet, ∀ k, s.sourceToEmitMap e.source = some (.arg k) → k < 16)
    (hty : ptr.ty = .ptr elem)
    (h : visitGetElementPtrInst c ⟨b, n⟩ ptr indices ty s = .ok ((), s')) :
    GepLowered c ⟨b, n⟩ elem ptr indices s s' ↔
      ArgsUnscaled elem.levels indices ∧ ∀ V ∈ ptr :: indices, V.Named := by
  have ho := hs.ownership
  refine ⟨fun hl => hl.accepts ho hty h, fun ⟨hargs, hops⟩ => ?_⟩
  have hadv := visitGetElementPtrInst_advent ho h
  have hnamed : NamedValues s := fun e he v hv => by
    cases v with
    | reg j => exact hs.namedRegisters _ j hv
    | arg k => exact getRegisterNameFromArgument_iff.mpr (hnames e he k hv)
    | _ => trivial
  let ops : InstRef → Prop := fun J => ∃ V ∈ ptr :: indices, V.inst? = some J
  have hvisit : ∀ (m : Machine) (val : InstRef → Word) (need : InstRef → Prop),
      (∀ J, need J → ops J ∧ Realizes s m J (val J) ∧ s.adventMap J ≠ []) →
      Holding ⟨b, n⟩ True ops need val m.arg { s with ra := s.ra.reportUser (some ⟨b, n⟩) } m :=
    fun _ _ _ hneed => ⟨ho.reportUser _, hown, fun J hJ => (hneed J hJ).1, rfl, rfl,
      fun _ => hnamed, fun J hJ => ⟨(hneed J hJ).2.1.resident, (hneed J hJ).2.1.slot⟩,
      fun J hJ => Or.inl (hneed J hJ).2.2⟩
  obtain ⟨-, lines, v, hcode, hmap, -, hacc, -⟩ :=
    (hvisit ⟨fun _ => 0, fun _ => 0, fun _ => 0, fun _ => 0, fun _ => 0⟩ (fun _ => 0)
      (fun _ => False) fun _ => False.elim).visit (A := ⟨0, fun _ => 0⟩) hty hargs
      (fun V hV J hJ => ⟨V, hV, hJ⟩) (fun _ => hops) h
  refine ⟨lines, v, hcode, hmap, (hacc trivial).1, (hacc trivial).2,
    fun A m val base xs hrealizes hbase hxs => ?_⟩
  obtain ⟨m', lines', v', hcode', hmap', hexec, -, hres, hkeep⟩ :=
    (hvisit m val ops fun J ⟨V, hV, hJ⟩ => ⟨⟨V, hV, hJ⟩, hrealizes V hV J hJ, hadv V hV J hJ⟩).visit
      (A := A) hty hargs (fun V hV J hJ => ⟨V, hV, hJ⟩) (fun _ => hops) h
  obtain rfl : v = v' := Option.some.inj (hmap.symm.trans hmap')
  obtain rfl : lines = lines' :=
    List.append_cancel_left (List.append_inj' (hcode.symm.trans hcode') rfl).1
  exact ⟨m', hexec, hres base xs (fun V hV J hJ => ⟨V, hV, hJ⟩) hbase hxs, fun V hV J hJ =>
    (hkeep V hV J hJ).imp_right fun hx => hx ⟨V, hV, hJ⟩⟩

/-- Two elements of an array of 32-bit integers: one that a loaded value counts, and one that an
    argument counts. -/
def twoElements : Ctx where
  F :=
    { name := "f"
      blocks :=
        [ { phis := []
            body :=
              [ .load ⟨.global 0, .ptr (.int 64)⟩,
                .gep ⟨.arg 0, .ptr (.array 8 (.int 32))⟩
                  [⟨.constInt 0, .int 64⟩, ⟨.inst ⟨0, 0⟩, .int 64⟩] (.ptr (.int 32)),
                .gep ⟨.arg 0, .ptr (.array 8 (.int 32))⟩
                  [⟨.constInt 0, .int 64⟩, ⟨.arg 1, .int 64⟩] (.ptr (.int 32)),
                .store ⟨.constInt 1, .int 32⟩ ⟨.inst ⟨0, 1⟩, .ptr (.int 32)⟩,
                .store ⟨.constInt 2, .int 32⟩ ⟨.inst ⟨0, 2⟩, .ptr (.int 32)⟩ ]
            term := .ret none } ] }
  gvMap := fun _ => 10232
  heapSize := 0

/-- A visit of instruction `n` of `twoElements`. -/
theorem twoElements_run {n : ℕ} (idx : Operand) (hn : n ≤ 5)
    (h : ((entryState? twoElements n).any fun s =>
      (s.ra.activeSet.all fun e => s.sourceToEmitMap e.source == some (.reg e.regId)) &&
        (visitGetElementPtrInst twoElements ⟨0, n⟩ ⟨.arg 0, .ptr (.array 8 (.int 32))⟩
          [⟨.constInt 0, .int 64⟩, idx] (.ptr (.int 32)) s).isOk) = true) :
    ∃ s s', Reaches twoElements (.inst 0 n) s ∧ ReadsOwn s ∧
      (∀ e ∈ s.ra.activeSet, ∀ k, s.sourceToEmitMap e.source = some (.arg k) → k < 16) ∧
      visitGetElementPtrInst twoElements ⟨0, n⟩ ⟨.arg 0, .ptr (.array 8 (.int 32))⟩
        [⟨.constInt 0, .int 64⟩, idx] (.ptr (.int 32)) s = .ok ((), s') := by
  obtain ⟨s, hs, hrun⟩ := (Option.any_eq_true _ _).mp h
  obtain ⟨hown, hok⟩ := Bool.and_eq_true_iff.mp hrun
  refine ⟨s, ?_⟩
  cases hv : visitGetElementPtrInst twoElements ⟨0, n⟩ ⟨.arg 0, .ptr (.array 8 (.int 32))⟩
      [⟨.constInt 0, .int 64⟩, idx] (.ptr (.int 32)) s with
  | error f =>
    rw [hv] at hok
    cases hok
  | ok p =>
    obtain ⟨⟨⟩, s'⟩ := p
    have hreg : ∀ e ∈ s.ra.activeSet, s.sourceToEmitMap e.source = some (.reg e.regId) :=
      fun e he => eq_of_beq (List.all_eq_true.mp hown e he)
    refine ⟨s', reaches_entryState rfl rfl hn hs, fun e he j hj => ?_, fun e he k hk => ?_, rfl⟩
    · rw [hreg e he] at hj
      cases hj
      rfl
    · rw [hreg e he] at hk
      cases hk

theorem gepLowering_iff_twoElements : ∃ s s', GepLowered twoElements ⟨0, 1⟩ (.array 8 (.int 32))
    ⟨.arg 0, .ptr (.array 8 (.int 32))⟩
    [⟨.constInt 0, .int 64⟩, ⟨.inst ⟨0, 0⟩, .int 64⟩] s s' := by
  obtain ⟨s, s', hs, hown, hargs, h⟩ := twoElements_run (n := 1) ⟨.inst ⟨0, 0⟩, .int 64⟩
    (by decide) (by decide +kernel)
  refine ⟨s, s', (gepLowering_iff hs (fun e he _ => hown e he) hargs rfl h).mpr
    ⟨fun p hp n hn => ?_, fun V hV n hn => ?_⟩⟩
  · have hp : p = (⟨.constInt 0, .int 64⟩, .array 8 (.int 32)) ∨
        p = (⟨.inst ⟨0, 0⟩, .int 64⟩, .int 32) := by
      simpa [Ty.levels] using hp
    obtain rfl | rfl := hp <;> cases hn
  · have hV : V = ⟨.arg 0, .ptr (.array 8 (.int 32))⟩ ∨ V = ⟨.constInt 0, .int 64⟩ ∨
        V = ⟨.inst ⟨0, 0⟩, .int 64⟩ := by
      simpa using hV
    obtain rfl | rfl | rfl := hV <;> cases hn
    exact getRegisterNameFromArgument_iff.mpr (by decide)

/-- The argument is multiplied by 4 into `__r0__`, which the assembly emitter has no name for. -/
theorem not_gepLowered_twoElements : ∃ s s', Reaches twoElements (.inst 0 2) s ∧ ReadsOwn s ∧
    visitGetElementPtrInst twoElements ⟨0, 2⟩ ⟨.arg 0, .ptr (.array 8 (.int 32))⟩
      [⟨.constInt 0, .int 64⟩, ⟨.arg 1, .int 64⟩] (.ptr (.int 32)) s = .ok ((), s') ∧
    ¬GepLowered twoElements ⟨0, 2⟩ (.array 8 (.int 32)) ⟨.arg 0, .ptr (.array 8 (.int 32))⟩
      [⟨.constInt 0, .int 64⟩, ⟨.arg 1, .int 64⟩] s s' := by
  obtain ⟨s, s', hs, hown, -, h⟩ := twoElements_run (n := 2) ⟨.arg 1, .int 64⟩ (by decide)
    (by decide +kernel)
  refine ⟨s, s', hs, hown, h, fun hl => ?_⟩
  have := (hl.accepts hs.ownership rfl h).1 (⟨.arg 1, .int 64⟩, .int 32)
    (List.mem_cons_of_mem _ List.mem_cons_self) 1 rfl
  exact absurd this (by decide)

end SwppCompiler.Backend
