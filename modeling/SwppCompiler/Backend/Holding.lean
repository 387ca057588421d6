import SwppCompiler.Backend.Eviction
import SwppCompiler.Backend.Lowering

/-!
# Values while an instruction is visited

A visitor evicts, fills, and takes temporary registers while it still needs operands that it has
translated before. `Holding` says where the values of the operands are meanwhile, and what may
change them.

* `Advances`: the lines between two states of the translation, executed, and accepted by the
  assembly emitter.
* `Holding.evictOne`, `Holding.translate`, …: an action of the visitor emits lines that keep the
  values where the allocator has them, and the registers that the visitor has reserved.
-/

namespace SwppCompiler.Backend

open Interp Lib.StateExcept RegisterAllocator

/-! ## What is emitted and what it means -/

/-- `getRegisterNameFromInstruction` (`src/core/AssemblyEmitter.cpp`, lines 122–137), of an
    instruction named `__rk__`. -/
def getRegisterNameFromInstruction (regid : ℕ) : Option String :=
  if regid ≤ 0 ∨ 16 < regid then none else some ("r" ++ toString regid)

/-- The operands of a line. -/
def Line.reads : Line → List EmitVal
  | .spill v _ | .storePhi v _ | .copy _ v | .ret v | .condBr v _ _ | .switch v _ _ => [v]
  | .load _ _ p => [p]
  | .store _ v p => [v, p]
  | .bop _ _ a b _ => [a, b]
  | .select _ c a b => [c, a, b]
  | .call _ _ args => args
  | .alloca _ _ _ _ | .fill _ _ | .loadPhi _ _ | .br _ | .value _ _ => []

/-- `getRegisterNameFromArgument` (`src/core/AssemblyEmitter.cpp`, lines 72–87), of argument `n`,
    which is named `__arg(n+1)__`. -/
def getRegisterNameFromArgument (n : ℕ) : Option String :=
  if 16 < n + 1 then none else some ("arg" ++ toString (n + 1))

/-- The assembly emitter has a name for the value. -/
def EmitVal.Named : EmitVal → Prop
  | .reg k => (getRegisterNameFromInstruction k).isSome
  | .arg n => (getRegisterNameFromArgument n).isSome
  | .const _ | .undefValue => True

/-- The assembly emitter has names for what the line writes and reads. -/
def Line.Accepted (l : Line) : Prop :=
  (∀ k, l.dest? = some k → (EmitVal.reg k).Named) ∧ ∀ v ∈ l.reads, v.Named

/-- The assembly emitter has a name for the operand if it is a function argument. -/
def Operand.Named (V : Operand) : Prop :=
  ∀ n, V.val = .arg n → (getRegisterNameFromArgument n).isSome

/-- The value of an operand, if the instructions have the values `val` and the arguments `arg`. -/
def Operand.eval (c : Ctx) (val : InstRef → Word) (arg : ℕ → Word) (V : Operand) : Option Word :=
  match V.val with
  | .inst J => some (val J)
  | .arg n => some (arg n)
  | .constInt w => some w
  | .null => some 0
  | .undefValue => none
  | .global g => some (c.gvMap g)

/-- The value `w` of `J` is where the allocator has it: if `J` has a register, it is read as
    `SourceToEmitMap` says; if not, or if `J` is from another block, it is in the slot. -/
structure Realizes (s : State) (m : Machine) (J : InstRef) (w : Word) : Prop where
  resident : s.ra.get J ≠ 0 → ∃ v, s.sourceToEmitMap J = some v ∧ v.Holds m w
  slot : s.ra.get J = 0 ∨ J.parent ≠ s.currentBlock → m.slot J = w

/-- The lines that take `s` to `s'` take `m` to `m'`, and the assembly emitter accepts them if the
    names are known. -/
def Advances (known : Prop) (A : Answer) (s : State) (m : Machine) (s' : State) (m' : Machine) :
    Prop :=
  ∃ lines, s'.code = s.code ++ lines ∧ execLines A m lines = some m' ∧
    (known → ∀ l ∈ lines, l.Accepted)

/-- A register that the operands or the address of `U` may be in. -/
def Reserved (U : InstRef) (s : State) (j : ℕ) : Prop :=
  j ∈ s.ra.tempRegisters ∨ ∃ J, Protected U s J j

/-- Protected allocations stay, reserved registers stay reserved, and what is in them stays there. -/
structure KeepsReserved (U : InstRef) (s : State) (m : Machine) (s' : State) (m' : Machine) :
    Prop where
  prot : ∀ J k, Protected U s J k → Protected U s' J k
  reg : ∀ j, Reserved U s j → Reserved U s' j ∧ m'.reg j = m.reg j

/-- The assembly emitter has names for the values of everything active. -/
def NamedValues (s : State) : Prop :=
  ∀ e ∈ s.ra.activeSet, ∀ v, s.sourceToEmitMap e.source = some v → v.Named

/-- While the current user is `U`: its operands `ops` are read from their own registers; those in
    `need` have the values `val`, where the allocator has them, and each of them either is protected
    or has a next use. `known` says that the emitter has names for what may be read. -/
structure Holding (U : InstRef) (known : Prop) (ops need : InstRef → Prop) (val : InstRef → Word)
    (arg : ℕ → Word) (s : State) (m : Machine) : Prop where
  ownership : Ownership s.ra
  own : OwnOperands ops s
  reads : ∀ J, need J → ops J
  user : s.ra.currentUser = some U
  arg : m.arg = arg
  named : known → NamedValues s
  realizes : ∀ J, need J → Realizes s m J (val J)
  used : ∀ J, need J → s.adventMap J ≠ [] ∨ ∃ k, Protected U s J k

section Names

variable {k : ℕ}

theorem named_iff : (getRegisterNameFromInstruction k).isSome ↔ 1 ≤ k ∧ k ≤ 16 := by
  unfold getRegisterNameFromInstruction
  split_ifs with h
  · simp only [Option.isSome_none, Bool.false_eq_true, false_iff]
    omega
  · simp only [Option.isSome_some, true_iff]
    omega

theorem getRegisterNameFromArgument_iff : (getRegisterNameFromArgument k).isSome ↔ k < 16 := by
  unfold getRegisterNameFromArgument
  split_ifs with h
  · simp only [Option.isSome_none, Bool.false_eq_true, false_iff]
    omega
  · simp only [Option.isSome_some, true_iff]
    omega

theorem named_of_owned {ra : RegisterAllocator InstRef} (ho : Ownership ra)
    (h : k ∈ ra.freeRegisters ∨ k ∈ ra.tempRegisters ∨ k ∈ ra.activeRegs) : (EmitVal.reg k).Named :=
  named_iff.mpr ((ho.owned_iff k).mp h)

theorem Line.Accepted.of_mem {l : Line} {vs : List EmitVal} (hreads : l.reads = vs)
    (hdest : ∀ k, l.dest? = some k → (EmitVal.reg k).Named) (hvs : ∀ v ∈ vs, v.Named) : l.Accepted :=
  ⟨hdest, hreads ▸ hvs⟩

end Names

/-! ## Actions -/

section Actions

variable {c : Ctx} {U : InstRef} {known : Prop} {ops need : InstRef → Prop} {val : InstRef → Word}
  {arg : ℕ → Word} {A : Answer} {s s' s1 : State} {m m' m1 : Machine}

theorem Advances.refl : Advances known A s m s m :=
  ⟨[], (List.append_nil _).symm, rfl, by simp⟩

theorem Advances.trans (h1 : Advances known A s m s1 m1) (h2 : Advances known A s1 m1 s' m') :
    Advances known A s m s' m' := by
  obtain ⟨l1, hc1, he1, ha1⟩ := h1
  obtain ⟨l2, hc2, he2, ha2⟩ := h2
  refine ⟨l1 ++ l2, by rw [hc2, hc1, List.append_assoc], ?_, fun hk l hl => ?_⟩
  · rw [execLines_append, he1, Option.bind_some, he2]
  · exact (List.mem_append.mp hl).elim (ha1 hk l) (ha2 hk l)

theorem KeepsReserved.trans (h1 : KeepsReserved U s m s1 m1) (h2 : KeepsReserved U s1 m1 s' m') :
    KeepsReserved U s m s' m' := by
  refine ⟨fun J k h => h2.prot J k (h1.prot J k h), fun j hj => ?_⟩
  obtain ⟨hj1, he1⟩ := h1.reg j hj
  obtain ⟨hj2, he2⟩ := h2.reg j hj1
  exact ⟨hj2, he2.trans he1⟩

theorem KeepsReserved.refl : KeepsReserved U s m s m := ⟨fun _ _ h => h, fun _ h => ⟨h, rfl⟩⟩

/-- A line that writes no reserved register. -/
theorem KeepsReserved.of_ra (hra : s'.ra = s.ra)
    (hreg : ∀ j, Reserved U s j → m'.reg j = m.reg j) : KeepsReserved U s m s' m' := by
  refine ⟨fun J k h => ?_, fun j hj => ⟨?_, hreg j hj⟩⟩
  · unfold Protected
    rwa [hra]
  · unfold Reserved Protected
    rwa [hra]

theorem Reserved.owned {j : ℕ} (h : Reserved U s j) :
    j ∈ s.ra.tempRegisters ∨ j ∈ s.ra.activeRegs := by
  obtain h | ⟨J, e, he, -, rfl, -⟩ := h
  · exact Or.inl h
  · exact Or.inr (List.mem_map_of_mem he)

theorem Reserved.notMem_free {j : ℕ} (ho : Ownership s.ra) (h : Reserved U s j) :
    j ∉ s.ra.freeRegisters := fun hf => by
  obtain h | h := h.owned
  · exact ho.free_disjoint_temp hf h
  · exact ho.active_disjoint_free h hf

/-- The register of a source does not change if its allocations do not. -/
theorem get_eq_of_mem_iff {ra ra' : RegisterAllocator InstRef} {J : InstRef} (ho : Ownership ra)
    (ho' : Ownership ra') (h : ∀ e, e.source = J → (e ∈ ra'.activeSet ↔ e ∈ ra.activeSet)) :
    ra'.get J = ra.get J := by
  by_cases hJ : ∃ e ∈ ra.activeSet, e.source = J
  · obtain ⟨e, he, rfl⟩ := hJ
    rw [get_eq_of_mem ho.sources he, get_eq_of_mem ho'.sources ((h e rfl).mpr he)]
  · rw [ho.get_eq_zero_iff.mpr fun e he hs => hJ ⟨e, he, hs⟩]
    exact ho'.get_eq_zero_iff.mpr fun e he hs => hJ ⟨e, (h e hs).mp he, hs⟩

/-- An operand in a register is in an active one. -/
theorem Holding.mem_activeRegs (hh : Holding U known ops need val arg s m) {J : InstRef} {j : ℕ}
    (hop : ops J) (hJ : s.ra.get J ≠ 0) (hv : s.sourceToEmitMap J = some (.reg j)) :
    j ∈ s.ra.activeRegs := by
  obtain ⟨e, he, rfl, -⟩ := mem_of_get_ne_zero hJ
  rw [hh.own e he hop j hv]
  exact List.mem_map_of_mem he

theorem EmitVal.Holds.congr {v : EmitVal} {w : Word} (h : v.Holds m w) (harg : m'.arg = m.arg)
    (hreg : ∀ j, v = .reg j → m'.reg j = m.reg j) : v.Holds m' w := by
  refine ⟨h.1, ?_⟩
  cases v with
  | const x => exact h.2
  | undefValue => exact absurd rfl h.1
  | arg n => exact (congrFun harg n).trans h.2
  | reg j => exact (hreg j rfl).trans h.2

/-- The lines of an eviction write at most the slot of the victim. -/
theorem exec_spillLines {a : Allocation InstRef} {v : EmitVal} :
    ∃ m', execLines A m (spillLines c s a v) = some m' ∧ m'.reg = m.reg ∧ m'.arg = m.arg ∧
      (∀ J, J ≠ a.source → m'.slot J = m.slot J) ∧
      (mustSpill c s a = true → m'.slot a.source = v.read m) ∧
      (mustSpill c s a = false → m'.slot a.source = m.slot a.source) := by
  unfold spillLines
  by_cases hs : mustSpill c s a = true
  · rw [if_pos hs]
    exact ⟨_, rfl, rfl, rfl, fun J hJ => Function.update_of_ne hJ .., fun _ =>
      Function.update_self .., fun h => absurd (hs.symm.trans h) (by decide)⟩
  · rw [if_neg hs]
    exact ⟨m, rfl, rfl, rfl, fun _ _ => rfl, fun h => absurd h hs, fun _ => rfl⟩

/-- An eviction spills what is needed again. -/
theorem Holding.evictOne {u : Unit} (hh : Holding U known ops need val arg s m)
    (h : evictOne c 0 s = .ok (u, s')) : ∃ m', Advances known A s m s' m' ∧
      Holding U known ops need val arg s' m' ∧ KeepsReserved U s m s' m' := by
  obtain ⟨a, ra, v, he, hv, rfl⟩ := evictOne_ok h
  have ho' := hh.ownership.evict he
  obtain ⟨ha, hmem⟩ := hh.ownership.mem_evict he
  obtain ⟨hlast, htemp, huser⟩ : a.lastUser ≠ some U ∧ ra.tempRegisters = s.ra.tempRegisters ∧
      ra.currentUser = s.ra.currentUser := by
    obtain ⟨-, hnone, -⟩ | ⟨a', ha', -, -, hpolicy, hra⟩ := evict_ok he
    · cases hnone
    · cases ha'
      exact ⟨hpolicy rfl U hh.user, by rw [hra], by rw [hra]⟩
  -- the victim is not protected
  have hprot : ∀ J k, Protected U s J k → J ≠ a.source ∧
      ∃ e ∈ ra.activeSet, e.source = J ∧ e.regId = k ∧ e.lastUser = some U := by
    rintro J k ⟨e, he, rfl, hk, hU⟩
    have hne : e.source ≠ a.source := fun h => hlast
      (List.inj_on_of_nodup_map hh.ownership.sources he ha h ▸ hU)
    exact ⟨hne, e, (hmem e).mpr ⟨he, hne⟩, rfl, hk, hU⟩
  have hget : ∀ J, J ≠ a.source → ra.get J = s.ra.get J := fun J hJ =>
    get_eq_of_mem_iff hh.ownership ho' fun e hes => by
      rw [hmem]
      exact and_iff_left (hes ▸ hJ)
  obtain ⟨m', hexec, hreg, harg, hslot, hslot1, hslot0⟩ :=
    exec_spillLines (c := c) (s := s) (A := A) (m := m) (a := a) (v := v)
  have hholds : ∀ {x : EmitVal} {w : Word}, x.Holds m w → x.Holds m' w := fun hx =>
    hx.congr harg fun j _ => by rw [hreg]
  refine ⟨m', ⟨_, rfl, hexec, fun hk l hl => ?_⟩, ⟨ho', fun e he => hh.own e ((hmem e).mp he).1,
    hh.reads, huser.trans hh.user, harg.trans hh.arg,
    fun hk e he => hh.named hk e ((hmem e).mp he).1, fun J hJ => ?_, fun J hJ => ?_⟩,
    fun J k h => (hprot J k h).2, fun j hj => ?_⟩
  · unfold spillLines at hl
    split_ifs at hl with hs
    · rw [List.mem_singleton.mp hl]
      refine .of_mem rfl (by simp [Line.dest?]) fun w hw => ?_
      rw [List.mem_singleton.mp hw]
      exact hh.named hk a ha v (hv hs)
    · cases hl
  · have hR := hh.realizes J hJ
    by_cases hJa : J = a.source
    · subst hJa
      have h0 : ra.get a.source = 0 := ho'.get_eq_zero_iff.mpr fun e he => ((hmem e).mp he).2
      have hne : s.ra.get a.source ≠ 0 := by
        rw [get_eq_of_mem hh.ownership.sources ha]
        have := (hh.ownership.owned_iff a.regId).mp (Or.inr (Or.inr (List.mem_map_of_mem ha)))
        omega
      refine ⟨fun h => absurd h0 h, fun _ => ?_⟩
      by_cases hb : a.source.parent = s.currentBlock
      · have hadv : s.adventMap a.source ≠ [] := by
          refine (hh.used _ hJ).resolve_right fun hk => ?_
          obtain ⟨k, hk⟩ := hk
          exact (hprot _ k hk).1 rfl
        have hs : mustSpill c s a = true := by
          simp [mustSpill, hb, hadv]
        obtain ⟨x, hx, hxw⟩ := hR.resident hne
        rw [hslot1 hs, ← hxw.2]
        exact congrArg _ (Option.some.inj ((hv hs).symm.trans hx))
      · have hs : mustSpill c s a = false := by
          simp [mustSpill, hb]
        rw [hslot0 hs]
        exact hR.slot (Or.inr hb)
    · refine ⟨fun h => ?_, fun h => ?_⟩
      · obtain ⟨x, hx, hxw⟩ := hR.resident (by rwa [← hget J hJa])
        exact ⟨x, hx, hholds hxw⟩
      · rw [hslot J hJa]
        exact hR.slot (h.imp_left fun h0 => (hget J hJa).symm.trans h0)
  · exact (hh.used J hJ).imp_right fun hk => hk.imp fun k hk => (hprot J k hk).2
  · refine ⟨hj.imp (fun h => ?_) fun hJ => hJ.imp fun J hJ => (hprot J j hJ).2, congrFun hreg j⟩
    show j ∈ ra.tempRegisters
    rwa [htemp]

/-- The active set after a request and the update that follows it. -/
theorem mem_requestUpdate {ra ra1 ra' : RegisterAllocator InstRef} {I : InstRef} {k n : ℕ}
    (ho : Ownership ra) (hr : ra.request I = .ok (k, ra1)) (hk : k ≠ 0)
    (hu : ra1.update I none n = .ok ra') (e : Allocation InstRef) :
    e ∈ ra'.activeSet ↔ e = ⟨I, none, k, n⟩ ∨ e ∈ ra.activeSet := by
  obtain ⟨-, hfresh, hmem1⟩ := ho.mem_request hr hk
  obtain ⟨d, hd, hds, hmem2⟩ := (ho.request hr).mem_update hu
  have hd : d = ⟨I, none, k, 0⟩ := ((hmem1 d).mp hd).resolve_left fun h => hfresh d h hds
  rw [hmem2, hmem1, hd]
  constructor
  · rintro (⟨he | rfl, hne⟩ | rfl)
    · exact Or.inr he
    · exact absurd rfl hne
    · exact Or.inl rfl
  · rintro (rfl | he)
    · exact Or.inr rfl
    · exact Or.inl ⟨Or.inl he, hfresh e he⟩

/-- A fill brings the value of `I` from its slot. -/
theorem Holding.fill {I : InstRef} {k n : ℕ} {ra ra' : RegisterAllocator InstRef}
    (hh : Holding U known ops need val arg s m) (hr : s.ra.request I = .ok (k, ra)) (hk : k ≠ 0)
    (hu : ra.update I none n = .ok ra')
    (hs' : s' = { s with
      ra := ra'
      sourceToEmitMap := Function.update s.sourceToEmitMap I (some (.reg k))
      code := s.code ++ [.fill k I] }) : ∃ m', Advances known A s m s' m' ∧
    Holding U known ops need val arg s' m' ∧ KeepsReserved U s m s' m' := by
  subst hs'
  have ho := hh.ownership
  have ho' := (ho.request hr).update hu
  obtain ⟨hfree, hfresh, -⟩ := ho.mem_request hr hk
  have hmem := mem_requestUpdate ho hr hk hu
  have hget : ∀ J, J ≠ I → ra'.get J = s.ra.get J := fun J hJ =>
    get_eq_of_mem_iff ho ho' fun e hes => by
      rw [hmem]
      exact or_iff_right fun h => hJ (by rw [← hes, h])
  obtain ⟨htemp, huser⟩ : ra'.tempRegisters = s.ra.tempRegisters ∧
      ra'.currentUser = s.ra.currentUser := by
    refine ⟨?_, (update_currentUser hu).trans (request_currentUser ho hr)⟩
    obtain ⟨-, -, -, -, -, -, -, hra'⟩ := update_ok hu
    obtain ⟨-, ⟨-, h0, -⟩ | ⟨free, -, -, hra⟩⟩ := request_ok ho.zero_notMem_free hr
    · exact absurd h0 hk
    · rw [hra', hra]
  have hreserved : ∀ j, Reserved U s j → j ≠ k := fun j hj h =>
    hj.notMem_free ho (h ▸ hfree)
  have hprot : ∀ {J j}, Protected U s J j → ∃ e ∈ ra'.activeSet, e.source = J ∧ e.regId = j ∧
      e.lastUser = some U := fun ⟨e, he, h⟩ => ⟨e, (hmem e).mpr (Or.inr he), h⟩
  have hname : (EmitVal.reg k).Named := named_of_owned ho (Or.inl hfree)
  refine ⟨m.setReg k (m.slot I), ⟨_, rfl, rfl, fun _ l hl => ?_⟩, ⟨ho', fun e he hop j hj => ?_,
    hh.reads, huser.trans hh.user, hh.arg, fun hknown e he v hv => ?_, fun J hJ => ?_,
    fun J hJ => ?_⟩, fun J j h => hprot h,
    fun j hj => ⟨hj.imp (fun h => ?_) fun ⟨J, hJ⟩ => ⟨J, hprot hJ⟩,
      Machine.setReg_reg_of_ne (hreserved j hj)⟩⟩
  · rw [List.mem_singleton.mp hl]
    refine .of_mem rfl (fun j hj => ?_) (List.forall_mem_nil _)
    cases hj
    exact hname
  · have hj : Function.update s.sourceToEmitMap I (some (.reg k)) e.source = some (.reg j) := hj
    obtain rfl | he := (hmem e).mp he
    · rw [Function.update_self] at hj
      cases hj
      rfl
    · rw [Function.update_of_ne (hfresh e he)] at hj
      exact hh.own e he hop j hj
  · have hv : Function.update s.sourceToEmitMap I (some (.reg k)) e.source = some v := hv
    obtain rfl | he := (hmem e).mp he
    · rw [Function.update_self] at hv
      cases hv
      exact hname
    · rw [Function.update_of_ne (hfresh e he)] at hv
      exact hh.named hknown e he v hv
  · have hR := hh.realizes J hJ
    by_cases hJI : J = I
    · subst hJI
      have h0 : s.ra.get J = 0 := ho.get_eq_zero_iff.mpr hfresh
      have hslot : m.slot J = val J := hR.slot (Or.inl h0)
      refine ⟨fun _ => ⟨.reg k, Function.update_self .., by simp, ?_⟩, fun _ => hslot⟩
      rw [read_reg_setReg, hslot]
    · refine ⟨fun h => ?_, fun h => ?_⟩
      · have hJ0 : s.ra.get J ≠ 0 := by rwa [← hget J hJI]
        obtain ⟨x, hx, hxw⟩ := hR.resident hJ0
        refine ⟨x, (Function.update_of_ne hJI ..).trans hx, hxw.congr rfl ?_⟩
        rintro j rfl
        refine Machine.setReg_reg_of_ne fun h => ?_
        exact ho.active_disjoint_free (hh.mem_activeRegs (hh.reads J hJ) hJ0 hx) (h ▸ hfree)
      · exact hR.slot (h.imp_left fun h0 => (hget J hJI).symm.trans h0)
  · exact (hh.used J hJ).imp_right fun ⟨j, hj⟩ => ⟨j, hprot hj⟩
  · show j ∈ ra'.tempRegisters
    rwa [htemp]

/-- A use by `U` protects the operand. -/
theorem Holding.use {I : InstRef} {n : ℕ} {q : List ℕ} {ra : RegisterAllocator InstRef}
    (hh : Holding U known ops need val arg s m) (hu : s.ra.update I (some U) n = .ok ra)
    (hs' : s' = { s with ra := ra, adventMap := Function.update s.adventMap I q }) :
    Advances known A s m s' m ∧ Holding U known ops need val arg s' m ∧ KeepsReserved U s m s' m ∧
      Protected U s' I (s.ra.get I) := by
  subst hs'
  have ho := hh.ownership
  have hmem := mem_use ho hu rfl
  have hget := ho.get_update hu
  obtain ⟨l1, d, l2, hset, hds, -, -, hra⟩ := update_ok hu
  have hd : d ∈ s.ra.activeSet := by simp [hset]
  have hnew : Protected U { s with ra := ra, adventMap := Function.update s.adventMap I q } I
      (s.ra.get I) := ⟨_, (hmem _).mpr (Or.inl rfl), rfl, rfl, rfl⟩
  have hprot : ∀ {J j}, Protected U s J j →
      Protected U { s with ra := ra, adventMap := Function.update s.adventMap I q } J j := by
    rintro J j ⟨e, he, rfl, rfl, hU⟩
    by_cases heI : e.source = I
    · rw [heI, ← get_eq_of_mem ho.sources he, heI]
      exact hnew
    · exact ⟨e, (hmem e).mpr (Or.inr ⟨he, heI⟩), rfl, rfl, hU⟩
  refine ⟨⟨[], (List.append_nil _).symm, rfl, by simp⟩, ⟨ho.update hu, fun e he hop j hj => ?_,
    hh.reads, (update_currentUser hu).trans hh.user, hh.arg, fun hknown e he v hv => ?_,
    fun J hJ => ?_, fun J hJ => ?_⟩,
    ⟨fun J j h => hprot h, fun j hj => ⟨hj.imp (fun h => ?_) fun ⟨J, hJ⟩ => ⟨J, hprot hJ⟩, rfl⟩⟩,
    hnew⟩
  · obtain rfl | ⟨he, -⟩ := (hmem e).mp he
    · rw [hh.own d hd (hds ▸ hop) j (hds ▸ hj), ← get_eq_of_mem ho.sources hd, hds]
    · exact hh.own e he hop j hj
  · obtain rfl | ⟨he, -⟩ := (hmem e).mp he
    · exact hh.named hknown d hd v (hds ▸ hv)
    · exact hh.named hknown e he v hv
  · have hR := hh.realizes J hJ
    exact ⟨fun h => hR.resident (by rwa [← hget J]), fun h =>
      hR.slot (h.imp_left fun h0 => (hget J).symm.trans h0)⟩
  · by_cases hJI : J = I
    · exact Or.inr ⟨_, hJI ▸ hnew⟩
    · refine (hh.used J hJ).imp (fun h => ?_) fun ⟨j, hj⟩ => ⟨j, hprot hj⟩
      show Function.update s.adventMap I q J ≠ []
      rwa [Function.update_of_ne hJI]
  · show j ∈ ra.tempRegisters
    rwa [hra]

/-- The translation of an operand leaves its value; if it is an instruction, in a register of its
    own, which is then protected. -/
theorem Holding.translate {V : Operand} {v : EmitVal} {k : ℕ}
    (hh : Holding U known ops need val arg s m) (hop : ∀ J, V.inst? = some J → ops J)
    (h : translateSrcOperandToTgt c V U s = .ok ((v, k), s')) : ∃ m', Advances known A s m s' m' ∧
      Holding U known ops need val arg s' m' ∧ KeepsReserved U s m s' m' ∧
      (∀ w, (∀ J, V.inst? = some J → need J) → V.eval c val arg = some w → v.Holds m' w) ∧
      (∀ j, v = .reg j → Reserved U s' j) ∧ (known → V.Named → v.Named) ∧
      (k = 0 ↔ V.inst? = none) ∧ ∀ J, V.inst? = some J → ∃ j, Protected U s' J j := by
  cases hi : V.inst? with
  | none =>
    obtain ⟨rfl, rfl, hval⟩ := translateConst_ok hi h
    refine ⟨m, .refl, hh, .refl, fun w _ hw => ?_, fun j hj => ?_, fun _ hV => ?_, by simp, by simp⟩
    · obtain ⟨x, ty⟩ := V
      cases x with
      | inst J => cases hi
      | undefValue => cases hw
      | arg n =>
        cases hval
        cases hw
        exact ⟨by simp, congrFun hh.arg n⟩
      | _ =>
        cases hval
        cases hw
        exact ⟨by simp, rfl⟩
    · exact absurd hj (hval.ne_reg hi j)
    · obtain ⟨x, ty⟩ := V
      cases x with
      | inst J => cases hi
      | arg n =>
        cases hval
        exact hV n rfl
      | _ =>
        cases hval
        trivial
  | some I =>
    obtain ⟨x, ty⟩ := V
    cases x <;> cases hi
    obtain ⟨s1, t, q, ra, hget, -, hv, hu, hs'⟩ := translateInst_ok h
    obtain ⟨hk, hgetI, hcase⟩ := getRegister_ok hh.ownership hget
    have hfill : ∃ m1, Advances known A s m s1 m1 ∧ Holding U known ops need val arg s1 m1 ∧
        KeepsReserved U s m s1 m1 := by
      obtain rfl | ⟨-, s0, ra1, ra2, hev, hr, hu2, rfl⟩ := hcase
      · exact ⟨m, .refl, hh, KeepsReserved.refl⟩
      · obtain ⟨m0, ha0, hh0, hk0⟩ : ∃ m0, Advances known A s m s0 m0 ∧
            Holding U known ops need val arg s0 m0 ∧ KeepsReserved U s m s0 m0 := by
          obtain ⟨rfl, -⟩ | ⟨-, hev⟩ := hev
          · exact ⟨m, .refl, hh, KeepsReserved.refl⟩
          · exact hh.evictOne hev
        obtain ⟨m1, ha1, hh1, hk1⟩ := hh0.fill (A := A) hr hk hu2 rfl
        exact ⟨m1, ha0.trans ha1, hh1, hk0.trans hk1⟩
    obtain ⟨m1, ha1, hh1, hk1⟩ := hfill
    obtain ⟨ha2, hh2, hk2, hprot⟩ := hh1.use (A := A) hu hs'
    have hI : s1.ra.get I ≠ 0 := hgetI.symm ▸ hk
    refine ⟨m1, ha1.trans ha2, hh2, hk1.trans hk2, fun w hV hw => ?_, ?_, fun hknown _ => ?_,
      by simpa using hk, ?_⟩
    · obtain ⟨x, hx, hxw⟩ := (hh1.realizes I (hV I rfl)).resident hI
      cases hw
      rwa [← Option.some.inj (hx.symm.trans hv)]
    · rintro j rfl
      obtain ⟨e, he, rfl, hej⟩ := mem_of_get_ne_zero hI
      rw [hh1.own e he (hop _ rfl) j hv, hej]
      exact Or.inr ⟨_, hprot⟩
    · obtain ⟨e, he, rfl, -⟩ := mem_of_get_ne_zero hI
      exact hh1.named hknown e he v hv
    · rintro J ⟨⟩
      exact ⟨_, hprot⟩

/-- A change of the free and the temporary registers moves no value. -/
theorem Holding.congr {ra : RegisterAllocator InstRef} (hh : Holding U known ops need val arg s m)
    (ho : Ownership ra) (ha : ra.activeSet = s.ra.activeSet)
    (hu : ra.currentUser = s.ra.currentUser) :
    Holding U known ops need val arg { s with ra := ra } m := by
  have hget : ∀ J, ra.get J = s.ra.get J := get_congr ha
  have hprot : ∀ {J k}, Protected U s J k → Protected U { s with ra := ra } J k :=
    fun ⟨e, he, h⟩ => ⟨e, ha ▸ he, h⟩
  refine ⟨ho, fun e he => hh.own e (ha ▸ he), hh.reads, hu.trans hh.user, hh.arg,
    fun hknown e he => hh.named hknown e (ha ▸ he), fun J hJ => ?_, fun J hJ =>
    (hh.used J hJ).imp_right fun ⟨k, hk⟩ => ⟨k, hprot hk⟩⟩
  have hR := hh.realizes J hJ
  exact ⟨fun h => hR.resident (by rwa [← hget J]), fun h =>
    hR.slot (h.imp_left fun h0 => (hget J).symm.trans h0)⟩

/-- A temporary register is taken from the free ones, after an eviction if there are none. -/
theorem Holding.takeTemp {k : ℕ} (hh : Holding U known ops need val arg s m)
    (h : requestTempRegister c 0 s = .ok (k, s')) : ∃ m', Advances known A s m s' m' ∧
      Holding U known ops need val arg s' m' ∧ KeepsReserved U s m s' m' ∧ ¬Reserved U s k ∧
      k ∈ s'.ra.tempRegisters := by
  obtain ⟨hk, s0, ra, hev, hr, rfl⟩ := takeTemp_ok hh.ownership h
  obtain ⟨m0, ha0, hh0, hk0⟩ : ∃ m0, Advances known A s m s0 m0 ∧ Holding U known ops need val arg s0 m0 ∧
      KeepsReserved U s m s0 m0 := by
    obtain rfl | hev := hev
    · exact ⟨m, .refl, hh, KeepsReserved.refl⟩
    · exact hh.evictOne hev
  have ho0 := hh0.ownership
  have ho := ho0.requestTempRegister hr
  obtain ⟨-, ⟨h0, -⟩ | ⟨-, hfree, -, -, rfl⟩⟩ :=
    requestTempRegister_ok ho0.zero_notMem_free ho0.free_nodup hr
  · exact absurd h0 hk
  · refine ⟨m0, ha0, hh0.congr ho rfl rfl, hk0.trans ⟨fun _ _ h => h, fun j hj => ⟨?_, rfl⟩⟩,
      fun hres => (hk0.reg k hres).1.notMem_free ho0 hfree, Finset.mem_insert_self ..⟩
    exact hj.imp (fun h => Finset.mem_insert_of_mem h) id

/-- A temporary register that is given up at once is free. -/
theorem Holding.takeGive {k : ℕ} {u : Unit} (hh : Holding U known ops need val arg s m)
    (h1 : requestTempRegister c 0 s = .ok (k, s1)) (h2 : giveUpTempRegister k s1 = .ok (u, s')) :
    ∃ m', Advances known A s m s' m' ∧ Holding U known ops need val arg s' m' ∧ KeepsReserved U s m s' m' ∧
      k ∈ s'.ra.freeRegisters := by
  obtain ⟨m1, ha1, hh1, hk1, hnot, -⟩ := hh.takeTemp (A := A) h1
  obtain ⟨ra, hg, rfl⟩ := giveUpTempRegister_iff.mp h2
  have ho := hh1.ownership.giveUpTempRegister hg
  obtain ⟨-, rfl⟩ := giveUpTempRegister_ok hg
  refine ⟨m1, ha1, hh1.congr ho rfl rfl, ⟨hk1.prot, fun j hj => ?_⟩, List.mem_cons_self⟩
  obtain ⟨hj1, hreg⟩ := hk1.reg j hj
  exact ⟨hj1.imp (fun h => Finset.mem_erase.mpr ⟨fun h => hnot (h ▸ hj), h⟩) id, hreg⟩

/-- A line that writes no active register moves no value. -/
theorem Holding.line {l : Line} {dest : ℕ} {w : Word} (hh : Holding U known ops need val arg s m)
    (hexec : l.exec A m = some (m.setReg dest w)) (hdest : dest ∉ s.ra.activeRegs)
    (hl : known → l.Accepted) : Advances known A s m { s with code := s.code ++ [l] } (m.setReg dest w) ∧
      Holding U known ops need val arg { s with code := s.code ++ [l] } (m.setReg dest w) := by
  refine ⟨⟨[l], rfl, execLines_singleton.trans hexec, fun hknown l' hl' => ?_⟩, hh.ownership, hh.own,
    hh.reads, hh.user, hh.arg, hh.named, fun J hJ => ?_, hh.used⟩
  · rw [List.mem_singleton.mp hl']
    exact hl hknown
  · have hR := hh.realizes J hJ
    refine ⟨fun h => ?_, hR.slot⟩
    obtain ⟨x, hx, hxw⟩ := hR.resident h
    refine ⟨x, hx, hxw.congr rfl ?_⟩
    rintro j rfl
    exact Machine.setReg_reg_of_ne fun hj => hdest (hj ▸ hh.mem_activeRegs (hh.reads J hJ) h hx)

theorem Reserved.named {j : ℕ} (ho : Ownership s.ra) (h : Reserved U s j) :
    (EmitVal.reg j).Named := named_of_owned ho (Or.inr h.owned)

/-- The result of an emission in 64 bits: in `dest`, or a constant. -/
theorem Holding.binOp {op : BinaryOps} {dest : ℕ} {a b v : EmitVal}
    (hh : Holding U known ops need val arg s m) (h : createBinOp dest op 64 a b s = .ok (v, s'))
    (htotal : ∀ x y : Word, ∃ z, op.eval x y = some z) (hdest : dest ∉ s.ra.activeRegs)
    (hnamed : ¬(a.isConst = true ∧ b.isConst = true) → (EmitVal.reg dest).Named)
    (ha : known → a.Named) (hb : known → b.Named) : ∃ m', Advances known A s m s' m' ∧
      Holding U known ops need val arg s' m' ∧
      (∀ x y z, a.Holds m x → b.Holds m y → op.eval x y = some z → v.Holds m' z) ∧
      s'.ra = s.ra ∧ (v = .reg dest ∨ v.isConst = true) ∧ v.Named ∧
      ∀ j, j ≠ dest → m'.reg j = m.reg j := by
  simp only [createBinOp, ite_ok_iff, bind_ok_iff, pure_ok_iff, emit_ok, Bool.and_eq_true] at h
  obtain ⟨⟨hca, hcb⟩, rfl, rfl⟩ | ⟨hnot, ⟨⟩, s1, rfl, rfl, rfl⟩ := h
  · have hconst : (foldBinary op 64 a b).isConst = true := by
      unfold foldBinary
      split
      · split <;> rfl
      · rfl
    refine ⟨m, .refl, hh, fun x y z hx hy hz => ?_, rfl, Or.inr hconst, ?_, fun _ _ => rfl⟩
    · rw [hx.eq_const hca, hy.eq_const hcb]
      have hfold : foldBinary op 64 (.const x) (.const y) = .const z := by
        simp [foldBinary, hz, zext]
      rw [hfold]
      exact holds_const
    · generalize foldBinary op 64 a b = v at hconst
      cases v with
      | reg k | arg n => cases hconst
      | _ => trivial
  · obtain ⟨r, hr⟩ := htotal (a.read m) (b.read m)
    have hexec : (Line.bop dest op.bopKind a b 64).exec A m = some (m.setReg dest r) := by
      have := BinaryOps.bvCompute_eq (w := 64) hr
      simp only [Line.exec, sizeOfBw, Option.bind_some, compute_eq, bwOf, BitVec.setWidth_eq, this]
      rw [Except.map, zext, BitVec.setWidth_eq]
    have hacc : known → (Line.bop dest op.bopKind a b 64).Accepted := fun hknown => by
      refine .of_mem rfl (fun k hk => ?_) fun w hw => ?_
      · cases hk
        exact hnamed hnot
      · rcases List.mem_pair.mp hw with rfl | rfl
        · exact ha hknown
        · exact hb hknown
    obtain ⟨hadv, hh'⟩ := hh.line hexec hdest hacc
    refine ⟨_, hadv, hh', fun x y z hx hy hz => ⟨by simp, ?_⟩, rfl, Or.inl rfl, hnamed hnot,
      fun j hj => Machine.setReg_reg_of_ne hj⟩
    rw [hx.2, hy.2, hz] at hr
    rw [read_reg_setReg, Option.some.inj hr]

/-- A cast copies the address into `dest`, unless the type stays or the address is a constant. -/
theorem createBitCast_advances {dest : ℕ} {a v : EmitVal} {src ty : Ty}
    (h : createBitCast dest a src ty s = .ok (v, s')) (hnamed : (EmitVal.reg dest).Named)
    (ha : known → a.Named) : (s' = s ∧ v = a) ∨
      v = .reg dest ∧ s' = { s with code := s.code ++ [.copy dest a] } ∧
      (known → (Line.copy dest a).Accepted) ∧
      (Line.copy dest a).exec A m = some (m.setReg dest (a.read m)) := by
  simp only [createBitCast, ite_ok_iff, bind_ok_iff, pure_ok_iff, emit_ok] at h
  obtain ⟨-, rfl, rfl⟩ | ⟨-, ⟨⟩, s1, rfl, rfl, rfl⟩ := h
  · exact Or.inl ⟨rfl, rfl⟩
  · refine Or.inr ⟨rfl, rfl, fun hknown => .of_mem rfl (fun k hk => ?_) fun w hw => ?_, rfl⟩
    · cases hk
      exact hnamed
    · rw [List.mem_singleton.mp hw]
      exact ha hknown

end Actions

end SwppCompiler.Backend
