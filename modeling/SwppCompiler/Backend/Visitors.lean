import SwppCompiler.Backend.Steps

/-!
# The visitors as sequences of steps

One lemma for each visitor of `DepromoteRegisters`: a visit that does not abort is a sequence of
`Step`s at the site of the instruction. `visitInst_steps`, `visitPHINode_steps` and `visitTerm_ok`
are what the invariants of the translation use.
-/

namespace SwppCompiler.Backend

open Interp Lib.StateExcept RegisterAllocator

/-- The operand is an instruction whose value is read from a register. -/
def InRegister (c : Ctx) (s : State) (V : Operand) : Prop :=
  V.inst?.isSome ∧ ∀ v, OperandVal c s V v → ∃ j, v = .reg j

/-- The instruction, visited in state `s`, is a cast of a register that `IRBuilder` does not emit: a
    bitcast between equal types, or a `getelementptr` from `i8 *` to `i8 *` that adds nothing. -/
def Inst.aliased (c : Ctx) (s : State) : Inst → Prop
  | .bitcast src ty => src.ty = ty ∧ InRegister c s src
  | .gep ptr indices ty =>
    ptr.ty = i8Ptr ∧ ty = i8Ptr ∧ InRegister c s ptr ∧ ∀ V ∈ indices, OperandVal c s V (.const 0)
  | _ => False

/-- The instruction's visitor uses temporary registers. -/
def Inst.usesTemps : Inst → Prop
  | .gep _ _ _ | .call _ _ _ => True
  | _ => False

/-- The site of an instruction that is neither a PHI node nor a terminator, visited in `s`. -/
def Inst.site (c : Ctx) (s : State) (I : InstRef) (x : Inst) : Site :=
  ⟨I, x.operands, [], True, x.aliased c s, x.usesTemps⟩

/-- The site of a PHI node. -/
def phiSite (I : InstRef) : Site := ⟨I, [], [], True, False, False⟩

/-- The site of the terminator of block `b`: its operands are its own and the incoming values that
    it passes on. -/
def Block.termSite (F : Func) (b : ℕ) (B : Block) : Site where
  user := ⟨b, B.termIdx⟩
  operands := B.term.operands ++ (F.phiInputs b B).filterMap Prod.snd
  phiInputs := F.phiInputs b B
  defines := False
  aliased := False
  temps := False

section

variable {c : Ctx} {s s' : State} {I : InstRef} {u : Unit}

theorem OperandVal.ne_reg {V : Operand} {v : EmitVal} (h : OperandVal c s V v)
    (hV : V.inst? = none) (j : ℕ) : v ≠ .reg j := by
  obtain ⟨val, ty⟩ := V
  cases val <;> simp_all [OperandVal, Operand.inst?]

/-- A value that the translation found in a register was in one, or in a slot, before. -/
theorem inRegister_of_translate {V : Operand} {U : InstRef} {j k : ℕ} (hV : V.inst?.isSome)
    (h : translateSrcOperandToTgt c V U s = .ok ((.reg j, k), s')) : InRegister c s V :=
  ⟨hV, fun _ hw => ⟨j, (translateSrcOperandToTgt_of_val hw h).symm⟩⟩

theorem visitAllocaInst_steps {allocated : Ty} {n : Operand} (ho : Ownership s.ra)
    (h : visitAllocaInst c I allocated n s = .ok (u, s')) :
    Steps c (Inst.site c s I (.alloca allocated n)) s s' := by
  simp only [visitAllocaInst, bind_ok_iff, require_ok, emit_ok, define_ok] at h
  obtain ⟨⟨⟩, s1, ⟨-, rfl⟩, ⟨⟩, s2, ⟨-, rfl⟩, k, s3, hreq, ⟨⟩, s4, rfl, rfl⟩ := h
  exact finish_steps trivial ho hreq (Or.inl (emits_line rfl rfl))

theorem visitLoadInst_steps {ptr : Operand} (ho : Ownership s.ra)
    (h : visitLoadInst c I ptr s = .ok (u, s')) : Steps c (Inst.site c s I (.load ptr)) s s' := by
  cases hty : ptr.ty with
  | ptr elem =>
    simp only [visitLoadInst, hty, bind_ok_iff, require_ok, emit_ok, define_ok] at h
    obtain ⟨⟨⟩, s1, ⟨-, rfl⟩, ⟨p, kp⟩, s2, hp, k, s3, hreq, ⟨⟩, s4, rfl, rfl⟩ := h
    obtain ⟨h1, -, -⟩ := translateSrcOperandToTgt_steps (d := Inst.site c s I (.load ptr))
      List.mem_cons_self ho hp
    exact h1.trans (finish_steps trivial (Steps.ownership h1 ho) hreq (Or.inl (emits_line rfl rfl)))
  | _ =>
    simp only [visitLoadInst, hty] at h
    exact (throw_ok_iff.mp h).elim

theorem visitStoreInst_steps {value ptr : Operand} (ho : Ownership s.ra)
    (h : visitStoreInst c I value ptr s = .ok (u, s')) :
    Steps c (Inst.site c s I (.store value ptr)) s s' := by
  simp only [visitStoreInst, bind_ok_iff, require_ok, reportUser_ok, emit_ok] at h
  obtain ⟨⟨⟩, s1, ⟨-, rfl⟩, ⟨⟩, s2, rfl, ⟨v, kv⟩, s3, hv, ⟨⟩, s4, ⟨-, rfl⟩, ⟨p, kp⟩, s5, hp, ⟨⟩, s6,
    rfl, rfl⟩ := h
  have h0 : Step c (Inst.site c s I (.store value ptr)) s _ := .user (some I)
  obtain ⟨h1, -, -⟩ := translateSrcOperandToTgt_steps (d := Inst.site c s I (.store value ptr))
    List.mem_cons_self (h0.ownership ho) hv
  obtain ⟨h2, -, -⟩ := translateSrcOperandToTgt_steps (d := Inst.site c s I (.store value ptr))
    (List.mem_cons_of_mem _ List.mem_cons_self) (Steps.ownership h1 (h0.ownership ho)) hp
  exact (((Relation.ReflTransGen.single h0).trans h1).trans h2).tail
    (.line rfl (by simp [Line.dest?])) |>.tail (.user none)

theorem visitBinaryOperator_steps {op : BinaryOps} {lhs rhs : Operand} (ho : Ownership s.ra)
    (h : visitBinaryOperator c I op lhs rhs s = .ok (u, s')) :
    Steps c (Inst.site c s I (.binary op lhs rhs)) s s' := by
  cases hty : lhs.ty with
  | int bw =>
    simp only [visitBinaryOperator, hty, bind_ok_iff, require_ok, reportUser_ok, define_ok] at h
    obtain ⟨⟨⟩, s1, ⟨-, rfl⟩, ⟨⟩, s2, rfl, ⟨v1, k1⟩, s3, hv1, ⟨v2, k2⟩, s4, hv2, ⟨⟩, s5, rfl, k, s6,
      hreq, v, s7, hv, rfl⟩ := h
    have h0 : Step c (Inst.site c s I (.binary op lhs rhs)) s _ := .user (some I)
    obtain ⟨h1, -, -⟩ := translateSrcOperandToTgt_steps (d := Inst.site c s I (.binary op lhs rhs))
      List.mem_cons_self (h0.ownership ho) hv1
    have h1 := (Relation.ReflTransGen.single h0).trans h1
    obtain ⟨h2, -, -⟩ := translateSrcOperandToTgt_steps (d := Inst.site c s I (.binary op lhs rhs))
      (List.mem_cons_of_mem _ List.mem_cons_self) (Steps.ownership h1 ho) hv2
    have h2 := (h1.trans h2).tail (.user none)
    exact h2.trans (finish_steps trivial (Steps.ownership h2 ho) hreq (Or.inl (createBinOp_emits hv)))
  | _ =>
    simp only [visitBinaryOperator, hty] at h
    exact (throw_ok_iff.mp h).elim

theorem visitICmpInst_steps {pred : Predicate} {lhs rhs : Operand} (ho : Ownership s.ra)
    (h : visitICmpInst c I pred lhs rhs s = .ok (u, s')) :
    Steps c (Inst.site c s I (.icmp pred lhs rhs)) s s' := by
  simp only [visitICmpInst, bind_ok_iff, require_ok, reportUser_ok, define_ok] at h
  obtain ⟨⟨⟩, s1, ⟨-, rfl⟩, ⟨⟩, s2, rfl, ⟨v1, k1⟩, s3, hv1, ⟨v2, k2⟩, s4, hv2, ⟨⟩, s5, rfl, k, s6,
    hreq, v, s7, hv, rfl⟩ := h
  have h0 : Step c (Inst.site c s I (.icmp pred lhs rhs)) s _ := .user (some I)
  obtain ⟨h1, -, -⟩ := translateSrcOperandToTgt_steps (d := Inst.site c s I (.icmp pred lhs rhs))
    List.mem_cons_self (h0.ownership ho) hv1
  have h1 := (Relation.ReflTransGen.single h0).trans h1
  obtain ⟨h2, -, -⟩ := translateSrcOperandToTgt_steps (d := Inst.site c s I (.icmp pred lhs rhs))
    (List.mem_cons_of_mem _ List.mem_cons_self) (Steps.ownership h1 ho) hv2
  have h2 := (h1.trans h2).tail (.user none)
  exact h2.trans (finish_steps trivial (Steps.ownership h2 ho) hreq (Or.inl (createICmp_emits hv)))

theorem visitSelectInst_steps {cond ifTrue ifFalse : Operand} (ho : Ownership s.ra)
    (h : visitSelectInst c I cond ifTrue ifFalse s = .ok (u, s')) :
    Steps c (Inst.site c s I (.select cond ifTrue ifFalse)) s s' := by
  simp only [visitSelectInst, bind_ok_iff, reportUser_ok, define_ok] at h
  obtain ⟨⟨⟩, s2, rfl, ⟨v1, k1⟩, s3, hv1, ⟨v2, k2⟩, s4, hv2, ⟨v3, k3⟩, s5, hv3, ⟨⟩, s6, rfl, k, s7,
    hreq, v, s8, hv, rfl⟩ := h
  have h0 : Step c (Inst.site c s I (.select cond ifTrue ifFalse)) s _ := .user (some I)
  obtain ⟨h1, -, -⟩ := translateSrcOperandToTgt_steps
    (d := Inst.site c s I (.select cond ifTrue ifFalse))
    List.mem_cons_self (h0.ownership ho) hv1
  have h1 := (Relation.ReflTransGen.single h0).trans h1
  obtain ⟨h2, -, -⟩ := translateSrcOperandToTgt_steps
    (d := Inst.site c s I (.select cond ifTrue ifFalse))
    (List.mem_cons_of_mem _ List.mem_cons_self) (Steps.ownership h1 ho) hv2
  have h2 := h1.trans h2
  obtain ⟨h3, -, -⟩ := translateSrcOperandToTgt_steps
    (d := Inst.site c s I (.select cond ifTrue ifFalse))
    (List.mem_cons_of_mem _ (List.mem_cons_of_mem _ List.mem_cons_self)) (Steps.ownership h2 ho)
    hv3
  have h3 := (h2.trans h3).tail (.user none)
  exact h3.trans (finish_steps trivial (Steps.ownership h3 ho) hreq (Or.inl (createSelect_emits hv)))

/-- A visitor that translates one operand and creates its result from it. -/
theorem unary_steps {x : Inst} {V : Operand} {f : ℕ → EmitVal → M EmitVal}
    (hx : x.operands = [V]) (ho : Ownership s.ra)
    (hf : ∀ {k op kop v s0 s1 s2}, translateSrcOperandToTgt c V I s = .ok ((op, kop), s0) →
      f k op s1 = .ok (v, s2) → Emits k s1 v s2 ∨ (x.aliased c s ∧ s2 = s1))
    (h : (do
      let (op, _) ← translateSrcOperandToTgt c V I
      let regId ← requestRegister c I
      let res ← f regId op
      define I res) s = .ok (u, s')) : Steps c (Inst.site c s I x) s s' := by
  simp only [bind_ok_iff, define_ok] at h
  obtain ⟨⟨op, kop⟩, s1, hop, k, s2, hreq, v, s3, hv, rfl⟩ := h
  obtain ⟨h1, -, -⟩ := translateSrcOperandToTgt_steps (d := Inst.site c s I x)
    (by simp [Inst.site, hx]) ho hop
  refine h1.trans (finish_steps trivial (Steps.ownership h1 ho) hreq ?_)
  rcases hf hop hv with h | h
  · exact Or.inl h
  · exact Or.inr (Or.inl h)

theorem visitBitCastInst_steps {src : Operand} {ty : Ty} (ho : Ownership s.ra)
    (h : visitBitCastInst c I src ty s = .ok (u, s')) :
    Steps c (Inst.site c s I (.bitcast src ty)) s s' := by
  refine unary_steps (f := fun k op => createBitCast k op src.ty ty) rfl ho ?_ h
  intro k op kop v s0 s1 s2 hop hv
  obtain h | ⟨hty, rfl, rfl⟩ := createBitCast_ok hv
  · exact Or.inl h
  · by_cases hreg : ∃ j, v = .reg j
    · obtain ⟨j, rfl⟩ := hreg
      by_cases hs : src.inst?.isSome
      · exact Or.inr ⟨⟨hty, inRegister_of_translate hs hop⟩, rfl⟩
      · obtain ⟨-, -, hval⟩ := translateConst_ok (by simpa using hs) hop
        exact absurd rfl (hval.ne_reg (by simpa using hs) j)
    · exact Or.inl (emits_nothing fun j hj => hreg ⟨j, hj⟩)

theorem visitSExtInst_steps {src : Operand} {bw : ℕ} (ho : Ownership s.ra)
    (h : visitSExtInst c I src s = .ok (u, s')) :
    Steps c (Inst.site c s I (.sext src bw)) s s' := by
  cases hty : src.ty with
  | int w =>
    simp only [visitSExtInst, hty] at h
    exact unary_steps (f := fun k op => createSExt k w op) rfl ho
      (fun _ hv => Or.inl (createSExt_emits hv)) h
  | _ =>
    simp only [visitSExtInst, hty] at h
    exact (throw_ok_iff.mp h).elim

theorem visitZExtInst_steps {src : Operand} {bw : ℕ} (ho : Ownership s.ra)
    (h : visitZExtInst c I src s = .ok (u, s')) :
    Steps c (Inst.site c s I (.zext src bw)) s s' :=
  unary_steps (f := fun k op => createBinOp k .mul 64 op (.const 1)) rfl ho
    (fun _ hv => Or.inl (createBinOp_emits hv)) h

theorem visitTruncInst_steps {src : Operand} {bw : ℕ} (ho : Ownership s.ra)
    (h : visitTruncInst c I src bw s = .ok (u, s')) :
    Steps c (Inst.site c s I (.trunc src bw)) s s' :=
  unary_steps (f := fun k op => createBinOp k .urem 64 op (.const (BitVec.ofNat 64 (2 ^ bw))))
    rfl ho (fun _ hv => Or.inl (createBinOp_emits hv)) h

theorem visitPtrCast_steps {x : Inst} {src : Operand} (hx : x.operands = [src])
    (ho : Ownership s.ra) (h : visitPtrCast c I src s = .ok (u, s')) :
    Steps c (Inst.site c s I x) s s' :=
  unary_steps (f := createPtrCast) hx ho (fun _ hv => Or.inl (createPtrCast_emits hv)) h

/-! ## `getelementptr` -/

theorem valueFrame_of_activeSet {ra : RegisterAllocator InstRef}
    (ha : ra.activeSet = s.ra.activeSet) : ValueFrame c s { s with ra := ra } :=
  valueFrame_of fun J _ hJ hv _ => ⟨get_congr ha J ▸ hJ, hv⟩

theorem Emits.frame {dest : ℕ} {v : EmitVal} (h : Emits dest s v s') : OperandFrame c s s' := by
  obtain ⟨lines, rfl, -, -⟩ := h
  exact ⟨rfl, valueFrame_of fun J _ hJ hv _ => ⟨hJ, hv⟩⟩

theorem Emits.steps {d : Site} {dest : ℕ} {v : EmitVal} (h : Emits dest s v s')
    (hdest : dest ∉ s.ra.activeRegs) : Steps c d s s' := by
  obtain ⟨lines, rfl, hl, -⟩ := h
  exact steps_lines hdest hl

/-- A temporary register that is given up at once ends on the free stack. -/
theorem takeGive_ok {d : Site} {t k : ℕ} {s1 s2 : State} (hd : d.temps) (ho : Ownership s.ra)
    (h1 : requestTempRegister c t s = .ok (k, s1)) (h2 : giveUpTempRegister k s1 = .ok (u, s2)) :
    Steps c d s s2 ∧ OperandFrame c s s2 ∧ k ∈ s2.ra.freeRegisters := by
  obtain ⟨hs, -⟩ := requestTempRegister_steps hd ho h1
  obtain ⟨ra2, hg, rfl⟩ := giveUpTempRegister_iff.mp h2
  obtain ⟨-, rfl⟩ := giveUpTempRegister_ok hg
  refine ⟨hs.tail (.giveTemp hd hg), ?_, List.mem_cons_self⟩
  obtain ⟨hk, s0, ra, hev, hr, rfl⟩ := takeTemp_ok ho h1
  have h0 : Ownership s0.ra ∧ OperandFrame c s s0 := by
    obtain rfl | hev := hev
    · exact ⟨ho, .refl _⟩
    · exact ⟨(evictOne_steps (d := d) hev).ownership ho, evictOne_frame ho hev⟩
  obtain ⟨ho0, hf0⟩ := h0
  obtain ⟨-, ⟨h0, -⟩ | ⟨-, hmem, -, -, rfl⟩⟩ :=
    requestTempRegister_ok ho0.zero_notMem_free ho0.free_nodup hr
  · exact absurd h0 hk
  · exact hf0.trans
      ⟨Finset.erase_insert (ho0.free_disjoint_temp hmem), valueFrame_of_activeSet rfl⟩

theorem requestTempRegister_value {t k : ℕ} (ho : Ownership s.ra)
    (h : requestTempRegister c t s = .ok (k, s')) : ValueFrame c s s' := by
  obtain ⟨-, s0, ra, hev, hr, rfl⟩ := takeTemp_ok ho h
  have hsame : ∀ {s0 : State}, Ownership s0.ra → s0.ra.requestTempRegister t = .ok (k, ra) →
      ValueFrame c s0 { s0 with ra := ra } := fun ho0 hr =>
    valueFrame_of_activeSet (ho0.activeSet_requestTempRegister hr)
  obtain rfl | hev := hev
  · exact hsame ho hr
  · have hstep : Step c (phiSite ⟨0, 0⟩) s s0 := evictOne_steps hev
    exact (evictOne_frame ho hev).value.trans (hsame (hstep.ownership ho) hr)

/-- The scaled index: an element of size 1 leaves it alone. -/
theorem scaleIndex_ok {d : Site} {sz k : ℕ} {idx v : EmitVal} (hd : d.temps) (ho : Ownership s.ra)
    (h : scaleIndex c sz idx k s = .ok (v, s')) :
    Steps c d s s' ∧ OperandFrame c s s' ∧ (sz = 1 → v = idx) := by
  by_cases hsz : sz = 1
  · simp only [scaleIndex, hsz, if_pos, pure_ok_iff] at h
    obtain ⟨rfl, rfl⟩ := h
    exact ⟨.refl, .refl _, fun _ => rfl⟩
  · simp only [scaleIndex, hsz, if_false, bind_ok_iff, require_ok, ite_ok_iff] at h
    obtain ⟨⟨⟩, s1, ⟨-, rfl⟩, ⟨-, h⟩ | ⟨-, r, s1, hr, ⟨⟩, s2, hg, h⟩⟩ := h
    · have hem := createBinOp_emits h
      refine ⟨hem.steps fun h0 => ?_, hem.frame, fun h1 => absurd h1 hsz⟩
      have := (ho.owned_iff 0).mp (Or.inr (Or.inr h0))
      omega
    · have hem := createBinOp_emits h
      obtain ⟨hs, hframe, hfree⟩ := takeGive_ok hd ho hr hg
      have ho2 := Steps.ownership hs ho
      exact ⟨hs.trans (hem.steps fun ha => ho2.active_disjoint_free ha hfree),
        hframe.trans hem.frame, fun h1 => absurd h1 hsz⟩

/-- The address after one index: in the temporary register, in no register, or unchanged by an
    index that is the constant zero. -/
theorem addIndex_ok {dest : ℕ} {p idx v : EmitVal} (h : addIndex dest p idx s = .ok (v, s')) :
    Emits dest s v s' ∨ (idx = .const 0 ∧ v = p ∧ s' = s) := by
  simp only [addIndex, ite_ok_iff, pure_ok_iff] at h
  obtain ⟨hidx, rfl, rfl⟩ | ⟨-, h⟩ := h
  · exact Or.inr ⟨hidx, rfl, rfl⟩
  · exact Or.inl (createBinOp_emits h)

theorem gepLoop_ok {d : Site} {t : ℕ} (hd : d.temps) : ∀ {idxs : List Operand} {elemTy : Option Ty}
    {p p' : EmitVal} {s s' : State}, (∀ V ∈ idxs, V ∈ d.operands) → Ownership s.ra →
    t ∈ s.ra.tempRegisters → gepLoop c d.user t idxs elemTy p s = .ok (p', s') →
    Steps c d s s' ∧ OperandFrame c s s' ∧ (p' = .reg t ∨ (∀ j, p' ≠ .reg j) ∨
      p' = p ∧ (elemTy = some (.int 8) → ∀ V ∈ idxs, OperandVal c s V (.const 0))) := by
  intro idxs
  induction idxs with
  | nil =>
    intro elemTy p p' s s' _ _ _ h
    obtain ⟨rfl, rfl⟩ := pure_ok_iff.mp h
    exact ⟨.refl, .refl _, Or.inr (Or.inr ⟨rfl, by simp⟩)⟩
  | cons idx idxs ih =>
    intro elemTy p p' s s' hops ho ht h
    cases elemTy with
    | none => exact (throw_ok_iff.mp h).elim
    | some elemTy =>
      simp only [gepLoop, bind_ok_iff, require_ok] at h
      obtain ⟨⟨⟩, s1, ⟨-, rfl⟩, ⟨iv, ik⟩, s1, hidx, sv, s2, hsc, q, s3, hadd, hrest⟩ := h
      obtain ⟨h1, hval, -⟩ := translateSrcOperandToTgt_steps (hops idx List.mem_cons_self) ho hidx
      have hf1 := translateSrcOperandToTgt_frame ho hidx
      have ho1 := Steps.ownership h1 ho
      obtain ⟨h2, hf2, hsv⟩ := scaleIndex_ok hd ho1 hsc
      have ho2 := Steps.ownership h2 ho1
      have ht2 : t ∈ s2.ra.tempRegisters := by rwa [(hf1.trans hf2).temp]
      have hq : Steps c d s2 s3 ∧ OperandFrame c s2 s3 ∧ ((q = .reg t ∨ ∀ j, q ≠ .reg j) ∨
          q = p ∧ sv = .const 0) := by
        rcases addIndex_ok hadd with hem | ⟨hz, rfl, rfl⟩
        · obtain ⟨-, -, -, hv⟩ := id hem
          exact ⟨hem.steps fun ha => ho2.active_disjoint_temp ha ht2, hem.frame, Or.inl hv⟩
        · exact ⟨.refl, .refl _, Or.inr ⟨rfl, hz⟩⟩
      obtain ⟨h3, hf3, hq⟩ := hq
      have hf := (hf1.trans hf2).trans hf3
      obtain ⟨h4, hf4, hp'⟩ := ih (fun V hV => hops V (List.mem_cons_of_mem _ hV))
        (Steps.ownership h3 ho2) (by rwa [hf.temp]) hrest
      refine ⟨((h1.trans h2).trans h3).trans h4, hf.trans hf4, ?_⟩
      rcases hp' with hp' | hp' | ⟨rfl, hzero⟩
      · exact Or.inl hp'
      · exact Or.inr (Or.inl hp')
      · rcases hq with (hq | hq) | ⟨rfl, hz⟩
        · exact Or.inl hq
        · exact Or.inr (Or.inl hq)
        · refine Or.inr (Or.inr ⟨rfl, ?_⟩)
          rintro ⟨⟩ V hV
          -- an element of type i8 has size 1, and no index steps into it
          have hnil : idxs = [] := by
            cases idxs with
            | nil => rfl
            | cons _ _ => exact (throw_ok_iff.mp hrest).elim
          subst hnil
          rw [List.mem_singleton] at hV
          subst hV
          have hiv : iv = .const 0 := by rw [← hz, hsv rfl]
          exact hf1.value V _ (hiv ▸ hval) (by simp)

theorem visitGetElementPtrInst_steps {ptr : Operand} {indices : List Operand} {ty : Ty}
    (ho : Ownership s.ra) (h : visitGetElementPtrInst c I ptr indices ty s = .ok (u, s')) :
    Steps c (Inst.site c s I (.gep ptr indices ty)) s s' ∧
      s'.ra.tempRegisters = s.ra.tempRegisters := by
  cases hty : ptr.ty with
  | ptr elem =>
    simp only [visitGetElementPtrInst, hty, bind_ok_iff, reportUser_ok, define_ok] at h
    obtain ⟨⟨⟩, s1, rfl, ⟨pv, pk⟩, s2, hptr, t, s3, ht, p0, s4, hcast, p1, s5, hloop, ⟨⟩, s6, rfl,
      ⟨⟩, s7, hgive, k, s8, hreq, v, s9, hv, rfl⟩ := h
    set d := Inst.site c s I (.gep ptr indices ty) with hd
    have h1 : Step c d s _ := .user (some I)
    have ho1 := h1.ownership ho
    obtain ⟨h2, hval, -⟩ := translateSrcOperandToTgt_steps (d := d) List.mem_cons_self ho1 hptr
    have hf2 := translateSrcOperandToTgt_frame ho1 hptr
    have ho2 := Steps.ownership h2 ho1
    obtain ⟨h3, hnew, htemp, -⟩ := requestTempRegister_steps (d := d) trivial ho2 ht
    have ht3 : t ∈ s3.ra.tempRegisters := by rw [htemp]; exact Finset.mem_insert_self _ _
    have hf3 := requestTempRegister_value ho2 ht
    have ho3 := Steps.ownership h3 ho2
    -- the address as an `i8 *`
    have h4 : Steps c d s3 s4 ∧ OperandFrame c s3 s4 ∧ ((p0 = .reg t ∨ ∀ j, p0 ≠ .reg j) ∨
        elem = .int 8 ∧ p0 = pv) := by
      rcases createBitCast_ok hcast with hem | ⟨he, rfl, rfl⟩
      · obtain ⟨-, -, -, hv⟩ := id hem
        exact ⟨hem.steps fun ha => ho3.active_disjoint_temp ha ht3, hem.frame, Or.inl hv⟩
      · cases he
        exact ⟨.refl, .refl _, Or.inr ⟨rfl, rfl⟩⟩
    obtain ⟨h4, hf4, hp0⟩ := h4
    have ho4 := Steps.ownership h4 ho3
    obtain ⟨h5, hf5, hp1⟩ := gepLoop_ok (d := d) trivial (fun V hV => List.mem_cons_of_mem _ hV) ho4
      (by rwa [hf4.temp]) hloop
    have ho5 := Steps.ownership h5 ho4
    have h6 : Step c d s5 _ := .user none
    obtain ⟨ra7, hg, rfl⟩ := giveUpTempRegister_iff.mp hgive
    have h7 : Steps c d s _ :=
      ((((((Relation.ReflTransGen.single h1).trans h2).trans h3).trans h4).trans h5).tail
        h6).tail (.giveTemp trivial hg)
    have ho7 := Steps.ownership h7 ho
    -- the temporary register is the next one that is requested
    have hk : k = t := by
      obtain ⟨-, rfl⟩ := giveUpTempRegister_ok hg
      obtain ⟨s0, ra, ra', ⟨rfl, -⟩ | ⟨hnil, -⟩, hr, hk0, -, -⟩ := requestRegister_ok ho7 hreq
      · obtain ⟨-, ⟨hnil, -, -⟩ | ⟨free, hcons, -, -⟩⟩ := request_ok ho7.zero_notMem_free hr
        · cases hnil
        · exact (List.cons.inj hcons).1.symm
      · cases hnil
    subst hk
    have htemp7 : ra7.tempRegisters = s.ra.tempRegisters := by
      obtain ⟨-, rfl⟩ := giveUpTempRegister_ok hg
      have heq : s5.ra.tempRegisters = insert k s2.ra.tempRegisters := by
        rw [hf5.temp, hf4.temp, htemp]
      calc (s5.ra.tempRegisters).erase k = s2.ra.tempRegisters := by
            rw [heq, Finset.erase_insert hnew]
        _ = s.ra.tempRegisters := hf2.temp
    suffices hfin : ∀ d' : Site, d'.user = I → d'.defines → (d.aliased → d'.aliased) →
        Steps c d' _ _ from
      ⟨h7.trans (hfin d rfl trivial id), (Steps.temps (d := { d with temps := False }) id
        (hfin _ rfl trivial id) ho7).trans htemp7⟩
    rintro d' rfl hdefined hd'
    refine finish_steps hdefined ho7 hreq ?_
    rcases createBitCast_ok hv with hem | ⟨rfl, rfl, rfl⟩
    · exact Or.inl hem
    by_cases hreg : ∃ j, v = .reg j
    · obtain ⟨j, rfl⟩ := hreg
      rcases hp1 with hp1 | hp1 | ⟨rfl, hzero⟩
      · exact Or.inr (Or.inr ⟨hp1, rfl⟩)
      · exact absurd rfl (hp1 j)
      · rcases hp0 with (hp0 | hp0) | ⟨rfl, rfl⟩
        · exact Or.inr (Or.inr ⟨hp0, rfl⟩)
        · exact absurd rfl (hp0 j)
        · refine Or.inr (Or.inl ⟨hd' ⟨hty, rfl, ?_, fun V hV => ?_⟩, rfl⟩)
          · by_cases hs : ptr.inst?.isSome
            · exact ⟨hs, fun w hw => ⟨j, (translateSrcOperandToTgt_of_val
                (s := { s with ra := s.ra.reportUser (some d'.user) }) hw hptr).symm⟩⟩
            · exact absurd rfl (hval.ne_reg (by simpa using hs) j)
          · exact hf2.value V _ (hf3 V _ (hf4.value V _ (hzero rfl V hV) (by simp)) (by simp)) (by simp)
    · exact Or.inl (emits_nothing fun j hj => hreg ⟨j, hj⟩)
  | _ =>
    simp only [visitGetElementPtrInst, hty] at h
    exact (throw_ok_iff.mp h).elim

/-! ## Calls -/

theorem translateAll_steps {d : Site} : ∀ {Vs : List Operand} {vs : List (EmitVal × ℕ)}
    {s s' : State}, (∀ V ∈ Vs, V ∈ d.operands) → Ownership s.ra →
    translateAll c d.user Vs s = .ok (vs, s') → Steps c d s s' := by
  intro Vs
  induction Vs with
  | nil =>
    intro vs s s' _ _ h
    obtain ⟨-, rfl⟩ := pure_ok_iff.mp h
    exact .refl
  | cons V Vs ih =>
    intro vs s s' hops ho h
    simp only [translateAll, bind_ok_iff, pure_ok_iff] at h
    obtain ⟨⟨v, k⟩, s1, hv, ws, s2, hws, -, rfl⟩ := h
    obtain ⟨h1, -, -⟩ := translateSrcOperandToTgt_steps (hops V List.mem_cons_self) ho hv
    exact h1.trans (ih (fun W hW => hops W (List.mem_cons_of_mem _ hW)) (Steps.ownership h1 ho) hws)

/-- At most the reference stack pointer becomes a temporary register. -/
theorem handOverRef_steps {d : Site} {callee : String} (hd : d.temps) (ho : Ownership s.ra)
    (h : handOverRef c callee s = .ok (u, s')) :
    Steps c d s s' ∧ s'.ra.tempRegisters ⊆ insert refSPId s.ra.tempRegisters := by
  unfold handOverRef at h
  split_ifs at h
  · obtain ⟨⟨k, s1⟩, hr, heq⟩ := map_ok_iff.mp h
    cases heq
    have h0 : Step c d s { s with refSet := true } := .flags true s.refSpilled
    obtain ⟨h1, -, htemp, hk⟩ := requestTempRegister_steps hd (h0.ownership ho) hr
    refine ⟨(Relation.ReflTransGen.single h0).trans h1, ?_⟩
    rw [htemp, hk (by decide)]
  · cases h
    exact ⟨.single (.flags s.refSet true), Finset.subset_insert _ _⟩
  · obtain ⟨ra, hg, rfl⟩ := giveUpTempRegister_iff.mp h
    refine ⟨.single (.giveTemp hd hg), ?_⟩
    obtain ⟨-, rfl⟩ := giveUpTempRegister_ok hg
    exact (Finset.erase_subset _ _).trans (Finset.subset_insert _ _)
  · cases h
    exact ⟨.refl, Finset.subset_insert _ _⟩

theorem emitCall_steps {callee : String} {args : List EmitVal} {named : Bool} {d : Site}
    (hd : d.defines) (ho : Ownership s.ra) (h : emitCall c d.user callee args named s = .ok (u, s')) :
    Steps c d s s' := by
  simp only [emitCall, ite_ok_iff, bind_ok_iff, emit_ok, define_ok] at h
  obtain ⟨-, k, s1, hreq, ⟨⟩, s2, rfl, rfl⟩ | ⟨-, rfl⟩ := h
  · exact finish_steps hd ho hreq (Or.inl (emits_line rfl rfl))
  · exact .single (.line rfl (by simp [Line.dest?]))

theorem takeBackRef_steps {d : Site} {callee : String} (hd : d.temps) (ho : Ownership s.ra)
    (h : takeBackRef c callee s = .ok (u, s')) :
    Steps c d s s' ∧ s'.ra.tempRegisters ⊆ insert refSPId s.ra.tempRegisters := by
  unfold takeBackRef at h
  split_ifs at h
  · obtain ⟨⟨k, s1⟩, hr, heq⟩ := map_ok_iff.mp h
    cases heq
    obtain ⟨h1, -, htemp, hk⟩ := requestTempRegister_steps hd ho hr
    refine ⟨h1.tail (.flags s1.refSet false), ?_⟩
    rw [htemp, hk (by decide)]
  · cases h
    exact ⟨.refl, Finset.subset_insert _ _⟩

theorem visitCallInst_steps {callee : String} {args : List Operand} {ty : Option Ty}
    (ho : Ownership s.ra) (h : visitCallInst c I callee args ty s = .ok (u, s')) :
    Steps c (Inst.site c s I (.call callee args ty)) s s' ∧
      s'.ra.tempRegisters ⊆ insert refSPId s.ra.tempRegisters := by
  simp only [visitCallInst, bind_ok_iff] at h
  obtain ⟨⟨⟩, s1, h1, vs, s2, h2, ⟨⟩, s3, h3, h4⟩ := h
  set d := Inst.site c s I (.call callee args ty)
  obtain ⟨h1, ht1⟩ := handOverRef_steps (d := d) trivial ho h1
  have ho1 := Steps.ownership h1 ho
  have h23 : ∀ t, Steps c { d with temps := t } s1 s3 := fun t =>
    have h2 := translateAll_steps (d := { d with temps := t }) (fun _ h => h) ho1 h2
    h2.trans (emitCall_steps (d := { d with temps := t }) trivial (Steps.ownership h2 ho1) h3)
  have ht3 := Steps.temps id (h23 False) ho1
  obtain ⟨h4, ht4⟩ := takeBackRef_steps (d := d) trivial (Steps.ownership (h23 d.temps) ho1) h4
  refine ⟨(h1.trans (h23 d.temps)).trans h4, ht4.trans ?_⟩
  rw [ht3]
  exact Finset.insert_subset (Finset.mem_insert_self _ _) ht1

/-! ## Every instruction -/

/-- The visitor of an instruction is a sequence of steps at its site. -/
theorem visitInst_steps {x : Inst} (ho : Ownership s.ra) (h : visitInst c I x s = .ok (u, s')) :
    Steps c (Inst.site c s I x) s s' := by
  cases x with
  | alloca allocated n => exact visitAllocaInst_steps ho h
  | load p => exact visitLoadInst_steps ho h
  | store v p => exact visitStoreInst_steps ho h
  | binary op a b => exact visitBinaryOperator_steps ho h
  | icmp p a b => exact visitICmpInst_steps ho h
  | select x a b => exact visitSelectInst_steps ho h
  | gep p idxs ty => exact (visitGetElementPtrInst_steps ho h).1
  | bitcast a ty => exact visitBitCastInst_steps ho h
  | sext a bw => exact visitSExtInst_steps ho h
  | zext a bw => exact visitZExtInst_steps ho h
  | trunc a bw => exact visitTruncInst_steps ho h
  | ptrtoint a bw => exact visitPtrCast_steps rfl ho h
  | inttoptr a ty => exact visitPtrCast_steps rfl ho h
  | call f args ty => exact (visitCallInst_steps ho h).1

/-- Between two instructions only the reference stack pointer is a temporary register. -/
theorem visitInst_temps {x : Inst} (ho : Ownership s.ra) (h : visitInst c I x s = .ok (u, s')) :
    s'.ra.tempRegisters ⊆ insert refSPId s.ra.tempRegisters := by
  have hkeep : ¬x.usesTemps → s'.ra.tempRegisters ⊆ insert refSPId s.ra.tempRegisters := by
    intro hx
    rw [Steps.temps (d := Inst.site c s I x) hx (visitInst_steps ho h) ho]
    exact Finset.subset_insert _ _
  cases x with
  | gep p idxs ty =>
    rw [(visitGetElementPtrInst_steps ho h).2]
    exact Finset.subset_insert _ _
  | call f args ty => exact (visitCallInst_steps ho h).2
  | _ => exact hkeep id

theorem visitPHINode_steps (ho : Ownership s.ra) (h : visitPHINode c I s = .ok (u, s')) :
    Steps c (phiSite I) s s' := by
  simp only [visitPHINode, bind_ok_iff, emit_ok, define_ok] at h
  obtain ⟨k, s1, hreq, ⟨⟩, s2, rfl, rfl⟩ := h
  obtain ⟨s0, ra, ra', hev, hr, hk, hu, rfl⟩ := requestRegister_ok ho hreq
  exact (steps_of_evicted hev).tail (.phi (d := phiSite I) trivial hr hk hu)

/-! ## Terminators -/

theorem processPHIs_steps {d : Site} : ∀ {inputs : List (InstRef × Option Operand)}
    {s s' : State}, (∀ p ∈ inputs, p ∈ d.phiInputs ∧ ∀ V, p.2 = some V → V ∈ d.operands) →
    Ownership s.ra → processPHIs c d.user inputs s = .ok (u, s') → Steps c d s s' := by
  intro inputs
  induction inputs with
  | nil =>
    intro s s' _ _ h
    obtain ⟨-, rfl⟩ := pure_ok_iff.mp h
    exact .refl
  | cons p inputs ih =>
    intro s s' hin ho h
    obtain ⟨P, _ | V⟩ := p
    · exact (throw_ok_iff.mp h).elim
    · simp only [processPHIs, bind_ok_iff, emit_ok] at h
      obtain ⟨⟨v, k⟩, s1, hv, ⟨⟩, s2, rfl, hrest⟩ := h
      obtain ⟨hP, hV⟩ := hin _ List.mem_cons_self
      obtain ⟨h1, hval, -⟩ := translateSrcOperandToTgt_steps (hV V rfl) ho hv
      have h2 : Steps c d s _ := h1.tail (.storePhi hP hval)
      exact h2.trans (ih (fun q hq => hin q (List.mem_cons_of_mem _ hq)) (Steps.ownership h2 ho)
        hrest)

/-- A line that writes the slot of an instruction. -/
def Line.isSpill : Line → Bool
  | .spill _ _ => true
  | _ => false

/-- What `clearRA` does: it evicts until nothing is active, and emits spills only. -/
theorem clearLoop_ok {d : Site} : ∀ {fuel : ℕ} {s s' : State}, s.ra.activeSet.length < fuel →
    clearLoop c fuel s = .ok (u, s') → Steps c d s s' ∧ s'.ra.activeSet = [] ∧
      ∃ lines, s'.code = s.code ++ lines ∧ ∀ l ∈ lines, l.isSpill = true := by
  intro fuel
  induction fuel with
  | zero => intro s s' hlt; omega
  | succ fuel ih =>
    intro s s' hlt h
    simp only [clearLoop, bind_ok_iff, withRA_ok] at h
    obtain ⟨r, s1, ⟨ra, he, rfl⟩, h⟩ := h
    cases r with
    | none =>
      obtain ⟨-, rfl⟩ := pure_ok_iff.mp h
      obtain ⟨hnil, -, rfl⟩ | ⟨a, hnone, -⟩ := evict_ok he
      · exact ⟨.refl, hnil, [], by simp, by simp⟩
      · cases hnone
    | some a =>
      simp only [bind_ok_iff] at h
      obtain ⟨⟨⟩, s2, hev, h⟩ := h
      have hone : evictOne c 0 s = .ok ((), s2) := by
        simp only [evictOne, bind_ok_iff, withRA_ok]
        exact ⟨some a, _, ⟨ra, he, rfl⟩, hev⟩
      obtain ⟨a', ra', v, he', -, rfl⟩ := evictOne_ok hone
      have hlen : ra'.activeSet.length < fuel := by
        obtain ⟨-, hnone, -⟩ | ⟨_, -, hperm, -, -, -⟩ := evict_ok he'
        · cases hnone
        · have := hperm.length_eq
          rw [List.length_cons] at this
          omega
      obtain ⟨hs, hnil, lines, hcode, hl⟩ := ih hlen h
      refine ⟨.head (evictOne_steps hone) hs, hnil, spillLines c s a' v ++ lines, ?_, ?_⟩
      · simpa [List.append_assoc] using hcode
      · intro l hmem
        rcases List.mem_append.mp hmem with hmem | hmem
        · unfold spillLines at hmem
          split_ifs at hmem
          · rw [List.mem_singleton] at hmem
            subst hmem
            rfl
          · simp at hmem
        · exact hl l hmem

theorem clearRA_ok {d : Site} (h : clearRA c s = .ok (u, s')) :
    Steps c d s s' ∧ s'.ra.activeSet = [] ∧
      ∃ lines, s'.code = s.code ++ lines ∧ ∀ l ∈ lines, l.isSpill = true :=
  clearLoop_ok (Nat.lt_succ_self _) h

/-- The blocks that a line may jump to, in order. -/
def Line.targets : Line → List ℕ
  | .br d => [d]
  | .condBr _ t f => [t, f]
  | .switch _ d cases => d :: cases.map Prod.snd
  | _ => []

/-- A line that ends a block. -/
def Line.endsBlock : Line → Bool
  | .ret _ | .br _ | .condBr _ _ _ | .switch _ _ _ => true
  | _ => false

/-- The line that a terminator is translated to, when its operand is `v`. -/
def Term.line (v : EmitVal) : Term → Line
  | .ret _ => .ret v
  | .br d => .br d
  | .condBr _ t f => .condBr v t f
  | .switch _ d cases => .switch v d cases

/-- Every incoming value is stored. -/
theorem processPHIs_stores : ∀ {inputs : List (InstRef × Option Operand)} {s s' : State},
    Ownership s.ra → processPHIs c I inputs s = .ok (u, s') →
    ∀ p ∈ inputs, ∃ V v, p.2 = some V ∧ .storePhi v p.1 ∈ s'.code := by
  intro inputs
  induction inputs with
  | nil =>
    intro s s' _ _ p hp
    cases hp
  | cons q inputs ih =>
    intro s s' ho h p hp
    obtain ⟨Q, _ | V⟩ := q
    · exact (throw_ok_iff.mp h).elim
    · simp only [processPHIs, bind_ok_iff, emit_ok] at h
      obtain ⟨⟨v, k⟩, s1, hv, ⟨⟩, s2, rfl, hrest⟩ := h
      let d : Site := ⟨I, V :: inputs.filterMap Prod.snd, inputs, False, False, False⟩
      have h1 : Steps c d s s1 :=
        (translateSrcOperandToTgt_steps (d := d) List.mem_cons_self ho hv).1
      have ho1 := Steps.ownership h1 ho
      have ho2 : Ownership { s1 with code := s1.code ++ [Line.storePhi v Q] }.ra := ho1
      obtain rfl | hp := List.mem_cons.mp hp
      · have h2 : Steps c d { s1 with code := s1.code ++ [.storePhi v Q] } s' :=
          processPHIs_steps (fun q hq => ⟨hq, fun W hW =>
            List.mem_cons_of_mem _ (List.mem_filterMap.mpr ⟨q, hq, hW⟩)⟩) ho2 hrest
        obtain ⟨-, -, ls, hcode⟩ := Steps.frame h2
        refine ⟨V, v, rfl, ?_⟩
        rw [hcode]
        exact List.mem_append_left _ (List.mem_append_right _ (List.mem_singleton_self _))
      · exact ih ho2 hrest p hp

/-- A terminator stores the incoming values, translates its operand, clears the allocator if it is a
    jump, and emits its line. -/
theorem visitTerm_line {b : ℕ} {B : Block} (ho : Ownership s.ra)
    (h : visitTerm c ⟨b, B.termIdx⟩ B s = .ok (u, s')) :
    ∃ s1 s2 v, Steps c (B.termSite c.F b) s s1 ∧
      s' = { s2 with code := s2.code ++ [B.term.line v] } ∧
      (∀ V ∈ B.term.operands, OperandVal c s1 V v) ∧
      (∀ p ∈ c.F.phiInputs b B, ∃ V w, p.2 = some V ∧ .storePhi w p.1 ∈ s1.code) ∧
      (B.term.isReturn = true ∧ s2 = s1 ∨
        B.term.isReturn = false ∧ clearRA c s1 = .ok ((), s2)) := by
  have hin : ∀ p ∈ c.F.phiInputs b B, p ∈ (B.termSite c.F b).phiInputs ∧
      ∀ V, p.2 = some V → V ∈ (B.termSite c.F b).operands := fun p hp =>
    ⟨hp, fun V hV => List.mem_append_right _ (List.mem_filterMap.mpr ⟨p, hp, hV⟩)⟩
  -- a return has no successors
  have hret : ∀ {V}, B.term = .ret V → ∀ p ∈ c.F.phiInputs b B, ∀ q : Prop, q := by
    intro V hV p hp
    unfold Func.phiInputs at hp
    rw [hV] at hp
    cases hp
  -- the operand of a jump is translated after the incoming values
  have hcond : ∀ {V v k s1 s2}, B.term.operands = [V] →
      processPHIs c ⟨b, B.termIdx⟩ (c.F.phiInputs b B) s = .ok ((), s1) →
      translateSrcOperandToTgt c V ⟨b, B.termIdx⟩ s1 = .ok ((v, k), s2) →
      Steps c (B.termSite c.F b) s s2 ∧ (∀ W ∈ B.term.operands, OperandVal c s2 W v) ∧
        ∀ p ∈ c.F.phiInputs b B, ∃ W w, p.2 = some W ∧ .storePhi w p.1 ∈ s2.code := by
    intro V v k s1 s2 hV hp hv
    have h1 := processPHIs_steps (d := B.termSite c.F b) hin ho hp
    obtain ⟨h2, hval, -⟩ := translateSrcOperandToTgt_steps (d := B.termSite c.F b)
      (List.mem_append_left _ (by simp [hV])) (Steps.ownership h1 ho) hv
    obtain ⟨-, -, ls, hcode⟩ := Steps.frame h2
    refine ⟨h1.trans h2, fun W hW => ?_, fun p hmem => ?_⟩
    · rw [hV] at hW
      rw [List.mem_singleton.mp hW]
      exact hval
    · obtain ⟨W, w, hW, hw⟩ := processPHIs_stores ho hp p hmem
      exact ⟨W, w, hW, hcode ▸ List.mem_append_left _ hw⟩
  unfold visitTerm at h
  cases hterm : B.term with
  | ret V =>
    rw [hterm] at h
    cases V with
    | none =>
      rw [emit_ok] at h
      refine ⟨s, s, .const 0, .refl, h, fun W hW => ?_, fun p hp => hret hterm p hp _,
        Or.inl ⟨rfl, rfl⟩⟩
      cases hW
    | some V =>
      simp only [bind_ok_iff, emit_ok] at h
      obtain ⟨⟨v, k⟩, s1, hv, rfl⟩ := h
      obtain ⟨h1, hval, -⟩ := translateSrcOperandToTgt_steps (d := B.termSite c.F b)
        (List.mem_append_left _ (by simp [hterm, Term.operands])) ho hv
      refine ⟨s1, s1, v, h1, rfl, fun W hW => ?_, fun p hp => hret hterm p hp _,
        Or.inl ⟨rfl, rfl⟩⟩
      rw [List.mem_singleton.mp hW]
      exact hval
  | br t =>
    simp only [hterm, bind_ok_iff, emit_ok] at h
    obtain ⟨⟨⟩, s1, hp, ⟨⟩, s2, hclear, rfl⟩ := h
    refine ⟨s1, s2, .const 0, processPHIs_steps (d := B.termSite c.F b) hin ho hp, rfl,
      fun W hW => ?_, processPHIs_stores ho hp, Or.inr ⟨rfl, hclear⟩⟩
    cases hW
  | condBr cond t f =>
    simp only [hterm, bind_ok_iff, emit_ok] at h
    obtain ⟨⟨⟩, s1, hp, ⟨v, k⟩, s2, hv, ⟨⟩, s3, hclear, rfl⟩ := h
    obtain ⟨hsteps, hvals, hstores⟩ := hcond (by rw [hterm]; rfl) hp hv
    exact ⟨s2, s3, v, hsteps, rfl, hterm ▸ hvals, hstores, Or.inr ⟨rfl, hclear⟩⟩
  | switch cond t cases =>
    simp only [hterm, bind_ok_iff, emit_ok] at h
    obtain ⟨⟨⟩, s1, hp, ⟨v, k⟩, s2, hv, ⟨⟩, s3, hclear, rfl⟩ := h
    obtain ⟨hsteps, hvals, hstores⟩ := hcond (by rw [hterm]; rfl) hp hv
    exact ⟨s2, s3, v, hsteps, rfl, hterm ▸ hvals, hstores, Or.inr ⟨rfl, hclear⟩⟩

/-- A terminator is a sequence of steps and a last line. A jump has cleared the allocator before;
    a return leaves it as it is. -/
theorem visitTerm_ok {b : ℕ} {B : Block} (ho : Ownership s.ra)
    (h : visitTerm c ⟨b, B.termIdx⟩ B s = .ok (u, s')) :
    ∃ s1 s2 l, Steps c (B.termSite c.F b) s s1 ∧ s' = { s2 with code := s2.code ++ [l] } ∧
      l.endsBlock = true ∧ l.targets = B.term.successors ∧
      (B.term.isReturn = true ∧ s2 = s1 ∨
        B.term.isReturn = false ∧ clearRA c s1 = .ok ((), s2)) := by
  obtain ⟨s1, s2, v, hsteps, rfl, -, -, hret⟩ := visitTerm_line ho h
  refine ⟨s1, s2, B.term.line v, hsteps, rfl, ?_, ?_, hret⟩
  · cases B.term <;> rfl
  · cases B.term <;> rfl

/-- A terminator, with `clearRA`, is a sequence of steps and a last line. -/
theorem visitTerm_steps {b : ℕ} {B : Block} (ho : Ownership s.ra)
    (h : visitTerm c ⟨b, B.termIdx⟩ B s = .ok (u, s')) :
    ∃ s1 l, Steps c (B.termSite c.F b) s s1 ∧ s' = { s1 with code := s1.code ++ [l] } := by
  obtain ⟨s1, s2, l, h1, rfl, -, -, ⟨-, rfl⟩ | ⟨-, hclear⟩⟩ := visitTerm_ok ho h
  · exact ⟨s2, l, h1, rfl⟩
  · exact ⟨s2, l, h1.trans (clearRA_ok hclear).1, rfl⟩

/-- A terminator leaves the blocks before alone. -/
theorem visitTerm_emitted {b : ℕ} {B : Block} (ho : Ownership s.ra)
    (h : visitTerm c ⟨b, B.termIdx⟩ B s = .ok (u, s')) : s'.emitted = s.emitted := by
  obtain ⟨s1, s2, l, h1, rfl, -, -, hret⟩ := visitTerm_ok ho h
  obtain ⟨-, hem1, -⟩ := Steps.frame h1
  obtain ⟨-, rfl⟩ | ⟨-, hclear⟩ := hret
  · exact hem1
  · obtain ⟨-, hem2, -⟩ := Steps.frame (clearRA_ok (d := phiSite ⟨0, 0⟩) hclear).1
    exact hem2.trans hem1

end

end SwppCompiler.Backend
