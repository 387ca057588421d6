import SwppCompiler.Backend.Activity

/-!
# The allocation is block-level

The jump visitors call `clearRA` ("Block-level RA", `src/core/Backend.cpp`, lines 668 and 685), but
`visitReturnInst` (lines 646–653) does not: the block that follows a return block in the layout
starts with what the return block left, for which its `SourceToEmitMap` has no value.

* `Reaches.blockInv`: what holds at a point when every return block that another block follows is
  plain, that is, activates nothing.
* `Reaches.busyInv`: a block that is not plain leaves something active.
* `blockLevel_iff`: the allocation is block-level if these return blocks are plain, and only if they
  are, as long as register 16 is not reserved (a call takes it back from a result that has it).
* `not_blockLevel_twoReturns`: two blocks that return a value of the entry block.
-/

namespace SwppCompiler.Backend

open Interp Lib.StateExcept RegisterAllocator

theorem visitBasicBlock_ok {c : Ctx} {b : ℕ} {B : Block} {s s' : State} {u : Unit}
    (h : visitBasicBlock c b B s = .ok (u, s')) : s'.ra = s.ra ∧ s'.currentBlock = b ∧
      s'.adventMap = advents c.F b B ∧ (∀ I, s'.sourceToEmitMap I = none) ∧
      s'.emitted = s.emitted ∧ ∀ l ∈ s'.code, l.isPlain = true := by
  simp only [visitBasicBlock, bind_ok_iff, require_ok, modify_ok_iff] at h
  obtain ⟨⟨⟩, s1, ⟨-, rfl⟩, rfl⟩ := h
  refine ⟨rfl, rfl, rfl, fun _ => rfl, rfl, fun l hl => ?_⟩
  simp only at hl
  split_ifs at hl
  · rw [List.mem_singleton.mp hl]; rfl
  · cases hl

/-! ## Block-level allocation -/

/-- The allocation is block-level: every block starts with nothing active and at most the reference
    stack pointer reserved; whatever has a register has a value of the block; and no lookup fails. -/
structure BlockLevel (c : Ctx) : Prop where
  start : ∀ b s, b < c.F.blocks.length → Reaches c (.start b) s →
    s.ra.activeSet = [] ∧ s.ra.tempRegisters ⊆ {refSPId}
  value : ∀ b n s, Reaches c (.inst b n) s → ∀ I, s.ra.get I ≠ 0 → (s.sourceToEmitMap I).isSome
  lookup : ∀ f, visitFunction c = .error f → f ≠ .alreadyAllocated ∧ f ≠ .nullValue

/-- The function's return blocks that another block follows in the layout are plain. -/
def Func.returnsPlain (F : Func) : Bool :=
  F.blocks.dropLast.all fun B => !B.term.isReturn || B.isPlain

theorem Func.isPlain_of_returnsPlain {F : Func} (h : F.returnsPlain = true) {b : ℕ} {B : Block}
    (hB : F.blocks[b]? = some B) (hlt : b + 1 < F.blocks.length) (hret : B.term.isReturn = true) :
    B.isPlain = true := by
  have hmem : B ∈ F.blocks.dropLast := by
    refine List.mem_of_getElem? (i := b) ?_
    rw [List.getElem?_dropLast, if_pos (by omega), hB]
  simpa [hret] using List.all_eq_true.mp h B hmem

theorem Func.returnsPlain_of {F : Func} (h : ∀ b B, F.blocks[b]? = some B →
    b + 1 < F.blocks.length → B.term.isReturn = true → B.isPlain = true) :
    F.returnsPlain = true := by
  refine List.all_eq_true.mpr fun B hB => ?_
  obtain ⟨b, hb⟩ := List.mem_iff_getElem?.mp hB
  rw [List.getElem?_dropLast] at hb
  split_ifs at hb with hlt
  cases hr : B.term.isReturn with
  | true => simpa using h b B hb (by omega) hr
  | false => rfl

theorem Term.isReturn_iff {t : Term} : t.isReturn = true ↔ ∃ V, t = .ret V := by
  cases t <;> simp [Term.isReturn]

theorem Block.isPlain_iff {B : Block} : B.isPlain = true ↔
    B.phis = [] ∧ (∀ x ∈ B.body, x.isPlain = true) ∧ ∀ V ∈ B.term.operands, V.inst? = none := by
  simp [Block.isPlain, and_assoc]

variable {c : Ctx}

/-- Between two visits at most the reference stack pointer is a temporary register. -/
theorem Reaches.temps {p : Point} {s : State} (h : Reaches c p s) :
    s.ra.tempRegisters ⊆ {refSPId} := by
  induction h with
  | init => exact Finset.empty_subset _
  | begin hB hs h ih => rwa [(visitBasicBlock_ok h).1]
  | phi hB hn hs h ih =>
    rwa [Steps.temps (d := phiSite _) id (visitPHINode_steps hs.ownership h) hs.ownership]
  | inst hB hx hs h ih =>
    refine (visitInst_temps hs.ownership h).trans ?_
    exact Finset.insert_subset (Finset.mem_singleton_self _) ih
  | term hB hs h ih =>
    obtain ⟨s1, s2, l, h1, rfl, -, -, hret⟩ := visitTerm_ok hs.ownership h
    have ht1 := Steps.temps (d := Block.termSite _ _ _) id h1 hs.ownership
    obtain ⟨-, rfl⟩ | ⟨-, hclear⟩ := hret
    · exact ht1 ▸ ih
    · have ho1 := Steps.ownership h1 hs.ownership
      have ht2 := Steps.temps (d := ⟨⟨0, 0⟩, [], [], False, False, False⟩) id
        (clearRA_ok hclear).1 ho1
      exact (ht2.trans ht1) ▸ ih

/-- A return leaves nothing active iff nothing was active and it returns no instruction. -/
theorem visitTerm_ret {b : ℕ} {B : Block} {V : Option Operand} {s s' : State}
    (ho : Ownership s.ra) (hterm : B.term = .ret V)
    (h : visitTerm c ⟨b, B.termIdx⟩ B s = .ok ((), s')) :
    s'.ra.activeSet = [] ↔ s.ra.activeSet = [] ∧ V.bind Operand.inst? = none := by
  unfold visitTerm at h
  rw [hterm] at h
  cases V with
  | none =>
    rw [emit_ok] at h
    subst h
    simp
  | some V =>
    simp only [bind_ok_iff, emit_ok] at h
    obtain ⟨⟨v, k⟩, s1, hv, rfl⟩ := h
    cases hi : V.inst? with
    | none =>
      obtain ⟨rfl, -, -⟩ := translateConst_ok hi hv
      simp [hi]
    | some I =>
      obtain ⟨val, ty⟩ := V
      cases val <;> cases hi
      obtain ⟨s2, t, q, ra, hget, -, -, hu, rfl⟩ := translateInst_ok hv
      obtain ⟨l1, e, l2, -, -, -, hperm, -⟩ := update_ok hu
      have hne : ra.activeSet ≠ [] := by
        intro hnil
        rw [hnil] at hperm
        simpa using hperm.length_eq
      simp [hne, Operand.inst?]

/-- What holds at a point when the return blocks that another block follows are plain: every block
    starts with nothing active, and a plain block keeps it so. -/
def BlockInv (c : Ctx) : Point → State → Prop
  | .start b, s => b < c.F.blocks.length → s.ra.activeSet = []
  | .inst b n, s => Valued s ∧ (∀ e ∈ s.ra.activeSet, e.source.parent = b → e.source.idx < n) ∧
      ∀ B, c.F.blocks[b]? = some B → B.isPlain = true → s.ra.activeSet = []

theorem Reaches.blockInv (hF : c.F.defBeforeUse = true) (hret : c.F.returnsPlain = true) {p : Point}
    {s : State} (h : Reaches c p s) : BlockInv c p s := by
  induction h with
  | init => exact fun _ => rfl
  | begin hB hs h ih =>
    have hnil := ih (List.getElem?_eq_some_iff.mp hB).1
    rw [← (visitBasicBlock_ok h).1] at hnil
    exact ⟨fun e he => by simp [hnil] at he, fun e he => by simp [hnil] at he, fun _ _ _ => hnil⟩
  | @phi b n B s s' hB hn hs h ih =>
    have hsteps := visitPHINode_steps hs.ownership h
    refine ⟨Steps.valued hsteps hs.ownership ih.1, fun e he hb => ?_, fun B' hB' hplain => ?_⟩
    · rcases Steps.source_mem hsteps hs.ownership e he with ⟨e', he', heq⟩ | ⟨V, hV, -⟩ | ⟨-, heq⟩
      · have := ih.2.1 e' he' (heq ▸ hb)
        rw [heq] at this
        omega
      · cases hV
      · rw [heq]; exact Nat.lt_succ_self _
    · -- a plain block has no PHI nodes
      obtain rfl := Option.some.inj (hB.symm.trans hB')
      rw [(Block.isPlain_iff.mp hplain).1] at hn
      exact absurd hn (Nat.not_lt_zero _)
  | @inst b i B x s s' hB hx hs h ih =>
    have hsteps := visitInst_steps hs.ownership h
    refine ⟨Steps.valued hsteps hs.ownership ih.1, fun e he hb => ?_, fun B' hB' hplain => ?_⟩
    · rcases Steps.source_mem hsteps hs.ownership e he with
        ⟨e', he', heq⟩ | ⟨V, hV, hVe⟩ | ⟨-, heq⟩
      · have := ih.2.1 e' he' (heq ▸ hb)
        rw [heq] at this
        omega
      · have := Func.lt_of_defBeforeUse hF hB (Block.mem_uses hx hV) hVe hb
        omega
      · rw [heq]; exact Nat.lt_succ_self _
    · obtain rfl := Option.some.inj (hB.symm.trans hB')
      exact visitInst_plain ((Block.isPlain_iff.mp hplain).2.1 x (List.mem_of_getElem? hx))
        hs.ownership h (ih.2.2 B hB hplain)
  | @term b B s s' hB hs h ih =>
    intro hlt
    cases hr : B.term.isReturn with
    | true =>
      obtain ⟨V, hV⟩ := Term.isReturn_iff.mp hr
      have hplain := Func.isPlain_of_returnsPlain hret hB hlt hr
      refine (visitTerm_ret hs.ownership hV h).mpr ⟨ih.2.2 B hB hplain, ?_⟩
      have hops := (Block.isPlain_iff.mp hplain).2.2
      rw [hV] at hops
      cases V with
      | none => rfl
      | some V => exact hops V (List.mem_singleton_self _)
    | false =>
      obtain ⟨s1, s2, l, h1, rfl, -, -, ⟨htrue, -⟩ | ⟨-, hclear⟩⟩ := visitTerm_ok hs.ownership h
      · rw [hr] at htrue; cases htrue
      · exact (clearRA_ok (d := phiSite ⟨0, 0⟩) hclear).2.1

/-- What a block leaves active, as long as register 16 is not reserved: something, unless all that
    has been visited of it is plain. -/
def BusyInv (c : Ctx) : Point → State → Prop
  | .start _, s => Calm s
  | .inst b n, s => Calm s ∧ ∀ B, c.F.blocks[b]? = some B → Busy s ∨
      (n = 0 ∨ B.phis = []) ∧ ∀ i x, B.body[i]? = some x → B.phis.length + i < n → x.isPlain = true

theorem Reaches.busyInv (hF : c.F.noRef = true) {p : Point} {s : State} (h : Reaches c p s) :
    BusyInv c p s := by
  induction h with
  | init => rfl
  | begin hB hs h ih =>
    simp only [visitBasicBlock, bind_ok_iff, require_ok, modify_ok_iff] at h
    obtain ⟨⟨⟩, s1, ⟨-, rfl⟩, rfl⟩ := h
    exact ⟨ih, fun B _ => Or.inr ⟨Or.inl rfl, fun i x _ hlt => absurd hlt (Nat.not_lt_zero _)⟩⟩
  | @phi b n B s s' hB hn hs h ih =>
    obtain ⟨hc, hb⟩ := (visitPHINode_busy s ih.1).2 () s' h
    exact ⟨hc, fun _ _ => Or.inl hb⟩
  | @inst b i B x s s' hB hx hs h ih =>
    have href := Func.setsRef_of_noRef hF hB hx
    obtain ⟨hc, hnamed⟩ := visitInst_busy href ih.1 h
    refine ⟨hc, fun B' hB' => ?_⟩
    obtain rfl := Option.some.inj (hB.symm.trans hB')
    by_cases hty : x.ty = none
    · by_cases hb : Busy s ∨ ∃ V ∈ x.operands, V.inst? ≠ none
      · exact Or.inl (visitInst_void href hty ih.1 h hb)
      · -- the instruction is plain, and so is all before it
        push Not at hb
        obtain ⟨hphis, hplain⟩ := (ih.2 B hB).resolve_left hb.1
        have hnil : B.phis = [] := by
          rcases hphis with hz | hnil
          · exact List.length_eq_zero_iff.mp (by omega)
          · exact hnil
        refine Or.inr ⟨Or.inr hnil, fun j y hy hlt => ?_⟩
        by_cases hj : j = i
        · subst hj
          obtain rfl := Option.some.inj (hx.symm.trans hy)
          exact Inst.isPlain_iff.mpr ⟨hty, hb.2⟩
        · exact hplain j y hy (by omega)
    · exact Or.inl (hnamed hty)
  | @term b B s s' hB hs h ih =>
    have hc : Calm s' := (visitTerm_mode _ s ih.1).2 () s' h
    exact hc

/-- The block of a point. -/
def Point.block : Point → ℕ
  | .start b | .inst b _ => b

/-- The terminator of every block before the point has been translated. -/
theorem Reaches.term_of_lt {b : ℕ} {p : Point} {s : State}
    (h : Reaches c p s) (hp : b < p.block) : ∃ B s1 s2, c.F.blocks[b]? = some B ∧
      Reaches c (.inst b B.termIdx) s1 ∧ visitTerm c ⟨b, B.termIdx⟩ B s1 = .ok ((), s2) ∧
      Reaches c (.start (b + 1)) { s2 with emitted := s2.emitted ++ [s2.code] } := by
  induction h with
  | init => exact absurd hp (Nat.not_lt_zero _)
  | begin hB hs h ih => exact ih hp
  | phi hB hn hs h ih => exact ih hp
  | inst hB hx hs h ih => exact ih hp
  | @term d B s s' hB hs h ih =>
    rcases Nat.lt_succ_iff_lt_or_eq.mp hp with hlt | rfl
    · exact ih hlt
    · exact ⟨B, s, s', hB, hs, h, hs.term hB h⟩

/-- A return block that leaves nothing active is plain. -/
theorem Reaches.isPlain {b : ℕ} {B : Block} {s : State} (hF : c.F.noRef = true)
    (hB : c.F.blocks[b]? = some B) (hs : Reaches c (.inst b B.termIdx) s)
    (hnil : s.ra.activeSet = []) (hops : ∀ V ∈ B.term.operands, V.inst? = none) :
    B.isPlain = true := by
  obtain ⟨-, hinv⟩ := hs.busyInv hF
  obtain ⟨hphis, hbody⟩ := (hinv B hB).resolve_left fun hbusy => hbusy hnil
  refine Block.isPlain_iff.mpr ⟨?_, fun x hx => ?_, hops⟩
  · rcases hphis with hz | hnil
    · exact List.length_eq_zero_iff.mp (by unfold Block.termIdx at hz; omega)
    · exact hnil
  · obtain ⟨i, hi⟩ := List.mem_iff_getElem?.mp hx
    have hlt := (List.getElem?_eq_some_iff.mp hi).1
    exact hbody i x hi (by unfold Block.termIdx; omega)

theorem blockLevel_of_returnsPlain (hF : c.F.defBeforeUse = true)
    (hret : c.F.returnsPlain = true) : BlockLevel c := by
  have hfresh : ∀ {b n s}, Reaches c (.inst b n) s → Fresh ⟨b, n⟩ s := fun {b n s} hs => by
    obtain ⟨hval, hidx, -⟩ := hs.blockInv hF hret
    refine ⟨⟨hs.ownership, hval⟩, fun e he heq => ?_⟩
    have := hidx e he (by rw [heq])
    rw [heq] at this
    exact absurd this (lt_irrefl n)
  refine ⟨fun b s hlt hs => ⟨hs.blockInv hF hret hlt, hs.temps⟩, fun b n s hs I hI => ?_,
    fun f hf => ?_⟩
  · obtain ⟨e, he, rfl, -⟩ := mem_of_get_ne_zero hI
    exact (hs.blockInv hF hret).1 e he
  · have hnot : ¬LookupFault f := by
      cases visitFunction_error hf with
      | begin hB hs h =>
        simp only [visitBasicBlock, bind_error_iff] at h
        obtain h | ⟨⟨⟩, s1, -, h⟩ := h
        · exact (require_avoids (p := fun _ => True) _ trivial).1 f h
        · cases h
      | phi hB hn hs h => exact (visitPHINode_avoids _ (hfresh hs)).1 f h
      | inst hB hx hs h =>
        refine (visitInst_avoids (fun V hV hVU => ?_) _ (hfresh hs)).1 f h
        have := Func.lt_of_defBeforeUse hF hB (Block.mem_uses hx hV) hVU rfl
        exact absurd this (lt_irrefl _)
      | term hB hs h => exact (visitTerm_avoids _ (hfresh hs).toReady).1 f h
    exact ⟨fun h => hnot (Or.inl h), fun h => hnot (Or.inr h)⟩

/-- Once every block is translated, a return block that another block follows is plain. -/
theorem returnsPlain_of_blockLevel {s : State} (href : c.F.noRef = true)
    (hok : visitFunction c = .ok s) (hbl : BlockLevel c) : c.F.returnsPlain = true := by
  refine Func.returnsPlain_of fun b B hB hlt hr => ?_
  have hb : b < c.F.blocks.length := by omega
  obtain ⟨B', s1, s2, hB', hs1, hterm, hs2⟩ := (visitFunction_reaches hok).term_of_lt hb
  obtain rfl := Option.some.inj (hB.symm.trans hB')
  obtain ⟨V, hV⟩ := Term.isReturn_iff.mp hr
  obtain ⟨hnil, hops⟩ := (visitTerm_ret hs1.ownership hV hterm).mp (hbl.start _ _ hlt hs2).1
  refine hs1.isPlain href hB hnil fun W hW => ?_
  rw [hV] at hW
  cases V with
  | none => cases hW
  | some V =>
    rw [List.mem_singleton.mp hW]
    exact hops

/-- **Block-level allocation.** The allocation of a function is block-level if its return blocks that
    another block follows are plain: `visitReturnInst` does not clear the allocator. Where nothing
    reserves register 16 and no unsupported construct aborts the translation, only if they are. -/
theorem blockLevel_iff (hF : c.F.defBeforeUse = true) :
    (c.F.returnsPlain = true → BlockLevel c) ∧
    (c.F.noRef = true → (∀ f, visitFunction c = .error f → f = .alreadyAllocated ∨ f = .nullValue) →
      (BlockLevel c ↔ c.F.returnsPlain = true)) := by
  refine ⟨blockLevel_of_returnsPlain hF, fun href hsup =>
    ⟨fun hbl => ?_, blockLevel_of_returnsPlain hF⟩⟩
  cases h : visitFunction c with
  | ok s => exact returnsPlain_of_blockLevel href h hbl
  | error f =>
    obtain ⟨h1, h2⟩ := hbl.lookup f h
    exact ((hsup f h).elim h1 h2).elim

/-- A value of the entry block is returned by two blocks. -/
def twoReturns : Ctx where
  F :=
    { name := "f"
      blocks :=
        [ { phis := []
            body :=
              [ .load ⟨.global 0, .ptr (.int 64)⟩,
                .icmp .eq ⟨.inst ⟨0, 0⟩, .int 64⟩ ⟨.constInt 0, .int 64⟩ ]
            term := .condBr ⟨.inst ⟨0, 1⟩, .int 1⟩ 1 2 },
          { phis := [], body := [], term := .ret (some ⟨.inst ⟨0, 0⟩, .int 64⟩) },
          { phis := [], body := [], term := .ret (some ⟨.inst ⟨0, 0⟩, .int 64⟩) } ] }
  gvMap := fun _ => 0
  heapSize := 0

theorem fault_twoReturns : visitFunction twoReturns = .error .nullValue :=
  fault?_eq_some.mp (by decide +kernel)

theorem blockLevel_iff_twoReturns :
    BlockLevel twoReturns ↔ twoReturns.F.returnsPlain = true :=
  (blockLevel_iff (by decide)).2 (by decide) fun _ hf =>
    Or.inr (Except.error.inj (hf.symm.trans fault_twoReturns))

/-- The second return block starts with the value still active from the first one, where it finds
    no value. -/
theorem not_blockLevel_twoReturns :
    visitFunction twoReturns = .error .nullValue ∧ ¬BlockLevel twoReturns :=
  ⟨fault_twoReturns, fun hb => (hb.lookup _ fault_twoReturns).2 rfl⟩

end SwppCompiler.Backend
