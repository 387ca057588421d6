import SwppCompiler.Backend.BlockLevel

/-!
# Every fill finds its slot written

`evict` drops a victim without a store when it is defined in another block, or when the block has no
more uses of it and no other block needs it. `Run` executes the emitted code along any path;
`fill_slotFresh` says that whatever a fill reads has been stored after it was last defined.

* `SpillInv` and `Steps.spillInv`: what the translation keeps within a block. A value defined there
  is active, or stored, or dead.
* `BlockCode`: what this means for the code of the block. A value that other blocks use is stored
  when the block ends.
* `Run.inv`: what it means along a path of blocks.
-/

namespace SwppCompiler.Backend

open Interp Lib.StateExcept RegisterAllocator

/-! ## Traces -/

/-- The lines `t` execute the definition of `I`. -/
def Defined (t : List Line) (I : InstRef) : Prop := ∃ v, .value I v ∈ t

/-- The slot of `I` is written after the last execution of the definition of `I`. -/
def SlotFresh (t : List Line) (I : InstRef) : Prop :=
  ∃ t1 v t2, t = t1 ++ .value I v :: t2 ∧ ¬Defined t2 I ∧ ∃ w, .spill w I ∈ t2

section Traces

variable {t ls : List Line} {I : InstRef}

theorem Defined.append (h : Defined t I) : Defined (t ++ ls) I := by
  obtain ⟨v, hv⟩ := h
  exact ⟨v, List.mem_append_left _ hv⟩

theorem defined_append : Defined (t ++ ls) I ↔ Defined t I ∨ Defined ls I := by
  simp only [Defined, List.mem_append, exists_or]

/-- A definition that is executed has a last execution. -/
theorem Defined.last (h : Defined t I) : ∃ t1 v t2, t = t1 ++ .value I v :: t2 ∧ ¬Defined t2 I := by
  induction t using List.reverseRecOn with
  | nil => obtain ⟨v, hv⟩ := h; cases hv
  | append_singleton t l ih =>
    by_cases hl : ∃ v, l = .value I v
    · obtain ⟨v, rfl⟩ := hl
      exact ⟨t, v, [], rfl, fun ⟨w, hw⟩ => by cases hw⟩
    · have hnot : ¬Defined [l] I := fun ⟨v, hv⟩ => hl ⟨v, (List.mem_singleton.mp hv).symm⟩
      obtain ⟨t1, v, t2, rfl, ht2⟩ := ih ((defined_append.mp h).resolve_right hnot)
      refine ⟨t1, v, t2 ++ [l], by simp, fun hd => ?_⟩
      exact (defined_append.mp hd).elim ht2 hnot

theorem SlotFresh.append (h : SlotFresh t I) (hls : ¬Defined ls I) : SlotFresh (t ++ ls) I := by
  obtain ⟨t1, v, t2, rfl, ht2, w, hw⟩ := h
  refine ⟨t1, v, t2 ++ ls, by simp, fun hd => ?_, w, List.mem_append_left _ hw⟩
  exact (defined_append.mp hd).elim ht2 hls

theorem SlotFresh.prepend (h : SlotFresh t I) : SlotFresh (ls ++ t) I := by
  obtain ⟨t1, v, t2, rfl, h2⟩ := h
  exact ⟨ls ++ t1, v, t2, by simp, h2⟩

theorem Defined.spill (h : Defined t I) (w : EmitVal) : SlotFresh (t ++ [.spill w I]) I := by
  obtain ⟨t1, v, t2, rfl, ht2⟩ := h.last
  refine ⟨t1, v, t2 ++ [.spill w I], by simp, fun hd => ?_, w, by simp⟩
  rcases defined_append.mp hd with hd | ⟨v, hv⟩
  · exact ht2 hd
  · simp at hv

end Traces

/-- `I` is an operand of block `b`, or an incoming value that the terminator of `b` passes. -/
def UsedFrom (F : Func) (I : InstRef) (b : ℕ) : Prop :=
  ∃ B V, F.blocks[b]? = some B ∧ V.inst? = some I ∧
    ((∃ n, (n, V) ∈ B.uses) ∨ ∃ P, (P, some V) ∈ F.phiInputs b B)

theorem UsedFrom.used {F : Func} {I : InstRef} {b : ℕ} (h : UsedFrom F I b) :
    F.usedIn I b = true ∨ F.phiUsedFrom I b = true := by
  obtain ⟨B, V, hB, hI, ⟨n, hV⟩ | ⟨P, hV⟩⟩ := h
  · exact Or.inl (Func.usedIn_of_mem hB hV hI)
  · exact Or.inr (Func.phiUsedFrom_of_mem hV hI)

/-- In SSA form a used value of another block was defined on the way. -/
theorem UsedFrom.left {F : Func} {I : InstRef} {b : ℕ} (h : UsedFrom F I b) (hF : SSA F)
    {left : List ℕ} (hp : Path F left b) (hb : I.parent ≠ b) :
    F.hasName I = true ∧ I.parent ∈ left := by
  obtain ⟨B, V, hB, hI, ⟨n, hV⟩ | ⟨P, hV⟩⟩ := h
  · obtain ⟨hname, ⟨h, -⟩ | ⟨-, h⟩⟩ := hF.uses hp hB hV hI
    · exact absurd h hb
    · exact ⟨hname, h⟩
  · obtain ⟨hname, h⟩ := hF.inputs hp hB hV hI
    exact ⟨hname, h.resolve_left hb⟩

/-- Every fill in the code of block `b` is of a value of `b` that was stored before, or of a value of
    another block that `b` uses. -/
def FillsOk (F : Func) (b : ℕ) (code : List Line) : Prop :=
  ∀ pre k I post, code = pre ++ .fill k I :: post →
    (I.parent = b → SlotFresh pre I) ∧ (I.parent ≠ b → UsedFrom F I b)

theorem FillsOk.snoc {F : Func} {b : ℕ} {code : List Line} {l : Line} (h : FillsOk F b code)
    (hl : ∀ k I, l = .fill k I → (I.parent = b → SlotFresh code I) ∧
      (I.parent ≠ b → UsedFrom F I b)) : FillsOk F b (code ++ [l]) := by
  intro pre k I post heq
  rcases List.eq_nil_or_concat post with rfl | ⟨post, l', rfl⟩
  · obtain ⟨rfl, hlast⟩ := List.append_inj' heq rfl
    exact hl k I (List.singleton_inj.mp hlast)
  · rw [List.concat_eq_append, ← List.cons_append, ← List.append_assoc] at heq
    exact h pre k I post (List.append_inj' heq rfl).1

theorem FillsOk.append {F : Func} {b : ℕ} {code ls : List Line} (h : FillsOk F b code)
    (hls : ∀ l ∈ ls, ∀ k I, l ≠ .fill k I) : FillsOk F b (code ++ ls) := by
  induction ls using List.reverseRecOn with
  | nil => simpa using h
  | append_singleton ls l ih =>
    rw [← List.append_assoc]
    refine (ih fun l' hl' => hls l' (List.mem_append_left _ hl')).snoc fun k I heq => ?_
    exact absurd heq (hls l (by simp) k I)

/-! ## Within a block -/

/-- What the translation of block `b` keeps. A value defined in the block is active, or stored, or
    has no more use in the block and none in another one. -/
structure SpillInv (c : Ctx) (b : ℕ) (s : State) : Prop where
  block : s.currentBlock = b
  own : ∀ I, Defined s.code I → I.parent = b
  kept : ∀ I, Defined s.code I → (∃ e ∈ s.ra.activeSet, e.source = I) ∨ SlotFresh s.code I ∨
    s.adventMap I = [] ∧ c.F.finalUses b I = true
  users : ∀ e ∈ s.ra.activeSet, Defined s.code e.source → ∀ U, e.lastUser = some U → U.parent = b
  fills : FillsOk c.F b s.code

section Steps

variable {c : Ctx} {d : Site} {b : ℕ} {s s' : State}

/-- The operands at site `d` are values of block `b` that are defined by now, or used in `b`. -/
def ReadsOk (c : Ctx) (d : Site) (b : ℕ) (code : List Line) : Prop :=
  ∀ I, d.reads I → (I.parent = b → Defined code I) ∧ (I.parent ≠ b → UsedFrom c.F I b)

theorem not_defined_of_isPlain {ls : List Line} {I : InstRef}
    (h : ∀ l ∈ ls, l.isPlain = true) : ¬Defined ls I := by
  rintro ⟨v, hv⟩
  cases h _ hv

theorem not_defined_spillLines {a : Allocation InstRef} {v : EmitVal} {I : InstRef} :
    ¬Defined (spillLines c s a v) I := by
  rintro ⟨w, hw⟩
  unfold spillLines at hw
  split_ifs at hw <;> simp at hw

/-- An eviction stores the victim, or may drop it. -/
theorem SpillInv.evict (hs : SpillInv c b s) (ho : Ownership s.ra) {t : ℕ}
    {a : Allocation InstRef} {ra : RegisterAllocator InstRef} {v : EmitVal}
    (hev : s.ra.evict t = .ok (some a, ra)) :
    SpillInv c b { s with ra := ra, code := s.code ++ spillLines c s a v } := by
  obtain ⟨ha, hmem⟩ := ho.mem_evict hev
  have hdefined : ∀ {I}, Defined (s.code ++ spillLines c s a v) I → Defined s.code I := fun h =>
    (defined_append.mp h).resolve_right not_defined_spillLines
  refine ⟨hs.block, fun I h => hs.own I (hdefined h), fun I h => ?_, fun e he h => ?_, ?_⟩
  · obtain ⟨e, he, rfl⟩ | hfresh | hdead := hs.kept I (hdefined h)
    · by_cases hea : e.source = a.source
      · obtain rfl : e = a := List.inj_on_of_nodup_map ho.sources he ha hea
        by_cases hm : mustSpill c s e = true
        · right; left
          have : spillLines c s e v = [.spill v e.source] := if_pos hm
          rw [this]
          exact (hdefined h).spill v
        · -- the victim is not stored: no use is left, and it is recorded in `FinalUses`
          right; right
          have hparent := hs.own _ (hdefined h)
          simp only [mustSpill, hparent, hs.block, decide_true, Bool.true_and, Bool.or_eq_true,
            Bool.not_eq_true', not_or, Bool.not_eq_false] at hm
          obtain ⟨hempty, hlast⟩ := hm
          refine ⟨List.isEmpty_iff.mp hempty, ?_⟩
          cases hu : e.lastUser with
          | none => simp [hu] at hlast
          | some U =>
            have hU := hs.users e he (hdefined h) U hu
            simpa [hu, hU] using hlast
      · exact Or.inl ⟨e, (hmem e).mpr ⟨he, hea⟩, rfl⟩
    · exact Or.inr (Or.inl (hfresh.append not_defined_spillLines))
    · exact Or.inr (Or.inr hdead)
  · exact hs.users e ((hmem e).mp he).1 (hdefined h)
  · refine hs.fills.append fun l hl k I heq => ?_
    unfold spillLines at hl
    split_ifs at hl
    · rw [List.mem_singleton.mp hl] at heq; cases heq
    · cases hl

/-- A fill finds its slot written. -/
theorem SpillInv.fill (hs : SpillInv c b s) (ho : Ownership s.ra) {I : InstRef} {k : ℕ}
    {ra ra' : RegisterAllocator InstRef}
    (hI : (I.parent = b → Defined s.code I) ∧ (I.parent ≠ b → UsedFrom c.F I b))
    (hadv : s.adventMap I ≠ []) (hr : s.ra.request I = .ok (k, ra)) (hk : k ≠ 0)
    (hu : ra.update I none (s.nextAdvent I) = .ok ra') :
    SpillInv c b { s with
      ra := ra'
      sourceToEmitMap := Function.update s.sourceToEmitMap I (some (.reg k))
      code := s.code ++ [.fill k I] } := by
  obtain ⟨-, hidle, hmem⟩ := ho.mem_request hr hk
  obtain ⟨f, hf, hfs, hmem2⟩ := (ho.request hr).mem_update hu
  have hnot : ∀ {J}, ¬Defined [.fill k I] J := fun {J} ⟨w, hw⟩ => by simp at hw
  have hdefined : ∀ {J}, Defined (s.code ++ [.fill k I]) J → Defined s.code J := fun h =>
    (defined_append.mp h).resolve_right hnot
  refine ⟨hs.block, fun J h => hs.own J (hdefined h), fun J h => ?_, fun e he h U hU => ?_, ?_⟩
  · obtain ⟨e, he, rfl⟩ | hfresh | hdead := hs.kept J (hdefined h)
    · exact Or.inl ⟨e, (hmem2 e).mpr (Or.inl ⟨(hmem e).mpr (Or.inl he), hidle e he⟩), rfl⟩
    · exact Or.inr (Or.inl (hfresh.append hnot))
    · exact Or.inr (Or.inr hdead)
  · rcases (hmem2 e).mp he with ⟨he, hne⟩ | rfl
    · rcases (hmem e).mp he with he | rfl
      · exact hs.users e he (hdefined h) U hU
      · exact absurd rfl hne
    · cases hU
  · refine hs.fills.snoc fun k' J heq => ?_
    cases heq
    refine ⟨fun hb => ?_, hI.2⟩
    obtain ⟨e, he, hes⟩ | hfresh | ⟨hnil, -⟩ := hs.kept I (hI.1 hb)
    · exact absurd hes (hidle e he)
    · exact hfresh
    · exact absurd hnil hadv

/-- The result of a visitor is active. -/
theorem SpillInv.define (hs : SpillInv c b s) (ho : Ownership s.ra) (hb : d.user.parent = b)
    {k : ℕ} {ra ra' : RegisterAllocator InstRef} {ls : List Line} {v : EmitVal}
    (hr : s.ra.request d.user = .ok (k, ra)) (hk : k ≠ 0)
    (hu : ra.update d.user none (s.nextAdvent d.user) = .ok ra')
    (hls : ∀ l ∈ ls, (∀ I w, l ≠ .value I w) ∧ ∀ j I, l ≠ .fill j I) :
    SpillInv c b { s with
      ra := ra'
      sourceToEmitMap := Function.update s.sourceToEmitMap d.user (some v)
      code := s.code ++ ls ++ [.value d.user v] } := by
  obtain ⟨-, hidle, hmem⟩ := ho.mem_request hr hk
  obtain ⟨f, hf, hfs, hmem2⟩ := (ho.request hr).mem_update hu
  have hnot : ∀ {J}, ¬Defined ls J := fun {J} ⟨w, hw⟩ => (hls _ hw).1 J w rfl
  have hdefined : ∀ {J}, Defined (s.code ++ ls ++ [.value d.user v]) J →
      Defined s.code J ∨ J = d.user := by
    intro J h
    rcases defined_append.mp h with h | ⟨w, hw⟩
    · exact Or.inl ((defined_append.mp h).resolve_right hnot)
    · rw [List.mem_singleton] at hw
      cases hw
      exact Or.inr rfl
  have hactive : ∃ e ∈ ra'.activeSet, e.source = d.user := ⟨_, (hmem2 _).mpr (Or.inr rfl), hfs⟩
  refine ⟨hs.block, fun J h => ?_, fun J h => ?_, fun e he h U hU => ?_, ?_⟩
  · rcases hdefined h with h | rfl
    · exact hs.own J h
    · exact hb
  · by_cases hJ : J = d.user
    · exact Or.inl (hJ ▸ hactive)
    obtain ⟨e, he, rfl⟩ | hfresh | hdead := hs.kept J ((hdefined h).resolve_right hJ)
    · exact Or.inl ⟨e, (hmem2 e).mpr (Or.inl ⟨(hmem e).mpr (Or.inl he), hidle e he⟩), rfl⟩
    · refine Or.inr (Or.inl ((hfresh.append hnot).append fun ⟨w, hw⟩ => ?_))
      rw [List.mem_singleton] at hw
      cases hw
      exact hJ rfl
    · exact Or.inr (Or.inr hdead)
  · rcases (hmem2 e).mp he with ⟨he, hne⟩ | rfl
    · rcases (hmem e).mp he with he | rfl
      · exact hs.users e he ((hdefined h).resolve_right hne) U hU
      · exact absurd rfl hne
    · cases hU
  · refine (hs.fills.append fun l hl => (hls l hl).2).append fun l hl j J heq => ?_
    rw [List.mem_singleton.mp hl] at heq
    cases heq

/-- A line that is neither a definition nor a fill changes nothing. -/
theorem SpillInv.snoc (hs : SpillInv c b s) {l : Line} (hv : ∀ I w, l ≠ .value I w)
    (hf : ∀ k I, l ≠ .fill k I) : SpillInv c b { s with code := s.code ++ [l] } := by
  have hnot : ∀ {J}, ¬Defined [l] J := fun {J} ⟨w, hw⟩ => hv J w (List.mem_singleton.mp hw).symm
  have hdefined : ∀ {J}, Defined (s.code ++ [l]) J → Defined s.code J := fun h =>
    (defined_append.mp h).resolve_right hnot
  refine ⟨hs.block, fun I h => hs.own I (hdefined h), fun I h => ?_,
    fun e he h => hs.users e he (hdefined h), hs.fills.snoc fun k I heq => absurd heq (hf k I)⟩
  obtain h | hfresh | hdead := hs.kept I (hdefined h)
  · exact Or.inl h
  · exact Or.inr (Or.inl (hfresh.append hnot))
  · exact Or.inr (Or.inr hdead)

/-- The invariant depends on the active set, the queues and the code only. -/
theorem SpillInv.congr (hs : SpillInv c b s) (ha : s'.ra.activeSet = s.ra.activeSet)
    (hq : s'.adventMap = s.adventMap) (hb : s'.currentBlock = s.currentBlock)
    (hcode : s'.code = s.code) : SpillInv c b s' := by
  refine ⟨hb.trans hs.block, ?_, ?_, ?_, ?_⟩
  · rw [hcode]; exact hs.own
  · rw [hcode, ha, hq]; exact hs.kept
  · rw [hcode, ha]; exact hs.users
  · rw [hcode]; exact hs.fills

theorem Step.spillInv (h : Step c d s s') (ho : Ownership s.ra) (hb : d.user.parent = b)
    (hd : ReadsOk c d b s.code) (hs : SpillInv c b s) : SpillInv c b s' := by
  have hplain : ∀ {l : Line}, l.isPlain = true → (∀ I w, l ≠ .value I w) ∧ ∀ j I, l ≠ .fill j I :=
    fun hl => ⟨fun I w heq => (by rw [heq] at hl; cases hl),
      fun j I heq => (by rw [heq] at hl; cases hl)⟩
  cases h with
  | evict he hv => exact hs.evict ho he
  | fill hI hadv hr hk hu => exact hs.fill ho (hd _ hI) hadv hr hk hu
  | @use I t q ra v hI hadv hv hu =>
    obtain ⟨f, hf, hfs, hmem⟩ := ho.mem_update hu
    refine ⟨hs.block, hs.own, fun J h => ?_, fun e he h U hU => ?_, hs.fills⟩
    · obtain ⟨e, he, rfl⟩ | hfresh | ⟨hnil, hfinal⟩ := hs.kept J h
      · by_cases heI : e.source = I
        · exact Or.inl ⟨_, (hmem _).mpr (Or.inr rfl), hfs.trans heI.symm⟩
        · exact Or.inl ⟨e, (hmem e).mpr (Or.inl ⟨he, heI⟩), rfl⟩
      · exact Or.inr (Or.inl hfresh)
      · refine Or.inr (Or.inr ⟨?_, hfinal⟩)
        by_cases hJ : J = I
        · rw [hJ, hadv] at hnil; cases hnil
        · exact (Function.update_of_ne hJ q s.adventMap).trans hnil
    · rcases (hmem e).mp he with ⟨he, -⟩ | rfl
      · exact hs.users e he h U hU
      · cases hU; exact hb
  | takeTemp ht hr hk => exact hs.congr (ho.activeSet_requestTempRegister hr) rfl rfl rfl
  | giveTemp ht hg => exact hs.congr (activeSet_giveUpTempRegister hg) rfl rfl rfl
  | line hl hdest => exact hs.snoc (hplain hl).1 (hplain hl).2
  | define hdefined hr hk hu hlines hv =>
    exact hs.define ho hb hr hk hu fun l hl => hplain (hlines l hl).1
  | phi hdefined hr hk hu =>
    refine hs.define ho hb hr hk hu fun l hl => ?_
    rw [List.mem_singleton.mp hl]
    exact ⟨fun I w heq => (by cases heq), fun j I heq => (by cases heq)⟩
  | storePhi hP hv => exact hs.snoc (fun I w heq => by cases heq) fun j I heq => by cases heq
  | user U => exact hs.congr rfl rfl rfl rfl
  | flags r1 r2 => exact hs.congr rfl rfl rfl rfl

theorem Steps.spillInv (h : Steps c d s s') (ho : Ownership s.ra) (hb : d.user.parent = b)
    (hd : ReadsOk c d b s.code) (hs : SpillInv c b s) : SpillInv c b s' := by
  refine (h.invariant (p := fun s1 => SpillInv c b s1 ∧ ReadsOk c d b s1.code) ?_ ho
    ⟨hs, hd⟩).2.1
  rintro s1 s2 ho1 ⟨hs1, hd1⟩ hstep
  obtain ⟨-, -, ls, hcode⟩ := hstep.frame
  exact ⟨hstep.spillInv ho1 hb hd1 hs1, fun I hI =>
    ⟨fun hIb => hcode ▸ ((hd1 I hI).1 hIb).append, (hd1 I hI).2⟩⟩

end Steps

/-! ## Definitions are executed -/

section Ends

variable {c : Ctx} {U : InstRef}

/-- A program whose successful runs end in `q`. -/
def Ends {α : Type} (m : M α) (q : State → Prop) : Prop := ∀ s a s', m s = .ok (a, s') → q s'

theorem Ends.bind {α β : Type} {m : M α} {f : α → M β} {q : State → Prop}
    (h : ∀ a, Ends (f a) q) : Ends (m >>= f) q := by
  intro s b s' hok
  obtain ⟨a, s1, -, h2⟩ := bind_ok_iff.mp hok
  exact h a s1 b s' h2

theorem define_ends {v : EmitVal} : Ends (define U v) fun s => Defined s.code U := by
  intro s u s' h
  rw [define_ok.mp h]
  exact ⟨v, by simp⟩

theorem throw_ends {α : Type} {f : Fault} {q : State → Prop} : Ends (throw f : M α) q :=
  fun _ _ _ h => (throw_ok_iff.mp h).elim

/-- The visitor of an instruction that has a value emits its definition. -/
theorem visitInst_defines {x : Inst} (hx : x.hasName = true) {s s' : State} {u : Unit}
    (ho : Ownership s.ra) (h : visitInst c U x s = .ok (u, s')) : Defined s'.code U := by
  suffices hends : (∃ f args ty, x = .call f args ty) ∨
      Ends (visitInst c U x) (fun s => Defined s.code U) by
    rcases hends with ⟨f, args, ty, rfl⟩ | hends
    · simp only [visitInst, visitCallInst, bind_ok_iff] at h
      obtain ⟨⟨⟩, s1, h1, vs, s2, h2, ⟨⟩, s3, h3, h4⟩ := h
      have hcall : Defined s3.code U := by
        have hty : ty.isSome = true := hx
        unfold emitCall at h3
        rw [if_pos hty] at h3
        exact (Ends.bind fun _ => Ends.bind fun _ => define_ends) s2 () s3 h3
      have ho1 := Steps.ownership (handOverRef_steps (d := ⟨U, args, [], True, False, True⟩)
        trivial ho h1).1 ho
      have h12 := translateAll_steps (d := ⟨U, args, [], True, False, True⟩) (fun _ h => h) ho1 h2
      have ho2 := Steps.ownership h12 ho1
      have ho3 := Steps.ownership
        (emitCall_steps (d := ⟨U, args, [], True, False, True⟩) trivial ho2 h3) ho2
      obtain ⟨-, -, ls, hcode⟩ := Steps.frame
        (takeBackRef_steps (d := ⟨U, args, [], True, False, True⟩) trivial ho3 h4).1
      rw [hcode]
      exact hcall.append
    · exact hends s u s' h
  cases x with
  | alloca allocated n =>
    exact Or.inr (Ends.bind fun _ => Ends.bind fun _ => Ends.bind fun _ => Ends.bind fun _ =>
      define_ends)
  | load p =>
    right
    change Ends (visitLoadInst c U p) _
    unfold visitLoadInst
    split
    · exact Ends.bind fun _ => Ends.bind fun _ => Ends.bind fun _ => Ends.bind fun _ =>
        define_ends
    · exact throw_ends
  | store v p => cases hx
  | binary op a b =>
    right
    change Ends (visitBinaryOperator c U op a b) _
    unfold visitBinaryOperator
    split
    · exact Ends.bind fun _ => Ends.bind fun _ => Ends.bind fun _ => Ends.bind fun _ =>
        Ends.bind fun _ => Ends.bind fun _ => Ends.bind fun _ => define_ends
    · exact throw_ends
  | icmp p a b =>
    exact Or.inr (Ends.bind fun _ => Ends.bind fun _ => Ends.bind fun _ =>
      Ends.bind fun _ => Ends.bind fun _ => Ends.bind fun _ => Ends.bind fun _ => define_ends)
  | select x a b =>
    exact Or.inr (Ends.bind fun _ => Ends.bind fun _ => Ends.bind fun _ =>
      Ends.bind fun _ => Ends.bind fun _ => Ends.bind fun _ => Ends.bind fun _ => define_ends)
  | gep p idxs ty =>
    right
    change Ends (visitGetElementPtrInst c U p idxs ty) _
    unfold visitGetElementPtrInst
    split
    · exact Ends.bind fun _ => Ends.bind fun _ => Ends.bind fun _ => Ends.bind fun _ =>
        Ends.bind fun _ => Ends.bind fun _ => Ends.bind fun _ => Ends.bind fun _ =>
          Ends.bind fun _ => define_ends
    · exact throw_ends
  | sext a bw =>
    right
    change Ends (visitSExtInst c U a) _
    unfold visitSExtInst
    split
    · exact Ends.bind fun _ => Ends.bind fun _ => Ends.bind fun _ => define_ends
    · exact throw_ends
  | call f args ty => exact Or.inl ⟨f, args, ty, rfl⟩
  | _ => exact Or.inr (Ends.bind fun _ => Ends.bind fun _ => Ends.bind fun _ => define_ends)

end Ends

/-! ## The code of a block -/

/-- The definitions before instruction `n` of block `b` are executed by the code. -/
def Passed (F : Func) (b n : ℕ) (code : List Line) : Prop :=
  ∀ I, F.hasName I = true → I.parent = b → I.idx < n → Defined code I

/-- What the invariant of block `b` means for its code: definitions are those of `b`, fills find
    their slot written, and what another block uses is stored if the block jumps. -/
structure BlockCode (F : Func) (b : ℕ) (B : Block) (code : List Line) : Prop where
  own : ∀ I, Defined code I → I.parent = b
  fills : FillsOk F b code
  live : B.term.isReturn = false → ∀ I, F.hasName I = true → I.parent = b →
    F.finalUses b I = false → SlotFresh code I
  jump : ∃ pre l, code = pre ++ [l] ∧ l.targets = B.term.successors

variable {c : Ctx}

/-- The blocks before block `b` that a path reaches are translated well. -/
def EmittedOk (c : Ctx) (b : ℕ) (s : State) : Prop :=
  s.emitted.length = b ∧ ∀ b' code, s.emitted[b']? = some code →
    ∃ B, c.F.blocks[b']? = some B ∧ ∀ left, Path c.F left b' → BlockCode c.F b' B code

/-- What the translation keeps at a point. -/
def SpillPoint (c : Ctx) : Point → State → Prop
  | .start b, s => EmittedOk c b s
  | .inst b n, s => EmittedOk c b s ∧
      ∀ left, Path c.F left b → SpillInv c b s ∧ Passed c.F b n s.code

theorem Passed.mono {F : Func} {b n : ℕ} {code ls : List Line} (h : Passed F b n code) :
    Passed F b n (code ++ ls) := fun I hI hb hn => (h I hI hb hn).append

theorem Passed.succ {F : Func} {b n : ℕ} {code : List Line} (h : Passed F b n code)
    (hn : F.hasName ⟨b, n⟩ = true → Defined code ⟨b, n⟩) : Passed F b (n + 1) code := by
  intro I hI hb hlt
  rcases Nat.lt_succ_iff_lt_or_eq.mp hlt with hlt | heq
  · exact h I hI hb hlt
  · obtain rfl : I = ⟨b, n⟩ := by cases I; simp_all
    exact hn hI

/-- In SSA form the operands of an instruction are defined by now, or used in the block. -/
theorem readsOk_inst (hF : SSA c.F) {b i : ℕ} {B : Block} {x : Inst} {left : List ℕ} {s : State}
    (hp : Path c.F left b) (hB : c.F.blocks[b]? = some B) (hx : B.body[i]? = some x)
    (hpass : Passed c.F b (B.phis.length + i) s.code) :
    ReadsOk c (x.site c s ⟨b, B.phis.length + i⟩) b s.code := by
  rintro I ⟨V, hV, hI⟩
  have huse := Block.mem_uses hx hV
  obtain ⟨hname, ⟨hb, hlt⟩ | ⟨hb, -⟩⟩ := hF.uses hp hB huse hI
  · exact ⟨fun _ => hpass I hname hb hlt, fun h => absurd hb h⟩
  · exact ⟨fun h => absurd h hb, fun _ => ⟨B, V, hB, hI, Or.inl ⟨_, huse⟩⟩⟩

/-- The same for a terminator and the incoming values that it passes. -/
theorem readsOk_term (hF : SSA c.F) {b : ℕ} {B : Block} {left : List ℕ} {s : State}
    (hp : Path c.F left b) (hB : c.F.blocks[b]? = some B)
    (hpass : Passed c.F b B.termIdx s.code) : ReadsOk c (B.termSite c.F b) b s.code := by
  rintro I ⟨V, hV, hI⟩
  rcases List.mem_append.mp hV with hV | hV
  · have huse := Block.mem_uses_term hV
    obtain ⟨hname, ⟨hb, hlt⟩ | ⟨hb, -⟩⟩ := hF.uses hp hB huse hI
    · exact ⟨fun _ => hpass I hname hb hlt, fun h => absurd hb h⟩
    · exact ⟨fun h => absurd h hb, fun _ => ⟨B, V, hB, hI, Or.inl ⟨_, huse⟩⟩⟩
  · obtain ⟨⟨P, V'⟩, hmem, rfl⟩ := List.mem_filterMap.mp hV
    obtain ⟨hname, -⟩ := hF.inputs hp hB hmem hI
    refine ⟨fun hb => hpass I hname hb ?_, fun _ => ⟨B, V, hB, hI, Or.inr ⟨P, hmem⟩⟩⟩
    obtain ⟨B', hB', hlt⟩ := Func.idx_lt_of_hasName hname
    rw [hb, hB] at hB'
    cases hB'
    exact hlt

/-- The code of a block after its terminator. -/
theorem SpillInv.blockCode (hF : SSA c.F) {b : ℕ} {B : Block} {left : List ℕ} {s s' : State}
    (hp : Path c.F left b) (hB : c.F.blocks[b]? = some B) (ho : Ownership s.ra)
    (hs : SpillInv c b s) (hpass : Passed c.F b B.termIdx s.code)
    (h : visitTerm c ⟨b, B.termIdx⟩ B s = .ok ((), s')) : BlockCode c.F b B s'.code := by
  obtain ⟨s1, s2, l, h1, rfl, hends, htargets, hret⟩ := visitTerm_ok ho h
  have hs1 := Steps.spillInv h1 ho rfl (readsOk_term hF hp hB hpass) hs
  have hs2 : SpillInv c b s2 ∧ (B.term.isReturn = false → s2.ra.activeSet = []) ∧
      ∃ ls, s2.code = s1.code ++ ls := by
    obtain ⟨hret, rfl⟩ | ⟨-, hclear⟩ := hret
    · exact ⟨hs1, fun h => by simp [hret] at h, [], by simp⟩
    · obtain ⟨h2, hnil, ls, hcode, -⟩ :=
        clearRA_ok (d := ⟨⟨b, B.termIdx⟩, [], [], False, False, False⟩) hclear
      refine ⟨Steps.spillInv h2 (Steps.ownership h1 ho) rfl ?_ hs1, fun _ => hnil, ls, hcode⟩
      rintro I ⟨V, hV, -⟩
      cases hV
  obtain ⟨hs2, hnil, ls2, hcode2⟩ := hs2
  obtain ⟨-, -, ls1, hcode1⟩ := Steps.frame h1
  have hlast : (∀ I w, l ≠ .value I w) ∧ ∀ k I, l ≠ .fill k I :=
    ⟨fun I w heq => (by rw [heq] at hends; cases hends),
      fun k I heq => (by rw [heq] at hends; cases hends)⟩
  have hs3 := hs2.snoc hlast.1 hlast.2
  refine ⟨hs3.own, hs3.fills, fun hjump I hname hb hlive => ?_, s2.code, l, rfl, htargets⟩
  obtain ⟨B', hB', hlt⟩ := Func.idx_lt_of_hasName hname
  rw [hb, hB] at hB'
  cases hB'
  have hdefined : Defined (s2.code ++ [l]) I := by
    rw [hcode2, hcode1]
    exact (((hpass I hname hb hlt).append).append).append
  obtain ⟨e, he, -⟩ | hfresh | ⟨-, hdead⟩ := hs3.kept I hdefined
  · rw [hnil hjump] at he; cases he
  · exact hfresh
  · rw [hlive] at hdead; cases hdead

/-- A place of a list with one more element. -/
theorem getElem?_snoc {α : Type} {l : List α} {x y : α} {i : ℕ} (h : (l ++ [x])[i]? = some y) :
    l[i]? = some y ∨ i = l.length ∧ x = y := by
  rcases Nat.lt_or_ge i l.length with hlt | hge
  · rw [List.getElem?_append_left hlt] at h
    exact Or.inl h
  · rw [List.getElem?_append_right hge] at h
    obtain ⟨hlt, hx⟩ := List.getElem?_eq_some_iff.mp h
    rw [List.length_singleton] at hlt
    exact Or.inr ⟨by omega, by simpa using hx⟩

theorem Reaches.spillPoint (hF : SSA c.F) {p : Point} {s : State} (h : Reaches c p s) :
    SpillPoint c p s := by
  induction h with
  | init => exact ⟨rfl, fun b' code h => by simp [initState] at h⟩
  | @begin b B s s' hB hs h ih =>
    obtain ⟨-, hblock, -, -, hem, hplain⟩ := visitBasicBlock_ok h
    have hnot : ∀ {I}, ¬Defined s'.code I := not_defined_of_isPlain hplain
    refine ⟨?_, fun left hp => ⟨⟨hblock, fun I h => absurd h hnot, fun I h => absurd h hnot,
      fun e he h => absurd h hnot, fun pre k I post heq => ?_⟩, fun I _ _ hlt => by omega⟩⟩
    · unfold EmittedOk
      rw [hem]
      exact ih
    · have := hplain (.fill k I) (by rw [heq]; simp)
      cases this
  | @phi b n B s s' hB hn hs h ih =>
    have hsteps := visitPHINode_steps hs.ownership h
    obtain ⟨-, hem, ls, hcode⟩ := Steps.frame hsteps
    refine ⟨by unfold EmittedOk; rw [hem]; exact ih.1, fun left hp => ?_⟩
    obtain ⟨hinv, hpass⟩ := ih.2 left hp
    refine ⟨Steps.spillInv hsteps hs.ownership rfl ?_ hinv, ?_⟩
    · rintro I ⟨V, hV, -⟩
      cases hV
    · refine Passed.succ (hcode ▸ hpass.mono) fun _ => ?_
      exact (Ends.bind fun _ => Ends.bind fun _ => define_ends) s () s' h
  | @inst b i B x s s' hB hx hs h ih =>
    have hsteps := visitInst_steps hs.ownership h
    obtain ⟨-, hem, ls, hcode⟩ := Steps.frame hsteps
    refine ⟨by unfold EmittedOk; rw [hem]; exact ih.1, fun left hp => ?_⟩
    obtain ⟨hinv, hpass⟩ := ih.2 left hp
    refine ⟨Steps.spillInv hsteps hs.ownership rfl (readsOk_inst hF hp hB hx hpass) hinv, ?_⟩
    refine Passed.succ (hcode ▸ hpass.mono) fun hname => ?_
    rw [Func.hasName_body hB hx] at hname
    exact visitInst_defines hname hs.ownership h
  | @term b B s s' hB hs h ih =>
    obtain ⟨⟨hlen, hcodes⟩, hinv⟩ := ih
    have hem := visitTerm_emitted hs.ownership h
    refine ⟨by simp [hem, hlen], fun b' code hcode => ?_⟩
    simp only [hem] at hcode
    obtain hcode | ⟨rfl, rfl⟩ := getElem?_snoc hcode
    · exact hcodes b' code hcode
    · rw [hlen]
      exact ⟨B, hB, fun left hp =>
        (hinv left hp).1.blockCode hF hp hB hs.ownership (hinv left hp).2 h⟩

/-! ## Along a path -/

/-- A run of the emitted code: the lines executed so far, and the lines of the block ahead. Any jump
    of a block may be taken. -/
inductive Run (codes : List (List Line)) : List Line → List Line → Prop
  | start {code : List Line} (h : codes[0]? = some code) : Run codes [] code
  | line {t rest : List Line} {l : Line} (h : Run codes t (l :: rest)) (hrest : rest ≠ []) :
      Run codes (t ++ [l]) rest
  | jump {t : List Line} {l : Line} {b : ℕ} {code : List Line} (h : Run codes t [l])
      (hb : b ∈ l.targets) (hcode : codes[b]? = some code) : Run codes (t ++ [l]) code

/-- What a run keeps: it is at some place of a block that a path reaches, and the values of the
    blocks before that other blocks use are stored. -/
structure RunInv (c : Ctx) (codes : List (List Line)) (t rest : List Line) (left : List ℕ) (b : ℕ)
    (B : Block) (t0 pre : List Line) : Prop where
  path : Path c.F left b
  code : codes[b]? = some (pre ++ rest)
  block : c.F.blocks[b]? = some B
  trace : t = t0 ++ pre
  stored : ∀ I, I.parent ∈ left → c.F.hasName I = true → c.F.finalUses I.parent I = false →
    SlotFresh t0 I

/-- The lines of a block that other blocks need not redefine keep a slot fresh. -/
theorem BlockCode.not_defined {F : Func} {b : ℕ} {B : Block} {pre rest : List Line}
    (h : BlockCode F b B (pre ++ rest)) {I : InstRef} (hI : I.parent ≠ b) : ¬Defined pre I :=
  fun hd => hI (h.own I hd.append)

theorem Run.inv {codes : List (List Line)}
    (hcodes : ∀ b code, codes[b]? = some code →
      ∃ B, c.F.blocks[b]? = some B ∧ ∀ left, Path c.F left b → BlockCode c.F b B code)
    {t rest : List Line} (h : Run codes t rest) :
    ∃ left b B t0 pre, RunInv c codes t rest left b B t0 pre := by
  induction h with
  | @start code h =>
    obtain ⟨B, hB, -⟩ := hcodes 0 code h
    exact ⟨[], 0, B, [], [], .entry, h, hB, rfl, fun I hI => by cases hI⟩
  | @line t rest l h hrest ih =>
    obtain ⟨left, b, B, t0, pre, hinv⟩ := ih
    refine ⟨left, b, B, t0, pre ++ [l], hinv.path, ?_, hinv.block, ?_, hinv.stored⟩
    · rw [hinv.code]; simp
    · rw [hinv.trace]; simp
  | @jump t l b' code h hb' hcode ih =>
    obtain ⟨left, b, B, t0, pre, hinv⟩ := ih
    obtain ⟨B', hB', -⟩ := hcodes b' code hcode
    obtain ⟨B2, hB2, hblock⟩ := hcodes b _ hinv.code
    rw [hinv.block] at hB2
    cases hB2
    have hbc := hblock left hinv.path
    have htargets : l.targets = B.term.successors := by
      obtain ⟨pre', l', heq, htargets⟩ := hbc.jump
      rw [List.singleton_inj.mp (List.append_inj' heq rfl).2]
      exact htargets
    have hp : Path c.F (b :: left) b' := .edge hinv.path hinv.block (htargets ▸ hb')
    refine ⟨b :: left, b', B', t ++ [l], [], hp, hcode, hB', by simp, fun I hI hname hlive => ?_⟩
    rw [hinv.trace, List.append_assoc]
    by_cases hIb : I.parent = b
    · -- the block that defines `I` was just left: it stored what other blocks use
      have hret : B.term.isReturn = false := by
        have := hp.isReturnBlock b List.mem_cons_self
        rwa [Func.isReturnBlock, hinv.block] at this
      exact (hbc.live hret I hname hIb (hIb ▸ hlive)).prepend
    · have hmem : I.parent ∈ left := (List.mem_cons.mp hI).resolve_left hIb
      exact (hinv.stored I hmem hname hlive).append fun hd => hIb (hbc.own I hd)

/-- **Spill completeness.** Whenever a run of the emitted code executes a fill of `I`, the slot of
    `I` has been written since the last execution of the definition of `I`. -/
theorem fill_slotFresh (hF : SSA c.F) {s : State} (h : visitFunction c = .ok s) {t rest : List Line}
    {k : ℕ} {I : InstRef} (hrun : Run s.emitted t (.fill k I :: rest)) : SlotFresh t I := by
  obtain ⟨-, hcodes⟩ := (visitFunction_reaches h).spillPoint hF
  obtain ⟨left, b, B, t0, pre, hinv⟩ := hrun.inv hcodes
  obtain ⟨B2, hB2, hblock⟩ := hcodes b _ hinv.code
  have hbc := hblock left hinv.path
  obtain ⟨hlocal, hforeign⟩ := hbc.fills pre k I rest rfl
  rw [hinv.trace]
  by_cases hIb : I.parent = b
  · exact (hlocal hIb).prepend
  · have hused := hforeign hIb
    obtain ⟨hname, hmem⟩ := hused.left hF hinv.path hIb
    have hlt : b < c.F.blocks.length := (List.getElem?_eq_some_iff.mp hB2).1
    have hlive := Func.not_finalUses hlt hIb hused.used (hinv.path.isReturnBlock _ hmem)
    exact (hinv.stored I hmem hname hlive).append (hbc.not_defined hIb)

/-- A value that is returned by the next block. -/
def nextBlock : Ctx where
  F :=
    { name := "f"
      blocks :=
        [ { phis := [], body := [.load ⟨.global 0, .ptr (.int 64)⟩], term := .br 1 },
          { phis := [], body := [], term := .ret (some ⟨.inst ⟨0, 0⟩, .int 64⟩) } ] }
  gvMap := fun _ => 0
  heapSize := 0

/-- Its only path. -/
theorem path_nextBlock {left : List ℕ} {b : ℕ} (h : Path nextBlock.F left b) :
    left = [] ∧ b = 0 ∨ left = [0] ∧ b = 1 := by
  induction h with
  | entry => exact Or.inl ⟨rfl, rfl⟩
  | edge hp hB ht ih =>
    obtain ⟨rfl, rfl⟩ | ⟨rfl, rfl⟩ := ih <;> cases hB
    · exact Or.inr ⟨rfl, List.mem_singleton.mp ht⟩
    · cases ht

theorem ssa_nextBlock : SSA nextBlock.F where
  uses := by
    intro left b B n V I hp hB hV hI
    obtain ⟨rfl, rfl⟩ | ⟨rfl, rfl⟩ := path_nextBlock hp <;> cases hB
    · have hV : (n, V) = (0, ⟨.global 0, .ptr (.int 64)⟩) := List.mem_singleton.mp hV
      cases hV
      cases hI
    · have hV : (n, V) = (0, ⟨.inst ⟨0, 0⟩, .int 64⟩) := List.mem_singleton.mp hV
      cases hV
      cases hI
      decide
  inputs := by
    intro left b B P V I hp hB hV hI
    obtain ⟨rfl, rfl⟩ | ⟨rfl, rfl⟩ := path_nextBlock hp <;> cases hB <;> cases hV

/-- The fill of the second block. -/
theorem fill_slotFresh_nextBlock :
    SlotFresh [.load 1 8 (.const 0), .value ⟨0, 0⟩ (.reg 1), .spill (.reg 1) ⟨0, 0⟩, .br 1]
      ⟨0, 0⟩ := by
  obtain ⟨s, hs, hcodes⟩ := emitted?_eq_some.mp (show emitted? nextBlock = some
    [[.load 1 8 (.const 0), .value ⟨0, 0⟩ (.reg 1), .spill (.reg 1) ⟨0, 0⟩, .br 1],
      [.fill 1 ⟨0, 0⟩, .ret (.reg 1)]] by decide +kernel)
  suffices hrun : Run s.emitted [.load 1 8 (.const 0), .value ⟨0, 0⟩ (.reg 1),
      .spill (.reg 1) ⟨0, 0⟩, .br 1] [.fill 1 ⟨0, 0⟩, .ret (.reg 1)] from
    fill_slotFresh ssa_nextBlock hs hrun
  rw [hcodes]
  refine .jump (t := [.load 1 8 (.const 0), .value ⟨0, 0⟩ (.reg 1), .spill (.reg 1) ⟨0, 0⟩])
    (b := 1) ?_ (by decide) rfl
  exact .line (t := [.load 1 8 (.const 0), .value ⟨0, 0⟩ (.reg 1)])
    (.line (t := [.load 1 8 (.const 0)]) (.line (t := []) (.start rfl) (by decide)) (by decide))
    (by decide)

end SwppCompiler.Backend
