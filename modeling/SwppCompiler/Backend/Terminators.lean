import SwppCompiler.Backend.Instructions

/-!
# PHI nodes and terminators

The first and the last lines of a block, on a machine that has every value in its place.

* `visitPHINode_computes`: a PHI node gets what is in its slot.
* `processPHIs_emulates`: the slots of the successors' PHI nodes get the incoming values.
* `visitTerm_emulates`: the last line leaves the block as the terminator does.
-/

namespace SwppCompiler.Backend.Simulation

open Interp Lib.StateExcept RegisterAllocator

/-! ## Slots of PHI nodes -/

section Slots

variable {W : World} {c : Ctx} {s s' : State} {τ τ' : Tgt} {env env' : InstRef → Word} {ls : List Line}
  {I : InstRef} {u : Unit}

/-- Without a store the slots of PHI nodes stay as they are. -/
theorem Runs.phiSlot (h : Runs W τ env ls τ' env') (hno : NoStores ls) :
    τ'.m.phiSlot = τ.m.phiSlot := by
  induction h with
  | nil => rfl
  | @cons τ τ1 τ' env env' l ls _ hstep _ ih =>
    rw [ih fun v P hmem => hno v P (List.mem_cons_of_mem l hmem)]
    obtain ⟨-, -, -, hphi⟩ := Line.exec_frame (execLine_exec hstep).1
    funext P
    apply hphi
    rintro v rfl
    exact hno v P List.mem_cons_self

/-- The visitor of a PHI node gives it what is in its slot. -/
theorem visitPHINode_computes (h : visitPHINode c I s = .ok (u, s')) :
    Computes W s s' τ env I (τ.m.phiSlot I) := by
  simp only [visitPHINode, bind_ok_iff, emit_ok, define_ok] at h
  obtain ⟨k, s1, hreq, ⟨⟩, s2, rfl, hs'⟩ := h
  obtain ⟨τ1, hem1, hun1, -, hphi⟩ := (requestRegister_spills hreq).emulates W τ env
  let τ2 : Tgt := ⟨τ1.m.setReg k (τ1.m.phiSlot I), τ1.events⟩
  have hline : execLine W τ1 (.loadPhi k I) = some τ2 := by
    simp [execLine, event?, Line.exec, τ2]
  have hem2 : Emulates W s1 { s1 with code := s1.code ++ [.loadPhi k I] } τ1 τ2 env env :=
    emulates_line rfl (by simp) hline rfl
  have hun2 : Unseen τ1 τ2 := ⟨rfl, rfl, rfl⟩
  apply Computes.after (hem1.trans hem2) (hun1.trans hun2)
  apply emulates_value _ hs'
  rw [← hphi]
  exact ⟨by simp, read_reg_setReg⟩

end Slots

/-! ## The end of a block -/

section Terminators

variable {W : World} {c : Ctx} {d : Site} {b : ℕ} {B : Block} {kept : InstRef → Prop} {s s' : State}
  {τ τ' : Tgt} {env : InstRef → Word} {u : Unit}

/-- The slot of every PHI node that `inputs` serves gets its incoming value; the last one counts, and
    they are all the same. -/
theorem processPHIs_emulates {inputs : List (InstRef × Option Operand)}
    (hin : Within c d b kept s τ.m env) (hv : Visiting c d b kept)
    (hinputs : ∀ p ∈ inputs, p ∈ d.phiInputs ∧ ∀ V, p.2 = some V → V ∈ d.operands)
    (h : processPHIs c d.user inputs s = .ok (u, s')) :
    ∃ τ', Emulates W s s' τ τ' env env ∧ Unseen τ τ' ∧ Within c d b kept s' τ'.m env ∧
      ∀ P w, (∀ V, (P, some V) ∈ inputs → V.eval c env τ.m.arg = some w) →
        (∃ V, (P, some V) ∈ inputs) ∨ τ.m.phiSlot P = w → τ'.m.phiSlot P = w := by
  induction inputs generalizing s τ with
  | nil =>
    obtain ⟨-, rfl⟩ := pure_ok_iff.mp h
    refine ⟨τ, .of_code rfl, .refl, hin, fun P w _ hw => hw.resolve_left ?_⟩
    rintro ⟨V, hV⟩
    simp at hV
  | cons p inputs ih =>
    obtain ⟨Q, _ | V⟩ := p
    · exact (throw_ok_iff.mp h).elim
    simp only [processPHIs, bind_ok_iff, emit_ok] at h
    obtain ⟨⟨v, k⟩, s1, htr, ⟨⟩, s2, rfl, hrest⟩ := h
    obtain ⟨hQ, hV⟩ := hinputs _ List.mem_cons_self
    obtain ⟨τ1, hem1, hun1, hin1, hval, hholds, hphi1⟩ := hin.translate (W := W) hv (hV V rfl) htr
    -- the store
    let τ2 : Tgt :=
      ⟨{ τ1.m with phiSlot := Function.update τ1.m.phiSlot Q (v.read τ1.m) }, τ1.events⟩
    have hline : execLine W τ1 (.storePhi v Q) = some τ2 := by
      simp [execLine, event?, Line.exec, τ2]
    have hem2 : Emulates W s1 { s1 with code := s1.code ++ [.storePhi v Q] } τ1 τ2 env env :=
      emulates_line rfl (by simp) hline rfl
    have hun2 : Unseen τ1 τ2 := ⟨rfl, rfl, rfl⟩
    have hin2 := hin1.steps hv (.single (.storePhi hQ hval)) hem2
    obtain ⟨τ3, hem3, hun3, hin3, hslots⟩ :=
      ih hin2 (fun p hp => hinputs p (List.mem_cons_of_mem _ hp)) hrest
    refine ⟨τ3, (hem1.trans hem2).trans hem3, (hun1.trans hun2).trans hun3, hin3, fun P w hw hP => ?_⟩
    apply hslots P w
    · intro V' hV'
      show V'.eval c env τ1.m.arg = some w
      rw [hun1.arg]
      exact hw V' (List.mem_cons_of_mem _ hV')
    · by_cases hPQ : P = Q
      · subst hPQ
        right
        show Function.update τ1.m.phiSlot P (v.read τ1.m) P = w
        rw [Function.update_self]
        exact (hholds w (hw V List.mem_cons_self)).2
      · obtain ⟨V', hV'⟩ | hP := hP
        · left
          refine ⟨V', (List.mem_cons.mp hV').resolve_left fun heq => hPQ ?_⟩
          exact (Prod.mk.inj heq).1
        · right
          show Function.update τ1.m.phiSlot Q (v.read τ1.m) P = w
          rw [Function.update_of_ne hPQ, hphi1]
          exact hP

theorem clearRA_emulates (hin : Within c d b kept s τ.m env) (hv : Visiting c d b kept)
    (h : clearRA c s = .ok (u, s')) :
    ∃ τ', Emulates W s s' τ τ' env env ∧ Unseen τ τ' ∧ Within c d b kept s' τ'.m env ∧
      τ'.m.reg = τ.m.reg ∧ τ'.m.phiSlot = τ.m.phiSlot := by
  obtain ⟨hsteps, -, spills, hcode, hspills⟩ := clearRA_ok (d := d) h
  have hem : Spills s s' := ⟨spills, hspills, hcode⟩
  obtain ⟨τ', hem, hun, hreg, hphi⟩ := hem.emulates W τ env
  exact ⟨τ', hem, hun, hin.steps hv hsteps hem, hreg, hphi⟩

/-- The code of a function without a result returns 0. -/
def Exit.emitted : Exit → Exit
  | .ret none => .ret (some 0)
  | e => e

/-- The code between `s` and `s'` leaves block `b`: before the last line every value is in its place
    and the slots of the successors' PHI nodes have the incoming values, and the last line goes where
    the terminator goes. -/
structure Departs (W : World) (c : Ctx) (b : ℕ) (B : Block) (kept : InstRef → Prop) (s s' : State)
    (τ τ' : Tgt) (env : InstRef → Word) (e : Exit) : Prop where
  lines : ∃ s1 l, Emulates W s s1 τ τ' env env ∧ Coherent kept s1 τ'.m env ∧
    s'.code = s1.code ++ [l] ∧ l.endsBlock = true ∧ leave τ'.m l = some e.emitted
  unseen : Unseen τ τ'
  incoming : ∀ P V w, (P, some V) ∈ c.F.phiInputs b B → V.eval c env τ.m.arg = some w →
    τ'.m.phiSlot P = w

theorem phiInputs_ret {V : Option Operand} (hB : B.term = .ret V) : c.F.phiInputs b B = [] := by
  simp [Func.phiInputs, hB, Term.successors]

theorem mem_termSite {p : InstRef × Option Operand} (hp : p ∈ c.F.phiInputs b B) :
    p ∈ (B.termSite c.F b).phiInputs ∧
      ∀ V, p.2 = some V → V ∈ (B.termSite c.F b).operands :=
  ⟨hp, fun _ hV => List.mem_append_right _ (List.mem_filterMap.mpr ⟨p, hp, hV⟩)⟩

/-- The incoming values of a jump are stored. -/
theorem storeIncoming_emulates (hin : Within c (B.termSite c.F b) b kept s τ.m env)
    (hv : Visiting c (B.termSite c.F b) b kept)
    (h : processPHIs c ⟨b, B.termIdx⟩ (c.F.phiInputs b B) s = .ok (u, s')) :
    ∃ τ', Emulates W s s' τ τ' env env ∧ Unseen τ τ' ∧
      Within c (B.termSite c.F b) b kept s' τ'.m env ∧
      ∀ P V w, (P, some V) ∈ c.F.phiInputs b B → V.eval c env τ.m.arg = some w →
        τ'.m.phiSlot P = w := by
  obtain ⟨τ', hem, hun, hin', hslots⟩ :=
    processPHIs_emulates (W := W) hin hv (fun p hp => mem_termSite hp) h
  refine ⟨τ', hem, hun, hin', fun P V w hV hw => hslots P w (fun V' hV' => ?_) (Or.inl ⟨V, hV⟩)⟩
  obtain rfl := Option.some.inj (Func.phiInputs_unique hV hV')
  exact hw

/-- A jump on the operand `V`. -/
theorem jump_emulates {V : Operand} {f : EmitVal → Line} {e : Word → Exit} {w : Word}
    (hf : ∀ v, (f v).endsBlock = true)
    (hleave : ∀ (m : Machine) v, leave m (f v) = some (e (v.read m)).emitted)
    (hterm : B.term.operands = [V]) (hin : Within c (B.termSite c.F b) b kept s τ.m env)
    (hv : Visiting c (B.termSite c.F b) b kept) (hw : V.eval c env τ.m.arg = some w)
    (h : (do
      processPHIs c ⟨b, B.termIdx⟩ (c.F.phiInputs b B)
      let (v, _) ← translateSrcOperandToTgt c V ⟨b, B.termIdx⟩
      clearRA c
      emit (f v)) s = .ok (u, s')) : ∃ τ', Departs W c b B kept s s' τ τ' env (e w) := by
  simp only [bind_ok_iff, emit_ok] at h
  obtain ⟨⟨⟩, s1, h1, ⟨v, k⟩, s2, h2, ⟨⟩, s3, h3, rfl⟩ := h
  obtain ⟨τ1, hem1, hun1, hin1, hslots⟩ := storeIncoming_emulates (W := W) hin hv h1
  have hV : V ∈ (B.termSite c.F b).operands :=
    List.mem_append_left _ (by rw [hterm]; exact List.mem_singleton_self V)
  obtain ⟨τ2, hem2, hun2, hin2, -, hholds, hphi2⟩ := hin1.translate (W := W) hv hV h2
  obtain ⟨τ3, hem3, hun3, hin3, hreg3, hphi3⟩ := clearRA_emulates (W := W) hin2 hv h3
  have hun := (hun1.trans hun2).trans hun3
  -- the spills keep the operand where it is
  have hread : v.Holds τ3.m w := by
    apply (hholds w (by rwa [hun1.arg])).congr hun3.arg
    intro j _
    rw [hreg3]
  refine ⟨τ3, ⟨⟨s3, f v, (hem1.trans hem2).trans hem3, hin3.coherent, rfl, hf v, ?_⟩, hun, ?_⟩⟩
  · rw [hleave, hread.2]
  · intro P V' w' hV' hw'
    rw [hphi3, hphi2]
    exact hslots P V' w' hV' hw'

/-- **The terminator.** -/
theorem visitTerm_emulates {e : Exit} (hin : Within c (B.termSite c.F b) b kept s τ.m env)
    (hv : Visiting c (B.termSite c.F b) b kept) (hexec : execTerm c τ.m.arg env B.term = some e)
    (h : visitTerm c ⟨b, B.termIdx⟩ B s = .ok (u, s')) :
    ∃ τ', Departs W c b B kept s s' τ τ' env e := by
  unfold visitTerm at h
  cases hterm : B.term with
  | ret V =>
    have hnone : ∀ P V', (P, some V') ∉ c.F.phiInputs b B := by
      rw [phiInputs_ret hterm]
      simp
    cases V with
    | none =>
      simp only [hterm, emit_ok] at h
      obtain rfl := h
      rw [hterm] at hexec
      obtain rfl := Option.some.inj hexec
      refine ⟨τ, ⟨⟨s, _, .of_code rfl, hin.coherent, rfl, rfl, rfl⟩, .refl, ?_⟩⟩
      exact fun P V' _ hV' => absurd hV' (hnone P V')
    | some V =>
      simp only [hterm, bind_ok_iff, emit_ok] at h
      obtain ⟨⟨v, k⟩, s1, h1, rfl⟩ := h
      rw [hterm] at hexec
      obtain ⟨w, hw, rfl⟩ := Option.map_eq_some_iff.mp hexec
      have hV : V ∈ (B.termSite c.F b).operands :=
        List.mem_append_left _ (by rw [hterm]; exact List.mem_singleton_self V)
      obtain ⟨τ1, hem, hun, hin1, -, hholds, -⟩ := hin.translate (W := W) hv hV h1
      refine ⟨τ1, ⟨⟨s1, _, hem, hin1.coherent, rfl, rfl, ?_⟩, hun, ?_⟩⟩
      · show some (Exit.ret (some (v.read τ1.m))) = some (Exit.ret (some w))
        rw [(hholds w hw).2]
      · exact fun P V' _ hV' => absurd hV' (hnone P V')
  | br t =>
    simp only [hterm, bind_ok_iff, emit_ok] at h
    obtain ⟨⟨⟩, s1, h1, ⟨⟩, s2, h2, rfl⟩ := h
    rw [hterm] at hexec
    obtain rfl := Option.some.inj hexec
    obtain ⟨τ1, hem1, hun1, hin1, hslots⟩ := storeIncoming_emulates (W := W) hin hv h1
    obtain ⟨τ2, hem2, hun2, hin2, -, hphi2⟩ := clearRA_emulates (W := W) hin1 hv h2
    refine ⟨τ2, ⟨⟨s2, .br t, hem1.trans hem2, hin2.coherent, rfl, rfl, rfl⟩, hun1.trans hun2, ?_⟩⟩
    intro P V w hV hw
    rw [hphi2]
    exact hslots P V w hV hw
  | condBr V t f =>
    simp only [hterm] at h
    rw [hterm] at hexec
    obtain ⟨w, hw, rfl⟩ := Option.map_eq_some_iff.mp hexec
    exact jump_emulates (f := fun v => .condBr v t f) (e := fun w => .jump (if w ≠ 0 then t else f))
      (fun _ => rfl) (fun _ _ => rfl) (by rw [hterm]; rfl) hin hv hw h
  | switch V t cases =>
    simp only [hterm] at h
    rw [hterm] at hexec
    obtain ⟨w, hw, rfl⟩ := Option.map_eq_some_iff.mp hexec
    exact jump_emulates (f := fun v => .switch v t cases)
      (e := fun w => .jump (((cases.find? fun p => p.1 = w).map Prod.snd).getD t))
      (fun _ => rfl) (fun _ _ => rfl) (by rw [hterm]; rfl) hin hv hw h

end Terminators

end SwppCompiler.Backend.Simulation
