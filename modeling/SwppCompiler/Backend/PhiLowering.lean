import SwppCompiler.Backend.Spills
import SwppCompiler.Backend.Machine

/-!
# PHI nodes are copied in parallel

A terminator stores the incoming values of all its successors' PHI nodes in slots of their own, then
translates its condition; a block starts by loading its PHI nodes from there (`src/core/Backend.cpp`,
lines 654–726).

* `Holds`: a register holds an instruction's value since it was filled or defined. `Held` says that
  the translation reads a PHI node from a register that holds it, and nowhere else.
* `MachineRun`: a run of the emitted code, with the value of every instruction beside the machine.
* `phisCopied`: along every edge each PHI node takes its incoming value as it was at the end of the
  block that control comes from, the condition is evaluated on the same values, and wherever a PHI
  node is read later it has the value that it got last.
-/

namespace SwppCompiler.Backend

open Interp Lib.StateExcept RegisterAllocator

/-! ## Registers that hold PHI nodes -/

/-- The instruction is a PHI node. -/
def Func.IsPhi (F : Func) (I : InstRef) : Prop := I.idx < (F.phis I.parent).length

/-- After the lines `t`, register `k` holds `I`: it was filled or defined there, and neither the
    register was written nor `I` defined again since. -/
def Holds (t : List Line) (k : ℕ) (I : InstRef) : Prop :=
  ∃ t1 l t2, t = t1 ++ l :: t2 ∧ (l = .fill k I ∨ l = .value I (.reg k)) ∧
    (∀ l' ∈ t2, l'.dest? ≠ some k) ∧ ¬Defined t2 I

section Holds

variable {t ls : List Line} {l : Line} {k : ℕ} {I : InstRef}

theorem Holds.append (h : Holds t k I) (hdest : ∀ l ∈ ls, l.dest? ≠ some k)
    (hdef : ¬Defined ls I) : Holds (t ++ ls) k I := by
  obtain ⟨t1, l, t2, rfl, hl, hdest2, hdef2⟩ := h
  refine ⟨t1, l, t2 ++ ls, by simp, hl, fun l' hl' => ?_, fun hd => ?_⟩
  · exact (List.mem_append.mp hl').elim (hdest2 l') (hdest l')
  · exact (defined_append.mp hd).elim hdef2 hdef

theorem Holds.prepend (h : Holds t k I) : Holds (ls ++ t) k I := by
  obtain ⟨t1, l, t2, rfl, h⟩ := h
  exact ⟨ls ++ t1, l, t2, by simp, h⟩

theorem Holds.snoc (h : Holds t k I) (hdest : l.dest? ≠ some k) (hdef : ∀ v, l ≠ .value I v) :
    Holds (t ++ [l]) k I := by
  refine h.append (fun l' hl' => ?_) fun ⟨v, hv⟩ => ?_
  · rw [List.mem_singleton.mp hl']
    exact hdest
  · exact hdef v (List.mem_singleton.mp hv).symm

theorem holds_fill : Holds (t ++ [.fill k I]) k I :=
  ⟨t, _, [], rfl, Or.inl rfl, by simp, by simp [Defined]⟩

theorem holds_value : Holds (t ++ [.value I (.reg k)]) k I :=
  ⟨t, _, [], rfl, Or.inr rfl, by simp, by simp [Defined]⟩

/-- What one more line does. -/
theorem holds_snoc (h : Holds (t ++ [l]) k I) :
    l = .fill k I ∨ l = .value I (.reg k) ∨
      Holds t k I ∧ l.dest? ≠ some k ∧ ∀ v, l ≠ .value I v := by
  obtain ⟨t1, l', t2, heq, hl', hdest, hdef⟩ := h
  rcases List.eq_nil_or_concat t2 with rfl | ⟨t2, l2, rfl⟩
  · obtain ⟨-, hlast⟩ := List.append_inj' heq rfl
    rw [List.singleton_inj.mp hlast]
    exact hl'.elim Or.inl fun h => Or.inr (Or.inl h)
  · rw [List.concat_eq_append, ← List.cons_append, ← List.append_assoc] at heq
    obtain ⟨rfl, hlast⟩ := List.append_inj' heq rfl
    obtain rfl := List.singleton_inj.mp hlast
    refine Or.inr (Or.inr ⟨⟨t1, l', t2, rfl, hl', ?_, ?_⟩, ?_, ?_⟩)
    · exact fun l' hl' => hdest l' (by simp [hl'])
    · exact fun ⟨v, hv⟩ => hdef ⟨v, by simp [hv]⟩
    · exact hdest l (by simp)
    · exact fun v hv => hdef ⟨v, by simp [hv]⟩

end Holds

/-- In the code after the lines `t`, the operand `V` is read as `v`: a PHI node from a register that
    holds it. -/
def ReadAs (c : Ctx) (t : List Line) (V : Operand) (v : EmitVal) : Prop :=
  match V.val with
  | .inst I => c.F.IsPhi I → ∃ k, v = .reg k ∧ Holds t k I
  | .arg n => v = .arg n
  | .constInt w => v = .const w
  | .null => v = .const 0
  | .undefValue => v = .undefValue
  | .global g => v = .const (c.gvMap g)

/-- A spill keeps where an operand is read. -/
theorem ReadAs.append_spills {c : Ctx} {t ls : List Line} {V : Operand} {v : EmitVal}
    (h : ReadAs c t V v) (hls : ∀ l ∈ ls, l.isSpill = true) : ReadAs c (t ++ ls) V v := by
  obtain ⟨val, ty⟩ := V
  cases val with
  | inst I =>
    intro hphi
    obtain ⟨k, rfl, hold⟩ := h hphi
    refine ⟨k, rfl, hold.append (fun l hl heq => ?_) fun ⟨w, hw⟩ => nomatch hls _ hw⟩
    cases l with
    | spill => cases heq
    | _ => cases hls _ hl
  | _ => exact h

/-- No incoming value has been stored. -/
def NoStores (t : List Line) : Prop := ∀ v P, .storePhi v P ∉ t

/-- What is true of a line of block `b`, after the lines `pre` of the block. A PHI node is stored
    from a register that holds it, an incoming value is stored from where it is, a PHI node is
    defined by loading it, before any incoming value is stored, and the block ends in its own jump,
    on its own condition. -/
def LineOk (c : Ctx) (b : ℕ) (B : Block) (pre : List Line) : Line → Prop
  | .spill w I => c.F.IsPhi I → ∃ k, w = .reg k ∧ Holds pre k I
  | .storePhi v P => ∃ V, (P, some V) ∈ c.F.phiInputs b B ∧ ReadAs c pre V v
  | .loadPhi _ _ => NoStores pre
  | .value I v =>
    NoStores pre ∧ (c.F.IsPhi I → ∃ k pre', v = .reg k ∧ pre = pre' ++ [.loadPhi k I])
  | l => l.endsBlock = true → ∃ v, l = B.term.line v ∧ ∀ V ∈ B.term.operands, ReadAs c pre V v

/-- What the translation of block `b` keeps. An active PHI node is held by its register. -/
structure Held (c : Ctx) (b : ℕ) (B : Block) (s : State) : Prop where
  active : ∀ e ∈ s.ra.activeSet, c.F.IsPhi e.source → ∀ v, s.sourceToEmitMap e.source = some v →
    v = .reg e.regId ∧ Holds s.code e.regId e.source
  lines : ∀ pre l post, s.code = pre ++ l :: post → LineOk c b B pre l

section Held

variable {c : Ctx} {d : Site} {b : ℕ} {B : Block} {s s' : State}

theorem lineOk_of_isPlain {pre : List Line} {l : Line} (hl : l.isPlain = true) :
    LineOk c b B pre l := by
  cases l with
  | alloca | load | store | bop | select | copy | call => exact fun h => nomatch h
  | _ => cases hl

theorem lineOk_of_endsBlock {pre : List Line} {l : Line} (hl : l.endsBlock = true)
    (h : ∃ v, l = B.term.line v ∧ ∀ V ∈ B.term.operands, ReadAs c pre V v) : LineOk c b B pre l := by
  cases l with
  | ret | br | condBr | switch => exact fun _ => h
  | _ => cases hl

theorem LineOk.term {pre : List Line} {l : Line} (h : LineOk c b B pre l)
    (hl : l.endsBlock = true) :
    ∃ v, l = B.term.line v ∧ ∀ V ∈ B.term.operands, ReadAs c pre V v := by
  cases l with
  | ret | br | condBr | switch => exact h rfl
  | _ => cases hl

theorem NoStores.append {t ls : List Line} (ht : NoStores t) (hls : ∀ l ∈ ls, l.isPlain = true) :
    NoStores (t ++ ls) := by
  intro v P hmem
  obtain hmem | hmem := List.mem_append.mp hmem
  · exact ht v P hmem
  · cases hls _ hmem

/-- An operand that has been translated is read like this. -/
theorem Held.readAs (hs : Held c b B s) {V : Operand} {v : EmitVal} (h : OperandVal c s V v) :
    ReadAs c s.code V v := by
  obtain ⟨val, ty⟩ := V
  cases val with
  | inst I =>
    intro hphi
    obtain ⟨hget, hval⟩ := h
    obtain ⟨e, he, rfl, -⟩ := mem_of_get_ne_zero hget
    exact ⟨e.regId, hs.active e he hphi v hval⟩
  | _ => exact h

/-- Who is active after a register has been given to `I`. -/
theorem mem_alloc {ra ra1 ra2 : RegisterAllocator InstRef} {I : InstRef} {k n : ℕ}
    {U : Option InstRef} (ho : Ownership ra) (hr : ra.request I = .ok (k, ra1)) (hk : k ≠ 0)
    (hu : ra1.update I U n = .ok ra2) {e : Allocation InstRef} (he : e ∈ ra2.activeSet) :
    e ∈ ra.activeSet ∧ e.source ≠ I ∧ e.regId ≠ k ∨ e.source = I ∧ e.regId = k := by
  obtain ⟨hfree, hfresh, hmem⟩ := ho.mem_request hr hk
  obtain ⟨f, hf, hfs, hmem2⟩ := (ho.request hr).mem_update hu
  obtain ⟨he, hne⟩ | rfl := (hmem2 e).mp he
  · obtain he | rfl := (hmem e).mp he
    · refine Or.inl ⟨he, hne, fun heq => ?_⟩
      exact ho.active_disjoint_free (List.mem_map_of_mem he) (heq ▸ hfree)
    · exact absurd rfl hne
  · obtain hf | rfl := (hmem f).mp hf
    · exact absurd hfs (hfresh f hf)
    · exact Or.inr ⟨rfl, rfl⟩

/-- A line that is emitted keeps what was true of the lines before. -/
theorem Held.snoc (hs : Held c b B s) {l : Line}
    (hactive : ∀ e ∈ s'.ra.activeSet, c.F.IsPhi e.source → ∀ v,
      s'.sourceToEmitMap e.source = some v → v = .reg e.regId ∧ Holds s'.code e.regId e.source)
    (hcode : s'.code = s.code ++ [l]) (hl : LineOk c b B s.code l) : Held c b B s' := by
  refine ⟨hactive, fun pre x post heq => ?_⟩
  rw [hcode] at heq
  rcases List.eq_nil_or_concat post with rfl | ⟨post, y, rfl⟩
  · obtain ⟨rfl, hx⟩ := List.append_inj' heq rfl
    rw [← List.singleton_inj.mp hx]
    exact hl
  · rw [List.concat_eq_append, ← List.cons_append, ← List.append_assoc] at heq
    exact hs.lines pre x post (List.append_inj' heq rfl).1

/-- Nothing is emitted, and every active PHI node was active. -/
theorem Held.congr (hs : Held c b B s) (hcode : s'.code = s.code)
    (hactive : ∀ e ∈ s'.ra.activeSet, ∃ e' ∈ s.ra.activeSet, e'.source = e.source ∧
      e'.regId = e.regId) (hmap : s'.sourceToEmitMap = s.sourceToEmitMap) : Held c b B s' := by
  refine ⟨fun e he hphi v hv => ?_, ?_⟩
  · obtain ⟨e', he', hsrc, hreg⟩ := hactive e he
    rw [← hsrc] at hphi hv ⊢
    rw [← hreg, hcode]
    rw [hmap] at hv
    exact hs.active e' he' hphi v hv
  · rw [hcode]
    exact hs.lines

/-- A line that writes no register of a PHI node and defines nothing. -/
theorem Held.line (hs : Held c b B s) {l : Line} (hvalue : ∀ I v, l ≠ .value I v)
    (hdest : ∀ e ∈ s.ra.activeSet, c.F.IsPhi e.source → l.dest? ≠ some e.regId)
    (hl : LineOk c b B s.code l) : Held c b B { s with code := s.code ++ [l] } := by
  refine hs.snoc (fun e he hphi v hv => ?_) rfl hl
  obtain ⟨hreg, hold⟩ := hs.active e he hphi v hv
  exact ⟨hreg, hold.snoc (hdest e he hphi) (hvalue e.source)⟩

theorem Held.plainLines (hs : Held c b B s) {ls : List Line} (hls : ∀ l ∈ ls, l.isPlain = true)
    (hdest : ∀ e ∈ s.ra.activeSet, c.F.IsPhi e.source → ∀ l ∈ ls, l.dest? ≠ some e.regId) :
    Held c b B { s with code := s.code ++ ls } := by
  induction ls generalizing s with
  | nil =>
    rw [List.append_nil]
    exact hs
  | cons l ls ih =>
    have hl := hls l List.mem_cons_self
    have hstep : Held c b B { s with code := s.code ++ [l] } := by
      refine hs.line (fun I v heq => ?_) (fun e he hphi => hdest e he hphi l List.mem_cons_self)
        (lineOk_of_isPlain hl)
      rw [heq] at hl
      cases hl
    have hrest := ih hstep (fun l' hl' => hls l' (List.mem_cons_of_mem l hl'))
      fun e he hphi l' hl' => hdest e he hphi l' (List.mem_cons_of_mem l hl')
    rw [← List.singleton_append (l := ls), ← List.append_assoc]
    exact hrest

/-- The visitor of a PHI node loads it into its register. -/
theorem Held.phi (hs : Held c b B s) (ho : Ownership s.ra) (hstores : NoStores s.code)
    {P : InstRef} {k : ℕ} {ra ra' : RegisterAllocator InstRef}
    (hr : s.ra.request P = .ok (k, ra)) (hk : k ≠ 0)
    (hu : ra.update P none (s.nextAdvent P) = .ok ra') :
    Held c b B { s with
      ra := ra'
      sourceToEmitMap := Function.update s.sourceToEmitMap P (some (.reg k))
      code := s.code ++ [.loadPhi k P] ++ [.value P (.reg k)] } := by
  have hload : Held c b B { s with code := s.code ++ [.loadPhi k P] } := by
    refine hs.line nofun (fun e he _ heq => ?_) hstores
    obtain rfl : k = e.regId := Option.some.inj heq
    exact ho.active_disjoint_free (List.mem_map_of_mem he) (ho.mem_request hr hk).1
  refine hload.snoc (fun e he hphi v hv => ?_) rfl ⟨?_, fun _ => ⟨k, s.code, rfl, rfl⟩⟩
  · obtain ⟨he, hne, hreg⟩ | ⟨rfl, rfl⟩ := mem_alloc ho hr hk hu he
    · obtain ⟨hv, hold⟩ := hload.active e he hphi v ((Function.update_of_ne hne ..).symm.trans hv)
      exact ⟨hv, hold.snoc nofun fun w hw => hne (Line.value.inj hw).1.symm⟩
    · have hv : Function.update s.sourceToEmitMap e.source (some (.reg e.regId)) e.source =
          some v := hv
      rw [Function.update_self] at hv
      exact ⟨(Option.some.inj hv).symm, holds_value⟩
  · intro v Q hmem
    obtain hmem | hmem := List.mem_append.mp hmem
    · exact hstores v Q hmem
    · cases List.mem_singleton.mp hmem

/-- **A step reads PHI nodes from registers that hold them.** -/
theorem Step.held (h : Step c d s s') (ho : Ownership s.ra)
    (hinputs : ∀ p ∈ d.phiInputs, p ∈ c.F.phiInputs b B)
    (hd : d.defines → ¬c.F.IsPhi d.user ∧ NoStores s.code) (hs : Held c b B s) :
    Held c b B s' := by
  cases h with
  | user U => exact hs.congr rfl (fun e he => ⟨e, he, rfl, rfl⟩) rfl
  | @evict t a ra v he hv =>
    obtain ⟨ha, hmem⟩ := ho.mem_evict he
    have hactive : ∀ e ∈ ra.activeSet, e ∈ s.ra.activeSet := fun e he => ((hmem e).mp he).1
    unfold spillLines
    split
    · next hmust =>
      refine hs.snoc (fun e he hphi w hw => ?_) rfl fun hphi => ?_
      · obtain ⟨hreg, hold⟩ := hs.active e (hactive e he) hphi w hw
        exact ⟨hreg, hold.snoc nofun nofun⟩
      · exact ⟨a.regId, hs.active a ha hphi v (hv hmust)⟩
    · exact hs.congr (List.append_nil _) (fun e he => ⟨e, hactive e he, rfl, rfl⟩) rfl
  | @fill I k ra ra' hI hadv hr hk hu =>
    refine hs.snoc (fun e he hphi v hv => ?_) rfl nofun
    obtain ⟨he, hne, hreg⟩ | ⟨rfl, rfl⟩ := mem_alloc ho hr hk hu he
    · obtain ⟨hv, hold⟩ := hs.active e he hphi v ((Function.update_of_ne hne ..).symm.trans hv)
      exact ⟨hv, hold.snoc (fun heq => hreg (Option.some.inj heq).symm) nofun⟩
    · have hv : Function.update s.sourceToEmitMap e.source (some (.reg e.regId)) e.source =
          some v := hv
      rw [Function.update_self] at hv
      exact ⟨(Option.some.inj hv).symm, holds_fill⟩
  | use hI hadv hv hu =>
    obtain ⟨f, hf, hfs, hmem⟩ := ho.mem_update hu
    refine hs.congr rfl (fun e he => ?_) rfl
    obtain ⟨he, -⟩ | rfl := (hmem e).mp he
    · exact ⟨e, he, rfl, rfl⟩
    · exact ⟨f, hf, rfl, rfl⟩
  | takeTemp ht hr hk =>
    refine hs.congr rfl (fun e he => ⟨e, ?_, rfl, rfl⟩) rfl
    rwa [← ho.activeSet_requestTempRegister hr]
  | giveTemp ht hg =>
    refine hs.congr rfl (fun e he => ⟨e, ?_, rfl, rfl⟩) rfl
    rwa [← activeSet_giveUpTempRegister hg]
  | line hl hdest =>
    refine hs.line (fun I v heq => ?_) (fun e he _ hk => hdest _ hk (List.mem_map_of_mem he))
      (lineOk_of_isPlain hl)
    rw [heq] at hl
    cases hl
  | @define k ra ra' ls v hdef hr hk hu hlines hval =>
    obtain ⟨huser, hstores⟩ := hd hdef
    -- the visited instruction is no PHI node, and its register is that of none
    have hother : ∀ e ∈ ra'.activeSet, c.F.IsPhi e.source →
        e ∈ s.ra.activeSet ∧ e.source ≠ d.user ∧ e.regId ≠ k := by
      intro e he hphi
      obtain hold | ⟨hsrc, -⟩ := mem_alloc ho hr hk hu he
      · exact hold
      · exact absurd (hsrc ▸ hphi) huser
    have h1 : Held c b B { s with
        ra := ra', sourceToEmitMap := Function.update s.sourceToEmitMap d.user (some v) } := by
      refine ⟨fun e he hphi w hw => ?_, hs.lines⟩
      obtain ⟨he, hne, -⟩ := hother e he hphi
      exact hs.active e he hphi w ((Function.update_of_ne hne ..).symm.trans hw)
    have h2 := h1.plainLines (fun l hl => (hlines l hl).1) fun e he hphi l hl heq =>
      (hother e he hphi).2.2 (Option.some.inj (heq.symm.trans (hlines l hl).2))
    refine h2.snoc (fun e he hphi w hw => ?_) rfl
      ⟨hstores.append fun l hl => (hlines l hl).1, fun hphi => absurd hphi huser⟩
    obtain ⟨hreg, hold⟩ := h2.active e he hphi w hw
    refine ⟨hreg, hold.snoc nofun fun x hx => ?_⟩
    exact (hother e he hphi).2.1 (Line.value.inj hx).1.symm
  | phi hdef hr hk hu => exact hs.phi ho (hd hdef).2 hr hk hu
  | storePhi hP hv =>
    refine hs.snoc (fun e he hphi w hw => ?_) rfl ⟨_, hinputs _ hP, hs.readAs hv⟩
    obtain ⟨hreg, hold⟩ := hs.active e he hphi w hw
    exact ⟨hreg, hold.snoc nofun nofun⟩
  | flags refSet refSpilled => exact hs.congr rfl (fun e he => ⟨e, he, rfl, rfl⟩) rfl

/-- Only a terminator stores incoming values. -/
theorem Step.noStores (h : Step c d s s') (hd : d.phiInputs = []) (hs : NoStores s.code) :
    NoStores s'.code := by
  have hsnoc : ∀ {t : List Line} {l : Line}, NoStores t → (∀ v P, l ≠ .storePhi v P) →
      NoStores (t ++ [l]) := by
    intro t l ht hl v P hmem
    obtain hmem | hmem := List.mem_append.mp hmem
    · exact ht v P hmem
    · exact hl v P (List.mem_singleton.mp hmem).symm
  cases h with
  | evict he hv =>
    unfold spillLines
    split
    · exact hsnoc hs nofun
    · rw [List.append_nil]
      exact hs
  | fill hI hadv hr hk hu => exact hsnoc hs nofun
  | line hl hdest => exact hs.append fun l' hl' => List.mem_singleton.mp hl' ▸ hl
  | define hdef hr hk hu hlines hv =>
    exact hsnoc (hs.append fun l hl => (hlines l hl).1) nofun
  | phi hdef hr hk hu => exact hsnoc (hsnoc hs nofun) nofun
  | storePhi hP hv =>
    rw [hd] at hP
    cases hP
  | _ => exact hs

/-- What a visit of another instruction than a PHI node keeps. -/
theorem Steps.held (h : Steps c d s s') (ho : Ownership s.ra)
    (hinputs : ∀ p ∈ d.phiInputs, p ∈ c.F.phiInputs b B)
    (hd : d.defines → ¬c.F.IsPhi d.user ∧ d.phiInputs = [] ∧ NoStores s.code)
    (hs : Held c b B s) : Held c b B s' := by
  refine (h.invariant (p := fun s1 => Held c b B s1 ∧ (d.defines → NoStores s1.code)) ?_ ho
    ⟨hs, fun hdef => (hd hdef).2.2⟩).2.1
  rintro s1 s2 ho1 ⟨hs1, hstores⟩ hstep
  refine ⟨hstep.held ho1 hinputs (fun hdef => ⟨(hd hdef).1, hstores hdef⟩) hs1, fun hdef => ?_⟩
  exact hstep.noStores (hd hdef).2.1 (hstores hdef)

theorem Steps.noStores (h : Steps c d s s') (hd : d.phiInputs = []) (hs : NoStores s.code) :
    NoStores s'.code := by
  induction h with
  | refl => exact hs
  | tail _ hstep ih => exact hstep.noStores hd ih

end Held

/-! ## The code of a block -/

/-- What this means for the code of block `b`. Moreover every PHI node of the block is loaded, and
    every incoming value of a successor's PHI node is stored. -/
structure PhiCode (c : Ctx) (b : ℕ) (B : Block) (code : List Line) : Prop where
  lines : ∀ pre l post, code = pre ++ l :: post → LineOk c b B pre l
  defines : ∀ I, c.F.IsPhi I → I.parent = b → Defined code I
  stores : ∀ p ∈ c.F.phiInputs b B, ∃ V v, p.2 = some V ∧ .storePhi v p.1 ∈ code
  ends : ∃ pre v, code = pre ++ [B.term.line v]

/-- The blocks before block `b` are translated so. -/
def EmittedPhis (c : Ctx) (b : ℕ) (s : State) : Prop :=
  s.emitted.length = b ∧ ∀ b' code, s.emitted[b']? = some code →
    ∃ B, c.F.blocks[b']? = some B ∧ PhiCode c b' B code

/-- What the translation keeps at a point. -/
def PhiPoint (c : Ctx) : Point → State → Prop
  | .start b, s => EmittedPhis c b s
  | .inst b n, s => EmittedPhis c b s ∧ NoStores s.code ∧ Passed c.F b n s.code ∧
      ∀ B, c.F.blocks[b]? = some B → Held c b B s

variable {c : Ctx}

theorem visitPHINode_held {b : ℕ} {B : Block} {I : InstRef} {s s' : State} {u : Unit}
    (ho : Ownership s.ra) (hstores : NoStores s.code) (hs : Held c b B s)
    (h : visitPHINode c I s = .ok (u, s')) : Held c b B s' := by
  simp only [visitPHINode, bind_ok_iff, emit_ok, define_ok] at h
  obtain ⟨k, s1, hreq, ⟨⟩, s2, rfl, rfl⟩ := h
  obtain ⟨s0, ra, ra', hev, hr, hk, hu, rfl⟩ := requestRegister_ok ho hreq
  have h0 : Steps c ⟨I, [], [], False, False, False⟩ s s0 := steps_of_evicted hev
  have hs0 : Held c b B s0 :=
    Steps.held h0 ho (fun p hp => absurd hp List.not_mem_nil) False.elim hs
  exact hs0.phi (Steps.ownership h0 ho) (Steps.noStores h0 rfl hstores) hr hk hu

theorem Func.phis_eq {F : Func} {b : ℕ} {B : Block} (hB : F.blocks[b]? = some B) :
    F.phis b = B.phis := by
  unfold phis
  rw [hB]

/-- An instruction of the body is no PHI node. -/
theorem Func.not_isPhi_body {F : Func} {b i : ℕ} {B : Block} (hB : F.blocks[b]? = some B) :
    ¬F.IsPhi ⟨b, B.phis.length + i⟩ := by
  show ¬B.phis.length + i < (F.phis b).length
  rw [Func.phis_eq hB]
  omega

theorem Func.IsPhi.hasName {F : Func} {I : InstRef} (h : F.IsPhi I) : F.hasName I = true := by
  unfold IsPhi at h
  obtain ⟨B, hB⟩ : ∃ B, F.blocks[I.parent]? = some B := by
    cases hB : F.blocks[I.parent]? with
    | none =>
      unfold phis at h
      rw [hB] at h
      cases h
    | some B => exact ⟨B, rfl⟩
  rw [Func.phis_eq hB] at h
  unfold Func.hasName Func.node?
  rw [hB]
  simp [h]

theorem visitInst_held {b i : ℕ} {B : Block} {x : Inst} {s s' : State} {u : Unit}
    (hB : c.F.blocks[b]? = some B) (ho : Ownership s.ra) (hstores : NoStores s.code)
    (hs : Held c b B s) (h : visitInst c ⟨b, B.phis.length + i⟩ x s = .ok (u, s')) :
    Held c b B s' :=
  Steps.held (visitInst_steps ho h) ho nofun
    (fun _ => ⟨Func.not_isPhi_body hB, rfl, hstores⟩) hs

theorem Term.line_ne_value {t : Term} {v w : EmitVal} {I : InstRef} : t.line v ≠ .value I w := by
  intro h
  cases t <;> cases h

/-- The code of a block after its terminator. -/
theorem Held.phiCode {b : ℕ} {B : Block} {s s' : State} {u : Unit} (hs : Held c b B s)
    (hB : c.F.blocks[b]? = some B) (ho : Ownership s.ra) (hpass : Passed c.F b B.termIdx s.code)
    (h : visitTerm c ⟨b, B.termIdx⟩ B s = .ok (u, s')) : PhiCode c b B s'.code := by
  obtain ⟨s1, s2, v, h1, rfl, hvals, hstores, hret⟩ := visitTerm_line ho h
  have hs1 : Held c b B s1 := Steps.held h1 ho (fun p hp => hp) nofun hs
  have ho1 := Steps.ownership h1 ho
  -- the spills of a jump keep the registers
  have hs2 : Held c b B s2 ∧ ∃ ls, s2.code = s1.code ++ ls ∧ ∀ l ∈ ls, l.isSpill = true := by
    obtain ⟨-, rfl⟩ | ⟨-, hclear⟩ := hret
    · exact ⟨hs1, [], (List.append_nil _).symm, nofun⟩
    · obtain ⟨h2, -, hls⟩ := clearRA_ok (d := ⟨⟨b, B.termIdx⟩, [], [], False, False, False⟩) hclear
      exact ⟨Steps.held h2 ho1 nofun nofun hs1, hls⟩
  obtain ⟨hs2, ls, hcode, hspills⟩ := hs2
  have hread : ∀ V ∈ B.term.operands, ReadAs c s2.code V v := by
    intro V hV
    rw [hcode]
    exact (hs1.readAs (hvals V hV)).append_spills hspills
  have hs3 : Held c b B { s2 with code := s2.code ++ [B.term.line v] } := by
    refine hs2.line (fun _ _ => Term.line_ne_value) (fun e _ _ heq => ?_) ?_
    · cases hterm : B.term <;> rw [hterm] at heq <;> cases heq
    · exact lineOk_of_endsBlock (by cases B.term <;> rfl) ⟨v, rfl, hread⟩
  refine ⟨hs3.lines, fun I hphi hI => ?_, fun p hp => ?_, s2.code, v, rfl⟩
  · obtain ⟨-, -, ls1, hcode1⟩ := Steps.frame h1
    rw [hcode, hcode1]
    refine (((hpass I hphi.hasName hI ?_).append).append).append
    have hlt : I.idx < (c.F.phis I.parent).length := hphi
    rw [hI, Func.phis_eq hB] at hlt
    unfold Block.termIdx
    omega
  obtain ⟨V, w, hV, hw⟩ := hstores p hp
  refine ⟨V, w, hV, List.mem_append_left _ ?_⟩
  rw [hcode]
  exact List.mem_append_left _ hw

theorem Reaches.phiPoint {p : Point} {s : State} (h : Reaches c p s) : PhiPoint c p s := by
  induction h with
  | init => exact ⟨rfl, fun b' code h => by simp [initState] at h⟩
  | @begin b B s s' hB hs h ih =>
    obtain ⟨-, -, -, hmap, hem, hplain⟩ := visitBasicBlock_ok h
    refine ⟨?_, ?_, fun I _ _ hlt => by omega, fun B' hB' =>
      ⟨fun e _ _ v hv => ?_, fun pre l post heq => ?_⟩⟩
    · unfold EmittedPhis
      rw [hem]
      exact ih
    · exact fun v P hmem => by cases hplain _ hmem
    · rw [hmap] at hv
      cases hv
    · exact lineOk_of_isPlain (hplain l (by rw [heq]; simp))
  | @phi b n B s s' hB hn hs h ih =>
    have hsteps := visitPHINode_steps hs.ownership h
    obtain ⟨-, hem, ls, hcode⟩ := Steps.frame hsteps
    obtain ⟨hemitted, hstores, hpass, hheld⟩ := ih
    refine ⟨by unfold EmittedPhis; rw [hem]; exact hemitted, Steps.noStores hsteps rfl hstores,
      Passed.succ (hcode ▸ hpass.mono) fun _ => ?_,
      fun B' hB' => visitPHINode_held hs.ownership hstores (hheld B' hB') h⟩
    exact (Ends.bind fun _ => Ends.bind fun _ => define_ends) s () s' h
  | @inst b i B x s s' hB hx hs h ih =>
    have hsteps := visitInst_steps hs.ownership h
    obtain ⟨-, hem, ls, hcode⟩ := Steps.frame hsteps
    obtain ⟨hemitted, hstores, hpass, hheld⟩ := ih
    refine ⟨by unfold EmittedPhis; rw [hem]; exact hemitted, Steps.noStores hsteps rfl hstores,
      Passed.succ (hcode ▸ hpass.mono) fun hname => ?_, fun B' hB' => ?_⟩
    · rw [Func.hasName_body hB hx] at hname
      exact visitInst_defines hname hs.ownership h
    · obtain rfl : B = B' := Option.some.inj (hB.symm.trans hB')
      exact visitInst_held hB hs.ownership hstores (hheld B hB) h
  | @term b B s s' hB hs h ih =>
    obtain ⟨⟨hlen, hcodes⟩, -, hpass, hheld⟩ := ih
    have hem := visitTerm_emitted hs.ownership h
    refine ⟨by simp [hem, hlen], fun b' code hcode => ?_⟩
    simp only [hem] at hcode
    obtain hcode | ⟨rfl, rfl⟩ := getElem?_snoc hcode
    · exact hcodes b' code hcode
    · rw [hlen]
      exact ⟨B, hB, (hheld B hB).phiCode hB hs.ownership hpass h⟩

/-! ## Runs with values -/

/-- What a line leaves alone. -/
theorem Line.exec_frame {A : Answer} {m m' : Machine} {l : Line} (h : l.exec A m = some m') :
    m'.arg = m.arg ∧ (∀ k, l.dest? ≠ some k → m'.reg k = m.reg k) ∧
      (∀ I, (∀ w, l ≠ .spill w I) → m'.slot I = m.slot I) ∧
      ∀ P, (∀ v, l ≠ .storePhi v P) → m'.phiSlot P = m.phiSlot P := by
  have hset : ∀ {m0 : Machine} {k j : ℕ} {w : Word}, some k ≠ some j →
      (m0.setReg k w).reg j = m0.reg j := fun hne =>
    Machine.setReg_reg_of_ne fun heq => hne (congrArg some heq.symm)
  cases l with
  | spill v I =>
    cases h
    exact ⟨rfl, fun _ _ => rfl,
      fun J hJ => Function.update_of_ne (fun heq => hJ v (congrArg (Line.spill v) heq.symm)) ..,
      fun _ _ => rfl⟩
  | storePhi v P =>
    cases h
    exact ⟨rfl, fun _ _ => rfl, fun _ _ => rfl,
      fun Q hQ => Function.update_of_ne (fun heq => hQ v (congrArg (Line.storePhi v) heq.symm)) ..⟩
  | bop k kind a b bw =>
    obtain ⟨size, -, h⟩ := Option.bind_eq_some_iff.mp h
    split at h
    · cases h
      exact ⟨rfl, fun _ hk => hset hk, fun _ _ => rfl, fun _ _ => rfl⟩
    · cases h
  | call k f args =>
    cases k with
    | none =>
      cases h
      exact ⟨rfl, fun _ _ => rfl, fun _ _ => rfl, fun _ _ => rfl⟩
    | some k =>
      cases h
      exact ⟨rfl, fun _ hk => hset hk, fun _ _ => rfl, fun _ _ => rfl⟩
  | alloca | fill | loadPhi | load | select | copy =>
    cases h
    exact ⟨rfl, fun _ hk => hset hk, fun _ _ => rfl, fun _ _ => rfl⟩
  | store | ret | br | condBr | switch | value =>
    cases h
    exact ⟨rfl, fun _ _ => rfl, fun _ _ => rfl, fun _ _ => rfl⟩

/-- The block that a terminator jumps to when its operand is `w`. -/
def Term.dest (w : Word) : Term → Option ℕ
  | .ret _ => none
  | .br d => some d
  | .condBr _ t f => some (if w ≠ 0 then t else f)
  | .switch _ d cases => some (((cases.find? fun p => p.1 = w).map Prod.snd).getD d)

/-- The block that a line jumps to. -/
def Line.next (m : Machine) : Line → Option ℕ
  | .br d => some d
  | .condBr v t f => some (if v.read m ≠ 0 then t else f)
  | .switch v d cases => some (((cases.find? fun p => p.1 = v.read m).map Prod.snd).getD d)
  | _ => none

/-- A place in a run of the emitted code: the lines of the blocks before, those of this block that
    are done, and those ahead. `env` has the value of every instruction that was executed last, `edge`
    the block that control came from and the values at its end. -/
structure Config where
  before : List Line
  done : List Line
  rest : List Line
  block : ℕ
  m : Machine
  env : InstRef → Word
  edge : Option (ℕ × (InstRef → Word))

/-- The values after a line: the definition of `I` gives `I` its value. -/
def Line.bind (m : Machine) (env : InstRef → Word) : Line → InstRef → Word
  | .value I v => Function.update env I (v.read m)
  | _ => env

/-- An instruction other than a PHI node that a terminator of the source reads is where the emitted
    terminator reads it. -/
def OthersRight (c : Ctx) (g : Config) : Line → Prop
  | .storePhi v P => ∀ B V I, c.F.blocks[g.block]? = some B → (P, some V) ∈ c.F.phiInputs g.block B →
      V.inst? = some I → ¬c.F.IsPhi I → v.read g.m = g.env I
  | .condBr v _ _ | .switch v _ _ => ∀ B V I, c.F.blocks[g.block]? = some B →
      V ∈ B.term.operands → V.inst? = some I → ¬c.F.IsPhi I → v.read g.m = g.env I
  | _ => True

/-- A run of the emitted code. The values of instructions other than PHI nodes are taken to be in the
    registers that the terminators read. -/
inductive MachineRun (c : Ctx) (codes : List (List Line)) : Config → Prop
  | start {code : List Line} {m : Machine} {env : InstRef → Word} (hcode : codes[0]? = some code) :
      MachineRun c codes ⟨[], [], code, 0, m, env, none⟩
  | line {g : Config} {l : Line} {rest : List Line} {A : Answer} {m' : Machine}
      (h : MachineRun c codes g) (hl : g.rest = l :: rest) (hrest : rest ≠ [])
      (hright : OthersRight c g l) (hexec : l.exec A g.m = some m') :
      MachineRun c codes { g with
        done := g.done ++ [l], rest := rest, m := m', env := l.bind g.m g.env }
  | jump {g : Config} {l : Line} {b : ℕ} {code : List Line}
      (h : MachineRun c codes g) (hl : g.rest = [l]) (hright : OthersRight c g l)
      (hb : l.next g.m = some b) (hcode : codes[b]? = some code) :
      MachineRun c codes
        ⟨g.before ++ g.done ++ [l], [], code, b, g.m, g.env, some (g.block, g.env)⟩

/-- The operand `V` has the value `w`, when the instructions have the values `env`. Any word is a
    value of an undefined operand. -/
def HasValue (c : Ctx) (arg : ℕ → Word) (env : InstRef → Word) (V : Operand) (w : Word) : Prop :=
  match V.val with
  | .inst I => w = env I
  | .arg n => w = arg n
  | .constInt v => w = v
  | .null => w = 0
  | .undefValue => True
  | .global g => w = c.gvMap g

/-- What a run keeps. A register that holds a PHI node, and the slot of one that was stored since it
    was defined, have its value; a PHI node's own slot has the incoming value from when it is stored
    until it is loaded. -/
structure MachineInv (c : Ctx) (codes : List (List Line)) (g : Config) : Prop where
  run : Run codes (g.before ++ g.done) g.rest
  code : codes[g.block]? = some (g.done ++ g.rest)
  held : ∀ k I, c.F.IsPhi I → Holds (g.before ++ g.done) k I → g.m.reg k = g.env I
  slots : ∀ I, c.F.IsPhi I → SlotFresh (g.before ++ g.done) I → g.m.slot I = g.env I
  stored : ∀ B, c.F.blocks[g.block]? = some B → ∀ v P, .storePhi v P ∈ g.done →
    ∀ V, (P, some V) ∈ c.F.phiInputs g.block B → HasValue c g.m.arg g.env V (g.m.phiSlot P)
  loaded : ∀ pre k P, g.done = pre ++ [.loadPhi k P] → g.m.reg k = g.m.phiSlot P
  incoming : ∀ a env, g.edge = some (a, env) → ∃ A, c.F.blocks[a]? = some A ∧
    g.block ∈ A.term.successors ∧
    (∀ p ∈ c.F.phiInputs a A, ∃ V, p.2 = some V) ∧
    (NoStores g.done → ∀ P V, (P, some V) ∈ c.F.phiInputs a A →
      HasValue c g.m.arg env V (g.m.phiSlot P)) ∧
    ∀ P V, c.F.IsPhi P → Defined g.done P → (P, some V) ∈ c.F.phiInputs a A →
      HasValue c g.m.arg env V (g.env P)

section MachineInv

variable {codes : List (List Line)} {g : Config} {l : Line} {I P : InstRef}

theorem Line.bind_of_ne {m : Machine} {env : InstRef → Word} (h : ∀ v, l ≠ .value I v) :
    l.bind m env I = env I := by
  cases l with
  | value J v => exact Function.update_of_ne (fun heq => h v (congrArg (Line.value · v) heq.symm)) ..
  | _ => rfl

theorem Line.mem_targets {m : Machine} {b : ℕ} (h : l.next m = some b) :
    l.endsBlock = true ∧ b ∈ l.targets := by
  cases l with
  | br d =>
    cases h
    exact ⟨rfl, List.mem_singleton_self _⟩
  | condBr v t f =>
    refine ⟨rfl, ?_⟩
    obtain rfl := Option.some.inj h
    split_ifs
    · exact List.mem_cons_self
    · exact List.mem_cons_of_mem _ (List.mem_singleton_self f)
  | switch v d cases =>
    refine ⟨rfl, ?_⟩
    obtain rfl := Option.some.inj h
    cases hfind : cases.find? fun p => p.1 = v.read m with
    | none => exact List.mem_cons_self
    | some p =>
      exact List.mem_cons_of_mem _ (List.mem_map_of_mem (List.mem_of_find?_eq_some hfind))
  | _ => cases h

theorem Term.next_line {t : Term} {m : Machine} {v : EmitVal} :
    (t.line v).next m = t.dest (v.read m) := by
  cases t <;> rfl

/-- What one more line does to a slot. -/
theorem slotFresh_snoc {t : List Line} (h : SlotFresh (t ++ [l]) I) :
    (∃ w, l = .spill w I) ∨ SlotFresh t I ∧ ∀ v, l ≠ .value I v := by
  obtain ⟨t1, v, t2, heq, hdef, w, hw⟩ := h
  rcases List.eq_nil_or_concat t2 with rfl | ⟨t2, l2, rfl⟩
  · cases hw
  · rw [List.concat_eq_append, ← List.cons_append, ← List.append_assoc] at heq
    obtain ⟨rfl, hlast⟩ := List.append_inj' heq rfl
    obtain rfl := List.singleton_inj.mp hlast
    rw [List.concat_eq_append] at hw hdef
    obtain hw | hw := List.mem_append.mp hw
    · refine Or.inr ⟨⟨t1, v, t2, rfl, fun hd => hdef hd.append, w, hw⟩, fun x hx => ?_⟩
      exact hdef ⟨x, List.mem_append_right _ (List.mem_singleton.mpr hx.symm)⟩
    · exact Or.inl ⟨w, (List.mem_singleton.mp hw).symm⟩

/-- A PHI node has one incoming value for a block. -/
theorem Func.mem_phiInputs {F : Func} {b : ℕ} {B : Block} {x : Option Operand} :
    (P, x) ∈ F.phiInputs b B ↔ P.parent ∈ B.term.successors ∧
      ∃ φ, (F.phis P.parent)[P.idx]? = some φ ∧ x = φ.incomingFor b := by
  unfold phiInputs
  constructor
  · intro h
    obtain ⟨S, hS, hP⟩ := List.mem_flatMap.mp h
    obtain ⟨⟨φ, i⟩, hφ, heq⟩ := List.mem_map.mp hP
    cases heq
    exact ⟨hS, φ, List.mem_zipIdx_iff_getElem?.mp hφ, rfl⟩
  · rintro ⟨hS, φ, hφ, rfl⟩
    exact List.mem_flatMap.mpr ⟨P.parent, hS,
      List.mem_map.mpr ⟨(φ, P.idx), List.mem_zipIdx_iff_getElem?.mpr hφ, rfl⟩⟩

theorem Func.phiInputs_unique {F : Func} {b : ℕ} {B : Block} {x y : Option Operand}
    (hx : (P, x) ∈ F.phiInputs b B) (hy : (P, y) ∈ F.phiInputs b B) : x = y := by
  obtain ⟨-, φ, hφ, rfl⟩ := Func.mem_phiInputs.mp hx
  obtain ⟨-, ψ, hψ, rfl⟩ := Func.mem_phiInputs.mp hy
  rw [Option.some.inj (hφ.symm.trans hψ)]

/-- An operand has its value where it is read. -/
theorem MachineInv.hasValue (hinv : MachineInv c codes g) {V : Operand} {v : EmitVal}
    (hread : ReadAs c g.done V v)
    (hothers : ∀ I, V.inst? = some I → ¬c.F.IsPhi I → v.read g.m = g.env I) :
    HasValue c g.m.arg g.env V (v.read g.m) := by
  obtain ⟨val, ty⟩ := V
  cases val with
  | inst I =>
    show v.read g.m = g.env I
    by_cases hphi : c.F.IsPhi I
    · obtain ⟨k, rfl, hold⟩ := hread hphi
      exact hinv.held k I hphi hold.prepend
    · exact hothers I rfl hphi
  | undefValue => exact trivial
  | _ =>
    rw [show v = _ from hread]
    rfl

/-- The code that `visitFunction` emits for the block of a place in a run. -/
theorem MachineInv.block (hinv : MachineInv c codes g)
    (hcodes : ∀ b code, codes[b]? = some code → ∃ B, c.F.blocks[b]? = some B ∧ PhiCode c b B code)
    {rest : List Line} (hl : g.rest = l :: rest) : ∃ B, c.F.blocks[g.block]? = some B ∧
      PhiCode c g.block B (g.done ++ l :: rest) ∧ LineOk c g.block B g.done l := by
  obtain ⟨B, hB, hcode⟩ := hcodes g.block _ hinv.code
  rw [hl] at hcode
  exact ⟨B, hB, hcode, hcode.lines g.done l rest rfl⟩

section

variable {rest : List Line} {A : Answer} {m' : Machine} {B : Block} {k : ℕ}

/-- What a register holds after a line. -/
theorem MachineInv.held_line (hinv : MachineInv c codes g)
    (hfresh : ∀ t k I rest, Run codes t (.fill k I :: rest) → SlotFresh t I)
    (hrun : Run codes (g.before ++ g.done) (l :: rest)) (hexec : l.exec A g.m = some m')
    (hphi : c.F.IsPhi I) (hold : Holds (g.before ++ g.done ++ [l]) k I) :
    m'.reg k = l.bind g.m g.env I := by
  obtain ⟨-, hreg, -, -⟩ := Line.exec_frame hexec
  obtain rfl | rfl | ⟨hold, hdest, hvalue⟩ := holds_snoc hold
  · obtain rfl := Option.some.inj hexec
    show (g.m.setReg k (g.m.slot I)).reg k = g.env I
    rw [Machine.setReg_reg_self]
    exact hinv.slots I hphi (hfresh _ _ _ _ hrun)
  · obtain rfl := Option.some.inj hexec
    show g.m.reg k = Function.update g.env I (g.m.reg k) I
    rw [Function.update_self]
  · rw [hreg k hdest, Line.bind_of_ne hvalue]
    exact hinv.held k I hphi hold

/-- The slots after a line. -/
theorem MachineInv.slots_line (hinv : MachineInv c codes g) (hok : LineOk c g.block B g.done l)
    (hexec : l.exec A g.m = some m') (hphi : c.F.IsPhi I)
    (hfresh : SlotFresh (g.before ++ g.done ++ [l]) I) : m'.slot I = l.bind g.m g.env I := by
  obtain ⟨-, -, hslot, -⟩ := Line.exec_frame hexec
  by_cases hspill : ∃ w, l = .spill w I
  · obtain ⟨w, rfl⟩ := hspill
    obtain ⟨k, rfl, hold⟩ := hok hphi
    obtain rfl := Option.some.inj hexec
    show Function.update g.m.slot I (g.m.reg k) I = g.env I
    rw [Function.update_self]
    exact hinv.held k I hphi hold.prepend
  · obtain h | ⟨hold, hvalue⟩ := slotFresh_snoc hfresh
    · exact absurd h hspill
    · rw [hslot I fun w hw => hspill ⟨w, hw⟩, Line.bind_of_ne hvalue]
      exact hinv.slots I hphi hold

/-- The incoming value that a line stores. -/
theorem MachineInv.storePhi_line (hinv : MachineInv c codes g) (hB : c.F.blocks[g.block]? = some B)
    {v : EmitVal} {V : Operand} (hok : LineOk c g.block B g.done (.storePhi v P))
    (hright : OthersRight c g (.storePhi v P)) (hexec : (Line.storePhi v P).exec A g.m = some m')
    (hV : (P, some V) ∈ c.F.phiInputs g.block B) : HasValue c m'.arg g.env V (m'.phiSlot P) := by
  obtain ⟨W, hW, hread⟩ := hok
  obtain rfl := Option.some.inj (Func.phiInputs_unique hV hW)
  have hval := hinv.hasValue hread fun I hI hphi => hright B V I hB hV hI hphi
  obtain rfl := Option.some.inj hexec
  show HasValue c g.m.arg g.env V (Function.update g.m.phiSlot P (v.read g.m) P)
  rw [Function.update_self]
  exact hval

/-- The incoming values that are stored after a line. -/
theorem MachineInv.stored_line (hinv : MachineInv c codes g) (hB : c.F.blocks[g.block]? = some B)
    (hok : LineOk c g.block B g.done l) (hright : OthersRight c g l) (hexec : l.exec A g.m = some m')
    {v : EmitVal} (hmem : .storePhi v P ∈ g.done ++ [l]) {V : Operand}
    (hV : (P, some V) ∈ c.F.phiInputs g.block B) :
    HasValue c m'.arg (l.bind g.m g.env) V (m'.phiSlot P) := by
  obtain ⟨harg, -, -, hphiSlot⟩ := Line.exec_frame hexec
  by_cases hl : ∃ v', l = .storePhi v' P
  · obtain ⟨v', rfl⟩ := hl
    exact hinv.storePhi_line hB hok hright hexec hV
  · have hdone : .storePhi v P ∈ g.done := by
      obtain hmem | hmem := List.mem_append.mp hmem
      · exact hmem
      · exact absurd ⟨v, (List.mem_singleton.mp hmem).symm⟩ hl
    -- once an incoming value is stored nothing is defined any more
    have henv : l.bind g.m g.env = g.env := by
      cases l with
      | value I v' => exact absurd hdone (hok.1 v P)
      | _ => rfl
    rw [henv, harg, hphiSlot P fun v' hv' => hl ⟨v', hv'⟩]
    exact hinv.stored B hB v P hdone V hV

/-- The incoming values that are loaded after a line. -/
theorem MachineInv.incoming_line (hinv : MachineInv c codes g) (hok : LineOk c g.block B g.done l)
    (hexec : l.exec A g.m = some m') {a : ℕ} {env : InstRef → Word} (hedge : g.edge = some (a, env)) :
    ∃ A, c.F.blocks[a]? = some A ∧ g.block ∈ A.term.successors ∧
      (∀ p ∈ c.F.phiInputs a A, ∃ V, p.2 = some V) ∧
      (NoStores (g.done ++ [l]) → ∀ P V, (P, some V) ∈ c.F.phiInputs a A →
        HasValue c m'.arg env V (m'.phiSlot P)) ∧
      ∀ P V, c.F.IsPhi P → Defined (g.done ++ [l]) P → (P, some V) ∈ c.F.phiInputs a A →
        HasValue c m'.arg env V (l.bind g.m g.env P) := by
  obtain ⟨harg, -, -, hphiSlot⟩ := Line.exec_frame hexec
  obtain ⟨A, hA, hmem, hsome, hslots, hcopied⟩ := hinv.incoming a env hedge
  refine ⟨A, hA, hmem, hsome, fun hno P V hV => ?_, fun P V hphi hdef hV => ?_⟩
  · rw [harg, hphiSlot P fun v hv => hno v P (by simp [hv])]
    exact hslots (fun v Q hQ => hno v Q (List.mem_append_left _ hQ)) P V hV
  · rw [harg]
    by_cases hvalue : ∃ v, l = .value P v
    · obtain ⟨v, rfl⟩ := hvalue
      obtain ⟨hno, hload⟩ := hok
      obtain ⟨k, pre, rfl, hdone⟩ := hload hphi
      show HasValue c g.m.arg env V (Function.update g.env P (g.m.reg k) P)
      rw [Function.update_self, hinv.loaded pre k P hdone]
      exact hslots hno P V hV
    · rw [Line.bind_of_ne fun v hv => hvalue ⟨v, hv⟩]
      refine hcopied P V hphi ((defined_append.mp hdef).resolve_right ?_) hV
      exact fun ⟨v, hv⟩ => hvalue ⟨v, (List.mem_singleton.mp hv).symm⟩

/-- The execution of one line. -/
theorem MachineInv.line (hinv : MachineInv c codes g)
    (hcodes : ∀ b code, codes[b]? = some code → ∃ B, c.F.blocks[b]? = some B ∧ PhiCode c b B code)
    (hfresh : ∀ t k I rest, Run codes t (.fill k I :: rest) → SlotFresh t I)
    (hl : g.rest = l :: rest) (hrest : rest ≠ []) (hright : OthersRight c g l)
    (hexec : l.exec A g.m = some m') :
    MachineInv c codes { g with
      done := g.done ++ [l], rest := rest, m := m', env := l.bind g.m g.env } := by
  obtain ⟨B, hB, hcode, hok⟩ := hinv.block hcodes hl
  have hrun : Run codes (g.before ++ g.done) (l :: rest) := hl ▸ hinv.run
  have hdone : g.before ++ (g.done ++ [l]) = g.before ++ g.done ++ [l] :=
    (List.append_assoc ..).symm
  refine ⟨?_, ?_, fun k I hphi hold => ?_, fun I hphi hslot => ?_, ?_, ?_, ?_⟩
  · show Run codes (g.before ++ (g.done ++ [l])) rest
    rw [hdone]
    exact hrun.line hrest
  · show codes[g.block]? = some (g.done ++ [l] ++ rest)
    rw [hinv.code, hl, List.append_cons]
  · exact hinv.held_line hfresh hrun hexec hphi (hdone ▸ hold)
  · exact hinv.slots_line hok hexec hphi (hdone ▸ hslot)
  · rintro B' hB' v P hmem V hV
    obtain rfl : B = B' := Option.some.inj (hB.symm.trans hB')
    exact hinv.stored_line hB hok hright hexec hmem hV
  · -- the line that was executed last
    intro pre k P heq
    obtain ⟨-, hlast⟩ := List.append_inj' heq rfl
    obtain rfl := List.singleton_inj.mp hlast
    obtain rfl := Option.some.inj hexec
    exact Machine.setReg_reg_self
  · exact fun a env hedge => hinv.incoming_line hok hexec hedge

end

/-- A jump to another block. -/
theorem MachineInv.jump (hinv : MachineInv c codes g)
    (hcodes : ∀ b code, codes[b]? = some code → ∃ B, c.F.blocks[b]? = some B ∧ PhiCode c b B code)
    {b : ℕ} {code : List Line} (hl : g.rest = [l]) (hb : l.next g.m = some b)
    (hcode : codes[b]? = some code) : MachineInv c codes
      ⟨g.before ++ g.done ++ [l], [], code, b, g.m, g.env, some (g.block, g.env)⟩ := by
  obtain ⟨B, hB, hphiCode, hok⟩ := hinv.block hcodes hl
  obtain ⟨hends, htarget⟩ := Line.mem_targets hb
  obtain ⟨v, rfl, -⟩ := hok.term hends
  refine ⟨?_, hcode, fun k I hphi hold => ?_, fun I hphi hslotFresh => ?_, nofun, ?_, ?_⟩
  · show Run codes (g.before ++ g.done ++ [B.term.line v] ++ []) code
    rw [List.append_nil]
    exact Run.jump (hl ▸ hinv.run) htarget hcode
  · have hold : Holds (g.before ++ g.done ++ [B.term.line v] ++ []) k I := hold
    rw [List.append_nil] at hold
    obtain heq | heq | ⟨hold, -⟩ := holds_snoc hold
    · rw [heq] at hends
      cases hends
    · exact absurd heq Term.line_ne_value
    · exact hinv.held k I hphi hold
  · have hslotFresh : SlotFresh (g.before ++ g.done ++ [B.term.line v] ++ []) I := hslotFresh
    rw [List.append_nil] at hslotFresh
    obtain ⟨w, heq⟩ | ⟨hold, -⟩ := slotFresh_snoc hslotFresh
    · rw [heq] at hends
      cases hends
    · exact hinv.slots I hphi hold
  · intro pre k P heq
    cases pre <;> cases heq
  · rintro a env ⟨⟩
    refine ⟨B, hB, ?_, fun p hp => ?_, fun _ P V hV => ?_, fun P V _ hdef => ?_⟩
    · have htargets : (B.term.line v).targets = B.term.successors := by cases B.term <;> rfl
      exact htargets ▸ htarget
    · obtain ⟨V, w, hV, -⟩ := hphiCode.stores p hp
      exact ⟨V, hV⟩
    · -- the block has stored its incoming values
      obtain ⟨W, w, -, hw⟩ := hphiCode.stores _ hV
      refine hinv.stored B hB w P ?_ V hV
      obtain hw | hw := List.mem_append.mp hw
      · exact hw
      · rw [← List.mem_singleton.mp hw] at hends
        cases hends
    · obtain ⟨w, hw⟩ := hdef
      cases hw

end MachineInv

theorem MachineRun.inv (hF : SSA c.F) {s : State} (h : visitFunction c = .ok s) {g : Config}
    (hrun : MachineRun c s.emitted g) : MachineInv c s.emitted g := by
  obtain ⟨-, hcodes⟩ := (visitFunction_reaches h).phiPoint
  induction hrun with
  | @start code m env hcode =>
    refine ⟨.start hcode, hcode, ?_, ?_, nofun, ?_, nofun⟩
    · rintro k I - ⟨t1, l, t2, heq, -⟩
      cases t1 <;> cases heq
    · rintro I - ⟨t1, v, t2, heq, -⟩
      cases t1 <;> cases heq
    · intro pre k P heq
      cases pre <;> cases heq
  | line _ hl hrest hright hexec ih =>
    exact ih.line hcodes (fun t k I rest hrun => fill_slotFresh hF h hrun) hl hrest hright hexec
  | jump _ hl _ hb hcode ih => exact ih.jump hcodes hl hb hcode

/-! ## Parallel copies -/

/-- PHI nodes are copied in parallel, in every run of the emitted code. -/
structure PhisCopied (c : Ctx) (codes : List (List Line)) : Prop where
  /-- A PHI node is loaded from a slot that has its incoming value as it was at the end of block `a`,
      whatever PHI nodes were updated since. -/
  loads : ∀ {g a env i φ k rest}, MachineRun c codes g → g.edge = some (a, env) →
    (c.F.phis g.block)[i]? = some φ → g.rest = .loadPhi k ⟨g.block, i⟩ :: rest →
    ∃ V, φ.incomingFor a = some V ∧ HasValue c g.m.arg env V (g.m.phiSlot ⟨g.block, i⟩)
  /-- From then on this is its value. -/
  copied : ∀ {g a env i φ}, MachineRun c codes g → g.edge = some (a, env) →
    (c.F.phis g.block)[i]? = some φ → Defined g.done ⟨g.block, i⟩ →
    ∃ V, φ.incomingFor a = some V ∧ HasValue c g.m.arg env V (g.env ⟨g.block, i⟩)
  /-- At the end of a block all its PHI nodes are loaded. -/
  all : ∀ {g l i φ}, MachineRun c codes g → g.rest = [l] → (c.F.phis g.block)[i]? = some φ →
    Defined g.done ⟨g.block, i⟩
  /-- A block is left for the one that its condition chooses on the values at its end, those that the
      edge passes. -/
  condition : ∀ {g l b}, MachineRun c codes g → g.rest = [l] → OthersRight c g l →
    l.next g.m = some b → ∃ B w, c.F.blocks[g.block]? = some B ∧ B.term.dest w = some b ∧
      ∀ V ∈ B.term.operands, HasValue c g.m.arg g.env V w
  /-- A PHI node that is reloaded has the value that it got last. -/
  fills : ∀ {g k I rest}, MachineRun c codes g → c.F.IsPhi I → g.rest = .fill k I :: rest →
    g.m.slot I = g.env I
  /-- So does a register that holds it. -/
  registers : ∀ {g k I}, MachineRun c codes g → c.F.IsPhi I → Holds (g.before ++ g.done) k I →
    g.m.reg k = g.env I
  /-- Every visitor reads a PHI node that is in a register from one that holds it. -/
  reads : ∀ {b B n s e v}, Reaches c (.inst b n) s → c.F.blocks[b]? = some B →
    e ∈ s.ra.activeSet → c.F.IsPhi e.source → s.sourceToEmitMap e.source = some v →
    v = .reg e.regId ∧ Holds s.code e.regId e.source

/-- The incoming value of a PHI node of the block that control came to. -/
theorem MachineInv.incomingFor {codes : List (List Line)} {g : Config}
    (hinv : MachineInv c codes g) {a i : ℕ} {env : InstRef → Word} {φ : Phi}
    (hedge : g.edge = some (a, env)) (hφ : (c.F.phis g.block)[i]? = some φ) :
    ∃ V, φ.incomingFor a = some V ∧
      (NoStores g.done → HasValue c g.m.arg env V (g.m.phiSlot ⟨g.block, i⟩)) ∧
      (Defined g.done ⟨g.block, i⟩ → HasValue c g.m.arg env V (g.env ⟨g.block, i⟩)) := by
  obtain ⟨A, hA, hmem, hsome, hslots, hcopied⟩ := hinv.incoming a env hedge
  have hP : (⟨g.block, i⟩, φ.incomingFor a) ∈ c.F.phiInputs a A :=
    Func.mem_phiInputs.mpr ⟨hmem, φ, hφ, rfl⟩
  obtain ⟨V, hV⟩ := hsome _ hP
  have hV : φ.incomingFor a = some V := hV
  rw [hV] at hP
  have hphi : c.F.IsPhi ⟨g.block, i⟩ := (List.getElem?_eq_some_iff.mp hφ).1
  exact ⟨V, hV, fun hno => hslots hno _ V hP, fun hdef => hcopied _ V hphi hdef hP⟩

/-- **PHI nodes are copied in parallel** along every edge, in every run of what is emitted for a
function in SSA form. -/
theorem phisCopied (hF : SSA c.F) {s : State} (h : visitFunction c = .ok s) :
    PhisCopied c s.emitted := by
  obtain ⟨-, hcodes⟩ := (visitFunction_reaches h).phiPoint
  refine ⟨?_, ?_, ?_, ?_, ?_, ?_, ?_⟩
  · intro g a env i φ k rest hrun hedge hφ hrest
    have hinv := hrun.inv hF h
    obtain ⟨V, hV, hslot, -⟩ := hinv.incomingFor hedge hφ
    -- no incoming value is stored before the PHI nodes are loaded
    obtain ⟨B, hB, hcode, hno⟩ := hinv.block hcodes hrest
    exact ⟨V, hV, hslot hno⟩
  · intro g a env i φ hrun hedge hφ hdef
    obtain ⟨V, hV, -, hval⟩ := (hrun.inv hF h).incomingFor hedge hφ
    exact ⟨V, hV, hval hdef⟩
  · intro g l i φ hrun hrest hφ
    obtain ⟨B, hB, hcode, hok⟩ := (hrun.inv hF h).block hcodes hrest
    have hphi : c.F.IsPhi ⟨g.block, i⟩ := (List.getElem?_eq_some_iff.mp hφ).1
    refine (defined_append.mp (hcode.defines _ hphi rfl)).resolve_right ?_
    rintro ⟨w, hw⟩
    obtain ⟨pre, v, heq⟩ := hcode.ends
    obtain ⟨-, hlast⟩ := List.append_inj' heq rfl
    rw [hlast] at hw
    exact Term.line_ne_value (List.mem_singleton.mp hw).symm
  · intro g l b hrun hrest hright hb
    have hinv := hrun.inv hF h
    obtain ⟨B, hB, -, hok⟩ := hinv.block hcodes hrest
    obtain ⟨v, rfl, hread⟩ := hok.term (Line.mem_targets hb).1
    refine ⟨B, v.read g.m, hB, Term.next_line.symm.trans hb, fun V hV => ?_⟩
    refine hinv.hasValue (hread V hV) fun I hI hphi => ?_
    cases hterm : B.term with
    | ret W =>
      rw [hterm] at hb
      cases hb
    | br d =>
      rw [hterm] at hV
      cases hV
    | condBr | switch =>
      rw [hterm] at hright
      exact hright B V I hB hV hI hphi
  · intro g k I rest hrun hphi hrest
    have hinv := hrun.inv hF h
    exact hinv.slots I hphi (fill_slotFresh hF h (hrest ▸ hinv.run))
  · intro g k I hrun hphi hold
    exact (hrun.inv hF h).held k I hphi hold
  · intro b B n s e v hs hB he hphi hv
    obtain ⟨-, -, -, hheld⟩ := hs.phiPoint
    exact (hheld B hB).active e he hphi v hv

/-- Two PHI nodes that are exchanged on every iteration. -/
def swapLoop : Ctx where
  F :=
    { name := "f"
      blocks :=
        [ { phis := [], body := [], term := .br 1 },
          { phis :=
              [ ⟨.int 64, [(⟨.constInt 1, .int 64⟩, 0), (⟨.inst ⟨1, 1⟩, .int 64⟩, 1)]⟩,
                ⟨.int 64, [(⟨.constInt 2, .int 64⟩, 0), (⟨.inst ⟨1, 0⟩, .int 64⟩, 1)]⟩ ]
            body := []
            term := .condBr ⟨.arg 0, .int 1⟩ 1 2 },
          { phis := [], body := [], term := .ret (some ⟨.inst ⟨1, 0⟩, .int 64⟩) } ] }
  gvMap := fun _ => 0
  heapSize := 0

theorem path_swapLoop {left : List ℕ} {b : ℕ} (h : Path swapLoop.F left b) :
    b = 0 ∨ b = 1 ∨ b = 2 ∧ 1 ∈ left := by
  induction h with
  | entry => exact Or.inl rfl
  | edge hp hB ht ih =>
    obtain rfl | rfl | ⟨rfl, -⟩ := ih <;> cases hB
    · exact Or.inr (Or.inl (List.mem_singleton.mp ht))
    · obtain rfl | ht := List.mem_cons.mp ht
      · exact Or.inr (Or.inl rfl)
      · exact Or.inr (Or.inr ⟨List.mem_singleton.mp ht, List.mem_cons_self⟩)
    · cases ht

theorem ssa_swapLoop : SSA swapLoop.F where
  uses := by
    intro left b B n V I hp hB hV hI
    obtain rfl | rfl | ⟨rfl, hleft⟩ := path_swapLoop hp <;> cases hB
    · cases hV
    · have hV : (n, V) = (2, ⟨.arg 0, .int 1⟩) := List.mem_singleton.mp hV
      cases hV
      cases hI
    · have hV : (n, V) = (0, ⟨.inst ⟨1, 0⟩, .int 64⟩) := List.mem_singleton.mp hV
      cases hV
      cases hI
      exact ⟨rfl, Or.inr ⟨by decide, hleft⟩⟩
  inputs := by
    intro left b B P V I hp hB hV hI
    obtain rfl | rfl | ⟨rfl, -⟩ := path_swapLoop hp <;> cases hB
    · obtain hV | hV := List.mem_pair.mp
        (show (P, some V) ∈ [(⟨1, 0⟩, some ⟨.constInt 1, .int 64⟩),
          (⟨1, 1⟩, some ⟨.constInt 2, .int 64⟩)] from hV) <;> cases hV <;> cases hI
    · obtain hV | hV := List.mem_pair.mp
        (show (P, some V) ∈ [(⟨1, 0⟩, some ⟨.inst ⟨1, 1⟩, .int 64⟩),
          (⟨1, 1⟩, some ⟨.inst ⟨1, 0⟩, .int 64⟩)] from hV) <;> cases hV <;> cases hI <;>
        exact ⟨rfl, Or.inl rfl⟩
    · cases hV

/-- Its terminators read no instructions but PHI nodes. -/
theorem othersRight_swapLoop (g : Config) (l : Line) : OthersRight swapLoop g l := by
  have hphis : ∀ p ∈ swapLoop.F.blocks.zipIdx,
      ∀ V ∈ p.1.term.operands ++ (swapLoop.F.phiInputs p.2 p.1).filterMap Prod.snd,
      ∀ I ∈ V.inst?.toList, I.idx < (swapLoop.F.phis I.parent).length := by decide
  cases l with
  | storePhi v P =>
    intro B V I hB hV hI hphi
    refine absurd (hphis (B, g.block) (List.mem_zipIdx_iff_getElem?.mpr hB) V ?_ I ?_) hphi
    · exact List.mem_append_right _ (List.mem_filterMap.mpr ⟨_, hV, rfl⟩)
    · rw [hI]
      exact List.mem_singleton_self I
  | condBr | switch =>
    intro B V I hB hV hI hphi
    refine absurd (hphis (B, g.block) (List.mem_zipIdx_iff_getElem?.mpr hB) V ?_ I ?_) hphi
    · exact List.mem_append_left _ hV
    · rw [hI]
      exact List.mem_singleton_self I
  | _ => exact trivial

/-- What is emitted for it. -/
def swapLoopCode : List (List Line) :=
  [ [.storePhi (.const 1) ⟨1, 0⟩, .storePhi (.const 2) ⟨1, 1⟩, .br 1],
    [ .loadPhi 1 ⟨1, 0⟩, .value ⟨1, 0⟩ (.reg 1), .loadPhi 2 ⟨1, 1⟩, .value ⟨1, 1⟩ (.reg 2),
      .storePhi (.reg 2) ⟨1, 0⟩, .storePhi (.reg 1) ⟨1, 1⟩, .spill (.reg 1) ⟨1, 0⟩,
      .condBr (.arg 0) 1 2 ],
    [.fill 2 ⟨1, 0⟩, .ret (.reg 2)] ]

/-- The second iteration takes the values of the first one, exchanged. -/
theorem phisCopied_swapLoop : ∃ s g env, visitFunction swapLoop = .ok s ∧
    MachineRun swapLoop s.emitted g ∧ g.edge = some (1, env) ∧
      g.env ⟨1, 0⟩ = env ⟨1, 1⟩ ∧ g.env ⟨1, 1⟩ = env ⟨1, 0⟩ := by
  obtain ⟨s, hs, hcodes⟩ := emitted?_eq_some.mp
    (show emitted? swapLoop = some swapLoopCode by decide +kernel)
  have hright := othersRight_swapLoop
  let m : Machine := ⟨fun _ => 0, fun _ => 1, fun _ => 0, fun _ => 0, fun _ => 0⟩
  let A : Answer := ⟨0, fun _ => 0⟩
  have hrun : ∃ g env, MachineRun swapLoop s.emitted g ∧ g.edge = some (1, env) ∧ g.block = 1 ∧
      Defined g.done ⟨1, 0⟩ ∧ Defined g.done ⟨1, 1⟩ := by
    rw [hcodes]
    -- the entry block
    have h0 : MachineRun swapLoop swapLoopCode ⟨[], [], [.storePhi (.const 1) ⟨1, 0⟩,
      .storePhi (.const 2) ⟨1, 1⟩, .br 1], 0, m, fun _ => 0, none⟩ := .start rfl
    have h1 := h0.line (A := A) rfl (List.cons_ne_nil _ _) (hright _ _) rfl
    have h2 := h1.line (A := A) rfl (List.cons_ne_nil _ _) (hright _ _) rfl
    have h3 := h2.jump rfl (hright _ _) rfl rfl
    -- the first iteration
    have h4 := h3.line (A := A) rfl (List.cons_ne_nil _ _) (hright _ _) rfl
    have h5 := h4.line (A := A) rfl (List.cons_ne_nil _ _) (hright _ _) rfl
    have h6 := h5.line (A := A) rfl (List.cons_ne_nil _ _) (hright _ _) rfl
    have h7 := h6.line (A := A) rfl (List.cons_ne_nil _ _) (hright _ _) rfl
    have h8 := h7.line (A := A) rfl (List.cons_ne_nil _ _) (hright _ _) rfl
    have h9 := h8.line (A := A) rfl (List.cons_ne_nil _ _) (hright _ _) rfl
    have h10 := h9.line (A := A) rfl (List.cons_ne_nil _ _) (hright _ _) rfl
    have h11 := h10.jump rfl (hright _ _) rfl rfl
    -- the second iteration
    have h12 := h11.line (A := A) rfl (List.cons_ne_nil _ _) (hright _ _) rfl
    have h13 := h12.line (A := A) rfl (List.cons_ne_nil _ _) (hright _ _) rfl
    have h14 := h13.line (A := A) rfl (List.cons_ne_nil _ _) (hright _ _) rfl
    have h15 := h14.line (A := A) rfl (List.cons_ne_nil _ _) (hright _ _) rfl
    exact ⟨_, _, h15, rfl, rfl, ⟨.reg 1, by simp⟩, ⟨.reg 2, by simp⟩⟩
  obtain ⟨g, env, hrun, hedge, hblock, hx, hy⟩ := hrun
  have hcopied := phisCopied ssa_swapLoop hs
  obtain ⟨V, hV, hvalx⟩ := hcopied.copied (i := 0) hrun hedge (by rw [hblock]; rfl)
    (by rwa [hblock])
  obtain ⟨W, hW, hvaly⟩ := hcopied.copied (i := 1) hrun hedge (by rw [hblock]; rfl)
    (by rwa [hblock])
  rw [hblock] at hvalx hvaly
  cases hV
  cases hW
  exact ⟨s, g, env, hs, hrun, hedge, hvalx, hvaly⟩

end SwppCompiler.Backend
