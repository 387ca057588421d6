import SwppCompiler.Backend.Realization

/-!
# Functions that call each other

A translated function in the interpreter, from its call to its `ret`, and a program of such functions.

* `HasRoom`: what the stack must have for a function. `returns_of_exec`: a call returns what the source
  does.
* `Behaves`: how the functions of a module come back, by the depth of their calls.
  `returns_of_behaves`: they do so in the interpreter. `ends_of_behaves`: so does the printed program.
-/

namespace SwppCompiler.Backend.Assembly

open Interp Interp.Reading Lib Lib.LittleEndian Simulation

/-! ## The frame of a function -/

/-- The stack has room below `sp` for the frame, and the callers keep bytes above it for themselves. -/
structure HasRoom (F : Func) (codes : List (List Line)) (used : BitVec 32) (sp : Word) (R : Set ℕ) :
    Prop where
  fits : bytes (framed F codes) < 2 ^ 32
  slots : (usedStackSize F codes).toNat ≤ used.toNat
  room : used.toNat ≤ sp.toNat
  inStack : sp.toNat ≤ stackMax
  aligned : (sp.toNat - used.toNat) % 8 = 0
  above : ∀ x ∈ R, sp.toNat ≤ x ∧ x < stackMax

section Frames

variable {F : Func} {codes : List (List Line)} {used : BitVec 32} {sp : Word} {R : Set ℕ} {V : View}
  {x : ℕ}

/-- `sp` after the prologue. -/
theorem HasRoom.sp_toNat (h : HasRoom F codes used sp R) :
    (sp - used.setWidth 64).toNat = sp.toNat - used.toNat := by
  have hroom := h.room
  have hused := used.isLt
  have hsp := sp.isLt
  rw [BitVec.toNat_sub, BitVec.toNat_setWidth]
  omega

/-- The activation of the function. -/
def HasRoom.activation (h : HasRoom F codes used sp R) (argSize : Fin 17) : Activation where
  argSize := argSize
  ofs := getStackOffset F codes
  sp := sp - used.setWidth 64
  reserved := R
  inStack := by
    intro o k hslot hofs
    have hin := (slot_inside h.fits hslot hofs).2
    have hslots := h.slots
    have hroom := h.room
    have hmax := h.inStack
    rw [h.sp_toNat]
    omega
  aligned := by
    intro o k hslot hofs
    have hmod := (slot_inside h.fits hslot hofs).1
    have hsp := h.aligned
    rw [h.sp_toNat]
    omega
  apart := fun hslot hslot' hne hofs hofs' => slot_apart h.fits hslot hslot' hne hofs hofs'
  free := by
    intro o k x hslot hofs hlo hhi hx
    have hin := (slot_inside h.fits hslot hofs).2
    have hslots := h.slots
    have hroom := h.room
    have habove := (h.above x hx).1
    rw [h.sp_toNat] at hhi
    omega
  below := fun x hx => (h.above x hx).2

/-- The slots are below the `sp` of the caller. -/
theorem HasRoom.lt_of_slotBytes (h : HasRoom F codes used sp R) {argSize : Fin 17}
    (hx : x ∈ (h.activation argSize).slotBytes) : x < sp.toNat := by
  obtain ⟨o, k, hslot, hofs, -, hlt⟩ := hx
  have hin := (slot_inside h.fits hslot hofs).2
  have hslots := h.slots
  have hroom := h.room
  have hsp : (h.activation argSize).sp.toNat = sp.toNat - used.toNat := h.sp_toNat
  rw [hsp] at hlt
  omega

/-- What is known when the function is called is not in its slots. -/
theorem HasRoom.proper (h : HasRoom F codes used sp R) (argSize : Fin 17) (hV : V.Proper sp.toNat R) :
    V.Proper (h.activation argSize).sp.toNat (h.activation argSize).kept where
  tiled := hV.tiled
  known := by
    intro x hx
    obtain ⟨hR, hx⟩ := hV.known hx
    have hsp : (h.activation argSize).sp.toNat = sp.toNat - used.toNat := h.sp_toNat
    have hle : sp.toNat ≤ x := by
      obtain ⟨hlo, -⟩ | ⟨b, hb, hlo, -⟩ := hx
      · exact hlo
      · have hmin := (hV.tiled.inHeap b (Or.inl hb)).heapMin_le
        have hmax := h.inStack
        unfold heapMin at hmin
        unfold stackMax at hmax
        omega
    refine ⟨?_, hx.imp_left fun hin => ⟨by omega, hin.2⟩⟩
    rintro (hkept | hkept)
    · exact hR hkept
    · have hlt := h.lt_of_slotBytes hkept
      omega

/-- The functions that are called from here have what is kept above their `sp`. -/
theorem HasRoom.kept_above (h : HasRoom F codes used sp R) {argSize : Fin 17} :
    ∀ x ∈ (h.activation argSize).kept, (h.activation argSize).sp.toNat ≤ x ∧ x < stackMax := by
  intro x hx
  refine ⟨?_, Activation.lt_of_kept hx⟩
  have hsp : (h.activation argSize).sp.toNat = sp.toNat - used.toNat := h.sp_toNat
  obtain hR | ⟨o, k, -, -, hlo, -⟩ := hx
  · have habove := (h.above x hR).1
    omega
  · omega

end Frames

/-! ## The start of a function -/

section Start

variable {calloc : Heap → Word → Bool} {P : Program} {f : Interp.Function} {frames : List Interp.Frame}
  {A : Activation} {V : View} {s : Interp.State} {arg : ℕ → Word}

/-- Any 8 bytes are those of a word. -/
theorem exists_word (g : ℕ → Byte) : ∃ w : Word, ∀ i < 8, byte w i = g i := by
  have hlt := ofBytes_lt ((List.range 8).map g)
  have hpow : (256 : ℕ) ^ 8 = 2 ^ 64 := by norm_num
  rw [List.length_map, List.length_range, hpow] at hlt
  let w : Word := BitVec.ofNat 64 (ofBytes ((List.range 8).map g))
  have heq : ofBytes ((List.range 8).map (byte w)) = ofBytes ((List.range 8).map g) := by
    rw [ofBytes_bytes, hpow, BitVec.toNat_ofNat, Nat.mod_mod, Nat.mod_eq_of_lt hlt]
  have hbyte : ∀ l : List Byte, ∀ n ∈ l.map BitVec.toNat, n < 256 := by
    intro l n hn
    obtain ⟨b, -, rfl⟩ := List.mem_map.mp hn
    exact b.isLt
  have hlists : (List.range 8).map (byte w) = (List.range 8).map g := by
    apply List.map_injective_iff.mpr (fun a b => BitVec.eq_of_toNat_eq)
    exact Nat.ofDigits_inj_of_len_eq (by norm_num) (by simp) (hbyte _) (hbyte _) heq
  exact ⟨w, fun i hi => List.map_inj_left.mp hlists i (List.mem_range.mpr hi)⟩

/-- The machine that a function starts with: its slots have what is in the stack. -/
theorem matches_start (hnargs : s.regfile.nargs = A.argSize) (hsp : s.regfile.regfile .sp = A.sp)
    (hargs : ∀ {n : ℕ} {reg : AsmReg}, argReg A.argSize n = some reg → s.regfile.regfile reg = arg n)
    (hshown : V.Shown s.memory) (hproper : V.Proper A.sp.toNat A.kept) :
    ∃ m : Machine, m.arg = arg ∧ m.mem = V.mem ∧ Matches A s.memory.byteAt V m s := by
  have hword : ∀ o : Object, ∃ w : Word, ∀ k, o.isSlot = true → A.ofs o = some k →
      HoldsWord s.memory (A.sp.toNat + k.toNat) w := by
    intro o
    cases hofs : A.ofs o with
    | none => exact ⟨0, fun k _ hk => by cases hk⟩
    | some k =>
      obtain ⟨w, hw⟩ := exists_word fun i => s.memory.stack (A.sp.toNat + k.toNat + i)
      refine ⟨w, fun k' hslot hk' i hi => ?_⟩
      obtain rfl := Option.some.inj hk'
      have hin := A.inStack hslot hofs
      rw [byteAt_stack (by omega), hw i hi]
  choose word hword using hword
  let reg := fun k => (instReg k).elim 0 fun r => s.regfile.regfile r
  refine ⟨⟨reg, arg, fun I => word (.slot I), fun Q => word (.phiTmpSlot Q), V.mem⟩, rfl, rfl, ?_⟩
  refine ⟨fun h => ?_, hargs, hnargs, hsp, hshown, rfl, hproper, fun hslot hofs => ?_, fun _ _ => rfl⟩
  · show _ = (instReg _).elim 0 _
    rw [h]
    rfl
  · rename_i o k
    cases o with
    | slot I => exact hword _ k hslot hofs
    | phiTmpSlot Q => exact hword _ k hslot hofs
    | source I => cases hslot

/-- The prologue. -/
theorem executes_setSP (used : BitVec 32) :
    Executes calloc P f frames (if used ≠ 0 then [Printing.setSP used] else []) s fun s' =>
      s'.regfile = { s.regfile with
        regfile := Function.update s.regfile.regfile .sp (s.regfile.regfile .sp - used.setWidth 64) } ∧
      s'.memory = s.memory := by
  split_ifs with h
  · have hread : (AsmOperand.reg spReg).value.getValue s.regfile = .ok (s.regfile.regfile .sp) :=
      readReg_ok Reg.noConfusion fun _ => Reg.noConfusion
    have hcompute : compute .sub .size64 (s.regfile.regfile .sp) (used.setWidth 64) =
        .ok (s.regfile.regfile .sp - used.setWidth 64) := rfl
    exact Executes.exec rfl (fun _ _ _ => Stmt.noConfusion)
      (run_bop hread rfl hcompute (writeReg_ok Reg.noConfusion fun _ => Reg.noConfusion)) ⟨rfl, rfl⟩
  · obtain rfl := not_not.mp h
    refine .nil ⟨?_, rfl⟩
    simp

theorem prologue_eq (used : BitVec 32) :
    Printing.prologue used = (if used ≠ 0 then [Printing.setSP used] else []).map AsmInst.stmt := by
  unfold Printing.prologue
  split_ifs <;> rfl

end Start

/-! ## A call -/

section Calls

variable {calloc : Heap → Word → Bool} {P : Program} {f : Interp.Function} {c : Ctx} {sig : Signature}
  {st : Backend.State} {fn : Printing.AsmFunction} {B : Printing.AsmBlock} {used : BitVec 32} {sp : Word}
  {R : Set ℕ} {args : List Word} {arg : ℕ → Word} {V V' : View} {W : World} {A : Activation} {d : ℕ}
  {before events : List Event} {e : Event}

theorem mem_code (hB : fn.blocks[d]? = some B) (hd : d ≠ 0) :
    (B.name.bb, B.stmts) ∈ (fn.code used).blocks := by
  obtain ⟨d, rfl⟩ := Nat.exists_eq_succ_of_ne_zero hd
  unfold Printing.AsmFunction.code
  cases hblocks : fn.blocks with
  | nil => simp [hblocks] at hB
  | cons B0 Bs =>
    rw [hblocks, List.getElem?_cons_succ] at hB
    exact List.mem_cons_of_mem _ (List.mem_map_of_mem (List.mem_of_getElem? hB))

theorem head_code (hB : fn.blocks[0]? = some B) :
    (B.name.bb, Printing.prologue used ++ B.stmts) ∈ (fn.code used).blocks.head? := by
  unfold Printing.AsmFunction.code
  cases hblocks : fn.blocks with
  | nil => simp [hblocks] at hB
  | cons B0 Bs =>
    rw [hblocks, List.getElem?_cons_zero] at hB
    obtain rfl := Option.some.inj hB
    rfl

theorem installed (hemit : emitFunction sig c.F st.emitted = some fn)
    (hhas : HasFunction P (fn.code used) f) :
    Installed P f sig (getStackOffset c.F st.emitted) st.emitted := by
  intro d code hcode hd
  obtain ⟨B, name, r, hB, hname, hr, rfl, hstmts⟩ := emitFunction_block hemit hcode
  obtain ⟨q, hq, hchain⟩ := hhas.code _ (mem_code hB hd)
  rw [hstmts] at hchain
  exact ⟨B.name, r, q, hname, hr, hq, hchain⟩

/-- No block jumps to the first one, which has the prologue. -/
theorem jumps (hwt : WellTyped c.F arg) (h : visitFunction c = .ok st) {code : List Line}
    (hcode : code ∈ st.emitted) :
    ∀ l ∈ code.getLast?, ∀ (m : Machine) (d : ℕ), l.next m = some d → d ≠ 0 := by
  obtain ⟨b, hb⟩ := List.mem_iff_getElem?.mp hcode
  obtain ⟨B, s1, s2, hB, hs1, hterm, rfl⟩ := code_of_reaches (visitFunction_reaches h) hb
  obtain ⟨s1', s2', l', -, rfl, -, htargets, -⟩ := visitTerm_ok hs1.ownership hterm
  intro l hl m d hd hzero
  rw [List.getLast?_concat] at hl
  obtain rfl := Option.some.inj hl
  have hmem := (Line.mem_targets hd).2
  rw [htargets, hzero] at hmem
  exact hwt.entry hB hmem

/-- What is known stays proper. -/
theorem Serve.proper (h : Serve calloc (Returns calloc P) W A.sp A.kept before V e V')
    (hV : V.Proper A.sp.toNat A.kept) : V'.Proper A.sp.toNat A.kept := by
  cases h with
  | load => exact hV
  | store hn halign hseen => exact ⟨hV.tiled, Set.union_subset hV.known hseen⟩
  | malloc hheap hroom hknown hmem hans => exact proper_malloc hV hheap hknown
  | free hheap hknown hmem hans => exact proper_free hV hheap hknown
  | call hmalloc hfree h hans => exact h.1

theorem Served.proper (h : Served calloc (Returns calloc P) W A.sp A.kept before V events V')
    (hV : V.Proper A.sp.toNat A.kept) : V'.Proper A.sp.toNat A.kept := by
  induction h with
  | nil => exact hV
  | cons he _ ih => exact ih (he.proper hV)

/-- **A call in the interpreter returns what the source does**, and leaves the memory of the source
    where it is known. -/
theorem returns_of_exec {callee : String} {fuel : ℕ} {w : Option Word} {σ : Src} (hF : SSA c.F)
    (hwt : WellTyped c.F arg) (hcare : Careful c) (hvisit : visitFunction c = .ok st)
    (hemit : emitFunction sig c.F st.emitted = some fn) (hhas : HasFunction P (fn.code used) f)
    (hcallee : fn.name.val.val = callee.toList) (hroom : HasRoom c.F st.emitted used sp R)
    (hlen : args.length = sig.argSize) (harg : ∀ (n : ℕ) (hn : n < args.length), arg n = args[n])
    (hV : V.Proper sp.toNat R)
    (hexec : exec W c arg fuel none 0 (startState W c V.mem) = some (w, σ))
    (hfits : ∀ q ∈ σ.log, q.1.fits q.2)
    (halloc : ∀ code ∈ st.emitted, ∀ l ∈ code, Allocated (hroom.activation sig.argSize) W l)
    (hserved : Served calloc (Returns calloc P) W (hroom.activation sig.argSize).sp
      (hroom.activation sig.argSize).kept [] V σ.events V') :
    Returns calloc P sp R callee args V (w.getD 0)
      ⟨V'.heap, V'.known ∩ Visible V'.heap sp.toNat R, σ.mem⟩ := by
  have hproper := hroom.proper sig.argSize hV
  have hrun : ∀ m : Machine, m.arg = arg → m.mem = V.mem → ∃ τ,
      execCode W st.emitted fuel 0 ⟨m, []⟩ = some (some (w.getD 0), τ) ∧ τ.m.mem = σ.mem ∧
        τ.events = [] ++ σ.events := by
    intro m hmarg hmem
    rw [← hmem] at hexec
    obtain ⟨τ, harr, hpro⟩ := arrives_start (W := W) (c := c) hmarg
    exact exec_emulates hF hwt hcare hvisit harr hpro hexec hfits
  -- the first block
  obtain ⟨code, hcode⟩ : ∃ code, st.emitted[0]? = some code := by
    obtain ⟨τ, hτ, -⟩ := hrun ⟨fun _ => 0, arg, fun _ => 0, fun _ => 0, V.mem⟩ rfl rfl
    cases fuel with
    | zero => cases hτ
    | succ fuel =>
      obtain ⟨code, hcode, -⟩ := Option.bind_eq_some_iff.mp hτ
      exact ⟨code, hcode⟩
  obtain ⟨B, name, r, hB, -, hr, -, hstmts⟩ := emitFunction_block hemit hcode
  obtain ⟨p, hp, hchain⟩ := hhas.first _ (head_code hB)
  rw [prologue_eq, hstmts] at hchain
  obtain ⟨hname, hsize, -⟩ := emitFunction_ok hemit
  have hnargs : f.nargs = args.length := by
    rw [hhas.nargs, hlen, ← hsize]
    rfl
  have hle : args.length ≤ 16 := by
    rw [hlen]
    omega
  refine ⟨⟨(hserved.proper hproper).tiled, Set.inter_subset_right⟩, hle, f, p, hcallee ▸ hhas.found,
    hnargs, hp, fun frames s hcalled => ?_⟩
  -- the prologue, and the run of the code
  have hprologue : Executes calloc P f frames (if used ≠ 0 then [Printing.setSP used] else []) s _ :=
    executes_setSP used
  obtain ⟨s1, ⟨q, hq, hstar⟩, hregs, hmem⟩ :=
    hprologue p _ (List.append_ne_nil_of_right_ne_nil _ (List.cons_ne_nil _ _)) hchain
  have hsp : Function.update s.regfile.regfile .sp (s.regfile.regfile .sp - used.setWidth 64) .sp =
      sp - used.setWidth 64 := by
    rw [Function.update_self, hcalled.sp]
  obtain ⟨m, hmarg, hmmem, hm⟩ : ∃ m : Machine, m.arg = arg ∧ m.mem = V.mem ∧
      Matches (hroom.activation sig.argSize) s1.memory.byteAt V m s1 := by
    apply matches_start
    · rw [hregs]
      exact hcalled.nargs.trans hlen
    · rw [hregs]
      exact hsp
    · intro n reg h
      obtain ⟨i, hi, hni, hn⟩ := argReg_eq h
      have hn' : n < args.length := hlen ▸ hn
      have hne : Reg.a i ≠ .sp := Reg.noConfusion
      rw [hregs, hi, harg n hn', ← hcalled.args n hn' i hni.symm]
      dsimp only
      rw [Function.update_of_ne hne]
    · rw [hmem]
      exact hcalled.shown
    · exact hproper
  obtain ⟨τ, hτ, hτmem, hτevents⟩ := hrun m hmarg hmmem
  obtain ⟨q', v, u, s', hstar', hq', hw, hval, hm'⟩ :=
    reaches_ret rfl (installed hemit hhas) (fun code hcode => jumps hwt hvisit hcode) halloc hm hcode hr
      hq hτ hτevents hserved
  obtain rfl := Option.some.inj hw
  refine ⟨q', v, s', hstar.trans hstar', hq', hval, ⟨hm'.shown.heap, fun x hx => ?_⟩, fun x hx => ?_⟩
  · rw [hm'.shown.shows x hx.1, hm'.mem, hτmem]
  · rw [hm'.reserved x hx, hmem]

end Calls

/-! ## A module -/

/-- A function of the source that the backend translates as it should, and its assembly. -/
structure Translated where
  c : Ctx
  sig : Signature
  st : Backend.State
  fn : Printing.AsmFunction
  ssa : SSA c.F
  careful : Careful c
  visited : visitFunction c = .ok st
  emitted : emitFunction sig c.F st.emitted = some fn

/-- A run of the source of `C`: it is called with `args`, its own calls come back as `Q` says, and it
    returns a word. -/
inductive Acts (calloc : Heap → Word → Bool) (Q : Calls) (C : Translated) (used : BitVec 32) (sp : Word)
    (R : Set ℕ) (args : List Word) (V : View) : Word → View → Prop
  | intro {W : World} {arg : ℕ → Word} {fuel : ℕ} {w : Option Word} {σ : Src} {V' : View}
      (hroom : HasRoom C.c.F C.st.emitted used sp R) (hlen : args.length = C.sig.argSize)
      (harg : ∀ (n : ℕ) (hn : n < args.length), arg n = args[n]) (hwt : WellTyped C.c.F arg)
      (hV : V.Proper sp.toNat R)
      (hexec : exec W C.c arg fuel none 0 (startState W C.c V.mem) = some (w, σ))
      (hfits : ∀ q ∈ σ.log, q.1.fits q.2)
      (halloc : ∀ code ∈ C.st.emitted, ∀ l ∈ code, Allocated (hroom.activation C.sig.argSize) W l)
      (hserved : Served calloc Q W (hroom.activation C.sig.argSize).sp
        (hroom.activation C.sig.argSize).kept [] V σ.events V') :
      Acts calloc Q C used sp R args V (w.getD 0)
        ⟨V'.heap, V'.known ∩ Visible V'.heap sp.toNat R, σ.mem⟩

/-- How the functions of a module come back when their calls are at most `depth` deep; `gv` is the size
    of the global variables. -/
def Behaves (calloc : Heap → Word → Bool) (M : List Translated) (gv : BitVec 32) : (depth : ℕ) → Calls
  | 0 => fun _ _ _ _ _ _ _ => False
  | depth + 1 => fun sp R callee args V w V' => ∃ C ∈ M, C.fn.name.val.val = callee.toList ∧
      Acts calloc (Behaves calloc M gv depth) C (Printing.frameSize gv C.fn) sp R args V w V'

section Modules

variable {calloc : Heap → Word → Bool} {Q Q' : Calls} {P : Program} {M : List Translated}
  {C : Translated} {gv used : BitVec 32} {depth : ℕ} {sp : Word} {R : Set ℕ} {callee : String}
  {args : List Word} {V V' : View} {w : Word}

theorem Serve.mono {W : World} {before : List Event} {e : Event}
    (hQ : ∀ sp R callee args V w V', Q sp R callee args V w V' → Q' sp R callee args V w V')
    (h : Serve calloc Q W sp R before V e V') : Serve calloc Q' W sp R before V e V' := by
  cases h with
  | load hn halign hknown => exact .load hn halign hknown
  | store hn halign hseen => exact .store hn halign hseen
  | malloc hheap hroom hknown hmem hans => exact .malloc hheap hroom hknown hmem hans
  | free hheap hknown hmem hans => exact .free hheap hknown hmem hans
  | call hmalloc hfree h hans => exact .call hmalloc hfree (hQ _ _ _ _ _ _ _ h) hans

theorem Served.mono {W : World} {before events : List Event}
    (hQ : ∀ sp R callee args V w V', Q sp R callee args V w V' → Q' sp R callee args V w V')
    (h : Served calloc Q W sp R before V events V') : Served calloc Q' W sp R before V events V' := by
  induction h with
  | nil => exact .nil
  | cons he _ ih => exact .cons (he.mono hQ) ih

/-- **The functions of a module come back in the interpreter**, by induction on the depth of the
    calls. -/
theorem returns_of_behaves
    (hhas : ∀ C ∈ M, ∃ f, HasFunction P (C.fn.code (Printing.frameSize gv C.fn)) f)
    (h : Behaves calloc M gv depth sp R callee args V w V') :
    Returns calloc P sp R callee args V w V' := by
  induction depth generalizing sp R callee args V w V' with
  | zero => exact h.elim
  | succ depth ih =>
    obtain ⟨C, hC, hcallee, hacts⟩ := h
    obtain ⟨f, hf⟩ := hhas C hC
    cases hacts with
    | intro hroom hlen harg hwt hV hexec hfits halloc hserved =>
      have hserved := hserved.mono fun _ _ _ _ _ _ _ => ih
      exact returns_of_exec C.ssa hwt C.careful C.visited C.emitted hf hcallee hroom hlen harg hV hexec
        hfits halloc hserved

/-- **A printed module runs as its source.** Where the source of `main` returns, with all that it
    calls, the interpreter accepts the text and returns the same word, with the memory of the source. -/
theorem ends_of_behaves {T : List Printing.TgtFunction} {text : Text} {mem : Word → Byte}
    (hrun : Printing.run T = some text)
    (hnames : ((Printing.printed T).map Printing.AsmFunction.name).Nodup)
    (hM : ∀ C ∈ M, C.fn ∈ Printing.printed T)
    (h : Behaves calloc M (gvStackUsage (T.filterMap Printing.TgtFunction.declared)) depth
      (BitVec.ofNat 64 stackMax) ∅ "main" [] ⟨.init, ∅, mem⟩ w V') :
    ∃ P, parse text = .ok P ∧
      ∀ input, ∃ s, P.Ends calloc input (.returned w) s ∧ V'.Shown s.memory := by
  obtain ⟨lss, rfl, hlines, htexts, hlib⟩ := Printing.run_text hrun
  have hmain : ∃ d ∈ Printing.code T, d.fname = "main".toList ∧ d.nargs = 0 := by
    cases depth with
    | zero => exact h.elim
    | succ depth =>
      obtain ⟨C, hC, hname, hacts⟩ := h
      refine ⟨_, List.mem_map_of_mem (hM C hC), hname, ?_⟩
      cases hacts with
      | intro hroom hlen =>
        show C.fn.argSize.val = 0
        rw [(emitFunction_ok C.emitted).2.1, ← hlen]
        rfl
  obtain ⟨P, hparse, -, hhas⟩ := parse_functions htexts hlines hlib (Printing.code_nodup hnames) hmain
  refine ⟨P, hparse, fun input => ?_⟩
  obtain ⟨-, -, f, p, hf, -, hp, hcall⟩ :=
    returns_of_behaves (fun C hC => hhas _ (List.mem_map_of_mem (hM C hC))) h
  have hcalled : Called (BitVec.ofNat 64 stackMax) [] ⟨.init, ∅, mem⟩ (.init input) :=
    ⟨rfl, rfl, fun n hn => by simp at hn, ⟨rfl, fun x hx => hx.elim⟩⟩
  obtain ⟨q, v, s, hstar, hq, hval, hshown, -⟩ := hcall [] _ hcalled
  refine ⟨{ s with cost := s.cost + Cost.terminator }, ?_, hshown⟩
  unfold Program.Ends start
  rw [hf]
  dsimp only
  unfold Interp.enter
  rw [hp]
  exact hstar.haltsIn (.done (step_return hq hval))

end Modules

/-! ## A program with a call -/

section Single

variable {c : Ctx} {F : Func} {B B' : Block} {b : ℕ}

theorem block_single (hF : F.blocks = [B]) (hB : F.blocks[b]? = some B') : b = 0 ∧ B' = B := by
  rw [hF] at hB
  cases b with
  | zero => exact ⟨rfl, (Option.some.inj hB).symm⟩
  | succ b => simp at hB

/-- A function of one block, which returns, is in SSA form if the operands come first. -/
theorem ssa_single (hF : F.blocks = [B]) (hsucc : B.term.successors = [])
    (hdef : F.defBeforeUse = true)
    (hname : ∀ u ∈ B.uses, ∀ I ∈ u.2.inst?.toList, F.hasName I = true ∧ I.parent = 0) : SSA F where
  uses := by
    intro left b B' n V I hp hB hV hI
    obtain ⟨rfl, rfl⟩ := block_single hF hB
    obtain ⟨hname, hparent⟩ := hname _ hV I (by simp [hI])
    exact ⟨hname, Or.inl ⟨hparent, Func.lt_of_defBeforeUse hdef hB hV hI hparent⟩⟩
  inputs := by
    intro left b B' Q V I hp hB hV hI
    obtain ⟨rfl, rfl⟩ := block_single hF hB
    have hmem := (Func.mem_phiInputs.mp hV).1
    rw [hsucc] at hmem
    cases hmem

/-- Its translation is what it should be, if its calls have one argument, and without casts and
    `getelementptr`s. -/
theorem careful_single (hF : c.F.blocks = [B])
    (hcalls : ∀ f ops ty, Inst.call f ops ty ∈ B.body → ∃ V, ops = [V])
    (hcasts : ∀ x ∈ B.body, ∀ s, ¬x.aliased c s)
    (hgeps : ∀ ptr indices ty, Inst.gep ptr indices ty ∉ B.body) : Careful c where
  clear := by
    apply startsClear_of_jumps
    intro b B' hB hb
    rw [hF, List.length_singleton] at hb
    omega
  casts := by
    intro b B' i x s hB hx _
    obtain ⟨rfl, rfl⟩ := block_single hF hB
    exact hcasts x (List.mem_of_getElem? hx) s
  calls := by
    intro b i B' f ops ty s s1 hB hx hs h
    obtain ⟨rfl, rfl⟩ := block_single hF hB
    obtain ⟨V, rfl⟩ := hcalls f ops ty (List.mem_of_getElem? hx)
    exact noOwnVictim_of_reaches hs h
  geps := by
    intro b i B' ptr indices ty elem hB hx
    obtain ⟨rfl, rfl⟩ := block_single hF hB
    exact absurd (List.mem_of_getElem? hx) (hgeps ptr indices ty)

/-- It is well typed if its instructions are. -/
theorem wellTyped_single {arg : ℕ → Word} (hF : F.blocks = [B]) (hphis : B.phis = [])
    (hsucc : B.term.successors = [])
    (hinsts : ∀ x ∈ B.body, x.wellTyped ∧ ∀ V ∈ x.operands, Typed F arg V) : WellTyped F arg where
  insts := by
    intro b i B' x hB hx
    obtain ⟨rfl, rfl⟩ := block_single hF hB
    exact hinsts x (List.mem_of_getElem? hx)
  phis := by
    intro b i a B' φ V hB hφ
    obtain ⟨rfl, rfl⟩ := block_single hF hB
    rw [hphis] at hφ
    cases hφ
  entry := by
    intro b B' hB
    obtain ⟨rfl, rfl⟩ := block_single hF hB
    rw [hsucc]
    exact List.not_mem_nil

end Single

/-- It returns twice its argument. -/
def double : Ctx where
  F :=
    { name := "double"
      blocks :=
        [ { phis := []
            body := [.binary .add ⟨.arg 0, .int 64⟩ ⟨.arg 0, .int 64⟩]
            term := .ret (some ⟨.inst ⟨0, 0⟩, .int 64⟩) } ] }
  gvMap := fun _ => 0
  heapSize := 0

/-- It returns what `double` does with 21. -/
def callDouble : Ctx where
  F :=
    { name := "main"
      blocks :=
        [ { phis := []
            body := [.call "double" [⟨.constInt 21, .int 64⟩] (some (.int 64))]
            term := .ret (some ⟨.inst ⟨0, 0⟩, .int 64⟩) } ] }
  gvMap := fun _ => 0
  heapSize := 0

theorem entry_isName : "entry".toList ≠ [] ∧ ∀ c ∈ "entry".toList, isNameChar c = true :=
  ⟨by decide, List.all_eq_true.mp rfl⟩

theorem double_isName : "double".toList ≠ [] ∧ ∀ c ∈ "double".toList, isNameChar c = true :=
  ⟨by decide, List.all_eq_true.mp rfl⟩

theorem double_isCallee : "double".toList ≠ "read".toList ∧ "double".toList ≠ "write".toList := by
  decide

theorem one_lt_registers : 1 < 17 := by decide

/-- The only block of both. -/
def entryName : Name := ⟨"entry".toList, entry_isName⟩

def doubleSig : Signature :=
  ⟨⟨⟨"double".toList, double_isName⟩, double_isCallee⟩, ⟨1, one_lt_registers⟩, [entryName]⟩

def callDoubleSig : Signature := ⟨Printing.sampleMain.name, Printing.sampleMain.argSize, [entryName]⟩

/-- What the translation and the emitter make of a function. -/
def assembled? (c : Ctx) (sig : Signature) : Option (List (List Line) × Printing.AsmFunction) :=
  (emitted? c).bind fun codes => (emitFunction sig c.F codes).map fun fn => (codes, fn)

def doubleAsm : List (List Line) × Printing.AsmFunction :=
  (assembled? double doubleSig).get (by decide +kernel)

def callDoubleAsm : List (List Line) × Printing.AsmFunction :=
  (assembled? callDouble callDoubleSig).get (by decide +kernel)

theorem doubleAsm_eq : assembled? double doubleSig = some doubleAsm := by
  unfold doubleAsm
  rw [Option.some_get]

theorem callDoubleAsm_eq : assembled? callDouble callDoubleSig = some callDoubleAsm := by
  unfold callDoubleAsm
  rw [Option.some_get]

theorem translated_of_assembled {c : Ctx} {sig : Signature} {a : List (List Line) × Printing.AsmFunction}
    (h : assembled? c sig = some a) (hF : SSA c.F) (hcare : Careful c) :
    ∃ C : Translated, C.c = c ∧ C.sig = sig ∧ C.fn = a.2 ∧ C.st.emitted = a.1 := by
  obtain ⟨codes, hcodes, h⟩ := Option.bind_eq_some_iff.mp h
  obtain ⟨fn, hfn, rfl⟩ := Option.map_eq_some_iff.mp h
  obtain ⟨st, hst, rfl⟩ := emitted?_eq_some.mp hcodes
  exact ⟨⟨c, sig, st, fn, hF, hcare, hst, hfn⟩, rfl, rfl, rfl, rfl⟩

theorem ssa_double : SSA double.F := ssa_single rfl rfl (by decide) (by decide)

theorem ssa_callDouble : SSA callDouble.F := ssa_single rfl rfl (by decide) (by decide)

theorem careful_double : Careful double := by
  apply careful_single rfl
  · simp
  · intro x hx
    obtain rfl := List.mem_singleton.mp hx
    intro s
    exact id
  · simp

theorem careful_callDouble : Careful callDouble := by
  apply careful_single rfl
  · intro f ops ty h
    obtain ⟨-, rfl, -⟩ := Inst.call.inj (List.mem_singleton.mp h)
    exact ⟨_, rfl⟩
  · intro x hx
    obtain rfl := List.mem_singleton.mp hx
    intro s
    exact id
  · simp

theorem wellTyped_double (arg : ℕ → Word) : WellTyped double.F arg := by
  apply wellTyped_single rfl rfl rfl
  intro x hx
  obtain rfl := List.mem_singleton.mp hx
  refine ⟨by simp [Inst.wellTyped], fun V hV => ?_⟩
  obtain rfl | rfl := List.mem_pair.mp hV
  · exact (arg 0).isLt
  · exact (arg 0).isLt

theorem wellTyped_callDouble (arg : ℕ → Word) : WellTyped callDouble.F arg := by
  apply wellTyped_single rfl rfl rfl
  intro x hx
  obtain rfl := List.mem_singleton.mp hx
  refine ⟨by simp [Inst.wellTyped], fun V hV => ?_⟩
  obtain rfl := List.mem_singleton.mp hV
  exact (21 : Word).isLt

/-- The lines of an `alloca`. -/
def isAlloca : Line → Bool
  | .alloca _ _ _ _ => true
  | _ => false

theorem allocated_of_none {A : Activation} {W : World} {codes : List (List Line)}
    (h : codes.flatten.any isAlloca = false) : ∀ code ∈ codes, ∀ l ∈ code, Allocated A W l := by
  rintro code hcode l hl k I ty n rfl
  have hany : codes.flatten.any isAlloca = true :=
    List.any_eq_true.mpr ⟨_, List.mem_flatten.mpr ⟨code, hcode, hl⟩, rfl⟩
  rw [h] at hany
  cases hany

/-- The surroundings of the example: a callee returns 42. -/
def answer42 : World where
  address := fun _ => 0
  answer := fun _ _ => ⟨42, fun _ => 0⟩

/-- What is known before `main`. -/
def unknown : View := ⟨.init, ∅, fun _ => 0⟩

/-- A run of the source, where the function and its code are known by other names. -/
theorem Acts.of_eq {calloc : Heap → Word → Bool} {Q : Calls} {C : Translated} {c : Ctx}
    {sig : Signature} {codes : List (List Line)} {used : BitVec 32} {sp : Word} {R : Set ℕ}
    {args : List Word} {V V' : View} {W : World} {arg : ℕ → Word} {fuel : ℕ} {w : Option Word} {σ : Src}
    (hc : C.c = c) (hsig : C.sig = sig) (hst : C.st.emitted = codes)
    (hroom : HasRoom c.F codes used sp R) (hlen : args.length = sig.argSize)
    (harg : ∀ (n : ℕ) (hn : n < args.length), arg n = args[n]) (hwt : WellTyped c.F arg)
    (hV : V.Proper sp.toNat R) (hexec : exec W c arg fuel none 0 (startState W c V.mem) = some (w, σ))
    (hfits : ∀ q ∈ σ.log, q.1.fits q.2) (halloc : codes.flatten.any isAlloca = false)
    (hserved : Served calloc Q W (hroom.activation sig.argSize).sp
      (hroom.activation sig.argSize).kept [] V σ.events V') :
    Acts calloc Q C used sp R args V (w.getD 0)
      ⟨V'.heap, V'.known ∩ Visible V'.heap sp.toNat R, σ.mem⟩ := by
  subst hc hsig hst
  exact .intro hroom hlen harg hwt hV hexec hfits (allocated_of_none halloc) hserved

theorem unknown_proper (lo : ℕ) (R : Set ℕ) : unknown.Proper lo R :=
  ⟨Heap.Tiled.init, Set.empty_subset _⟩

/-- A call of `double`, with 21. -/
theorem behaves_double {M : List Translated} {C : Translated} {sp : Word} {R : Set ℕ} (hC : C ∈ M)
    (hc : C.c = double) (hsig : C.sig = doubleSig) (hfn : C.fn = doubleAsm.2)
    (hst : C.st.emitted = doubleAsm.1) (hsp : sp.toNat = stackMax)
    (hR : ∀ x ∈ R, sp.toNat ≤ x ∧ x < stackMax) :
    Behaves (fun _ _ => true) M 0 1 sp R "double" [21] unknown 42
      ⟨.init, ∅ ∩ Visible .init sp.toNat R, fun _ => 0⟩ := by
  have hused : Printing.frameSize 0 doubleAsm.2 = 0 := by decide +kernel
  have hroom : HasRoom double.F doubleAsm.1 0 sp R := by
    refine ⟨by decide +kernel, by decide +kernel, Nat.zero_le _, hsp.le, ?_, hR⟩
    rw [hsp]
    rfl
  refine ⟨C, hC, ?_, ?_⟩
  · rw [hfn]
    decide +kernel
  rw [hfn, hused]
  have hexec : exec answer42 double (fun _ => 21) 1 none 0 (startState answer42 double unknown.mem) =
      some (some 42, _) := rfl
  refine Acts.of_eq hc hsig hst hroom rfl ?_ (wellTyped_double _) (unknown_proper _ _) hexec ?_
    (by decide +kernel) .nil
  · intro n hn
    obtain rfl : n = 0 := by simpa using hn
    rfl
  · intro q hq
    obtain rfl := List.mem_singleton.mp hq
    trivial

/-- A run of `main`, which calls `double`. -/
theorem behaves_callDouble {M : List Translated} {C D : Translated} (hC : C ∈ M) (hD : D ∈ M)
    (hc : C.c = double) (hsig : C.sig = doubleSig) (hfn : C.fn = doubleAsm.2)
    (hst : C.st.emitted = doubleAsm.1) (hc' : D.c = callDouble) (hsig' : D.sig = callDoubleSig)
    (hfn' : D.fn = callDoubleAsm.2) (hst' : D.st.emitted = callDoubleAsm.1) :
    ∃ V, Behaves (fun _ _ => true) M 0 2 (BitVec.ofNat 64 stackMax) ∅ "main" [] unknown 42 V := by
  have hused : Printing.frameSize 0 callDoubleAsm.2 = 0 := by decide +kernel
  have hroom : HasRoom callDouble.F callDoubleAsm.1 0 (BitVec.ofNat 64 stackMax) ∅ :=
    ⟨by decide +kernel, by decide +kernel, Nat.zero_le _, le_of_eq rfl, rfl, fun _ hx => hx.elim⟩
  have hsp : (hroom.activation 0).sp.toNat = stackMax := hroom.sp_toNat
  have hcall := behaves_double hC hc hsig hfn hst hsp hroom.kept_above
  have hexec : exec answer42 callDouble (fun _ => 0) 1 none 0
      (startState answer42 callDouble unknown.mem) = some (some 42, _) := rfl
  obtain ⟨V, hacts⟩ : ∃ V, Acts (fun _ _ => true) (Behaves (fun _ _ => true) M 0 1) D 0
      (BitVec.ofNat 64 stackMax) ∅ [] unknown 42 V := by
    refine ⟨_, Acts.of_eq hc' hsig' hst' hroom rfl ?_ (wellTyped_callDouble _) (unknown_proper _ _)
      hexec ?_ (by decide +kernel) (.cons (.call (by decide) (by decide) hcall rfl) .nil)⟩
    · intro n hn
      cases hn
    · intro q hq
      obtain rfl := List.mem_singleton.mp hq
      trivial
  refine ⟨V, D, hD, ?_, ?_⟩
  · rw [hfn']
    decide +kernel
  · rw [hfn', hused]
    exact hacts

theorem printed_pair {f g : Printing.AsmFunction} (hf : Printing.isPrinted f = true)
    (hg : Printing.isPrinted g = true) : Printing.printed [.definition f, .definition g] = [f, g] := by
  simp [Printing.printed, Printing.TgtFunction.printed?, hf, hg]

/-- The program of both functions is printed, accepted, and returns 42. -/
theorem ends_of_behaves_callDouble : ∃ text P,
    Printing.run [.definition doubleAsm.2, .definition callDoubleAsm.2] = some text ∧
      parse text = .ok P ∧ ∀ input, ∃ s, P.Ends (fun _ _ => true) input (.returned 42) s := by
  obtain ⟨text, htext⟩ := Option.isSome_iff_exists.mp (show (Printing.run
    [.definition doubleAsm.2, .definition callDoubleAsm.2]).isSome = true by decide +kernel)
  have hprinted : Printing.printed [.definition doubleAsm.2, .definition callDoubleAsm.2] =
      [doubleAsm.2, callDoubleAsm.2] := printed_pair (by decide +kernel) (by decide +kernel)
  have hnames : ((Printing.printed [.definition doubleAsm.2, .definition callDoubleAsm.2]).map
      Printing.AsmFunction.name).Nodup := by
    rw [hprinted]
    decide +kernel
  obtain ⟨C, hc, hsig, hfn, hst⟩ := translated_of_assembled doubleAsm_eq ssa_double careful_double
  obtain ⟨D, hc', hsig', hfn', hst'⟩ :=
    translated_of_assembled callDoubleAsm_eq ssa_callDouble careful_callDouble
  have hM : ∀ E ∈ [C, D],
      E.fn ∈ Printing.printed [.definition doubleAsm.2, .definition callDoubleAsm.2] := by
    rw [hprinted, ← hfn, ← hfn']
    exact fun E hE => List.mem_map_of_mem (f := Translated.fn) hE
  obtain ⟨V, hmain⟩ := behaves_callDouble List.mem_cons_self (List.mem_cons_of_mem C List.mem_cons_self)
    hc hsig hfn hst hc' hsig' hfn' hst'
  obtain ⟨P, hparse, hends⟩ := ends_of_behaves htext hnames hM hmain
  refine ⟨text, P, htext, hparse, fun input => ?_⟩
  obtain ⟨s, hs, -⟩ := hends input
  exact ⟨s, hs⟩

end SwppCompiler.Backend.Assembly
