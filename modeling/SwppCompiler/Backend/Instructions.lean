import SwppCompiler.Backend.Emulation

/-!
# Instructions

The visitor of each instruction, on a machine that has the values of the operands: its code does what
the instruction does.

* `Phases`: the visitors that translate their operands, request a register, and create the result.
* `visitInst_emulates`: every instruction that is neither a PHI node nor a terminator.
-/

namespace SwppCompiler.Backend.Simulation

open Interp Lib.StateExcept RegisterAllocator

/-! ## Visitors with three phases -/

/-- The visit of `I` translates the operands, requests a register, and creates a result from which
    every word is read that `q` allows for the values of the operands. -/
def Phases (c : Ctx) (I : InstRef) (operands : List Operand) (s s' : State)
    (q : Machine → List Word → Word → Prop) : Prop :=
  ∃ s0 vs s1 s2 k s3 v s4,
    (s0 = s ∧ operands.length = 1 ∨ s0 = { s with ra := s.ra.reportUser (some I) }) ∧
    translateAll c I operands s0 = .ok (vs, s1) ∧ s2.code = s1.code ∧
    requestRegister c I s2 = .ok (k, s3) ∧
    Leaves s3 v s4 (fun m r => ∃ args, List.Forall₂ (EmitVal.Holds m) (vs.map Prod.fst) args ∧
      List.Forall₂ Operand.ZeroExt operands args ∧ q m args r) ∧ Quiet s3 s4 ∧
    s' = { s4 with
      sourceToEmitMap := Function.update s4.sourceToEmitMap I (some v)
      code := s4.code ++ [.value I v] }

section Phases

variable {c : Ctx} {I : InstRef} {s s' : State} {u : Unit} {V V' V'' : Operand} {A : Answer}

theorem Phases.mono {operands : List Operand} {q q' : Machine → List Word → Word → Prop}
    (h : Phases c I operands s s' q) (hq : ∀ m args r, List.Forall₂ Operand.ZeroExt operands args →
      q' m args r → q m args r) : Phases c I operands s s' q' := by
  obtain ⟨s0, vs, s1, s2, k, s3, v, s4, h0, h1, h2, h3, h4, h5, h6⟩ := h
  refine ⟨s0, vs, s1, s2, k, s3, v, s4, h0, h1, h2, h3, h4.mono ?_, h5, h6⟩
  rintro m r ⟨args, hargs, hext, hr⟩
  exact ⟨args, hargs, hext, hq m args r hext hr⟩

/-- A visitor with one operand. -/
theorem unary_phases {f : ℕ → EmitVal → M EmitVal} {q : Machine → Word → Word → Prop}
    (hf : ∀ {k op v s1 s2}, f k op s1 = .ok (v, s2) →
      Quiet s1 s2 ∧ Leaves s1 v s2 fun m r => ∃ a, op.Holds m a ∧ V.ZeroExt a ∧ q m a r)
    (h : (do
      let (op, _) ← translateSrcOperandToTgt c V I
      let regId ← requestRegister c I
      let res ← f regId op
      define I res) s = .ok (u, s')) :
    Phases c I [V] s s' fun m args r => ∃ a, args = [a] ∧ q m a r := by
  simp only [bind_ok_iff, define_ok] at h
  obtain ⟨⟨op, kop⟩, s1, hop, k, s2, hreq, v, s3, hv, hs'⟩ := h
  obtain ⟨hquiet, hleaves⟩ := hf hv
  refine ⟨s, _, s1, s1, k, s2, v, s3, Or.inl ⟨rfl, rfl⟩,
    translateAll_cons_ok hop translateAll_nil, rfl, hreq, hleaves.mono ?_, hquiet, hs'⟩
  rintro m r ⟨args, hargs, hext, a, rfl, hq⟩
  exact ⟨a, (List.forall₂_cons.mp hargs).1, (List.forall₂_cons.mp hext).1, hq⟩

/-- A visitor that announces itself, with two operands. -/
theorem binary_phases {f : ℕ → EmitVal → EmitVal → M EmitVal} {q : Word → Word → Word → Prop}
    (hf : ∀ {k a b v s1 s2}, f k a b s1 = .ok (v, s2) →
      Quiet s1 s2 ∧ Leaves s1 v s2 fun m r => ∃ x y, a.Holds m x ∧ b.Holds m y ∧ q x y r)
    (h : (do
      reportUser (some I)
      let (op1, _) ← translateSrcOperandToTgt c V I
      let (op2, _) ← translateSrcOperandToTgt c V' I
      reportUser none
      let regId ← requestRegister c I
      let res ← f regId op1 op2
      define I res) s = .ok (u, s')) :
    Phases c I [V, V'] s s' fun _ args r => ∃ x y, args = [x, y] ∧ q x y r := by
  simp only [bind_ok_iff, reportUser_ok, define_ok] at h
  obtain ⟨⟨⟩, s0, rfl, ⟨v1, k1⟩, s1, hv1, ⟨v2, k2⟩, s2, hv2, ⟨⟩, s3, rfl, k, s4, hreq, v, s5, hv,
    hs'⟩ := h
  obtain ⟨hquiet, hleaves⟩ := hf hv
  refine ⟨_, _, s2, { s2 with ra := s2.ra.reportUser none }, k, s4, v, s5, Or.inr rfl,
    translateAll_cons_ok hv1 (translateAll_cons_ok hv2 translateAll_nil), rfl, hreq,
    hleaves.mono ?_, hquiet, hs'⟩
  rintro m r ⟨args, hargs, -, x, y, rfl, hq⟩
  obtain ⟨hx, hargs⟩ := List.forall₂_cons.mp hargs
  exact ⟨x, y, hx, (List.forall₂_cons.mp hargs).1, hq⟩

theorem visitBinaryOperator_phases {op : BinaryOps}
    (h : visitBinaryOperator c I op V V' s = .ok (u, s')) :
    Phases c I [V, V'] s s' fun m args r => (Inst.binary op V V').eval m.mem 0 args = some r := by
  obtain ⟨val, ty⟩ := V
  cases ty with
  | int bw =>
    obtain ⟨⟨⟩, s1, hreq, h⟩ := bind_ok_iff.mp h
    obtain ⟨hbw, rfl⟩ := require_ok.mp hreq
    refine (binary_phases (f := fun k a b => createBinOp k op bw a b) (fun hv =>
      ⟨createBinOp_quiet hv, createBinOp_leaves hbw hv⟩) h).mono fun m args r hext hr => ?_
    obtain ⟨x, y, rfl, -⟩ := args_two hext
    exact ⟨x, y, rfl, hr⟩
  | _ => exact (throw_ok_iff.mp h).elim

theorem visitICmpInst_phases {P : Predicate} (h : visitICmpInst c I P V V' s = .ok (u, s')) :
    Phases c I [V, V'] s s' fun m args r => (Inst.icmp P V V').eval m.mem 0 args = some r := by
  obtain ⟨⟨⟩, s1, hreq, h⟩ := bind_ok_iff.mp h
  obtain ⟨hty, rfl⟩ := require_ok.mp hreq
  have hbw : checkSrcType (.int (icmpWidth V.ty)) = true := by
    cases hl : V.ty with
    | int bw => rwa [hl] at hty
    | _ => rfl
  have hwidth : V.ty.width = icmpWidth V.ty := by
    cases V.ty <;> rfl
  refine (binary_phases (f := fun k a b => createICmp k P (icmpWidth V.ty) a b) (fun hv =>
    ⟨createICmp_quiet hv, createICmp_leaves hbw hv⟩) h).mono fun m args r hext hr => ?_
  obtain ⟨x, y, rfl, -⟩ := args_two hext
  simp only [Inst.eval, Option.some.injEq] at hr
  rw [hwidth] at hr
  exact ⟨x, y, rfl, hr⟩

theorem visitSelectInst_phases (hwt : (Inst.select V V' V'').wellTyped)
    (h : visitSelectInst c I V V' V'' s = .ok (u, s')) :
    Phases c I [V, V', V''] s s' fun m args r =>
      (Inst.select V V' V'').eval m.mem 0 args = some r := by
  simp only [visitSelectInst, bind_ok_iff, reportUser_ok, define_ok] at h
  obtain ⟨⟨⟩, s0, rfl, ⟨v1, k1⟩, s1, hv1, ⟨v2, k2⟩, s2, hv2, ⟨v3, k3⟩, s3, hv3, ⟨⟩, s4, rfl, k, s5,
    hreq, v, s6, hv, hs'⟩ := h
  refine ⟨_, _, s3, { s3 with ra := s3.ra.reportUser none }, k, s5, v, s6, Or.inr rfl,
    translateAll_cons_ok hv1 (translateAll_cons_ok hv2 (translateAll_cons_ok hv3 translateAll_nil)),
    rfl, hreq, (createSelect_leaves hv).mono ?_, createSelect_quiet hv, hs'⟩
  rintro m r ⟨args, hargs, hext, hr⟩
  obtain ⟨z, x, y, rfl, hz, hx, hy⟩ := args_three hargs
  obtain ⟨z', x', y', heq, hz2, -, -⟩ := args_three hext
  cases heq
  rw [Operand.ZeroExt, hwt.1] at hz2
  exact ⟨z, x, y, hz, hx, hy, hz2, Option.some.inj hr⟩

theorem visitBitCastInst_phases {ty : Ty} (h : visitBitCastInst c I V ty s = .ok (u, s')) :
    Phases c I [V] s s' fun _ args r => args = [r] := by
  refine (unary_phases (f := fun k op => createBitCast k op V.ty ty) (q := fun _ a r => a = r)
    (fun hv => ⟨createBitCast_quiet hv, (createBitCast_leaves hv).mono ?_⟩) h).mono ?_
  · rintro m r ⟨a, ha, -, rfl⟩
    exact ha
  · exact fun _ _ r _ hr => ⟨r, hr, rfl⟩

theorem visitPtrCast_phases (h : visitPtrCast c I V s = .ok (u, s')) :
    Phases c I [V] s s' fun _ args r => args = [r] := by
  refine (unary_phases (f := createPtrCast) (q := fun _ a r => a = r)
    (fun hv => ⟨createPtrCast_quiet hv, (createPtrCast_leaves hv).mono ?_⟩) h).mono ?_
  · rintro m r ⟨a, ha, -, rfl⟩
    exact ha
  · exact fun _ _ r _ hr => ⟨r, hr, rfl⟩

theorem visitZExtInst_phases (h : visitZExtInst c I V s = .ok (u, s')) :
    Phases c I [V] s s' fun _ args r => args = [r] := by
  refine (unary_phases (f := fun k op => createBinOp k .mul 64 op (.const 1))
    (q := fun _ a r => a = r)
    (fun hv => ⟨createBinOp_quiet hv, (createCopy_leaves hv).mono ?_⟩) h).mono ?_
  · rintro m r ⟨a, ha, -, rfl⟩
    exact ha
  · exact fun _ _ r _ hr => ⟨r, hr, rfl⟩

theorem visitSExtInst_phases (h : visitSExtInst c I V s = .ok (u, s')) :
    Phases c I [V] s s' fun _ args r => ∃ w a, V.ty = .int w ∧ args = [a] ∧
      Interp.sext (a.setWidth w) = r := by
  obtain ⟨val, ty⟩ := V
  cases ty with
  | int w =>
    have hsrc : checkSrcType (.int w) = true := by
      simp only [visitSExtInst, bind_ok_iff] at h
      obtain ⟨⟨op, kop⟩, s1, hop, -⟩ := h
      exact checkSrcType_of_translate (V := ⟨val, .int w⟩) hop
    refine (unary_phases (f := fun k op => createSExt k w op)
      (q := fun _ a r => Interp.sext (a.setWidth w) = r)
      (fun hv => ⟨createSExt_quiet hv, (createSExt_leaves hsrc hv).mono ?_⟩) h).mono ?_
    · rintro m r ⟨a, ha, hext, har⟩
      exact ⟨a.setWidth w, by rwa [zext_setWidth (w := w) hext], har⟩
    · rintro m args r hext ⟨w', a, hw', rfl, hr⟩
      cases hw'
      exact ⟨a, rfl, hr⟩
  | _ => exact (throw_ok_iff.mp h).elim

/-- The remainder by a power of two has the low bits. -/
theorem umod_two_pow {bw : ℕ} (hbw : bw < 64) (a : Word) :
    a % BitVec.ofNat 64 (2 ^ bw) = Interp.zext (a.setWidth bw) := by
  apply BitVec.eq_of_toNat_eq
  rw [BitVec.toNat_umod, BitVec.toNat_ofNat, zext_toNat hbw.le, BitVec.toNat_setWidth,
    Nat.mod_eq_of_lt (Nat.pow_lt_pow_right (by norm_num) hbw)]

theorem visitTruncInst_phases {bw : ℕ} (hbw : bw < 64)
    (h : visitTruncInst c I V bw s = .ok (u, s')) :
    Phases c I [V] s s' fun _ args r => ∃ a, args = [a] ∧ Interp.zext (a.setWidth bw) = r := by
  have hne : BitVec.ofNat 64 (2 ^ bw) ≠ 0 := by
    intro h0
    have hpow := congrArg BitVec.toNat h0
    rw [BitVec.toNat_ofNat, Nat.mod_eq_of_lt (Nat.pow_lt_pow_right (by norm_num) hbw)] at hpow
    exact (Nat.two_pow_pos bw).ne' hpow
  refine unary_phases (f := fun k op => createBinOp k .urem 64 op (.const (BitVec.ofNat 64 (2 ^ bw))))
    (q := fun _ a r => Interp.zext (a.setWidth bw) = r)
    (fun hv => ⟨createBinOp_quiet hv, (createBinOp_leaves rfl hv).mono ?_⟩) h
  rintro m r ⟨a, ha, -, har⟩
  refine ⟨a, _, ha, holds_const, ?_⟩
  simp only [BinaryOps.eval, BitVec.setWidth_eq, hne, if_false, Option.map_some, umod_two_pow hbw, har]
  rw [Interp.zext, BitVec.setWidth_eq]

end Phases

section Instructions

variable {W : World} {c : Ctx} {d : Site} {b : ℕ} {kept : InstRef → Prop} {I : InstRef}
  {s s1 s' : State} {τ τ' : Tgt} {env : InstRef → Word} {u : Unit} {args : List Word} {r : Word}
  {V V' : Operand}

theorem Phases.computes {operands : List Operand} {q : Machine → List Word → Word → Prop}
    (h : Phases c I operands s s' q) (hv : Visiting c d b kept) (hd : d.user = I)
    (hops : ∀ V ∈ operands, V ∈ d.operands) (hin : Within c d b kept s τ.m env)
    (hfirst : ∀ e ∈ s.ra.activeSet, e.lastUser ≠ some I)
    (hargs : evalAll c env τ.m.arg operands = some args)
    (hext : List.Forall₂ Operand.ZeroExt operands args)
    (hq : ∀ m', m'.mem = τ.m.mem → q m' args r) : Computes W s s' τ env I r := by
  subst hd
  obtain ⟨s0, vs, s1, s2, k, s3, v, s4, h0, hvs, hcode2, hreq, hl, hquiet, hs'⟩ := h
  have hno : NoOwnVictim c d.user operands s0 := by
    obtain ⟨rfl, hlen⟩ | rfl := h0
    · obtain ⟨V, rfl⟩ := List.length_eq_one_iff.mp hlen
      exact noOwnVictim_single hin.ownership hfirst
    · exact noOwnVictim_of_currentUser (hin.ownership.reportUser _) rfl
  have hstart : Within c d b kept s0 τ.m env ∧ s0.code = s.code ∧
      s0.ra.activeSet = s.ra.activeSet := by
    obtain ⟨rfl, -⟩ | rfl := h0
    · exact ⟨hin, rfl, rfl⟩
    · exact ⟨hin.user hv _, rfl, rfl⟩
  obtain ⟨hin0, hcode0, hactive⟩ := hstart
  obtain ⟨τ1, hem1, hun1, -, hholds⟩ := hin0.operands (W := W) hv hops
    (fun e he => hfirst e (hactive ▸ he)) hno hvs hargs
  have hem2 : Emulates W s s2 τ τ1 env env :=
    ((Emulates.of_code hcode0).trans hem1).trans (.of_code hcode2)
  refine Computes.after hem2 hun1 (Simulation.computes hholds hreq hl hquiet (fun m' hm' hmem => ?_) hs')
  exact ⟨args, hm', hext, hq m' (hmem.trans hun1.mem)⟩

/-! ## Memory -/

/-- A line that is executed alone. -/
theorem emulates_line {l : Line} (hl : l.endsBlock = false) (hvalue : ∀ I v, l ≠ .value I v)
    (hexec : execLine W τ l = some τ') (hcode : s'.code = s.code ++ [l]) :
    Emulates W s s' τ τ' env env := by
  refine ⟨[l], hcode, fun I hI => hvalue I _ (List.mem_singleton.mp hI).symm, ?_⟩
  have hbind : l.bind τ.m env = env := by
    cases l with
    | value I v => exact absurd rfl (hvalue I v)
    | _ => rfl
  have hruns : Runs W τ env [l] τ' (l.bind τ.m env) := .single hl hexec
  rwa [hbind] at hruns

theorem visitAllocaInst_computes {allocated : Ty}
    (h : visitAllocaInst c I allocated V s = .ok (u, s')) : Computes W s s' τ env I (W.address I) := by
  simp only [visitAllocaInst, bind_ok_iff, require_ok, emit_ok, define_ok] at h
  obtain ⟨⟨⟩, s1, ⟨-, rfl⟩, ⟨⟩, s2, ⟨-, rfl⟩, k, s3, hreq, ⟨⟩, s4, rfl, hs'⟩ := h
  obtain ⟨τ1, hem1, hun1, -⟩ := (requestRegister_spills hreq).emulates W τ env
  let τ2 : Tgt := ⟨τ1.m.setReg k (W.address I), τ1.events⟩
  have hline : execLine W τ1 (.alloca k I allocated V) = some τ2 := by
    simp [execLine, answer, event?, Line.exec, τ2]
  have hem2 : Emulates W s3 { s3 with code := s3.code ++ [.alloca k I allocated V] } τ1 τ2 env env :=
    emulates_line rfl (by simp) hline rfl
  have hun2 : Unseen τ1 τ2 := ⟨rfl, rfl, rfl⟩
  exact .after (hem1.trans hem2) (hun1.trans hun2)
    (emulates_value ⟨by simp, read_reg_setReg⟩ hs')

theorem visitLoadInst_emulates {elem : Ty} {a : Word} (hv : Visiting c d b kept) (hd : d.user = I)
    (hop : V ∈ d.operands) (hin : Within c d b kept s τ.m env) (hty : V.ty = .ptr elem)
    (harg : V.eval c env τ.m.arg = some a) (h : visitLoadInst c I V s = .ok (u, s')) :
    ∃ τ', Emulates W s s' τ τ' env
        (Function.update env I (loadLittleEndian τ.m.mem (getAccessSize elem) a)) ∧
      τ'.m.arg = τ.m.arg ∧ τ'.m.mem = τ.m.mem ∧
      τ'.events = τ.events ++ [.load (getAccessSize elem) a] := by
  subst hd
  simp only [visitLoadInst, hty, bind_ok_iff, require_ok, emit_ok, define_ok] at h
  obtain ⟨⟨⟩, s0, ⟨-, rfl⟩, ⟨p, j⟩, s1, h1, k, s2, hreq, ⟨⟩, s3, rfl, hs'⟩ := h
  obtain ⟨τ1, hem1, hun1, -, -, hholds, -⟩ := hin.translate (W := W) hv hop h1
  obtain ⟨τ2, hem2, hun2, hreg, -⟩ := (requestRegister_spills hreq).emulates W τ1 env
  have hun := hun1.trans hun2
  have hp : p.read τ2.m = a :=
    ((hholds a harg).congr hun2.arg fun j _ => by rw [hreg]).2
  let r := loadLittleEndian τ.m.mem (getAccessSize elem) a
  let l : Line := .load k (getAccessSize elem) p
  let τ3 : Tgt := ⟨τ2.m.setReg k r, τ.events ++ [.load (getAccessSize elem) a]⟩
  have hline : execLine W τ2 l = some τ3 := by
    simp [execLine, event?, Line.exec, l, τ3, r, hp, hun.mem, hun.events]
  have hem3 : Emulates W s2 { s2 with code := s2.code ++ [l] } τ2 τ3 env env :=
    emulates_line rfl (by simp [l]) hline rfl
  have hvalue : Computes W { s2 with code := s2.code ++ [l] } s' τ3 env d.user r :=
    emulates_value ⟨by simp, read_reg_setReg⟩ hs'
  obtain ⟨τ4, hem4, hun4⟩ := hvalue
  exact ⟨τ4, ((hem1.trans hem2).trans hem3).trans hem4, hun4.arg.trans hun.arg,
    hun4.mem.trans hun.mem, hun4.events⟩

theorem visitStoreInst_emulates {w a : Word} (hv : Visiting c d b kept) (hd : d.user = I)
    (hops : ∀ X ∈ [V, V'], X ∈ d.operands) (hin : Within c d b kept s τ.m env)
    (hfirst : ∀ e ∈ s.ra.activeSet, e.lastUser ≠ some I)
    (hargs : evalAll c env τ.m.arg [V, V'] = some [w, a])
    (h : visitStoreInst c I V V' s = .ok (u, s')) :
    ∃ τ', Emulates W s s' τ τ' env env ∧ τ'.m.arg = τ.m.arg ∧
      τ'.m.mem = storeLittleEndian τ.m.mem (getAccessSize V.ty) a w ∧
      τ'.events = τ.events ++ [.store (getAccessSize V.ty) a w] := by
  subst hd
  simp only [visitStoreInst, bind_ok_iff, require_ok, reportUser_ok, emit_ok] at h
  obtain ⟨⟨⟩, s0, ⟨-, rfl⟩, ⟨⟩, s1, rfl, ⟨v, k⟩, s2, h1, ⟨⟩, s3, ⟨-, rfl⟩, ⟨p, j⟩, s4, h2, ⟨⟩, s5,
    rfl, rfl⟩ := h
  have hvs := translateAll_cons_ok h1 (translateAll_cons_ok h2 translateAll_nil)
  have hin0 := hin.user hv (some d.user)
  obtain ⟨τ1, hem1, hun1, -, hholds⟩ := hin0.operands (W := W) hv hops hfirst
    (noOwnVictim_of_currentUser hin0.ownership rfl) hvs hargs
  obtain ⟨hw, hholds⟩ := List.forall₂_cons.mp hholds
  obtain ⟨ha, -⟩ := List.forall₂_cons.mp hholds
  let l : Line := .store (getAccessSize V.ty) v p
  let τ2 : Tgt :=
    ⟨{ τ1.m with mem := storeLittleEndian τ1.m.mem (getAccessSize V.ty) a w },
      τ1.events ++ [.store (getAccessSize V.ty) a w]⟩
  have hline : execLine W τ1 l = some τ2 := by
    have hv : v.read τ1.m = w := hw.2
    have hp : p.read τ1.m = a := ha.2
    simp [execLine, event?, Line.exec, l, τ2, hv, hp]
  have hem2 : Emulates W s4 { s4 with code := s4.code ++ [l] } τ1 τ2 env env :=
    emulates_line rfl (by simp [l]) hline rfl
  refine ⟨τ2, ((Emulates.of_code rfl).trans (hem1.trans hem2)).trans (.of_code rfl), hun1.arg, ?_, ?_⟩
  · show storeLittleEndian τ1.m.mem _ a w = _
    rw [hun1.mem]
  · show τ1.events ++ _ = _
    rw [hun1.events]

/-! ## Calls -/

theorem read_of_holds {m : Machine} {vals : List EmitVal}
    (h : List.Forall₂ (EmitVal.Holds m) vals args) : vals.map (EmitVal.read m) = args := by
  induction h with
  | nil => rfl
  | cons hv _ ih => rw [List.map_cons, hv.2, ih]

/-- The values after a call. -/
def callValues (env : InstRef → Word) (I : InstRef) (named : Bool) (A : Answer) : InstRef → Word :=
  if named then Function.update env I A.value else env

/-- The call itself. -/
theorem emitCall_emulates {f : String} {vals : List EmitVal} {named : Bool}
    (hvals : List.Forall₂ (EmitVal.Holds τ.m) vals args)
    (h : emitCall c I f vals named s = .ok (u, s')) :
    ∃ τ', Emulates W s s' τ τ' env
        (callValues env I named (W.answer τ.events (.call f args τ.m.mem))) ∧
      τ'.m.arg = τ.m.arg ∧ τ'.m.mem = (W.answer τ.events (.call f args τ.m.mem)).mem ∧
      τ'.events = τ.events ++ [.call f args τ.m.mem] := by
  simp only [emitCall, ite_ok_iff, bind_ok_iff, emit_ok, define_ok] at h
  obtain ⟨rfl, k, s1, hreq, ⟨⟩, s2, rfl, hs'⟩ | ⟨hnamed, rfl⟩ := h
  · obtain ⟨τ1, hem1, hun1, hreg, -⟩ :=
      (requestRegister_spills hreq).emulates W τ env
    have hread : vals.map (EmitVal.read τ1.m) = args := read_of_holds
      (hvals.imp fun v w hvw => hvw.congr hun1.arg fun j _ => by rw [hreg])
    let A := W.answer τ.events (.call f args τ.m.mem)
    let τ2 : Tgt := ⟨{ τ1.m with mem := A.mem }.setReg k A.value, τ1.events ++ [.call f args τ.m.mem]⟩
    have hline : execLine W τ1 (.call (some k) f vals) = some τ2 := by
      simp [execLine, answer, event?, Line.exec, hread, hun1.mem, hun1.events, τ2, A]
    have hem2 : Emulates W s1 { s1 with code := s1.code ++ [.call (some k) f vals] } τ1 τ2 env env :=
      emulates_line rfl (by simp) hline rfl
    have hvalue : Computes W { s1 with code := s1.code ++ [.call (some k) f vals] } s' τ2 env I
        A.value := emulates_value ⟨by simp, read_reg_setReg⟩ hs'
    obtain ⟨τ3, hem3, hun3⟩ := hvalue
    refine ⟨τ3, (hem1.trans hem2).trans hem3, hun3.arg.trans hun1.arg, hun3.mem, ?_⟩
    rw [hun3.events]
    show τ1.events ++ _ = _
    rw [hun1.events]
  · let A := W.answer τ.events (.call f args τ.m.mem)
    let τ1 : Tgt := ⟨{ τ.m with mem := A.mem }, τ.events ++ [.call f args τ.m.mem]⟩
    have hline : execLine W τ (.call none f vals) = some τ1 := by
      simp [execLine, answer, event?, Line.exec, read_of_holds hvals, τ1, A]
    have hem : Emulates W s { s with code := s.code ++ [.call none f vals] } τ τ1 env env :=
      emulates_line rfl (by simp) hline rfl
    refine ⟨τ1, ?_, rfl, rfl, rfl⟩
    rwa [callValues, if_neg hnamed]

theorem visitCallInst_emulates {f : String} {ops : List Operand} {ty : Option Ty}
    (hv : Visiting c d b kept) (hd : d.user = I) (htemps : d.temps) (hdef : d.defines)
    (hops : ∀ X ∈ ops, X ∈ d.operands) (hin : Within c d b kept s τ.m env)
    (hfirst : ∀ e ∈ s.ra.activeSet, e.lastUser ≠ some I)
    (hno : ∀ s1, handOverRef c f s = .ok ((), s1) → NoOwnVictim c I ops s1)
    (hargs : evalAll c env τ.m.arg ops = some args)
    (h : visitCallInst c I f ops ty s = .ok (u, s')) :
    ∃ τ', Emulates W s s' τ τ' env
        (callValues env I ty.isSome (W.answer τ.events (.call f args τ.m.mem))) ∧
      τ'.m.arg = τ.m.arg ∧ τ'.m.mem = (W.answer τ.events (.call f args τ.m.mem)).mem ∧
      τ'.events = τ.events ++ [.call f args τ.m.mem] := by
  subst hd
  simp only [visitCallInst, bind_ok_iff] at h
  obtain ⟨⟨⟩, s1, h1, vs, s2, h2, ⟨⟩, s3, h3, h4⟩ := h
  -- the reference stack pointer is handed over
  have hspills1 := handOverRef_onlySpills hin.ownership h1
  obtain ⟨τ1, hem1, hun1, -⟩ := (spills_of_onlySpills hspills1).emulates W τ env
  have hin1 := hin.steps hv (handOverRef_steps htemps hin.ownership h1).1 hem1
  -- the arguments, and the call
  obtain ⟨τ2, hem2, hun2, hin2, hholds⟩ := hin1.operands (W := W) hv hops
    (fun e he => hfirst e (hspills1.1 e he)) (hno s1 h1) h2 (by rwa [hun1.arg])
  obtain ⟨τ3, hem3, harg3, hmem3, hevents3⟩ := emitCall_emulates hholds h3
  have hun := hun1.trans hun2
  rw [hun.mem, hun.events] at hem3 hmem3 hevents3
  -- the reference stack pointer is taken back
  have ho3 := Steps.ownership (emitCall_steps hdef hin2.ownership h3) hin2.ownership
  obtain ⟨τ4, hem4, hun4, -⟩ := (spills_of_onlySpills (takeBackRef_onlySpills ho3 h4)).emulates W τ3
    (callValues env d.user ty.isSome (W.answer τ.events (.call f args τ.m.mem)))
  refine ⟨τ4, ((hem1.trans hem2).trans hem3).trans hem4, ?_, hun4.mem.trans hmem3,
    hun4.events.trans hevents3⟩
  rw [hun4.arg, harg3, hun.arg]

/-! ## Addresses -/

theorem requestTempRegister_spills {t k : ℕ} (h : requestTempRegister c t s = .ok (k, s')) :
    Spills s s' := by
  obtain ⟨-, h1 | ⟨s0, s2, h0, h2, h3⟩⟩ := requestOrEvict_ok h
  · obtain ⟨ra, -, rfl⟩ := withRA_ok.mp h1
    exact ⟨[], by simp, (List.append_nil _).symm⟩
  · obtain ⟨ra, -, rfl⟩ := withRA_ok.mp h0
    obtain ⟨ra, -, rfl⟩ := withRA_ok.mp h3
    obtain ⟨spills, hspills, hcode⟩ := evictOne_spills h2
    exact ⟨spills, hspills, hcode⟩

theorem scaleIndex_quiet {sz k : ℕ} {idx v : EmitVal} (h : scaleIndex c sz idx k s = .ok (v, s')) :
    Quiet s s' := by
  simp only [scaleIndex, ite_ok_iff, bind_ok_iff, require_ok, pure_ok_iff] at h
  obtain ⟨-, -, rfl⟩ | ⟨-, ⟨⟩, s1, ⟨-, rfl⟩, ⟨-, h⟩ | ⟨-, j, s2, hj, ⟨⟩, s3, hg, h⟩⟩ := h
  · exact .of_code rfl
  · exact createBinOp_quiet h
  · obtain ⟨ra, -, rfl⟩ := giveUpTempRegister_iff.mp hg
    have h2 := Quiet.of_moves (requestTempRegister_spills hj).moves
    exact h2.trans ((createBinOp_quiet h).congr rfl)

theorem addIndex_quiet {dest : ℕ} {p idx v : EmitVal} (h : addIndex dest p idx s = .ok (v, s')) :
    Quiet s s' := by
  simp only [addIndex, ite_ok_iff, pure_ok_iff] at h
  obtain ⟨-, -, rfl⟩ | ⟨-, h⟩ := h
  · exact .of_code rfl
  · exact createBinOp_quiet h

theorem gepLoop_quiet {t : ℕ} {idxs : List Operand} : ∀ {elemTy : Option Ty} {p p' : EmitVal}
    {s s' : State}, gepLoop c I t idxs elemTy p s = .ok (p', s') → Quiet s s' := by
  induction idxs with
  | nil =>
    intro elemTy p p' s s' h
    obtain ⟨-, rfl⟩ := pure_ok_iff.mp h
    exact .of_code rfl
  | cons idx idxs ih =>
    intro elemTy p p' s s' h
    obtain ⟨ty, v, k, s1, sv, s2, q, s3, rfl, hidx, hsc, hadd, hrest⟩ := gepLoop_cons_ok h
    have h1 := Quiet.of_moves (translate_moves hidx)
    exact ((h1.trans (scaleIndex_quiet hsc)).trans (addIndex_quiet hadd)).trans (ih hrest)

/-- The visitor emits quiet lines, and the value. -/
theorem visitGetElementPtrInst_quiet {ptr : Operand} {indices : List Operand} {ty : Ty}
    (h : visitGetElementPtrInst c I ptr indices ty s = .ok (u, s')) :
    ∃ s1 v, Quiet s s1 ∧ s' = { s1 with
      sourceToEmitMap := Function.update s1.sourceToEmitMap I (some v)
      code := s1.code ++ [.value I v] } := by
  obtain ⟨elem, pv, pk, t, p0, p1, v, s2, s3, s4, s5, ra, k, s8, s9, -, hptr, htemp, hcast, hloop,
    -, hreq, hv, hs'⟩ := visitGetElementPtrInst_ok h
  have h2 : Quiet s s2 := (Quiet.of_moves (translate_moves hptr)).congr rfl
  have h4 : Quiet s2 s4 :=
    (Quiet.of_moves (requestTempRegister_spills htemp).moves).trans (createBitCast_quiet hcast)
  have h8 : Quiet s5 s8 := (Quiet.of_moves (requestRegister_moves hreq)).congr rfl
  exact ⟨s9, v, (((h2.trans h4).trans (gepLoop_quiet hloop)).trans h8).trans (createBitCast_quiet hv),
    hs'⟩

/-- The operands of the visitor are where the allocator has them. -/
theorem Within.holding {U : InstRef} (hin : Within c d b kept s τ.m env) (hv : Visiting c d b kept)
    (hu : s.ra.currentUser = some U) (hadv : ∀ J, d.reads J → s.adventMap J ≠ []) :
    Holding U False (fun _ => True) d.reads env τ.m.arg s τ.m where
  ownership := hin.ownership
  own := fun e he _ => hin.coherent.readsOwn e he
  reads := fun _ _ => trivial
  user := hu
  arg := rfl
  named := False.elim
  realizes J hJ := by
    refine ⟨fun hget => ?_, fun hcase => ?_⟩
    · obtain ⟨e, he, rfl, -⟩ := mem_of_get_ne_zero hget
      obtain ⟨v, hv, hholds, -⟩ := hin.coherent.resident e he
      exact ⟨v, hv, hholds⟩
    rw [hin.spills.block] at hcase
    by_cases hb : J.parent = b
    · have hget := hcase.resolve_right fun h => h hb
      obtain ⟨e, he, hes⟩ | hfresh | ⟨hnil, -⟩ := hin.spills.kept J ((hin.reads J hJ).1 hb)
      · exact absurd hes (hin.ownership.get_eq_zero_iff.mp hget e he)
      · exact hin.coherent.stored J hfresh
      · exact absurd hnil (hadv J hJ)
    · exact hin.coherent.kept J (hv.live J hb ((hin.reads J hJ).2 hb))
  used J hJ := Or.inl (hadv J hJ)

theorem visitGetElementPtrInst_computes {ptr : Operand} {indices : List Operand} {ty elem : Ty}
    {base : Word} {xs : List Word} (hv : Visiting c d b kept) (hops : d.operands = ptr :: indices)
    (hin : Within c d b kept s τ.m env) (hty : ptr.ty = .ptr elem)
    (hscaled : ArgsUnscaled elem.levels indices)
    (hargs : evalAll c env τ.m.arg (ptr :: indices) = some (base :: xs))
    (h : visitGetElementPtrInst c I ptr indices ty s = .ok (u, s')) :
    Computes W s s' τ env I (elementAddress elem base xs) := by
  have hadv : ∀ J, d.reads J → s.adventMap J ≠ [] := by
    rintro J ⟨V, hV, hJ⟩
    rw [hops] at hV
    exact visitGetElementPtrInst_advent hin.ownership h V hV J hJ
  have hh := (hin.user hv (some I)).holding hv rfl hadv
  obtain ⟨m', lines, v, hcode, -, hexec, -, hres, -⟩ :=
    hh.visit (A := ⟨0, fun _ => 0⟩) hty hscaled (fun _ _ _ _ => trivial) False.elim h
  obtain ⟨hbase, hxs⟩ := List.forall₂_cons.mp (forall₂_of_evalAll hargs)
  have hholds : v.Holds m' (elementAddress elem base xs) :=
    hres base xs (fun V hV J hJ => ⟨V, hops ▸ hV, hJ⟩) hbase hxs
  obtain ⟨s1, v1, hquiet, hs'⟩ := visitGetElementPtrInst_quiet h
  have hcode1 : s1.code ++ [.value I v1] = s.code ++ lines ++ [.value I v] := by
    rw [← hcode, hs']
  obtain ⟨hlines, hvalue⟩ := List.append_inj' hcode1 rfl
  obtain rfl : v1 = v := by
    cases hvalue
    rfl
  have hem : Emulates W s s1 τ ⟨m', τ.events⟩ env env ∧ Unseen τ ⟨m', τ.events⟩ :=
    hquiet.emulates fun lines' hlines' => by
      rw [hlines] at hlines'
      rwa [← List.append_cancel_left hlines']
  exact .after hem.1 hem.2 (emulates_value hholds hs')

/-! ## Every instruction -/

theorem zext_setWidth_setWidth {w bw : ℕ} {a : Word} (h : a.toNat < 2 ^ w) (hlt : w < bw) :
    Interp.zext ((a.setWidth w).setWidth bw) = a := by
  have hbw : a.toNat < 2 ^ bw := h.trans (Nat.pow_lt_pow_right (by norm_num) hlt)
  apply BitVec.eq_of_toNat_eq
  show (((a.setWidth w).setWidth bw).setWidth 64).toNat = a.toNat
  rw [BitVec.toNat_setWidth, BitVec.toNat_setWidth, BitVec.toNat_setWidth, Nat.mod_eq_of_lt h,
    Nat.mod_eq_of_lt hbw, Nat.mod_eq_of_lt a.isLt]

/-- The instruction is neither a load, a store nor a call. -/
def isValue : Inst → Bool
  | .load _ | .store _ _ | .call _ _ _ => false
  | _ => true

/-- The widths that the visit of an instruction relies on. -/
theorem width_of_checkSrcType {w : ℕ} (h : checkSrcType (.int w) = true) : w ≤ 64 := by
  obtain ⟨size, -, rfl⟩ := sizeOfBw_of_checkSrcType h
  exact bwOf_le size

/-- The visitor of an instruction that does nothing outside leaves its result. -/
theorem visitInst_computes {x : Inst} (hx : isValue x = true)
    (hv : Visiting c (x.site c s I) b kept) (hin : Within c (x.site c s I) b kept s τ.m env)
    (hfirst : ∀ e ∈ s.ra.activeSet, e.lastUser ≠ some I) (hwt : x.wellTyped)
    (hsrc : ∀ w, x.ty = some (.int w) → checkSrcType (.int w) = true)
    (hgep : ∀ ptr indices ty elem, x = .gep ptr indices ty → ptr.ty = .ptr elem →
      ArgsUnscaled elem.levels indices)
    (hargs : evalAll c env τ.m.arg x.operands = some args)
    (hext : List.Forall₂ Operand.ZeroExt x.operands args) (hfits : x.fits args)
    (hr : result W I x τ.m.mem args = some r) (h : visitInst c I x s = .ok (u, s')) :
    Computes W s s' τ env I r := by
  cases x with
  | load | store | call => cases hx
  | alloca ty n =>
    obtain rfl := Option.some.inj hr
    exact visitAllocaInst_computes h
  | gep ptr indices ty =>
    obtain ⟨base, xs, -, hxs, rfl⟩ := List.forall₂_cons_left_iff.mp hext
    cases hty : ptr.ty with
    | ptr elem =>
      simp only [result, hty, Option.some.injEq] at hr
      rw [← hr]
      exact visitGetElementPtrInst_computes hv rfl hin hty (hgep _ _ _ _ rfl hty) hargs h
    | int | array => simp [result, hty] at hr
  | binary op lhs rhs =>
    refine (visitBinaryOperator_phases h).computes hv rfl (fun _ hV => hV) hin hfirst hargs hext ?_
    intro m' hmem
    rw [hmem]
    exact hr
  | icmp P lhs rhs =>
    refine (visitICmpInst_phases h).computes hv rfl (fun _ hV => hV) hin hfirst hargs hext ?_
    intro m' hmem
    rw [hmem]
    exact hr
  | select cond ifTrue ifFalse =>
    refine (visitSelectInst_phases hwt h).computes hv rfl (fun _ hV => hV) hin hfirst hargs hext ?_
    intro m' hmem
    rw [hmem]
    exact hr
  | bitcast src ty =>
    refine (visitBitCastInst_phases h).computes hv rfl (fun _ hV => hV) hin hfirst hargs hext ?_
    intro m' _
    obtain ⟨a, rfl, -⟩ := args_one hext
    rw [Option.some.inj hr]
  | inttoptr src ty =>
    refine (visitPtrCast_phases h).computes hv rfl (fun _ hV => hV) hin hfirst hargs hext ?_
    intro m' _
    obtain ⟨a, rfl, -⟩ := args_one hext
    rw [Option.some.inj hr]
  | ptrtoint src bw =>
    refine (visitPtrCast_phases h).computes hv rfl (fun _ hV => hV) hin hfirst hargs hext ?_
    intro m' _
    obtain ⟨a, rfl, -⟩ := args_one hext
    rw [← Option.some.inj hr, zext_setWidth (w := bw) hfits]
  | zext src bw =>
    refine (visitZExtInst_phases h).computes hv rfl (fun _ hV => hV) hin hfirst hargs hext ?_
    intro m' _
    obtain ⟨a, rfl, ha⟩ := args_one hext
    obtain ⟨val, ty⟩ := src
    obtain ⟨w, rfl, hlt⟩ := hwt
    rw [← Option.some.inj hr]
    exact congrArg (fun x => [x]) (zext_setWidth_setWidth (w := w) ha hlt).symm
  | sext src bw =>
    refine (visitSExtInst_phases h).computes hv rfl (fun _ hV => hV) hin hfirst hargs hext ?_
    intro m' _
    obtain ⟨a, rfl, -⟩ := args_one hext
    obtain ⟨val, ty⟩ := src
    obtain ⟨w, rfl, hlt⟩ := hwt
    refine ⟨w, a, rfl, rfl, ?_⟩
    rw [← Option.some.inj hr]
    exact (sext_eq_zext_signExtend hlt (width_of_checkSrcType (hsrc bw rfl)) _).mpr hfits
  | trunc src bw =>
    obtain ⟨w, hw, hlt⟩ := hwt
    have hbw : bw < 64 := by
      have h' := h
      simp only [visitInst, visitTruncInst, bind_ok_iff] at h'
      obtain ⟨⟨op, kop⟩, s1, hop, -⟩ := h'
      have hty := checkSrcType_of_translate hop
      rw [hw] at hty
      exact hlt.trans_le (width_of_checkSrcType hty)
    refine (visitTruncInst_phases hbw h).computes hv rfl (fun _ hV => hV) hin hfirst hargs hext ?_
    intro m' _
    obtain ⟨a, rfl, -⟩ := args_one hext
    exact ⟨a, rfl, Option.some.inj hr⟩

/-- **The visitor of an instruction emits code that does what the instruction does.** -/
theorem visitInst_emulates {x : Inst} {arg : ℕ → Word} {σ σ' : Src}
    (hv : Visiting c (x.site c s I) b kept) (hin : Within c (x.site c s I) b kept s τ.m σ.env)
    (hfirst : ∀ e ∈ s.ra.activeSet, e.lastUser ≠ some I) (hwt : x.wellTyped)
    (hsrc : ∀ w, x.ty = some (.int w) → checkSrcType (.int w) = true)
    (hgep : ∀ ptr indices ty elem, x = .gep ptr indices ty → ptr.ty = .ptr elem →
      ArgsUnscaled elem.levels indices)
    (hcall : ∀ f ops ty, x = .call f ops ty →
      ∀ s1, handOverRef c f s = .ok ((), s1) → NoOwnVictim c I ops s1)
    (harg : τ.m.arg = arg) (hmem : τ.m.mem = σ.mem) (hevents : τ.events = σ.events)
    (hargs : evalAll c σ.env arg x.operands = some args)
    (hext : List.Forall₂ Operand.ZeroExt x.operands args) (hfits : x.fits args)
    (hexec : execInst W c arg I x σ = some σ') (h : visitInst c I x s = .ok (u, s')) :
    ∃ τ', Emulates W s s' τ τ' σ.env σ'.env ∧ τ'.m.arg = arg ∧ τ'.m.mem = σ'.mem ∧
      τ'.events = σ'.events := by
  subst harg
  by_cases hx : isValue x = true
  · have hres : (result W I x σ.mem args).map (fun w => ({ σ with
        log := σ.log ++ [(x, args)], env := Function.update σ.env I w } : Src)) = some σ' := by
      rw [← hexec, execInst, hargs]
      cases x with
      | load | store | call => cases hx
      | _ => rfl
    obtain ⟨r, hr, rfl⟩ := Option.map_eq_some_iff.mp hres
    rw [← hmem] at hr
    obtain ⟨τ', hem, hun⟩ :=
      visitInst_computes hx hv hin hfirst hwt hsrc hgep hargs hext hfits hr h
    exact ⟨τ', hem, hun.arg, hun.mem.trans hmem, hun.events.trans hevents⟩
  · rw [execInst, hargs] at hexec
    cases x with
    | load V =>
      obtain ⟨a, rfl, -⟩ := args_one hext
      obtain ⟨V, ty⟩ := V
      cases ty with
      | ptr elem =>
        obtain ⟨r, hr, rfl⟩ := Option.map_eq_some_iff.mp hexec
        simp only [Inst.eval, Option.ite_none_right_eq_some, Option.some.injEq] at hr
        obtain ⟨τ', hem, harg', hmem', hevents'⟩ := visitLoadInst_emulates (W := W) hv rfl
          List.mem_cons_self hin rfl (List.forall₂_cons.mp (forall₂_of_evalAll hargs)).1 h
        rw [hmem, hr.2] at hem
        exact ⟨τ', hem, harg', hmem'.trans hmem, by rw [hevents', hevents]⟩
      | _ => exact (throw_ok_iff.mp h).elim
    | store V V' =>
      obtain ⟨w, a, rfl, -⟩ := args_two hext
      obtain ⟨τ', hem, harg', hmem', hevents'⟩ :=
        visitStoreInst_emulates (W := W) hv rfl (fun _ hX => hX) hin hfirst hargs h
      cases hexec
      exact ⟨τ', hem, harg', by rw [hmem', hmem], by rw [hevents', hevents]⟩
    | call f ops ty =>
      obtain ⟨τ', hem, harg', hmem', hevents'⟩ := visitCallInst_emulates (W := W) hv rfl trivial
        trivial (fun _ hX => hX) hin hfirst (hcall f ops ty rfl) hargs h
      rw [hmem, hevents] at hem hmem' hevents'
      cases ty with
      | none =>
        cases hexec
        exact ⟨τ', hem, harg', hmem', hevents'⟩
      | some ty =>
        obtain ⟨r, hr, rfl⟩ := Option.map_eq_some_iff.mp hexec
        simp only [Inst.eval, Option.ite_none_right_eq_some, Option.some.injEq] at hr
        rw [← hr.2]
        exact ⟨τ', hem, harg', hmem', hevents'⟩
    | _ => exact absurd rfl hx

end Instructions

end SwppCompiler.Backend.Simulation
