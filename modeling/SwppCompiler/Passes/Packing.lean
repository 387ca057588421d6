import SwppCompiler.Passes.Plan

/-!
# Packed arguments survive a call

`packed_arguments`: what the callee unpacks is what the caller packed.
-/

namespace SwppCompiler.Passes.PackRegisters

open Interp Lib.BitFields

/-! ## Code that is built -/

section

variable {actuals rs rs' : List IntVal} {α β : Type}

theorem execute_append (code : List Instruction) (i : Instruction) (rs : List IntVal) :
    execute actuals (code ++ [i]) rs = (execute actuals code rs).bind fun rs' =>
      (i.eval (lookup actuals rs')).map fun r => rs' ++ [r] := by
  induction code generalizing rs with
  | nil =>
    show (i.eval (lookup actuals rs)).bind (fun r => some (rs ++ [r])) =
      (i.eval (lookup actuals rs)).map fun r => rs ++ [r]
    cases i.eval (lookup actuals rs) <;> rfl
  | cons j code ih =>
    show (j.eval (lookup actuals rs)).bind (fun r => execute actuals (code ++ [i]) (rs ++ [r])) =
      ((j.eval (lookup actuals rs)).bind fun r => execute actuals code (rs ++ [r])).bind _
    cases j.eval (lookup actuals rs) with
    | none => rfl
    | some r => exact ih (rs ++ [r])

theorem length_execute {code : List Instruction} (h : execute actuals code rs = some rs') :
    rs'.length = rs.length + code.length := by
  induction code generalizing rs with
  | nil =>
    cases h
    rfl
  | cons i code ih =>
    obtain ⟨r, -, hr⟩ := Option.bind_eq_some_iff.mp h
    rw [ih hr]
    simp only [List.length_append, List.length_cons, List.length_nil]
    omega

theorem lookup_mono {v : Value} {x : IntVal} (hpre : rs <+: rs') (h : lookup actuals rs v = some x) :
    lookup actuals rs' v = some x := by
  cases v with
  | arg i => exact h
  | inst n =>
    obtain ⟨t, rfl⟩ := hpre
    exact (List.getElem?_append_left (List.getElem?_eq_some_iff.mp h).1).trans h

/-- Where the code so far gives `rs`, the code with what `m` adds gives more, and `q` holds. -/
def Builds (actuals rs : List IntVal) (m : Builder α) (q : α → List IntVal → Prop) : Prop :=
  ∀ code, execute actuals code [] = some rs →
    ∃ rs', rs <+: rs' ∧ execute actuals (m code).2 [] = some rs' ∧ q (m code).1 rs'

namespace Builds

variable {m : Builder α} {q : α → List IntVal → Prop}

theorem pure {a : α} (h : q a rs) : Builds actuals rs (pure a) q := fun _ hcode =>
  ⟨rs, List.prefix_rfl, hcode, h⟩

theorem bind {f : α → Builder β} {r : β → List IntVal → Prop} (hm : Builds actuals rs m q)
    (hf : ∀ a rs', rs <+: rs' → q a rs' → Builds actuals rs' (f a) r) :
    Builds actuals rs (m >>= f) r := by
  intro code hcode
  obtain ⟨rs', hpre, hcode', hq⟩ := hm code hcode
  obtain ⟨rs'', hpre', hcode'', hr⟩ := hf _ rs' hpre hq _ hcode'
  exact ⟨rs'', hpre.trans hpre', hcode'', hr⟩

theorem weaken {q' : α → List IntVal → Prop} (hm : Builds actuals rs m q)
    (h : ∀ a rs', rs <+: rs' → q a rs' → q' a rs') : Builds actuals rs m q' := by
  intro code hcode
  obtain ⟨rs', hpre, hcode', hq⟩ := hm code hcode
  exact ⟨rs', hpre, hcode', h _ _ hpre hq⟩

theorem create {i : Instruction} {x : IntVal} (h : i.eval (lookup actuals rs) = some x) :
    Builds actuals rs (create i) fun v rs' => lookup actuals rs' v = some x := by
  intro code hcode
  have hlen : rs.length = code.length := by
    rw [length_execute hcode]
    simp
  refine ⟨rs ++ [x], List.prefix_append _ _, ?_, ?_⟩
  · show execute actuals (code ++ [i]) [] = _
    rw [execute_append, hcode, Option.bind_some, h]
    rfl
  · show (rs ++ [x])[code.length]? = some x
    rw [← hlen, List.getElem?_concat_length]

/-- A list of programs, one for each element. -/
theorem mapM {l : List α} {f : α → Builder β} {R : List IntVal → α → β → Prop}
    (hR : ∀ {rs rs' a b}, rs <+: rs' → R rs a b → R rs' a b)
    (h : ∀ a ∈ l, ∀ rs', rs <+: rs' → Builds actuals rs' (f a) fun b rs'' => R rs'' a b) :
    Builds actuals rs (l.mapM f) fun bs rs' => List.Forall₂ (R rs') l bs := by
  induction l generalizing rs with
  | nil => exact .pure .nil
  | cons a l ih =>
    rw [List.mapM_cons]
    refine (h a List.mem_cons_self rs List.prefix_rfl).bind fun b rs' hpre hb => ?_
    refine (ih fun a' ha' rs'' hpre' => h a' (List.mem_cons_of_mem _ ha') rs'' (hpre.trans hpre')).bind
      fun bs rs'' hpre' hbs => .pure (.cons (hR hpre' hb) hbs)

end Builds

/-! ## The operations -/

/-- A number as an integer of `w` bits. -/
def num (w n : ℕ) : IntVal := ⟨w, BitVec.ofNat w n⟩

theorem num_eq {w n : ℕ} {x : BitVec w} (h : n % 2 ^ w = x.toNat) : num w n = ⟨w, x⟩ := by
  have hx : BitVec.ofNat w n = x := BitVec.eq_of_toNat_eq (by rw [BitVec.toNat_ofNat, h])
  rw [num, hx]

theorem binary_num (f : (w : ℕ) → BitVec w → BitVec w → Option (BitVec w)) (w n m : ℕ) :
    binary f (num w n) (num w m) =
      (f w (BitVec.ofNat w n) (BitVec.ofNat w m)).map fun r => ⟨w, r⟩ := dif_pos rfl

theorem radix_eq {ty : Size} {A : Argument} (hA : A.bits < bwOf ty) :
    radix ty A = num (bwOf ty) (2 ^ A.bits) := by
  have h64 : A.bits < 64 := hA.trans_le (bwOf_le ty)
  rw [radix, Nat.mod_eq_of_lt (Nat.pow_lt_pow_right (by omega) h64)]
  rfl

variable {ty : Size} {A : Argument} {v w : Value} {n m : ℕ}

/-- The divisor is not zero. -/
theorem radix_ne_zero (hA : A.bits < bwOf ty) : BitVec.ofNat (bwOf ty) (2 ^ A.bits) ≠ 0 := by
  intro h
  have htoNat := congrArg BitVec.toNat h
  rw [BitVec.toNat_ofNat, Nat.mod_eq_of_lt (Nat.pow_lt_pow_right (by omega) hA)] at htoNat
  exact absurd htoNat (Nat.two_pow_pos _).ne'

theorem eval_udiv (hA : A.bits < bwOf ty) (hn : n < 2 ^ bwOf ty)
    (hv : lookup actuals rs v = some (num (bwOf ty) n)) :
    (Instruction.udiv v (radix ty A)).eval (lookup actuals rs) =
      some (num (bwOf ty) (n / 2 ^ A.bits)) := by
  have hpow : 2 ^ A.bits < 2 ^ bwOf ty := Nat.pow_lt_pow_right (by omega) hA
  show (lookup actuals rs v).bind _ = _
  rw [hv, Option.bind_some, radix_eq hA, binary_num, if_neg (radix_ne_zero hA)]
  refine congrArg some (num_eq ?_).symm
  rw [BitVec.toNat_udiv, BitVec.toNat_ofNat, BitVec.toNat_ofNat, Nat.mod_eq_of_lt hn,
    Nat.mod_eq_of_lt hpow, Nat.mod_eq_of_lt ((Nat.div_le_self _ _).trans_lt hn)]

theorem eval_urem (hA : A.bits < bwOf ty) (hn : n < 2 ^ bwOf ty)
    (hv : lookup actuals rs v = some (num (bwOf ty) n)) :
    (Instruction.urem v (radix ty A)).eval (lookup actuals rs) =
      some (num (bwOf ty) (n % 2 ^ A.bits)) := by
  have hpow : 2 ^ A.bits < 2 ^ bwOf ty := Nat.pow_lt_pow_right (by omega) hA
  show (lookup actuals rs v).bind _ = _
  rw [hv, Option.bind_some, radix_eq hA, binary_num, if_neg (radix_ne_zero hA)]
  refine congrArg some (num_eq ?_).symm
  rw [BitVec.toNat_umod, BitVec.toNat_ofNat, BitVec.toNat_ofNat, Nat.mod_eq_of_lt hn,
    Nat.mod_eq_of_lt hpow, Nat.mod_eq_of_lt ((Nat.mod_le _ _).trans_lt hn)]

/-- The product does not wrap. -/
theorem eval_nuwMul (hA : A.bits < bwOf ty) (hn : n * 2 ^ A.bits < 2 ^ bwOf ty)
    (hv : lookup actuals rs v = some (num (bwOf ty) n)) :
    (Instruction.nuwMul v (radix ty A)).eval (lookup actuals rs) =
      some (num (bwOf ty) (n * 2 ^ A.bits)) := by
  have hpow : 2 ^ A.bits < 2 ^ bwOf ty := Nat.pow_lt_pow_right (by omega) hA
  have hle : n < 2 ^ bwOf ty := (Nat.le_mul_of_pos_right n (Nat.two_pow_pos _)).trans_lt hn
  have hprod : (BitVec.ofNat (bwOf ty) n).toNat * (BitVec.ofNat (bwOf ty) (2 ^ A.bits)).toNat =
      n * 2 ^ A.bits := by
    rw [BitVec.toNat_ofNat, BitVec.toNat_ofNat, Nat.mod_eq_of_lt hle, Nat.mod_eq_of_lt hpow]
  show (lookup actuals rs v).bind _ = _
  rw [hv, Option.bind_some, radix_eq hA, binary_num, hprod, if_pos hn]
  refine congrArg some (num_eq ?_).symm
  rw [BitVec.toNat_mul, hprod]

theorem eval_xor (hn : n < 2 ^ bwOf ty) (hm : m < 2 ^ bwOf ty)
    (hv : lookup actuals rs v = some (num (bwOf ty) n))
    (hw : lookup actuals rs w = some (num (bwOf ty) m)) :
    (Instruction.xor v w).eval (lookup actuals rs) = some (num (bwOf ty) (n ^^^ m)) := by
  show (lookup actuals rs v).bind (fun a => (lookup actuals rs w).bind fun b => _) = _
  rw [hv, Option.bind_some, hw, Option.bind_some, binary_num]
  refine congrArg some (num_eq ?_).symm
  rw [BitVec.toNat_xor, BitVec.toNat_ofNat, BitVec.toNat_ofNat, Nat.mod_eq_of_lt hn,
    Nat.mod_eq_of_lt hm, Nat.mod_eq_of_lt (Nat.xor_lt_two_pow hn hm)]

theorem eval_zext (hA : A.bits < bwOf ty) {x : BitVec A.bits}
    (hv : lookup actuals rs v = some ⟨A.bits, x⟩) :
    (Instruction.zext v (bwOf ty)).eval (lookup actuals rs) = some (num (bwOf ty) x.toNat) := by
  show (lookup actuals rs v).bind _ = _
  rw [hv, Option.bind_some]
  dsimp only
  rw [if_pos hA]
  refine congrArg some (num_eq ?_).symm
  rw [BitVec.toNat_setWidth]

theorem eval_trunc (hA : A.bits < bwOf ty) {x : BitVec A.bits} (hn : n % 2 ^ A.bits = x.toNat)
    (hv : lookup actuals rs v = some (num (bwOf ty) n)) :
    (Instruction.trunc v A.bits).eval (lookup actuals rs) = some ⟨A.bits, x⟩ := by
  show (lookup actuals rs v).bind _ = _
  rw [hv, Option.bind_some]
  dsimp only [num]
  rw [if_pos hA, ← num_eq (w := A.bits) hn]
  refine congrArg some (num_eq ?_).symm
  rw [BitVec.toNat_setWidth, BitVec.toNat_ofNat, Nat.mod_mod_of_dvd _ (pow_dvd_pow 2 hA.le)]

end

/-! ## A pack -/

section

variable (actual : (A : Argument) → BitVec A.bits)

/-- The fields of a pack. -/
def fields (pack : List Argument) : List Field := pack.map fun A => ⟨A.bits, actual A⟩

theorem width_fields (pack : List Argument) : width (fields actual pack) = bits pack := by
  rw [width, fields, List.map_map]
  rfl

theorem concat_fields_lt {pack : List Argument} {W : ℕ} (h : bits pack ≤ W) :
    concat (fields actual pack) < 2 ^ W :=
  (concat_lt _).trans_le (Nat.pow_le_pow_right (by omega) (by rw [width_fields]; exact h))

theorem concat_fields_cons (A : Argument) (pack : List Argument) :
    concat (fields actual (A :: pack)) = (actual A).toNat + 2 ^ A.bits * concat (fields actual pack) :=
  rfl

variable {actual} {actuals rs : List IntVal} {ty : Size} {pack : List Argument}

theorem bits_drop_le (pack : List Argument) (j : ℕ) : bits (pack.drop j) ≤ bits pack := by
  have h := bits_append (pack.take j) (pack.drop j)
  rw [List.take_append_drop] at h
  omega

/-- The last instruction before the arguments below `n` are merged. -/
def mergeVal (actual : (A : Argument) → BitVec A.bits) (pack : List Argument) (n : ℕ) : ℕ :=
  if n = pack.length then concat (fields actual (pack.drop (n - 1)))
  else
    match pack[n - 1]? with
    | some A => concat (fields actual (pack.drop n)) * 2 ^ A.bits
    | none => 0

/-- The values of the extended arguments. -/
abbrev Extended (actuals : List IntVal) (actual : (A : Argument) → BitVec A.bits) (ty : Size)
    (rs : List IntVal) : List Argument → List Value → Prop :=
  List.Forall₂ fun A v => lookup actuals rs v = some (num (bwOf ty) (actual A).toNat)

theorem Extended.mono {rs' : List IntVal} {zexts : List Value} (hpre : rs <+: rs')
    (h : Extended actuals actual ty rs pack zexts) : Extended actuals actual ty rs' pack zexts :=
  h.imp fun _ _ hv => lookup_mono hpre hv

/-- The argument `j` is added below those after it. -/
theorem merge_xor {zexts : List Value} (hbits : bits pack ≤ bwOf ty)
    (hz : Extended actuals actual ty rs pack zexts) {j : ℕ} (hj : j < pack.length) {last : Value}
    (hlast : lookup actuals rs last = some (num (bwOf ty) (mergeVal actual pack (j + 1)))) :
    Builds actuals rs (mergeXor pack zexts j last) fun v rs' =>
      lookup actuals rs' v = some (num (bwOf ty) (concat (fields actual (pack.drop j)))) := by
  have hjz : j < zexts.length := hz.length_eq ▸ hj
  have hzext : lookup actuals rs zexts[j] = some (num (bwOf ty) (actual pack[j]).toNat) :=
    hz.get hj hjz
  have hdrop : pack.drop j = pack[j] :: pack.drop (j + 1) := List.drop_eq_getElem_cons hj
  have hroom : bits (pack.drop j) ≤ bwOf ty := (bits_drop_le pack j).trans hbits
  rw [mergeXor, List.getElem?_eq_getElem hjz]
  dsimp only
  split_ifs with hnext
  · rw [mergeVal, if_neg hnext.ne, Nat.add_sub_cancel, List.getElem?_eq_getElem hj] at hlast
    dsimp only at hlast
    rw [hdrop, bits_cons] at hroom
    have hsum : concat (fields actual (pack[j] :: pack.drop (j + 1))) < 2 ^ bwOf ty :=
      concat_fields_lt actual hroom
    rw [concat_fields_cons] at hsum
    have heval := eval_xor (by rw [mul_comm]; omega) (by omega) hlast hzext
    rw [hdrop]
    have hxor : concat (fields actual (pack.drop (j + 1))) * 2 ^ pack[j].bits ^^^
        (actual pack[j]).toNat = concat (fields actual (pack[j] :: pack.drop (j + 1))) :=
      concat_cons_xor (f := ⟨pack[j].bits, actual pack[j]⟩)
    rw [hxor] at heval
    exact .create heval
  · have heq : j + 1 = pack.length := by omega
    rw [mergeVal, if_pos heq, Nat.add_sub_cancel] at hlast
    exact .pure hlast

/-- There is made room for the argument before `j`. -/
theorem merge_mul (hbits : bits pack ≤ bwOf ty) (hlt : ∀ A ∈ pack, A.bits < bwOf ty) {j : ℕ}
    (hj : j < pack.length) {last : Value}
    (hlast : lookup actuals rs last =
      some (num (bwOf ty) (concat (fields actual (pack.drop j))))) :
    Builds actuals rs (mergeMul ty pack j last) fun v rs' =>
      lookup actuals rs' v =
        some (num (bwOf ty) (if j = 0 then concat (fields actual pack) else mergeVal actual pack j)) := by
  have hj' : j - 1 < pack.length := by omega
  rw [mergeMul, List.getElem?_eq_getElem hj']
  dsimp only
  rcases j.eq_zero_or_pos with rfl | hpos
  · rw [if_neg (lt_irrefl _), if_pos rfl]
    exact .pure hlast
  · have hdrop : pack.drop (j - 1) = pack[j - 1] :: pack.drop j := by
      rw [List.drop_eq_getElem_cons hj', Nat.sub_add_cancel hpos]
    have hroom : bits (pack[j - 1] :: pack.drop j) ≤ bwOf ty := by
      rw [← hdrop]
      exact (bits_drop_le pack _).trans hbits
    have hsum := concat_fields_lt actual hroom
    rw [concat_fields_cons] at hsum
    have hval : mergeVal actual pack j =
        concat (fields actual (pack.drop j)) * 2 ^ pack[j - 1].bits := by
      rw [mergeVal, if_neg hj.ne, List.getElem?_eq_getElem hj']
    rw [if_pos hpos, if_neg hpos.ne', hval]
    exact .create (eval_nuwMul (hlt _ (List.getElem_mem hj')) (by rw [mul_comm]; omega) hlast)

/-- The merged arguments are the fields of a number. -/
theorem merge_builds {zexts : List Value} (hbits : bits pack ≤ bwOf ty)
    (hlt : ∀ A ∈ pack, A.bits < bwOf ty) {n : ℕ} (hn : n < pack.length) {last : Value}
    (hz : Extended actuals actual ty rs pack zexts)
    (hlast : lookup actuals rs last = some (num (bwOf ty) (mergeVal actual pack (n + 1)))) :
    Builds actuals rs (merge ty pack zexts (n + 1) last) fun v rs' =>
      lookup actuals rs' v = some (num (bwOf ty) (concat (fields actual pack))) := by
  induction n generalizing rs last with
  | zero =>
    refine (merge_xor hbits hz hn hlast).bind fun v rs' hpre hv => ?_
    exact (merge_mul hbits hlt hn hv).bind fun v rs' _ hv => .pure hv
  | succ n ih =>
    refine (merge_xor hbits hz hn hlast).bind fun v rs' hpre hv => ?_
    refine (merge_mul hbits hlt hn hv).bind fun v rs'' hpre' hv => ?_
    rw [if_neg n.succ_ne_zero] at hv
    exact ih (by omega) (hz.mono (hpre.trans hpre')) hv

/-- What the caller makes of a pack. -/
theorem packArguments_builds (hpack : pack ≠ []) (hbits : bits pack ≤ bwOf ty)
    (hlt : ∀ A ∈ pack, A.bits < bwOf ty)
    (hargs : ∀ A ∈ pack, actuals[A.argNo]? = some ⟨A.bits, actual A⟩) :
    Builds actuals rs (packArguments ty pack) fun v rs' =>
      v.bind (lookup actuals rs') = some (num (bwOf ty) (concat (fields actual pack))) := by
  have hzext : ∀ A ∈ pack, ∀ rs', rs <+: rs' →
      Builds actuals rs' (create (.zext (argToParam A) (bwOf ty))) fun v rs'' =>
        lookup actuals rs'' v = some (num (bwOf ty) (actual A).toNat) := fun A hA rs' _ =>
    .create (eval_zext (hlt A hA) (hargs A hA))
  have hzexts : Builds actuals rs (pack.mapM fun A => create (.zext (argToParam A) (bwOf ty)))
      fun zexts rs' => Extended actuals actual ty rs' pack zexts :=
    .mapM (R := fun rs A v => lookup actuals rs v = some (num (bwOf ty) (actual A).toNat))
      (fun hpre h => lookup_mono hpre h) hzext
  refine hzexts.bind fun zexts rs' _ hz => ?_
  have hpos : pack.length - 1 < pack.length := by
    have := List.length_pos_iff.mpr hpack
    omega
  have hpos' : pack.length - 1 < zexts.length := hz.length_eq ▸ hpos
  have hlast : zexts.getLast? = some zexts[pack.length - 1] := by
    rw [List.getLast?_eq_getElem?, ← hz.length_eq, List.getElem?_eq_getElem hpos']
  have hsucc : pack.length - 1 + 1 = pack.length := Nat.sub_add_cancel (List.length_pos_iff.mpr hpack)
  have hval : lookup actuals rs' zexts[pack.length - 1] =
      some (num (bwOf ty) (mergeVal actual pack (pack.length - 1 + 1))) := by
    have hdrop : pack.drop (pack.length - 1) = [pack[pack.length - 1]] := by
      rw [List.drop_eq_getElem_cons hpos, List.drop_eq_nil_of_le (by omega)]
    rw [mergeVal, if_pos hsucc, Nat.add_sub_cancel, hdrop]
    exact hz.get hpos hpos'
  have hmerge := merge_builds hbits hlt hpos hz hval
  rw [hsucc] at hmerge
  rw [hlast]
  exact hmerge.bind fun v rs'' _ hv => .pure hv

/-- The low bits of the value are the argument. -/
def Unpacked (actuals : List IntVal) (actual : (A : Argument) → BitVec A.bits) (rs : List IntVal)
    (p : Argument × Value) : Prop :=
  ∃ ty n, p.1.bits < bwOf ty ∧ lookup actuals rs p.2 = some (num (bwOf ty) n) ∧
    n % 2 ^ p.1.bits = (actual p.1).toNat

theorem Unpacked.mono {rs' : List IntVal} {p : Argument × Value} (hpre : rs <+: rs')
    (h : Unpacked actuals actual rs p) : Unpacked actuals actual rs' p := by
  obtain ⟨ty, n, hlt, hv, hn⟩ := h
  exact ⟨ty, n, hlt, lookup_mono hpre hv, hn⟩

/-- What the callee makes of a pack. -/
theorem unmerge_builds (hpack : pack ≠ []) (hbits : bits pack ≤ bwOf ty)
    (hlt : ∀ A ∈ pack, A.bits < bwOf ty) {v : Value}
    (hv : lookup actuals rs v = some (num (bwOf ty) (concat (fields actual pack)))) :
    Builds actuals rs (unmerge ty pack v) fun ps rs' =>
      ps.map Prod.fst = pack ∧ ∀ p ∈ ps, Unpacked actuals actual rs' p := by
  induction pack generalizing rs v with
  | nil => exact absurd rfl hpack
  | cons A pack ih =>
    have hmod : concat (fields actual (A :: pack)) % 2 ^ A.bits = (actual A).toNat :=
      concat_cons_mod (f := ⟨A.bits, actual A⟩)
    have hA := hlt A List.mem_cons_self
    cases pack with
    | nil =>
      refine .pure ⟨rfl, fun p hp => ?_⟩
      rw [List.mem_singleton.mp hp]
      exact ⟨ty, _, hA, hv, hmod⟩
    | cons B pack =>
      have hn := concat_fields_lt actual hbits
      have hdiv : concat (fields actual (A :: B :: pack)) / 2 ^ A.bits =
          concat (fields actual (B :: pack)) := concat_cons_div (f := ⟨A.bits, actual A⟩)
      have hquot := fun rs' (hpre : rs <+: rs') => eval_udiv hA hn (lookup_mono hpre hv)
      rw [hdiv] at hquot
      rw [bits_cons] at hbits
      refine (Builds.create (eval_urem hA hn hv)).bind fun rem rs1 hpre1 hrem => ?_
      refine (Builds.create (hquot rs1 hpre1)).bind fun quot rs2 hpre2 hquot => ?_
      refine (ih (List.cons_ne_nil _ _) (by omega) (fun A' hA' => hlt A' (List.mem_cons_of_mem _ hA'))
        hquot).bind fun rest rs3 hpre3 ⟨hmap, hrest⟩ => .pure ⟨?_, ?_⟩
      · rw [List.map_cons, hmap]
      · refine List.forall_mem_cons.mpr ⟨⟨ty, _, hA, lookup_mono (hpre2.trans hpre3) hrem, ?_⟩, hrest⟩
        rw [Nat.mod_mod, hmod]

end

/-! ## All the parameters -/

section

variable (actual : (A : Argument) → BitVec A.bits)

/-- What a parameter is given. -/
def Slot.value : Slot → IntVal
  | alone A => ⟨A.bits, actual A⟩
  | shared packType pack => num (bwOf packType) (concat (fields actual pack))

/-- Each argument of a shared parameter is narrower than it. -/
theorem Slot.Fits.bits_lt {ty : Size} {pack : List Argument} (h : (Slot.shared ty pack).Fits) :
    pack ≠ [] ∧ ∀ A ∈ pack, A.bits < bwOf ty := by
  obtain ⟨hlen, hbits⟩ := h
  refine ⟨fun hnil => ?_, fun A hA => ?_⟩
  · rw [hnil] at hlen
    exact absurd hlen (by decide)
  · obtain ⟨p, q, rfl⟩ := List.append_of_mem hA
    have hpos : 0 < bits (p ++ q) := by
      rw [List.length_append, List.length_cons] at hlen
      cases hpq : p ++ q with
      | nil =>
        have := congrArg List.length hpq
        rw [List.length_append, List.length_nil] at this
        omega
      | cons B pq =>
        rw [bits_cons]
        exact Nat.add_pos_left (bwOf_pos B.type) _
    rw [bits_append] at hpos
    rw [bits_append, bits_cons] at hbits
    omega

variable {actual} {actuals rs : List IntVal} {slots : List Slot}

/-- The arguments that are passed as they are. -/
theorem passAll_eq {notPack : List (ℕ × Argument)} {i : ℕ} {A : Argument} (hA : (i, A) ∈ notPack)
    (huniq : ∀ B, (i, B) ∈ notPack → B = A) : passAll notPack i = some (argToParam A) := by
  induction notPack using List.reverseRecOn with
  | nil => cases hA
  | append_singleton l p ih =>
    obtain ⟨j, B⟩ := p
    have hstep : passAll (l ++ [(j, B)]) =
        Function.update (passAll l) j (some (argToParam B)) := by
      rw [passAll, List.foldl_append]
      rfl
    rw [hstep]
    by_cases hij : i = j
    · subst hij
      rw [Function.update_self, huniq B (List.mem_append_right _ (List.mem_singleton_self _))]
    · rw [Function.update_of_ne hij]
      rcases List.mem_append.mp hA with hA | hA
      · exact ih hA fun B hB => huniq B (List.mem_append_left _ hB)
      · cases List.mem_singleton.mp hA
        exact absurd rfl hij

/-- The parameters that are shared. -/
theorem packAll_builds (hfits : ∀ s ∈ slots, s.Fits)
    (hargs : ∀ s ∈ slots, ∀ A ∈ s.arguments, actuals[A.argNo]? = some ⟨A.bits, actual A⟩)
    {packs : List (ℕ × List Argument)}
    (hpacks : ∀ p ∈ packs, ∃ ty, slots[p.1]? = some (.shared ty p.2)) {args : ℕ → Option Value} :
    Builds actuals rs (packAll (infoOf slots).argTy packs args) fun args' rs' =>
      (∀ i, i ∉ packs.map Prod.fst → args' i = args i) ∧
      ∀ i ∈ packs.map Prod.fst, ∃ s, slots[i]? = some s ∧
        (args' i).bind (lookup actuals rs') = some (s.value actual) := by
  induction packs generalizing rs args with
  | nil => exact .pure ⟨fun _ _ => rfl, fun _ h => absurd h List.not_mem_nil⟩
  | cons p packs ih =>
    obtain ⟨i, pack⟩ := p
    obtain ⟨hp, hpacks⟩ := List.forall_mem_cons.mp hpacks
    obtain ⟨ty, hslot⟩ := hp
    have hmem : Slot.shared ty pack ∈ slots := List.mem_of_getElem? hslot
    obtain ⟨hne, hlt⟩ := (hfits _ hmem).bits_lt
    rw [packAll, argTy_eq hslot]
    refine (packArguments_builds hne (hfits _ hmem).2 hlt (hargs _ hmem)).bind fun v rs1 hpre hv => ?_
    refine (ih hpacks).weaken fun args' rs2 hpre2 ⟨hother, hshared⟩ => ⟨fun j hj => ?_, fun j hj => ?_⟩
    · rw [List.map_cons, List.mem_cons, not_or] at hj
      rw [hother j hj.2, Function.update_of_ne hj.1]
    · by_cases hrest : j ∈ packs.map Prod.fst
      · exact hshared j hrest
      · have hji : j = i := (List.mem_cons.mp hj).resolve_right hrest
        subst hji
        refine ⟨_, hslot, ?_⟩
        rw [hother j hrest, Function.update_self]
        obtain ⟨w, rfl, hw⟩ := Option.bind_eq_some_iff.mp hv
        exact lookup_mono hpre2 hw

/-- The caller gives every parameter its value. -/
theorem packRegistersFromCaller_builds (hfits : ∀ s ∈ slots, s.Fits)
    (hargs : ∀ s ∈ slots, ∀ A ∈ s.arguments, actuals[A.argNo]? = some ⟨A.bits, actual A⟩) :
    Builds actuals rs (packRegistersFromCaller (infoOf slots)) fun args rs' =>
      args.map (·.bind (lookup actuals rs')) = (slots.map (Slot.value actual)).map some := by
  refine (packAll_builds hfits hargs fun p hp => mem_willPack.mp hp).bind
    fun args rs' _ ⟨hother, hshared⟩ => .pure ?_
  apply List.ext_getElem?
  intro i
  rw [List.map_map, List.map_map, List.getElem?_map, List.getElem?_map]
  cases hslot : slots[i]? with
  | none =>
    rw [List.getElem?_eq_none (by simpa [infoOf] using List.getElem?_eq_none_iff.mp hslot)]
    rfl
  | some s =>
    have hi : i < (infoOf slots).packedArgCount := (List.getElem?_eq_some_iff.mp hslot).1
    rw [List.getElem?_range hi]
    refine congrArg some ?_
    show (args i).bind (lookup actuals rs') = some (s.value actual)
    by_cases hkey : i ∈ (infoOf slots).willPack.map Prod.fst
    · obtain ⟨s', hs', hval⟩ := hshared i hkey
      rw [hslot] at hs'
      cases hs'
      exact hval
    · rw [hother i hkey]
      cases s with
      | alone A =>
        have huniq : ∀ B, (i, B) ∈ (infoOf slots).notPack → B = A := fun B hB => by
          have hB := mem_notPack.mp hB
          rw [hslot] at hB
          cases hB
          rfl
        rw [passAll_eq (mem_notPack.mpr hslot) huniq]
        exact hargs _ (List.mem_of_getElem? hslot) A (List.mem_singleton_self A)
      | shared ty pack =>
        exact absurd (List.mem_map.mpr ⟨(i, pack), mem_willPack.mpr ⟨ty, hslot⟩, rfl⟩) hkey

/-- What the callee makes of the shared parameters. -/
theorem unmergeAll_builds (hfits : ∀ s ∈ slots, s.Fits) {packs : List (ℕ × List Argument)}
    (hpacks : ∀ p ∈ packs, ∃ ty, slots[p.1]? = some (.shared ty p.2)) :
    Builds (slots.map (Slot.value actual)) rs (unmergeAll (infoOf slots).argTy packs) fun ps rs' =>
      ps.map Prod.fst = packs.flatMap Prod.snd ∧
        ∀ p ∈ ps, Unpacked (slots.map (Slot.value actual)) actual rs' p := by
  induction packs generalizing rs with
  | nil => exact .pure ⟨rfl, fun _ h => absurd h List.not_mem_nil⟩
  | cons p packs ih =>
    obtain ⟨i, pack⟩ := p
    obtain ⟨hp, hpacks⟩ := List.forall_mem_cons.mp hpacks
    obtain ⟨ty, hslot⟩ := hp
    have hmem : Slot.shared ty pack ∈ slots := List.mem_of_getElem? hslot
    obtain ⟨hne, hlt⟩ := (hfits _ hmem).bits_lt
    have hv : lookup (slots.map (Slot.value actual)) rs (.arg i) =
        some (num (bwOf ty) (concat (fields actual pack))) := by
      rw [lookup, List.getElem?_map, hslot]
      rfl
    rw [unmergeAll, argTy_eq hslot]
    refine (unmerge_builds hne (hfits _ hmem).2 hlt hv).bind fun ps rs1 _ ⟨hmap, hps⟩ => ?_
    refine (ih hpacks).bind fun rest rs2 hpre2 ⟨hmap', hrest⟩ => .pure ⟨?_, fun p hp => ?_⟩
    · rw [List.map_append, hmap, hmap', List.flatMap_cons]
    · rcases List.mem_append.mp hp with hp | hp
      · exact (hps p hp).mono hpre2
      · exact hrest p hp

theorem forall₂_fst {κ ν ν' : Type} {S : κ × ν' → Prop} {l : List (κ × ν)} {l' : List (κ × ν')}
    (h : List.Forall₂ (fun p q => q.1 = p.1 ∧ S q) l l') :
    l'.map Prod.fst = l.map Prod.fst ∧ ∀ q ∈ l', S q := by
  induction h with
  | nil => exact ⟨rfl, fun _ h => absurd h List.not_mem_nil⟩
  | cons hpq _ ih =>
    exact ⟨by rw [List.map_cons, List.map_cons, hpq.1, ih.1],
      List.forall_mem_cons.mpr ⟨hpq.2, ih.2⟩⟩

/-- The callee gives every argument its value back. -/
theorem packRegistersFromCallee_builds (hfits : ∀ s ∈ slots, s.Fits) :
    Builds (slots.map (Slot.value actual)) rs (packRegistersFromCallee (infoOf slots)) fun ps rs' =>
      (∀ A ∈ slots.flatMap Slot.arguments, A ∈ ps.map Prod.fst) ∧
      ∀ p ∈ ps, lookup (slots.map (Slot.value actual)) rs' p.2 = some ⟨p.1.bits, actual p.1⟩ := by
  refine (unmergeAll_builds hfits fun p hp => mem_willPack.mp hp).bind fun ps rs1 _ ⟨hmap, hps⟩ => ?_
  have hsort := List.mergeSort_perm ps fun p q => p.1.argNo ≤ q.1.argNo
  let S : List IntVal → Argument × Value → Prop := fun rs q =>
    lookup (slots.map (Slot.value actual)) rs q.2 = some ⟨q.1.bits, actual q.1⟩
  let R : List IntVal → Argument × Value → Argument × Value → Prop := fun rs p q =>
    q.1 = p.1 ∧ S rs q
  generalize hsorted : (ps.mergeSort fun p q => decide (p.1.argNo ≤ q.1.argNo)) = sorted at hsort
  have htrunc : Builds (slots.map (Slot.value actual)) rs1
      (sorted.mapM fun p => do
        let trunc ← create (.trunc p.2 p.1.bits)
        pure (p.1, trunc)) fun truncs rs' => List.Forall₂ (R rs') sorted truncs := by
    apply Builds.mapM (R := R)
    · exact fun hpre h => ⟨h.1, lookup_mono hpre h.2⟩
    · intro p hp rs2 hpre2
      obtain ⟨ty, n, hlt, hv, hn⟩ := (hps p (hsort.mem_iff.mp hp)).mono hpre2
      exact (Builds.create (eval_trunc hlt hn hv)).bind fun v rs3 _ hv => .pure ⟨rfl, hv⟩
  refine htrunc.bind fun truncs rs2 _ htruncs => .pure ?_
  obtain ⟨hfst, htruncs⟩ := forall₂_fst htruncs
  constructor
  · intro A hA
    rw [List.map_append, List.map_map, hfst]
    obtain ⟨s, hs, hA⟩ := List.mem_flatMap.mp hA
    obtain ⟨i, hi⟩ := List.getElem?_of_mem hs
    cases s with
    | alone B =>
      rw [List.mem_singleton.mp hA]
      exact List.mem_append_left _ (List.mem_map.mpr ⟨(i, B), mem_notPack.mpr hi, rfl⟩)
    | shared ty pack =>
      refine List.mem_append_right _ ((hsort.map Prod.fst).mem_iff.mpr ?_)
      rw [hmap]
      exact List.mem_flatMap.mpr ⟨(i, pack), mem_willPack.mpr ⟨ty, hi⟩, hA⟩
  · intro q hq
    rcases List.mem_append.mp hq with hq | hq
    · obtain ⟨⟨i, A⟩, hA, rfl⟩ := List.mem_map.mp hq
      rw [lookup, List.getElem?_map, mem_notPack.mp hA]
      rfl
    · exact htruncs q hq

end

/-- **Packed arguments survive the call.** For every function and all values of its arguments the
    caller's instructions compute without wrapping the values of the new parameters, and from these the
    callee's compute, without a division by zero, the values of all old arguments. -/
theorem packed_arguments (F : List Size) (actual : (A : Argument) → BitVec A.bits) :
    ∃ params results results',
      execute ((arguments F).map fun A => ⟨A.bits, actual A⟩)
        (packRegistersFromCaller (.of F) []).2 [] = some results ∧
      (packRegistersFromCaller (.of F) []).1.map
        (·.bind (lookup ((arguments F).map fun A => ⟨A.bits, actual A⟩) results)) =
          params.map some ∧
      execute params (packRegistersFromCallee (.of F) []).2 [] = some results' ∧
      (∀ A ∈ arguments F, A ∈ (packRegistersFromCallee (.of F) []).1.map Prod.fst) ∧
      ∀ p ∈ (packRegistersFromCallee (.of F) []).1,
        lookup params results' p.2 = some ⟨p.1.bits, actual p.1⟩ := by
  obtain ⟨slots, heq, hperm, hslots⟩ := ArgumentPackingInfo.of_eq F
  have hfits : ∀ s ∈ slots, s.Fits := fun s hs => (hslots s hs).1
  have hargs : ∀ s ∈ slots, ∀ A ∈ s.arguments,
      ((arguments F).map fun A => (⟨A.bits, actual A⟩ : IntVal))[A.argNo]? = some ⟨A.bits, actual A⟩ := by
    intro s hs A hA
    have hmem : A ∈ arguments F := hperm.mem_iff.mp (List.mem_flatMap.mpr ⟨s, hs, hA⟩)
    obtain ⟨i, hi, rfl⟩ := List.mem_mapIdx.mp hmem
    rw [List.getElem?_map, arguments, List.getElem?_mapIdx, List.getElem?_eq_getElem hi]
    rfl
  have hcaller : Builds _ [] _ _ := packRegistersFromCaller_builds hfits hargs
  have hcallee : Builds (slots.map (Slot.value actual)) [] _ _ := packRegistersFromCallee_builds hfits
  obtain ⟨results, -, hexec, hparams⟩ := hcaller [] rfl
  obtain ⟨results', -, hexec', hall, hvalues⟩ := hcallee [] rfl
  rw [heq]
  exact ⟨slots.map (Slot.value actual), results, results', hexec, hparams, hexec',
    fun A hA => hall A (hperm.mem_iff.mpr hA), hvalues⟩

end SwppCompiler.Passes.PackRegisters
