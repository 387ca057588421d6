import SwppCompiler.Backend.Depromote

/-!
# `AllocaBytesHandler`

Model of `AllocaBytesHandler::visitFunction` (`src/core/Backend.cpp`, lines 804–852) and of what the
calls around `__alloca_bytes__` do to `sp` (`src/core/AssemblyEmitter.cpp`, lines 409–495). The
handler adds up the sizes of several blocks, but puts none of the additions into the basic block
(line 845), so that the call that releases them has an operand that is computed nowhere.

* `Runs.calm`: a call to anything else leaves `sp` as it was.
* `released_iff`: the dynamic stack blocks of a basic block are released iff there is one of them.
-/

namespace SwppCompiler.Backend.AllocaBytes

open Interp

/-! ## The handler -/

/-- `FreeBytesName`, `ResetStackName`, `ResetHeapName`, `GetSPName` (`Backend.h`). -/
def freeBytesName : String := "__free_bytes__"
@[inherit_doc freeBytesName] def resetStackName : String := "__reset_stack__"
@[inherit_doc freeBytesName] def resetHeapName : String := "__reset_heap__"
@[inherit_doc freeBytesName] def getSPName : String := "__get_stack_pointer__"

/-- The amount that is freed: an operand, or an addition that `CreateNUWAdd` creates (`Backend.cpp`,
    line 845). The handler puts the addition into no block. -/
inductive Amount
  | operand (V : Operand)
  | nuwAdd (lhs : Amount) (rhs : Operand)

/-- An instruction of the new function that is no PHI node: instruction `i` of the old block, or one of
    the calls that the handler creates. -/
inductive Placed
  | old (i : ℕ) (x : Inst)
  | setRef
  | spillRef
  | freeBytes (size : Amount)

/-- `isa<Constant>`. -/
def isConstant (V : Operand) : Bool :=
  match V.val with
  | .inst _ | .arg _ => false
  | _ => true

/-- `ABFound`, `FreeInThisBlock`, `SizeVector` with its top first, and the instructions so far. -/
structure Scan where
  abFound : Bool
  freeInThisBlock : Bool
  sizeVector : List Operand
  placed : List Placed

/-- Keep the instruction. -/
def Scan.keep (s : Scan) (p : Inst × ℕ) : Scan := { s with placed := s.placed ++ [.old p.2 p.1] }

/-- One iteration of the inner loop (`Backend.cpp`, lines 810–838); `none` is the failed assertion. -/
def visitInst (s : Scan) (p : Inst × ℕ) : Option Scan :=
  match p.1 with
  | .call callee args _ =>
    if callee = allocaBytesName then
      if s.freeInThisBlock then
        match args with
        | size :: ⟨.constInt v, _⟩ :: _ =>
          if v = 0 then some { s.keep p with abFound := true, freeInThisBlock := false }
          else some { s.keep p with abFound := true, sizeVector := size :: s.sizeVector }
        | _ => none
      else some { s.keep p with abFound := true }
    else if s.abFound && args.length = 16 && args.all fun V => !isConstant V then
      some (Scan.keep { s with placed := s.placed ++ [.spillRef] } p)
    else some (s.keep p)
  | _ => some (s.keep p)

/-- The loop that adds up the sizes (`Backend.cpp`, lines 841–847). -/
def freeSize : List Operand → Option Amount
  | [] => none
  | top :: rest => some (rest.foldl Amount.nuwAdd (.operand top))

/-- One block: its instructions up to the terminator, and `ABFound`. -/
def visitBlock (abFound : Bool) (B : Block) : Option (List Placed × Bool) := do
  let s ← (B.body.zipIdx B.phis.length).foldlM visitInst ⟨abFound, true, [], []⟩
  match freeSize s.sizeVector with
  | some size =>
    if s.freeInThisBlock then some (s.placed ++ [.freeBytes size], s.abFound)
    else some (s.placed, s.abFound)
  | none => some (s.placed, s.abFound)

/-- The blocks in layout order. -/
def visitBlocks (abFound : Bool) : List Block → Option (List (List Placed) × Bool)
  | [] => some ([], abFound)
  | B :: Bs => do
    let (items, abFound) ← visitBlock abFound B
    let (rest, abFound) ← visitBlocks abFound Bs
    some (items :: rest, abFound)

/-- `visitFunction`: the reference `sp` is set at the start of the entry block. -/
def visitFunction (F : Func) : Option (List (List Placed)) := do
  let (blocks, abFound) ← visitBlocks false F.blocks
  if abFound then some (blocks.modifyHead fun items => .setRef :: items) else some blocks

/-! ## The emitted code -/

/-- A line, as far as `sp` and the values of instructions go. -/
inductive SpLine
  /-- `sp = op sp V 64` -/
  | bop (op : BinaryOps) (V : Operand)
  /-- `emitCopy(DestReg, "sp")` -/
  | copy (dest : InstRef)
  | other (dest : Option InstRef)

/-- The `8` of the lines that spill the reference `sp`. -/
def eight : Operand := ⟨.constInt 8, .int 64⟩

/-- `visitCallInst` of the emitter: the lines, and `RefSpilled`. A call without a name has no `dest`. -/
def visitCallInst (refSpilled : Bool) (dest : Option InstRef) (callee : String)
    (args : List Operand) : List SpLine × Bool :=
  if callee = setRefName then ([.other none], refSpilled)
  else if callee = spillRefName then ([.bop .sub eight, .other none, .bop .add eight], true)
  else if callee = allocaBytesName then
    match dest, args with
    | some I, size :: _ => ([.bop .sub size, .copy I], refSpilled)
    | _, _ => ([], refSpilled)
  else if callee = resetStackName || callee = resetHeapName then ([.other none], refSpilled)
  else if callee = freeBytesName then
    match args with
    | size :: _ => ([.bop .add size], refSpilled)
    | [] => ([], refSpilled)
  else if callee = getSPName then ([.other dest], refSpilled)
  else if refSpilled then ([.bop .sub eight, .other dest, .other none, .bop .add eight], false)
  else ([.other dest], false)

/-- The lines of an instruction of block `b`. An addition in no block has no slot, which is an assertion
    of `emitLoadFromSrcRegister` (`src/core/Backend.cpp`, line 105). -/
def emit (b : ℕ) (refSpilled : Bool) : Placed → Option (List SpLine × Bool)
  | .old i x =>
    match x with
    | .call callee args ty => some (visitCallInst refSpilled (ty.map fun _ => ⟨b, i⟩) callee args)
    | x => some ([.other (if x.hasName then some ⟨b, i⟩ else none)], refSpilled)
  | .setRef => some (visitCallInst refSpilled none setRefName [])
  | .spillRef => some (visitCallInst refSpilled none spillRefName [])
  | .freeBytes (.operand V) => some (visitCallInst refSpilled none freeBytesName [V])
  | .freeBytes (.nuwAdd _ _) => none

/-- The lines of the instructions of a block up to its terminator. -/
def emitAll (b : ℕ) (refSpilled : Bool) : List Placed → Option (List SpLine × Bool)
  | [] => some ([], refSpilled)
  | p :: ps => do
    let (lines, refSpilled) ← emit b refSpilled p
    let (rest, refSpilled) ← emitAll b refSpilled ps
    some (lines ++ rest, refSpilled)

/-- `sp`, and the values that the instructions of the function have. -/
structure Config where
  sp : Word
  value : InstRef → Word

/-- The arguments, and the addresses of the global variables. -/
structure Env where
  arg : ℕ → Word
  global : ℕ → Word

/-- An operand is read as `w`. An undefined one is printed as `r1`, so it may be anything. -/
def Reads (E : Env) (c : Config) (V : Operand) (w : Word) : Prop :=
  match V.val with
  | .inst I => w = c.value I
  | .arg n => w = E.arg n
  | .constInt v => w = v
  | .null => w = 0
  | .undefValue => True
  | .global g => w = E.global g

/-- A line is executed. What an instruction computes is arbitrary. -/
def SpLine.Exec (E : Env) (c c' : Config) : SpLine → Prop
  | .bop op V => ∃ w r, Reads E c V w ∧ op.eval c.sp w = some r ∧ c' = { c with sp := r }
  | .copy I => c' = { c with value := Function.update c.value I c.sp }
  | .other none => c' = c
  | .other (some I) => ∃ w, c' = { c with value := Function.update c.value I w }

/-- Lines are executed one after the other. -/
def Runs (E : Env) : List SpLine → Config → Config → Prop
  | [], c, c' => c' = c
  | l :: ls, c, c' => ∃ d, l.Exec E c d ∧ Runs E ls d c'

/-! ## The property -/

/-- A call to `__alloca_bytes__`: its size and its flag. -/
def allocaCall? : Inst → Option (Operand × Word)
  | .call callee (size :: ⟨.constInt v, _⟩ :: _) _ =>
    if callee = allocaBytesName then some (size, v) else none
  | _ => none

/-- The calls to `__alloca_bytes__` of a block. -/
def allocaCalls (B : Block) : List (Operand × Word) := B.body.filterMap allocaCall?

/-- A function that reaches the handler: it has passed `verifyModule`, `__alloca_bytes__` is declared as
    documented, its flags are constants, as the handler asserts, and the internal function
    `__free_bytes__` is not called. -/
structure Input where
  F : Func
  ssa : SSA F
  signature : ∀ B ∈ F.blocks, ∀ args ty, .call allocaBytesName args ty ∈ B.body →
    ty.isSome ∧ ∃ size v fty rest, args = size :: ⟨.constInt v, fty⟩ :: rest
  internal : ∀ B ∈ F.blocks, ∀ args ty, .call freeBytesName args ty ∉ B.body

/-- There are calls to `__alloca_bytes__`, and all have a flag that is not zero. -/
def AllFreed (B : Block) : Prop := allocaCalls B ≠ [] ∧ ∀ p ∈ allocaCalls B, p.2 ≠ 0

/-- `I` stands before instruction `j` of block `b` on every path. -/
def PlacedBefore (F : Func) (b : ℕ) (B : Block) (items : List Placed) (j : ℕ) (I : InstRef) : Prop :=
  ∀ left, Path F left b → F.hasName I = true ∧
    (I.parent = b ∧ (I.idx < B.phis.length ∨ ∃ x, .old I.idx x ∈ items.take j) ∨
      I.parent ≠ b ∧ I.parent ∈ left)

/-- What is freed is a constant, an argument or an instruction placed before it. -/
def WellFormed (F : Func) (b : ℕ) (B : Block) (items : List Placed) : Prop :=
  ∀ (j : ℕ) (size : Amount), items[j]? = some (.freeBytes size) →
    match size with
    | .operand V => ∀ I, V.inst? = some I → PlacedBefore F b B items j I
    | .nuwAdd _ _ => False

/-- Every execution of the block leaves `sp` as it was. -/
def Balanced (F : Func) (b : ℕ) (items : List Placed) : Prop :=
  ∀ left, Path F left b → ∀ refSpilled lines refSpilled',
    emitAll b refSpilled items = some (lines, refSpilled') →
    ∀ E c c', Runs E lines c c' → c'.sp = c.sp

/-- The dynamic stack blocks of block `b` are released. -/
def Released (F : Func) (b : Fin F.blocks.length) : Prop :=
  ∃ (blocks : List (List Placed)) (items : List Placed),
    visitFunction F = some blocks ∧ blocks[b.val]? = some items ∧
    (AllFreed F.blocks[b] →
      WellFormed F b F.blocks[b] items ∧ Balanced F b items) ∧
    ((∃ p ∈ allocaCalls F.blocks[b], p.2 = 0) → ∀ size : Amount, .freeBytes size ∉ items)

/-! ## Calls that leave `sp` as it was -/

section Runs

variable {E : Env} {c c' : Config} {V : Operand} {lines lines' : List SpLine} {W : InstRef → Prop}

theorem exec_sub : (SpLine.bop .sub V).Exec E c c' ↔
    ∃ w, Reads E c V w ∧ c' = { c with sp := c.sp - w } := by
  constructor
  · rintro ⟨w, r, hw, hr, rfl⟩
    obtain rfl := Option.some.inj hr
    exact ⟨w, hw, rfl⟩
  · rintro ⟨w, hw, rfl⟩
    exact ⟨w, _, hw, rfl, rfl⟩

theorem exec_add : (SpLine.bop .add V).Exec E c c' ↔
    ∃ w, Reads E c V w ∧ c' = { c with sp := c.sp + w } := by
  constructor
  · rintro ⟨w, r, hw, hr, rfl⟩
    obtain rfl := Option.some.inj hr
    exact ⟨w, hw, rfl⟩
  · rintro ⟨w, hw, rfl⟩
    exact ⟨w, _, hw, rfl, rfl⟩

theorem Runs.append : Runs E (lines ++ lines') c c' ↔
    ∃ d, Runs E lines c d ∧ Runs E lines' d c' := by
  induction lines generalizing c with
  | nil => simp [Runs]
  | cons l ls ih =>
    simp only [List.cons_append, Runs, ih]
    constructor
    · rintro ⟨d, hd, e, he, hc'⟩
      exact ⟨e, ⟨d, hd, he⟩, hc'⟩
    · rintro ⟨e, ⟨d, hd, he⟩, hc'⟩
      exact ⟨d, hd, e, he, hc'⟩

theorem Runs.singleton {l : SpLine} : Runs E [l] c c' ↔ l.Exec E c c' := by
  simp [Runs]

/-- The lines can be executed; they leave `sp` and the values outside `W` as they were. -/
def Quiet (E : Env) (W : InstRef → Prop) (lines : List SpLine) : Prop :=
  ∀ c, (∃ c', Runs E lines c c') ∧
    ∀ c', Runs E lines c c' → c'.sp = c.sp ∧ ∀ I, ¬ W I → c'.value I = c.value I

theorem Quiet.nil : Quiet E W [] := by
  refine fun c => ⟨⟨c, rfl⟩, fun c' h => ?_⟩
  rw [show c' = c from h]
  exact ⟨rfl, fun _ _ => rfl⟩

theorem Quiet.append (h : Quiet E W lines) (h' : Quiet E W lines') :
    Quiet E W (lines ++ lines') := by
  intro c
  constructor
  · obtain ⟨d, hd⟩ := (h c).1
    obtain ⟨c', hc'⟩ := (h' d).1
    exact ⟨c', Runs.append.mpr ⟨d, hd, hc'⟩⟩
  · intro c' hrun
    obtain ⟨d, hd, hc'⟩ := Runs.append.mp hrun
    obtain ⟨hsp, hvalue⟩ := (h c).2 d hd
    obtain ⟨hsp', hvalue'⟩ := (h' d).2 c' hc'
    exact ⟨by rw [hsp', hsp], fun I hI => by rw [hvalue' I hI, hvalue I hI]⟩

theorem Quiet.mono {W' : InstRef → Prop} (h : Quiet E W lines) (hW : ∀ I, W I → W' I) :
    Quiet E W' lines := by
  refine fun c => ⟨(h c).1, fun c' hrun => ?_⟩
  obtain ⟨hsp, hvalue⟩ := (h c).2 c' hrun
  exact ⟨hsp, fun I hI => hvalue I fun hWI => hI (hW I hWI)⟩

theorem Quiet.other {dest : Option InstRef} (h : ∀ I, dest = some I → W I) :
    Quiet E W [.other dest] := by
  intro c
  cases dest with
  | none =>
    refine ⟨⟨c, Runs.singleton.mpr rfl⟩, fun c' hrun => ?_⟩
    rw [show c' = c from Runs.singleton.mp hrun]
    exact ⟨rfl, fun _ _ => rfl⟩
  | some J =>
    refine ⟨⟨_, Runs.singleton.mpr ⟨0, rfl⟩⟩, fun c' hrun => ?_⟩
    obtain ⟨w, rfl⟩ := Runs.singleton.mp hrun
    refine ⟨rfl, fun I hI => ?_⟩
    exact Function.update_of_ne (fun hIJ : I = J => hI (hIJ ▸ h J rfl)) w c.value

/-- Lines between a subtraction of 8 and an addition of 8. -/
theorem Quiet.spilled (h : Quiet E W lines) :
    Quiet E W ([.bop .sub eight] ++ lines ++ [.bop .add eight]) := by
  intro c
  constructor
  · obtain ⟨d, hd⟩ := (h { c with sp := c.sp - 8 }).1
    refine ⟨{ d with sp := d.sp + 8 }, Runs.append.mpr ⟨d, Runs.append.mpr ⟨_, ?_, hd⟩, ?_⟩⟩
    · exact Runs.singleton.mpr (exec_sub.mpr ⟨8, rfl, rfl⟩)
    · exact Runs.singleton.mpr (exec_add.mpr ⟨8, rfl, rfl⟩)
  · intro c' hrun
    obtain ⟨d, hd, hc'⟩ := Runs.append.mp hrun
    obtain ⟨e, he, hd⟩ := Runs.append.mp hd
    obtain ⟨w, rfl, rfl⟩ := exec_sub.mp (Runs.singleton.mp he)
    obtain ⟨w', rfl, rfl⟩ := exec_add.mp (Runs.singleton.mp hc')
    obtain ⟨hsp, hvalue⟩ := (h _).2 d hd
    refine ⟨?_, hvalue⟩
    show d.sp + 8 = c.sp
    rw [hsp]
    show c.sp - 8 + 8 = c.sp
    exact BitVec.sub_add_cancel c.sp 8

/-- What instructions of block `b` define. -/
def Defines (b : ℕ) (ps : List Placed) (I : InstRef) : Prop := I.parent = b ∧ ∃ x, .old I.idx x ∈ ps

/-- No dynamic stack block is allocated or freed. -/
def Placed.Calm : Placed → Prop
  | .old _ x => ∀ args ty, x ≠ .call allocaBytesName args ty ∧ x ≠ .call freeBytesName args ty
  | .freeBytes _ => False
  | _ => True

theorem visitCallInst_quiet (refSpilled : Bool) {dest : Option InstRef} {callee : String}
    {args : List Operand} (hdest : ∀ I, dest = some I → W I) (halloca : callee ≠ allocaBytesName)
    (hfree : callee ≠ freeBytesName) : Quiet E W (visitCallInst refSpilled dest callee args).1 := by
  have hnone : Quiet E W [.other none] := Quiet.other (by simp)
  unfold visitCallInst
  rw [if_neg halloca, if_neg hfree]
  split_ifs
  · exact hnone
  · exact hnone.spilled
  · exact hnone
  · exact Quiet.other hdest
  · exact ((Quiet.other hdest).append hnone).spilled
  · exact Quiet.other hdest

theorem emit_quiet (b : ℕ) (refSpilled : Bool) {p : Placed} (h : p.Calm) :
    ∃ lines refSpilled', emit b refSpilled p = some (lines, refSpilled') ∧
      ∀ E, Quiet E (Defines b [p]) lines := by
  match p with
  | .setRef => exact ⟨[.other none], refSpilled, rfl, fun E => Quiet.other nofun⟩
  | .spillRef => exact ⟨_, true, rfl, fun E => (Quiet.other nofun).spilled⟩
  | .old i x =>
    have hdest : ∀ I, (⟨b, i⟩ : InstRef) = I → Defines b [.old i x] I := by
      rintro I rfl
      exact ⟨rfl, x, List.mem_cons_self⟩
    by_cases hcall : ∃ callee args ty, x = .call callee args ty
    · obtain ⟨callee, args, ty, rfl⟩ := hcall
      refine ⟨_, _, rfl, fun E => visitCallInst_quiet refSpilled ?_ ?_ ?_⟩
      · intro I hI
        obtain ⟨t, rfl, hbI⟩ := Option.map_eq_some_iff.mp hI
        exact hdest I hbI
      · rintro rfl
        exact (h args ty).1 rfl
      · rintro rfl
        exact (h args ty).2 rfl
    · refine ⟨[.other (if x.hasName then some ⟨b, i⟩ else none)], refSpilled, ?_, fun E =>
        Quiet.other fun I hI => ?_⟩
      · cases x <;> first | rfl | exact absurd ⟨_, _, _, rfl⟩ hcall
      · by_cases hname : x.hasName = true
        · rw [if_pos hname] at hI
          exact hdest I (Option.some.inj hI)
        · rw [if_neg hname] at hI
          cases hI

theorem emitAll_append (b : ℕ) (refSpilled : Bool) (ps qs : List Placed) :
    emitAll b refSpilled (ps ++ qs) = (emitAll b refSpilled ps).bind fun r =>
      (emitAll b r.2 qs).map fun r' => (r.1 ++ r'.1, r'.2) := by
  induction ps generalizing refSpilled with
  | nil =>
    cases h : emitAll b refSpilled qs <;> simp [emitAll, h]
  | cons p ps ih =>
    simp only [List.cons_append, emitAll, ih]
    cases emit b refSpilled p with
    | none => rfl
    | some r =>
      cases h : emitAll b r.2 ps with
      | none => simp [h]
      | some r' =>
        cases h' : emitAll b r'.2 qs with
        | none => simp [h, h']
        | some r'' => simp [h, h']

/-- Calm instructions leave `sp` and all values but their own as they were. -/
theorem emitAll_quiet (b : ℕ) (refSpilled : Bool) {ps : List Placed} (h : ∀ p ∈ ps, p.Calm) :
    ∃ lines refSpilled', emitAll b refSpilled ps = some (lines, refSpilled') ∧
      ∀ E, Quiet E (Defines b ps) lines := by
  induction ps generalizing refSpilled with
  | nil => exact ⟨[], refSpilled, rfl, fun E => Quiet.nil⟩
  | cons p ps ih =>
    obtain ⟨lines, r, hemit, hquiet⟩ := emit_quiet b refSpilled (h p List.mem_cons_self)
    obtain ⟨rest, r', hrest, hquiet'⟩ := ih r fun q hq => h q (List.mem_cons_of_mem p hq)
    refine ⟨lines ++ rest, r', by simp [emitAll, hemit, hrest], fun E => ?_⟩
    refine ((hquiet E).mono ?_).append ((hquiet' E).mono ?_)
    · rintro I ⟨hI, x, hx⟩
      exact ⟨hI, x, List.mem_cons.mpr (Or.inl (List.mem_singleton.mp hx))⟩
    · rintro I ⟨hI, x, hx⟩
      exact ⟨hI, x, List.mem_cons_of_mem p hx⟩

end Runs

/-! ## What the handler places -/

/-- An instruction of a function that reaches the handler. -/
structure Accepted (x : Inst) : Prop where
  signature : ∀ args ty, x = .call allocaBytesName args ty →
    ty.isSome ∧ ∃ size v fty rest, args = size :: ⟨.constInt v, fty⟩ :: rest
  internal : ∀ args ty, x ≠ .call freeBytesName args ty

theorem Input.accepted (P : Input) {B : Block} (hB : B ∈ P.F.blocks) {x : Inst} (hx : x ∈ B.body) :
    Accepted x :=
  ⟨fun args ty h => P.signature B hB args ty (h ▸ hx),
    fun args ty h => P.internal B hB args ty (h ▸ hx)⟩

theorem allocaCall?_eq_some {x : Inst} {V : Operand} {v : Word} (h : allocaCall? x = some (V, v)) :
    ∃ fty rest ty, x = .call allocaBytesName (V :: ⟨.constInt v, fty⟩ :: rest) ty := by
  unfold allocaCall? at h
  split at h
  · next callee size w fty rest ty =>
    by_cases hcallee : callee = allocaBytesName
    · rw [if_pos hcallee] at h
      obtain ⟨rfl, rfl⟩ := Prod.ext_iff.mp (Option.some.inj h)
      exact ⟨fty, rest, ty, by rw [hcallee]⟩
    · rw [if_neg hcallee] at h
      cases h
  · cases h

theorem Accepted.calm {x : Inst} (hx : Accepted x) (h : allocaCall? x = none) (i : ℕ) :
    (Placed.old i x).Calm := by
  refine fun args ty => ⟨?_, hx.internal args ty⟩
  rintro rfl
  obtain ⟨-, size, v, fty, rest, rfl⟩ := hx.signature args ty rfl
  simp [allocaCall?] at h

/-- Any other instruction is kept, a call perhaps after `__spill_ref__`. -/
theorem visitInst_calm (s : Scan) {p : Inst × ℕ} (hx : Accepted p.1) (h : allocaCall? p.1 = none) :
    ∃ ps, visitInst s p = some { s with placed := s.placed ++ ps } ∧ (∀ q ∈ ps, q.Calm) ∧
      ∀ i x, .old i x ∈ ps ↔ (x, i) = p := by
  have hcalm := hx.calm h p.2
  have hkeep : ∃ ps, some (s.keep p) = some { s with placed := s.placed ++ ps } ∧
      (∀ q ∈ ps, q.Calm) ∧ ∀ i x, .old i x ∈ ps ↔ (x, i) = p := by
    refine ⟨[.old p.2 p.1], rfl, ?_, fun i x => ?_⟩
    · simpa using hcalm
    · rw [List.mem_singleton, Placed.old.injEq, Prod.ext_iff]
      exact and_comm
  unfold visitInst
  split
  · next callee args ty hcall =>
    have hcallee : callee ≠ allocaBytesName := by
      rintro rfl
      exact (hcalm args ty).1 hcall
    rw [if_neg hcallee]
    split_ifs
    · refine ⟨[.spillRef, .old p.2 p.1], by simp [Scan.keep], ?_, fun i x => ?_⟩
      · simpa [Placed.Calm] using hcalm
      · simp only [List.mem_cons, reduceCtorEq, Placed.old.injEq, List.not_mem_nil, or_false,
          false_or, Prod.ext_iff]
        exact and_comm
    · exact hkeep
  · exact hkeep

theorem scan_calm (s : Scan) {xs : List (Inst × ℕ)} (hx : ∀ p ∈ xs, Accepted p.1)
    (h : ∀ p ∈ xs, allocaCall? p.1 = none) :
    ∃ ps, xs.foldlM visitInst s = some { s with placed := s.placed ++ ps } ∧ (∀ q ∈ ps, q.Calm) ∧
      ∀ i x, .old i x ∈ ps ↔ (x, i) ∈ xs := by
  induction xs generalizing s with
  | nil => exact ⟨[], by simp, by simp, by simp⟩
  | cons p xs ih =>
    obtain ⟨ps, hp, hcalm, hmem⟩ := visitInst_calm s (hx p List.mem_cons_self)
      (h p List.mem_cons_self)
    obtain ⟨qs, hq, hcalm', hmem'⟩ := ih { s with placed := s.placed ++ ps }
      (fun q hq => hx q (List.mem_cons_of_mem p hq)) fun q hq => h q (List.mem_cons_of_mem p hq)
    refine ⟨ps ++ qs, ?_, fun q hq => ?_, fun i x => ?_⟩
    · rw [List.foldlM_cons, hp]
      simpa using hq
    · exact (List.mem_append.mp hq).elim (hcalm q) (hcalm' q)
    · rw [List.mem_append, hmem, hmem', List.mem_cons]

/-- One call to `__alloca_bytes__`. -/
theorem visitInst_alloca (s : Scan) (V : Operand) (v : Word) (fty : Ty) (rest : List Operand)
    (ty : Option Ty) (i : ℕ) :
    visitInst s (.call allocaBytesName (V :: ⟨.constInt v, fty⟩ :: rest) ty, i) = some
      { abFound := true
        freeInThisBlock := s.freeInThisBlock && decide (v ≠ 0)
        sizeVector :=
          if s.freeInThisBlock && decide (v ≠ 0) then V :: s.sizeVector else s.sizeVector
        placed :=
          s.placed ++ [.old i (.call allocaBytesName (V :: ⟨.constInt v, fty⟩ :: rest) ty)] } := by
  cases hfree : s.freeInThisBlock with
  | false => simp [visitInst, Scan.keep, hfree]
  | true =>
    by_cases hv : v = 0
    · simp [visitInst, Scan.keep, hfree, hv]
    · have hv0 : ¬ v = 0#64 := hv
      simp [visitInst, Scan.keep, hfree, hv0]

/-- The whole block. -/
theorem scan_ok (s : Scan) {xs : List (Inst × ℕ)} (hx : ∀ p ∈ xs, Accepted p.1)
    (hs : ∀ size : Amount, .freeBytes size ∉ s.placed) :
    ∃ s', xs.foldlM visitInst s = some s' ∧ (∀ size : Amount, .freeBytes size ∉ s'.placed) ∧
      (s'.freeInThisBlock = true ↔ s.freeInThisBlock = true ∧
        ∀ p ∈ xs.filterMap fun p => allocaCall? p.1, p.2 ≠ 0) ∧
      (s'.freeInThisBlock = true → s'.sizeVector =
        ((xs.filterMap fun p => allocaCall? p.1).map Prod.fst).reverse ++ s.sizeVector) := by
  induction xs generalizing s with
  | nil => exact ⟨s, rfl, hs, by simp, by simp⟩
  | cons p xs ih =>
    have hrest : ∀ q ∈ xs, Accepted q.1 := fun q hq => hx q (List.mem_cons_of_mem p hq)
    cases hcall : allocaCall? p.1 with
    | none =>
      obtain ⟨ps, hp, hcalm, -⟩ := visitInst_calm s (hx p List.mem_cons_self) hcall
      have hmap : List.filterMap (fun p : Inst × ℕ => allocaCall? p.1) (p :: xs) =
          xs.filterMap fun p => allocaCall? p.1 := List.filterMap_cons_none hcall
      obtain ⟨s', hs', hplaced, hfree, hsizes⟩ := ih { s with placed := s.placed ++ ps } hrest
        fun size hsize => (List.mem_append.mp hsize).elim (hs size) fun hmem => hcalm _ hmem
      refine ⟨s', ?_, hplaced, ?_, fun h => ?_⟩
      · rw [List.foldlM_cons, hp]
        exact hs'
      · rw [hfree, hmap]
      · rw [hsizes h, hmap]
    | some c =>
      obtain ⟨V, v⟩ := c
      obtain ⟨fty, rest, ty, hp⟩ := allocaCall?_eq_some hcall
      have hs₁ := visitInst_alloca s V v fty rest ty p.2
      rw [← hp] at hs₁
      obtain ⟨s', hs', hplaced, hfree, hsizes⟩ := ih
        ⟨true, s.freeInThisBlock && decide (v ≠ 0),
          if s.freeInThisBlock && decide (v ≠ 0) then V :: s.sizeVector else s.sizeVector,
          s.placed ++ [.old p.2 p.1]⟩ hrest fun size hsize => hs size (by simpa using hsize)
      have hmap : List.filterMap (fun p : Inst × ℕ => allocaCall? p.1) (p :: xs) =
          (V, v) :: xs.filterMap fun p => allocaCall? p.1 := List.filterMap_cons_some hcall
      refine ⟨s', ?_, hplaced, ?_, fun h => ?_⟩
      · rw [List.foldlM_cons, hs₁]
        exact hs'
      · rw [hfree, hmap, List.forall_mem_cons, Bool.and_eq_true, decide_eq_true_eq]
        exact and_assoc
      · rw [hsizes h, hmap, if_pos (hfree.mp h).1]
        simp

theorem filterMap_zipIdx (B : Block) :
    ((B.body.zipIdx B.phis.length).filterMap fun p => allocaCall? p.1) = allocaCalls B := by
  have hmap : (B.body.zipIdx B.phis.length).map Prod.fst = B.body := List.zipIdx_map_fst _ _
  unfold allocaCalls
  conv_rhs => rw [← hmap]
  rw [List.filterMap_map]
  rfl

theorem mem_body_of_zipIdx {B : Block} {p : Inst × ℕ} (h : p ∈ B.body.zipIdx B.phis.length) :
    p.1 ∈ B.body := List.fst_mem_of_mem_zipIdx h

/-- A block with a flag that is zero frees nothing; otherwise the sum of the sizes is freed. -/
theorem visitBlock_ok (abFound : Bool) {B : Block} (hx : ∀ x ∈ B.body, Accepted x) :
    ∃ items abFound', visitBlock abFound B = some (items, abFound') ∧
      ((∃ p ∈ allocaCalls B, p.2 = 0) → ∀ size : Amount, .freeBytes size ∉ items) ∧
      (AllFreed B → ∃ placed size, items = placed ++ [.freeBytes size] ∧
        freeSize ((allocaCalls B).map Prod.fst).reverse = some size) := by
  have haccepted : ∀ p ∈ B.body.zipIdx B.phis.length, Accepted p.1 :=
    fun p hp => hx p.1 (mem_body_of_zipIdx hp)
  obtain ⟨s, hs, hplaced, hfree, hsizes⟩ := scan_ok ⟨abFound, true, [], []⟩ haccepted (by simp)
  rw [filterMap_zipIdx, List.append_nil] at hsizes
  rw [filterMap_zipIdx, and_iff_right rfl] at hfree
  have hblock : visitBlock abFound B = match freeSize s.sizeVector with
      | some size =>
        if s.freeInThisBlock then some (s.placed ++ [.freeBytes size], s.abFound)
        else some (s.placed, s.abFound)
      | none => some (s.placed, s.abFound) := by
    rw [visitBlock, hs]
    rfl
  by_cases hall : s.freeInThisBlock = true
  · have hnonzero := hfree.mp hall
    cases hsize : freeSize s.sizeVector with
    | none =>
      refine ⟨s.placed, s.abFound, by rw [hblock, hsize], fun _ => hplaced, fun h => ?_⟩
      have hnil : s.sizeVector = [] := by
        cases hvector : s.sizeVector with
        | nil => rfl
        | cons V rest => simp [hvector, freeSize] at hsize
      have hcalls : allocaCalls B = [] := by simpa [hnil] using hsizes hall
      exact absurd hcalls h.1
    | some size =>
      refine ⟨s.placed ++ [.freeBytes size], s.abFound, by simp [hblock, hsize, hall], ?_, ?_⟩
      · rintro ⟨p, hp, hzero⟩
        exact absurd hzero (hnonzero p hp)
      · exact fun _ => ⟨s.placed, size, rfl, by rw [← hsizes hall, hsize]⟩
  · refine ⟨s.placed, s.abFound, ?_, fun _ => hplaced, fun h => absurd (hfree.mpr h.2) hall⟩
    rw [hblock]
    cases freeSize s.sizeVector with
    | none => rfl
    | some size => exact if_neg hall

/-- A block with one call to `__alloca_bytes__`. -/
theorem visitBlock_one (abFound : Bool) {B : Block} (hx : ∀ x ∈ B.body, Accepted x) {V : Operand}
    {v : Word} (hcalls : allocaCalls B = [(V, v)]) (hv : v ≠ 0) :
    ∃ l r i fty rest ty pre post abFound',
      B.body.zipIdx B.phis.length =
        l ++ (.call allocaBytesName (V :: ⟨.constInt v, fty⟩ :: rest) ty, i) :: r ∧
      visitBlock abFound B = some (pre ++
        .old i (.call allocaBytesName (V :: ⟨.constInt v, fty⟩ :: rest) ty) :: post ++
          [.freeBytes (.operand V)], abFound') ∧
      (∀ p ∈ pre, p.Calm) ∧ (∀ p ∈ post, p.Calm) ∧
      (∀ j x, .old j x ∈ pre ↔ (x, j) ∈ l) ∧ ∀ j x, .old j x ∈ post ↔ (x, j) ∈ r := by
  rw [← filterMap_zipIdx] at hcalls
  obtain ⟨l, ⟨x, i⟩, r, hzip, hl, hcall, hr⟩ := List.filterMap_eq_cons_iff.mp hcalls
  obtain ⟨fty, rest, ty, rfl⟩ := allocaCall?_eq_some hcall
  have haccepted : ∀ p ∈ B.body.zipIdx B.phis.length, Accepted p.1 :=
    fun p hp => hx p.1 (mem_body_of_zipIdx hp)
  rw [hzip] at haccepted
  obtain ⟨pre, hpre, hcalm, hmem⟩ := scan_calm ⟨abFound, true, [], []⟩
    (fun p hp => haccepted p (List.mem_append_left _ hp)) hl
  obtain ⟨post, hpost, hcalm', hmem'⟩ := scan_calm
    ⟨true, true, [V], pre ++ [.old i (.call allocaBytesName (V :: ⟨.constInt v, fty⟩ :: rest) ty)]⟩
    (fun p hp => haccepted p (List.mem_append_right _ (List.mem_cons_of_mem _ hp)))
    (List.filterMap_eq_nil_iff.mp hr)
  refine ⟨l, r, i, fty, rest, ty, pre, post, true, hzip, ?_, hcalm, hcalm', hmem, hmem'⟩
  have hscan : (B.body.zipIdx B.phis.length).foldlM visitInst ⟨abFound, true, [], []⟩ =
      some ⟨true, true, [V], pre ++
        .old i (.call allocaBytesName (V :: ⟨.constInt v, fty⟩ :: rest) ty) :: post⟩ := by
    rw [hzip, List.foldlM_append, hpre]
    have halloca := visitInst_alloca ⟨abFound, true, [], pre⟩ V v fty rest ty i
    simp only [Bool.true_and, hv, ne_eq, not_false_eq_true, decide_true, if_true] at halloca
    simp only [List.nil_append, Option.bind_eq_bind, Option.bind_some, List.foldlM_cons]
    rw [halloca, Option.bind_some, hpost]
    simp
  rw [visitBlock, hscan]
  rfl

theorem visitBlocks_ok (abFound : Bool) {Bs : List Block}
    (hx : ∀ B ∈ Bs, ∀ x ∈ B.body, Accepted x) :
    ∃ blocks abFound', visitBlocks abFound Bs = some (blocks, abFound') ∧
      ∀ (b : ℕ) (B : Block), Bs[b]? = some B → ∃ ab items ab',
        visitBlock ab B = some (items, ab') ∧ blocks[b]? = some items := by
  induction Bs generalizing abFound with
  | nil => exact ⟨[], abFound, rfl, by simp⟩
  | cons B Bs ih =>
    obtain ⟨items, ab, hB, -⟩ := visitBlock_ok abFound (hx B List.mem_cons_self)
    obtain ⟨blocks, ab', hBs, hmem⟩ := ih ab fun C hC => hx C (List.mem_cons_of_mem B hC)
    refine ⟨items :: blocks, ab', by simp [visitBlocks, hB, hBs], fun b C hC => ?_⟩
    cases b with
    | zero =>
      obtain rfl : B = C := by simpa using hC
      exact ⟨abFound, items, ab, hB, rfl⟩
    | succ b => exact hmem b C (by simpa using hC)

/-- Each block is handled, and the entry block may start with `__set_ref__`. -/
theorem visitFunction_ok (P : Input) :
    ∃ blocks, visitFunction P.F = some blocks ∧
      ∀ (b : ℕ) (B : Block), P.F.blocks[b]? = some B → ∃ ab items ab' start,
        visitBlock ab B = some (items, ab') ∧ (start = [] ∨ start = [.setRef]) ∧
        blocks[b]? = some (start ++ items) := by
  obtain ⟨blocks, abFound, hblocks, hmem⟩ := visitBlocks_ok false fun B hB x hx => P.accepted hB hx
  cases abFound with
  | false =>
    refine ⟨blocks, by simp [visitFunction, hblocks], fun b B hB => ?_⟩
    obtain ⟨ab, items, ab', hvisit, hitems⟩ := hmem b B hB
    exact ⟨ab, items, ab', [], hvisit, Or.inl rfl, hitems⟩
  | true =>
    refine ⟨blocks.modifyHead fun items => .setRef :: items, by simp [visitFunction, hblocks],
      fun b B hB => ?_⟩
    obtain ⟨ab, items, ab', hvisit, hitems⟩ := hmem b B hB
    cases blocks with
    | nil => simp at hitems
    | cons first rest =>
      cases b with
      | zero =>
        obtain rfl : first = items := by simpa using hitems
        exact ⟨ab, first, ab', [.setRef], hvisit, Or.inr rfl, rfl⟩
      | succ b => exact ⟨ab, items, ab', [], hvisit, Or.inl rfl, by simpa using hitems⟩

/-! ## A block with one allocation -/

section One

variable {F : Func} {b i : ℕ} {B : Block} {V : Operand} {v : Word} {fty : Ty} {rest : List Operand}
  {ty : Option Ty} {l r : List (Inst × ℕ)} {pre post : List Placed}

theorem idx_lt_of_zipIdx {p q : Inst × ℕ} (h : B.body.zipIdx B.phis.length = l ++ p :: r) :
    (q ∈ l → q.2 < p.2) ∧ (q ∈ r → p.2 < q.2) := by
  have hsorted : ((B.body.zipIdx B.phis.length).map Prod.snd).Pairwise (· < ·) := by
    rw [List.zipIdx_map_snd]
    exact List.pairwise_lt_range'
  rw [h, List.map_append, List.map_cons] at hsorted
  obtain ⟨-, hright, hcross⟩ := List.pairwise_append.mp hsorted
  constructor
  · exact fun hq => hcross q.2 (List.mem_map_of_mem hq) p.2 List.mem_cons_self
  · exact fun hq => (List.pairwise_cons.mp hright).1 q.2 (List.mem_map_of_mem hq)

/-- The size of an allocation is used by its call. -/
theorem mem_uses_of_zipIdx (h : B.body.zipIdx B.phis.length =
      l ++ (.call allocaBytesName (V :: ⟨.constInt v, fty⟩ :: rest) ty, i) :: r) :
    (i, V) ∈ B.uses := by
  have hmem : (.call allocaBytesName (V :: ⟨.constInt v, fty⟩ :: rest) ty, i) ∈
      B.body.zipIdx B.phis.length := by
    rw [h]
    exact List.mem_append_right _ List.mem_cons_self
  obtain ⟨hle, hget⟩ := List.mk_mem_zipIdx_iff_le_and_getElem?_sub.mp hmem
  have huse := Block.mem_uses hget (V := V) List.mem_cons_self
  rwa [Nat.add_sub_cancel' hle] at huse

/-- The size is computed before the call, and the call and what follows do not change it. -/
theorem size_placed (hssa : SSA F) (hB : F.blocks[b]? = some B)
    (hzip : B.body.zipIdx B.phis.length =
      l ++ (.call allocaBytesName (V :: ⟨.constInt v, fty⟩ :: rest) ty, i) :: r)
    {left : List ℕ} (hpath : Path F left b) {I : InstRef} (hI : V.inst? = some I) :
    F.hasName I = true ∧ (I.parent = b ∧ I.idx < i ∧ (I.idx < B.phis.length ∨
      ∃ x, (x, I.idx) ∈ l) ∨ I.parent ≠ b ∧ I.parent ∈ left) := by
  obtain ⟨hname, hdom⟩ := hssa.uses hpath hB (mem_uses_of_zipIdx hzip) hI
  refine ⟨hname, hdom.imp (fun ⟨hb, hlt⟩ => ⟨hb, hlt, ?_⟩) id⟩
  by_cases hphi : I.idx < B.phis.length
  · exact Or.inl hphi
  · obtain ⟨C, hC, hidx⟩ := Func.idx_lt_of_hasName hname
    obtain rfl : B = C := Option.some.inj (hB.symm.trans (hb ▸ hC))
    have hbody : I.idx - B.phis.length < B.body.length := by
      unfold Block.termIdx at hidx
      omega
    have hmem : (B.body[I.idx - B.phis.length], I.idx) ∈ B.body.zipIdx B.phis.length :=
      List.mk_mem_zipIdx_iff_le_and_getElem?_sub.mpr ⟨by omega, by simp [hbody]⟩
    rw [hzip] at hmem
    refine Or.inr ⟨B.body[I.idx - B.phis.length], ?_⟩
    obtain hl | hr := List.mem_append.mp hmem
    · exact hl
    · obtain heq | hr := List.mem_cons.mp hr
      · have hii : I.idx = i := (Prod.ext_iff.mp heq).2
        omega
      · have hgt := (idx_lt_of_zipIdx hzip).2 hr
        have hlt' : i < I.idx := hgt
        omega

/-- The lines of a block with one allocation. -/
theorem emitAll_one (hty : ty.isSome) (hpre : ∀ p ∈ pre, p.Calm) (hpost : ∀ p ∈ post, p.Calm)
    (b : ℕ) (refSpilled : Bool) (i : ℕ) (V : Operand) (v : Word) (fty : Ty) (rest : List Operand) :
    ∃ lines lines' refSpilled',
      emitAll b refSpilled (pre ++
        .old i (.call allocaBytesName (V :: ⟨.constInt v, fty⟩ :: rest) ty) :: post ++
          [.freeBytes (.operand V)]) =
        some (lines ++ ([.bop .sub V, .copy ⟨b, i⟩] ++ (lines' ++ [.bop .add V])), refSpilled') ∧
      ∀ E, Quiet E (Defines b pre) lines ∧ Quiet E (Defines b post) lines' := by
  obtain ⟨t, rfl⟩ := Option.isSome_iff_exists.mp hty
  obtain ⟨lines, r, hlines, hquiet⟩ := emitAll_quiet b refSpilled hpre
  obtain ⟨lines', r', hlines', hquiet'⟩ := emitAll_quiet b r hpost
  refine ⟨lines, lines', r', ?_, fun E => ⟨hquiet E, hquiet' E⟩⟩
  have hcall : emit b r (.old i (.call allocaBytesName (V :: ⟨.constInt v, fty⟩ :: rest) (some t))) =
      some ([.bop .sub V, .copy ⟨b, i⟩], r) := rfl
  have hfree : emit b r' (.freeBytes (.operand V)) = some ([.bop .add V], r') := rfl
  rw [List.append_assoc, emitAll_append, hlines]
  simp [emitAll, emitAll_append, hcall, hlines', hfree]

/-- `sp` is restored. -/
theorem balanced_one (hssa : SSA F) (hB : F.blocks[b]? = some B)
    (hzip : B.body.zipIdx B.phis.length =
      l ++ (.call allocaBytesName (V :: ⟨.constInt v, fty⟩ :: rest) ty, i) :: r)
    (hty : ty.isSome) (hpre : ∀ p ∈ pre, p.Calm) (hpost : ∀ p ∈ post, p.Calm)
    (hmem : ∀ j x, .old j x ∈ post → (x, j) ∈ r)
    (hundef : (∃ left, Path F left b) → V.val ≠ .undefValue) :
    Balanced F b (pre ++ .old i (.call allocaBytesName (V :: ⟨.constInt v, fty⟩ :: rest) ty) :: post ++
      [.freeBytes (.operand V)]) := by
  intro left hpath refSpilled code refSpilled' hemit E c c' hrun
  obtain ⟨lines, lines', s, hcode, hquiet⟩ := emitAll_one hty hpre hpost b refSpilled i
    V v fty rest
  rw [hcode] at hemit
  obtain ⟨rfl, -⟩ := Prod.ext_iff.mp (Option.some.inj hemit)
  obtain ⟨d, hd, hrun⟩ := Runs.append.mp hrun
  obtain ⟨e, ⟨d', hsub, e', hcopy, rfl⟩, hrun⟩ := Runs.append.mp hrun
  obtain ⟨f, hf, hadd⟩ := Runs.append.mp hrun
  obtain ⟨w, hw, rfl⟩ := exec_sub.mp hsub
  obtain rfl := hcopy
  obtain ⟨w', hw', rfl⟩ := exec_add.mp (Runs.singleton.mp hadd)
  obtain ⟨hspd, -⟩ := ((hquiet E).1 c).2 d hd
  obtain ⟨hspf, hvalue⟩ := ((hquiet E).2 _).2 f hf
  have hsame : w' = w := by
    unfold Reads at hw hw'
    cases hV : V.val with
    | inst I =>
      simp only [hV] at hw hw'
      obtain ⟨-, hplaced⟩ := size_placed hssa hB hzip hpath (I := I) (by simp [Operand.inst?, hV])
      have hother : I ≠ ⟨b, i⟩ := by
        rintro rfl
        obtain ⟨-, hlt, -⟩ | ⟨hb, -⟩ := hplaced
        · exact Nat.lt_irrefl i hlt
        · exact hb rfl
      have hnot : ¬ Defines b post I := by
        rintro ⟨hb, x, hx⟩
        obtain ⟨-, hlt, -⟩ | ⟨hne, -⟩ := hplaced
        · have hgt : i < I.idx := (idx_lt_of_zipIdx hzip).2 (hmem I.idx x hx)
          omega
        · exact hne hb
      rw [hw, hw', hvalue I hnot]
      exact Function.update_of_ne hother _ _
    | undefValue => exact absurd hV (hundef ⟨left, hpath⟩)
    | arg n | constInt x | null | global g =>
      simp only [hV] at hw hw'
      rw [hw, hw']
  show f.sp + w' = c.sp
  rw [hspf, hsame, ← hspd]
  exact BitVec.sub_add_cancel d.sp w

/-- An undefined size is read twice, perhaps with two values. -/
theorem not_balanced_one {left : List ℕ} (hpath : Path F left b) (hty : ty.isSome)
    (hpre : ∀ p ∈ pre, p.Calm) (hpost : ∀ p ∈ post, p.Calm) (hV : V.val = .undefValue) :
    ¬ Balanced F b (pre ++ .old i (.call allocaBytesName (V :: ⟨.constInt v, fty⟩ :: rest) ty) ::
      post ++ [.freeBytes (.operand V)]) := by
  intro h
  obtain ⟨lines, lines', s, hcode, hquiet⟩ := emitAll_one hty hpre hpost b false i V v
    fty rest
  let E : Env := ⟨fun _ => 0, fun _ => 0⟩
  let c : Config := ⟨0, fun _ => 0⟩
  have hreads : ∀ d w, Reads E d V w := fun d w => by simp [Reads, hV]
  obtain ⟨d, hd⟩ := ((hquiet E).1 c).1
  let e : Config := ⟨d.sp - 0, Function.update d.value ⟨b, i⟩ (d.sp - 0)⟩
  obtain ⟨f, hf⟩ := ((hquiet E).2 e).1
  have hrun : Runs E (lines ++ ([.bop .sub V, .copy ⟨b, i⟩] ++ (lines' ++ [.bop .add V]))) c
      { f with sp := f.sp + 1 } := by
    refine Runs.append.mpr ⟨d, hd, Runs.append.mpr ⟨e, ?_, Runs.append.mpr ⟨f, hf, ?_⟩⟩⟩
    · exact ⟨_, exec_sub.mpr ⟨0, hreads d 0, rfl⟩, e, rfl, rfl⟩
    · exact Runs.singleton.mpr (exec_add.mpr ⟨1, hreads f 1, rfl⟩)
  have hsp := h left hpath false _ _ hcode E c _ hrun
  obtain ⟨hspd, -⟩ := ((hquiet E).1 c).2 d hd
  obtain ⟨hspf, -⟩ := ((hquiet E).2 e).2 f hf
  have hfsp : f.sp = 0 := by
    rw [hspf]
    show d.sp - 0 = 0
    rw [hspd]
    exact BitVec.sub_zero 0
  have hone : f.sp + 1 = 0 := hsp
  rw [hfsp] at hone
  exact absurd hone (by decide)

end One

/-! ## When the dynamic stack blocks are released -/

theorem Input.isSome_of_zipIdx (P : Input) {i : ℕ} {B : Block} (hB : B ∈ P.F.blocks) {V : Operand}
    {v : Word} {fty : Ty} {rest : List Operand} {ty : Option Ty} {l r : List (Inst × ℕ)}
    (h : B.body.zipIdx B.phis.length =
      l ++ (.call allocaBytesName (V :: ⟨.constInt v, fty⟩ :: rest) ty, i) :: r) : ty.isSome := by
  have hmem : (.call allocaBytesName (V :: ⟨.constInt v, fty⟩ :: rest) ty, i) ∈
      B.body.zipIdx B.phis.length := by
    rw [h]
    exact List.mem_append_right _ List.mem_cons_self
  exact (P.signature B hB _ ty (mem_body_of_zipIdx hmem)).1

theorem wellFormed_one {F : Func} {b : ℕ} {B : Block} {V : Operand} {before : List Placed}
    (hbefore : ∀ size : Amount, .freeBytes size ∉ before)
    (hV : ∀ I, V.inst? = some I → ∀ left, Path F left b → F.hasName I = true ∧
      (I.parent = b ∧ (I.idx < B.phis.length ∨ ∃ x, .old I.idx x ∈ before) ∨
        I.parent ≠ b ∧ I.parent ∈ left)) :
    WellFormed F b B (before ++ [.freeBytes (.operand V)]) := by
  intro j size hj
  have hlast : j = before.length := by
    by_contra hne
    by_cases hlt : j < before.length
    · rw [List.getElem?_append_left hlt] at hj
      exact hbefore size (List.mem_of_getElem? hj)
    · rw [List.getElem?_append_right (by omega), List.getElem?_eq_none (by simp; omega)] at hj
      cases hj
  subst hlast
  have hsize : size = .operand V := by simpa using hj.symm
  subst hsize
  intro I hI left hpath
  rw [List.take_left]
  exact hV I hI left hpath

theorem freeSize_operand {sizes : List Operand} {V : Operand}
    (h : freeSize sizes = some (.operand V)) : sizes = [V] := by
  cases sizes with
  | nil => simp [freeSize] at h
  | cons top rest =>
    have hfold : ∀ (rest : List Operand) (a : Amount), rest.foldl Amount.nuwAdd a = .operand V →
        rest = [] ∧ a = .operand V := by
      intro rest
      induction rest with
      | nil => exact fun a ha => ⟨rfl, ha⟩
      | cons x rest ih => exact fun a ha => by cases (ih _ ha).2
    obtain ⟨rfl, hrest⟩ := hfold rest _ (Option.some.inj h)
    rw [Amount.operand.inj hrest]

/-- `AllocaBytesHandler` releases the dynamic stack blocks of a basic block iff, where all are to be
    freed, there is one of them (and its size is not undefined): the additions that it creates for
    several are not inserted. -/
theorem released_iff (P : Input) (b : Fin P.F.blocks.length) :
    Released P.F b ↔ (AllFreed P.F.blocks[b] → ∃ V v, allocaCalls P.F.blocks[b] = [(V, v)] ∧
      ((∃ left, Path P.F left b) → V.val ≠ .undefValue)) := by
  have hB : P.F.blocks[b.val]? = some P.F.blocks[b] := List.getElem?_eq_getElem b.isLt
  have hBmem : P.F.blocks[b] ∈ P.F.blocks := List.getElem_mem b.isLt
  have hx : ∀ x ∈ P.F.blocks[b].body, Accepted x := fun x hx => P.accepted hBmem hx
  obtain ⟨blocks, hblocks, hvisited⟩ := visitFunction_ok P
  obtain ⟨ab, items, ab', start, hvisit, hstart, hitems⟩ := hvisited b _ hB
  have hcalm : ∀ p ∈ start, p.Calm := by
    obtain rfl | rfl := hstart
    · simp
    · simp [Placed.Calm]
  constructor
  · rintro ⟨blocks', items', hblocks', hitems', hall, -⟩ hfreed
    obtain rfl : blocks = blocks' := Option.some.inj (hblocks.symm.trans hblocks')
    obtain rfl : start ++ items = items' := Option.some.inj (hitems.symm.trans hitems')
    obtain ⟨hwell, hbalanced⟩ := hall hfreed
    obtain ⟨items₁, ab₁, hvisit₁, -, hplaced⟩ := visitBlock_ok ab hx
    obtain ⟨rfl, -⟩ := Prod.mk.inj (Option.some.inj (hvisit.symm.trans hvisit₁))
    obtain ⟨placed, size, rfl, hsize⟩ := hplaced hfreed
    have hone := hwell (start ++ placed).length size (by simp [← List.append_assoc])
    cases size with
    | nuwAdd lhs rhs => exact absurd hone id
    | operand V =>
      have hsizes : (allocaCalls P.F.blocks[b]).map Prod.fst = [V] := by
        simpa using congrArg List.reverse (freeSize_operand hsize)
      obtain ⟨⟨V', v⟩, hcalls, hV⟩ := List.map_eq_singleton_iff.mp hsizes
      obtain rfl : V' = V := hV
      have hv : v ≠ 0 := hfreed.2 (V', v) (by rw [hcalls]; exact List.mem_cons_self)
      refine ⟨V', v, hcalls, ?_⟩
      rintro ⟨left, hpath⟩ hundef
      obtain ⟨l, r, i, fty, rest, ty, pre, post, ab₂, hzip, hvisit₂, hpre, hpost, -⟩ :=
        visitBlock_one ab hx hcalls hv
      obtain ⟨hitems₂, -⟩ := Prod.mk.inj (Option.some.inj (hvisit.symm.trans hvisit₂))
      have hcalm' : ∀ p ∈ start ++ pre, p.Calm :=
        fun p hp => (List.mem_append.mp hp).elim (hcalm p) (hpre p)
      rw [hitems₂, List.append_assoc, ← List.append_assoc start, ← List.append_assoc] at hbalanced
      exact not_balanced_one hpath (P.isSome_of_zipIdx hBmem hzip) hcalm' hpost hundef hbalanced
  · intro hcond
    obtain ⟨items₁, ab₁, hvisit₁, hzero, -⟩ := visitBlock_ok ab hx
    obtain ⟨rfl, -⟩ := Prod.mk.inj (Option.some.inj (hvisit.symm.trans hvisit₁))
    refine ⟨blocks, start ++ items, hblocks, hitems, fun hfreed => ?_, fun h size hmem => ?_⟩
    · obtain ⟨V, v, hcalls, hundef⟩ := hcond hfreed
      have hv : v ≠ 0 := hfreed.2 (V, v) (by rw [hcalls]; exact List.mem_cons_self)
      obtain ⟨l, r, i, fty, rest, ty, pre, post, ab₂, hzip, hvisit₂, hpre, hpost, hl, hr⟩ :=
        visitBlock_one ab hx hcalls hv
      obtain ⟨rfl, -⟩ := Prod.mk.inj (Option.some.inj (hvisit.symm.trans hvisit₂))
      have hcalm' : ∀ p ∈ start ++ pre, p.Calm :=
        fun p hp => (List.mem_append.mp hp).elim (hcalm p) (hpre p)
      constructor
      · rw [← List.append_assoc]
        refine wellFormed_one (fun size hmem => ?_) fun I hI left hpath => ?_
        · obtain hs | hmem := List.mem_append.mp hmem
          · exact hcalm _ hs
          · obtain hp | hmem := List.mem_append.mp hmem
            · exact hpre _ hp
            · exact hpost _ ((List.mem_cons.mp hmem).resolve_left (by simp))
        · obtain ⟨hname, hplaced⟩ := size_placed P.ssa hB hzip hpath hI
          refine ⟨hname, hplaced.imp (fun ⟨hb, _, hmem⟩ => ⟨hb, hmem.imp id ?_⟩) id⟩
          rintro ⟨x, hx⟩
          exact ⟨x, List.mem_append_right _ (List.mem_append_left _ ((hl _ x).mpr hx))⟩
      · have hbal := balanced_one P.ssa hB hzip (P.isSome_of_zipIdx hBmem hzip) hcalm' hpost
          (fun j x hmem => (hr j x).mp hmem) hundef
        rwa [List.append_assoc start, List.append_assoc start] at hbal
    · obtain hs | hi := List.mem_append.mp hmem
      · exact hcalm _ hs
      · exact hzero h size hi

/-- A call that allocates 8 bytes, to be freed in its block. -/
def eightBytes : Inst :=
  .call allocaBytesName [⟨.constInt 8, .int 64⟩, ⟨.constInt 1, .int 64⟩] (some i8Ptr)

/-- A function with two of them. -/
def twoAllocations : Func := ⟨"f", [⟨[], [eightBytes, eightBytes], .ret none⟩]⟩

theorem not_inst_twoAllocations {b n : ℕ} {B : Block} {V : Operand} {I : InstRef}
    (hB : twoAllocations.blocks[b]? = some B) (hV : (n, V) ∈ B.uses) : V.inst? ≠ some I := by
  have hmem := List.mem_of_getElem? hB
  obtain rfl := List.mem_singleton.mp hmem
  have hall : ∀ u ∈ (⟨[], [eightBytes, eightBytes], .ret none⟩ : Block).uses, u.2.inst? = none := by
    decide
  rw [hall _ hV]
  exact nofun

/-- What reaches the handler. -/
def twoAllocationsInput : Input where
  F := twoAllocations
  ssa := by
    refine ⟨fun _ hB hV hI => absurd hI (not_inst_twoAllocations hB hV), ?_⟩
    intro left b B P V I _ hB hV
    obtain rfl := List.mem_singleton.mp (List.mem_of_getElem? hB)
    simp [Func.phiInputs, Term.successors] at hV
  signature := by
    intro B hB args ty hcall
    obtain rfl := List.mem_singleton.mp hB
    obtain ⟨-, rfl, rfl⟩ : allocaBytesName = allocaBytesName ∧ args = _ ∧ ty = _ := by
      simpa [eightBytes] using hcall
    exact ⟨rfl, _, _, _, _, rfl⟩
  internal := by
    intro B hB args ty hcall
    obtain rfl := List.mem_singleton.mp hB
    simp [eightBytes, freeBytesName, allocaBytesName] at hcall

/-- The sum 8 + 8 is an instruction in no block. -/
theorem not_released_twoAllocations :
    ¬ Released twoAllocationsInput.F (⟨0, Nat.one_pos⟩ : Fin twoAllocations.blocks.length) := by
  rintro ⟨blocks, items, hblocks, hitems, hall, -⟩
  have hfreed : AllFreed ⟨[], [eightBytes, eightBytes], .ret none⟩ := by
    unfold AllFreed
    decide
  obtain ⟨hwell, -⟩ := hall hfreed
  have hvisit : visitFunction twoAllocations = some [[.setRef, .old 0 eightBytes, .old 1 eightBytes,
      .freeBytes (.nuwAdd (.operand ⟨.constInt 8, .int 64⟩) ⟨.constInt 8, .int 64⟩)]] := rfl
  obtain rfl := Option.some.inj (hblocks.symm.trans hvisit)
  obtain rfl := Option.some.inj hitems
  exact hwell 3 _ rfl

end SwppCompiler.Backend.AllocaBytes
