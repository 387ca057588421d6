import SwppCompiler.Interp.Bop
import SwppCompiler.Lib.BitFields

/-!
# `PackRegisters`

Model of `src/passes/PackRegisters.cpp`: the plan that `ArgumentPackingInfo` makes for a function
(lines 14–69), and the instructions that the caller and the callee get (lines 107–146, 212–264). A
type is the size of its integers; a pointer has 64 bits. The arguments of a function lie in one array,
so their addresses are ordered as their numbers. An attribute, a name, and the cloned body play no
part.
-/

namespace SwppCompiler.Passes.PackRegisters

open Interp

/-- `PACK_MAX_SIZE` and `PACK_VALID_COUNT` (`PackRegisters.cpp`, lines 10–11). -/
def packMaxSize : ℕ := 64
@[inherit_doc packMaxSize] def packValidCount : ℕ := 3

/-- `Argument`: its number and its type. -/
structure Argument where
  argNo : ℕ
  type : Size
deriving DecidableEq, Repr

/-- `getTypeSizeInBits` of its type. -/
def Argument.bits (A : Argument) : ℕ := bwOf A.type

/-- `F.args()`. -/
def arguments (F : List Size) : List Argument := F.mapIdx fun i type => ⟨i, type⟩

/-! ## The plan -/

/-- `ArgumentPackingInfo`. The maps are in the order of their keys. -/
structure ArgumentPackingInfo where
  argTy : List Size
  notPack : List (ℕ × Argument)
  willPack : List (ℕ × List Argument)
  packedArgCount : ℕ
deriving DecidableEq, Repr

/-- `PackTypes` (`PackRegisters.cpp`, lines 33–35). -/
def packTypes : List Size := [.size8, .size16, .size32, .size64]

/-- The order of `pair<unsigned, Argument *>`. -/
def sortedBefore (A B : Argument) : Bool := A.bits < B.bits ∨ A.bits = B.bits ∧ A.argNo ≤ B.argNo

/-- The inner loop (`PackRegisters.cpp`, lines 42–45): `PackedSize` and `PackedNow` after it. -/
def lookahead (args : List Argument) (packedSize packedNow : ℕ) : ℕ × ℕ :=
  if h : packedNow + 1 < args.length then
    if packedSize + args[packedNow + 1].bits ≤ packMaxSize then
      lookahead args (packedSize + args[packedNow + 1].bits) (packedNow + 1)
    else (packedSize, packedNow)
  else (packedSize, packedNow)
termination_by args.length - packedNow

/-- The outer loop (`PackRegisters.cpp`, lines 40–68). -/
def plan (args : List Argument) (packedSize packedFrom packedNow : ℕ)
    (info : ArgumentPackingInfo) : ArgumentPackingInfo :=
  if h : packedFrom < args.length then
    let (packedSize, packedNow) := lookahead args packedSize packedNow
    if packValidCount ≤ packedNow + 1 - packedFrom then
      plan args 0 (packedNow + 1) packedNow
        { info with
          argTy := info.argTy ++ (packTypes.find? fun ty => packedSize ≤ bwOf ty).toList
          willPack := info.willPack ++
            [(info.packedArgCount, (args.drop packedFrom).take (packedNow + 1 - packedFrom))]
          packedArgCount := info.packedArgCount + 1 }
    else
      plan args (packedSize - args[packedFrom].bits) (packedFrom + 1) packedNow
        { info with
          argTy := info.argTy ++ [args[packedFrom].type]
          notPack := info.notPack ++ [(info.packedArgCount, args[packedFrom])]
          packedArgCount := info.packedArgCount + 1 }
  else info
termination_by args.length - packedFrom
decreasing_by
  all_goals
    simp only [packValidCount] at *
    omega

/-- `ArgumentPackingInfo(F)`. -/
def ArgumentPackingInfo.of (F : List Size) : ArgumentPackingInfo :=
  match (arguments F).mergeSort sortedBefore with
  | [] => ⟨[], [], [], 0⟩
  | A :: args => plan (A :: args) A.bits 0 0 ⟨[], [], [], 0⟩

/-! ## The instructions -/

/-- An integer of some width. -/
abbrev IntVal := (w : ℕ) × BitVec w

/-- A `Value *`: an argument, or an instruction by its place in the list. In the caller the arguments
    are those of the old call, in the callee the parameters of the new function. -/
inductive Value
  | arg (i : ℕ)
  | inst (n : ℕ)
deriving DecidableEq, Repr

/-- The instructions that the pass creates; the second operand of a division, a remainder and a
    multiplication is a constant. -/
inductive Instruction
  | zext (v : Value) (ty : ℕ)
  | trunc (v : Value) (ty : ℕ)
  | udiv (v : Value) (c : IntVal)
  | urem (v : Value) (c : IntVal)
  | nuwMul (v : Value) (c : IntVal)
  | xor (v w : Value)
deriving DecidableEq, Repr

/-- An operation on two integers of one type. -/
def binary (f : (w : ℕ) → BitVec w → BitVec w → Option (BitVec w)) (a b : IntVal) : Option IntVal :=
  if h : b.1 = a.1 then (f a.1 a.2 (b.2.cast h)).map fun r => ⟨a.1, r⟩ else none

/-- What an instruction computes. A division by zero, a product that wraps, and a cast that does not
    extend or truncate have no value. -/
def Instruction.eval (values : Value → Option IntVal) : Instruction → Option IntVal
  | .zext v ty => do
    let ⟨w, x⟩ ← values v
    if w < ty then some ⟨ty, x.setWidth ty⟩ else none
  | .trunc v ty => do
    let ⟨w, x⟩ ← values v
    if ty < w then some ⟨ty, x.setWidth ty⟩ else none
  | .udiv v c => do
    binary (fun _ x y => if y = 0 then none else some (x / y)) (← values v) c
  | .urem v c => do
    binary (fun _ x y => if y = 0 then none else some (x % y)) (← values v) c
  | .nuwMul v c => do
    binary (fun w x y => if x.toNat * y.toNat < 2 ^ w then some (x * y) else none) (← values v) c
  | .xor v w => do binary (fun _ x y => some (x ^^^ y)) (← values v) (← values w)

/-- The value of a `Value *`, given the results so far. -/
def lookup (args results : List IntVal) : Value → Option IntVal
  | .arg i => args[i]?
  | .inst n => results[n]?

/-- The results of a list of instructions. -/
def execute (args : List IntVal) : List Instruction → (results : List IntVal) → Option (List IntVal)
  | [], results => some results
  | i :: code, results => do
    let r ← i.eval (lookup args results)
    execute args code (results ++ [r])

/-- Code that appends instructions to a list. -/
abbrev Builder := StateM (List Instruction)

/-- An instruction is created and inserted at the end. -/
def create (i : Instruction) : Builder Value := fun code => (.inst code.length, code ++ [i])

/-- `ConstantInt::get(PackType, 1ULL << getTypeSizeInBits(A->getType()))`. -/
def radix (packType : Size) (A : Argument) : IntVal :=
  ⟨bwOf packType, BitVec.ofNat _ (2 ^ A.bits % 2 ^ 64)⟩

/-! ## The caller -/

/-- `ArgToParam`: the old call has the arguments of the old function. -/
def argToParam (A : Argument) : Value := .arg A.argNo

/-- The argument `j` is merged with those after it (`PackRegisters.cpp`, lines 240–245). -/
def mergeXor (pack : List Argument) (zexts : List Value) (j : ℕ) (last : Value) : Builder Value :=
  match zexts[j]? with
  | some zext => if j + 1 < pack.length then create (.xor last zext) else pure last
  | none => pure last

/-- Room is made for the argument before it (`PackRegisters.cpp`, lines 246–253). -/
def mergeMul (packType : Size) (pack : List Argument) (j : ℕ) (last : Value) : Builder Value :=
  match pack[j - 1]? with
  | some A => if 0 < j then create (.nuwMul last (radix packType A)) else pure last
  | none => pure last

/-- The loop that merges (`PackRegisters.cpp`, lines 238–254), from `j` = `n - 1` down to 0. The
    last instruction is `last`. -/
def merge (packType : Size) (pack : List Argument) (zexts : List Value) :
    (n : ℕ) → (last : Value) → Builder Value
  | 0, last => pure last
  | j + 1, last => do
    let last ← mergeXor pack zexts j last
    let last ← mergeMul packType pack j last
    merge packType pack zexts j last

/-- The instructions of one pack (`PackRegisters.cpp`, lines 224–257). -/
def packArguments (packType : Size) (pack : List Argument) : Builder (Option Value) := do
  let zexts ← pack.mapM fun A => create (.zext (argToParam A) (bwOf packType))
  match zexts.getLast? with
  | some last => some <$> merge packType pack zexts pack.length last
  | none => pure none

/-- The loop over `WillPack`: it fills `Args`. -/
def packAll (argTy : List Size) :
    List (ℕ × List Argument) → (args : ℕ → Option Value) → Builder (ℕ → Option Value)
  | [], args => pure args
  | (i, pack) :: packs, args => do
    match argTy[i]? with
    | some packType => do
      let v ← packArguments packType pack
      packAll argTy packs (Function.update args i v)
    | none => packAll argTy packs args

/-- The loop over `NotPack` (`PackRegisters.cpp`, lines 220–222). -/
def passAll (notPack : List (ℕ × Argument)) : ℕ → Option Value :=
  notPack.foldl (fun args p => Function.update args p.1 (some (argToParam p.2))) fun _ => none

/-- `PackRegistersFromCaller`: the arguments of the new call. -/
def packRegistersFromCaller (info : ArgumentPackingInfo) : Builder (List (Option Value)) := do
  let args ← packAll info.argTy info.willPack (passAll info.notPack)
  pure ((List.range info.packedArgCount).map args)

/-! ## The callee -/

/-- The loop that takes a pack apart (`PackRegisters.cpp`, lines 115–142), from some argument on:
    what is to be truncated to each argument. `beforeRem` is what the arguments before it leave. -/
def unmerge (packType : Size) : List Argument → (beforeRem : Value) → Builder (List (Argument × Value))
  | [], _ => pure []
  | [A], beforeRem => pure [(A, beforeRem)]
  | A :: pack, beforeRem => do
    let rem ← create (.urem beforeRem (radix packType A))
    let quot ← create (.udiv beforeRem (radix packType A))
    let rest ← unmerge packType pack quot
    pure ((A, rem) :: rest)

/-- The loop over `WillPack`: it fills `ToBeTrunc`. -/
def unmergeAll (argTy : List Size) :
    List (ℕ × List Argument) → Builder (List (Argument × Value))
  | [] => pure []
  | (i, pack) :: packs => do
    let toBeTrunc ←
      match argTy[i]? with
      | some packType => unmerge packType pack (.arg i)
      | none => pure []
    let rest ← unmergeAll argTy packs
    pure (toBeTrunc ++ rest)

/-- `PackRegistersFromCallee`: what replaces the old arguments. -/
def packRegistersFromCallee (info : ArgumentPackingInfo) : Builder (List (Argument × Value)) := do
  let toBeTrunc ← unmergeAll info.argTy info.willPack
  -- `ToBeTrunc` is a map, in the order of the addresses
  let truncs ← (toBeTrunc.mergeSort fun p q => p.1.argNo ≤ q.1.argNo).mapM fun p => do
    let trunc ← create (.trunc p.2 p.1.bits)
    pure (p.1, trunc)
  pure (info.notPack.map (fun p => (p.2, .arg p.1)) ++ truncs)

end SwppCompiler.Passes.PackRegisters
