import SwppCompiler.Interp.Access

/-!
# What memory an instruction accesses

Model of the functions that `ReorderMemAccess` (`src/passes/ReorderMemAccess.cpp`, lines 12–106) and
`ResetPointer` (`src/passes/ResetPointer.cpp`, lines 12–58) classify instructions with. A `Value *` is
known by the tree of the operands that these functions look at. The tree is finite, as a definition
that is not a PHI node comes after those of its operands. Of the other operands only their identity
counts, and whether they are instructions. Calls are direct: `getCalledFunction()` is not null.
-/

namespace SwppCompiler.Passes

open Interp

/-- `enum AllocType`. -/
inductive AllocType
  | stack | heap | unknown | call | noEffect
deriving DecidableEq, Repr

/-- A `Value *`. An instruction has an identity (`id`) and a list of the instructions among its other
    operands (`uses`). -/
inductive Value
  | call (id : ℕ) (callee : String) (uses : List ℕ)
  | alloca (id : ℕ) (uses : List ℕ)
  | bitCast (id : ℕ) (src : Value)
  | getElementPtr (id : ℕ) (ptr : Value) (uses : List ℕ)
  | load (id : ℕ) (ptr : Value)
  | store (id : ℕ) (uses : List ℕ) (ptr : Value)
  | binary (id : ℕ) (lhs rhs : Value)
  | phi (id : ℕ) (uses : List ℕ)
  | other (id : ℕ) (uses : List ℕ)
  | globalVariable
  | constantBitCast (src : Value)
  | constantIntToPtr (address : Option Word)
  | constant
  | argument
deriving DecidableEq, Repr

namespace Value

/-- The identity of an instruction. -/
def id? : Value → Option ℕ
  | call id _ _ | alloca id _ | bitCast id _ | getElementPtr id _ _ | load id _ | store id _ _
  | binary id _ _ | phi id _ | other id _ => some id
  | globalVariable | constantBitCast _ | constantIntToPtr _ | constant | argument => none

/-- The operands of an instruction that are instructions. -/
def operands : Value → List ℕ
  | call _ _ uses | alloca _ uses | phi _ uses | other _ uses => uses
  | bitCast _ src => src.id?.toList
  | getElementPtr _ ptr uses => ptr.id?.toList ++ uses
  | load _ ptr => ptr.id?.toList
  | store _ uses ptr => uses ++ ptr.id?.toList
  | binary _ lhs rhs => lhs.id?.toList ++ rhs.id?.toList
  | globalVariable | constantBitCast _ | constantIntToPtr _ | constant | argument => []

/-- `isa<PHINode>`. -/
def isPhi : Value → Bool
  | phi _ _ => true
  | _ => false

end Value

/-- `isMallocCall`, `isAllocaByteCall`, `isFreeCall` (`ReorderMemAccess.cpp`, lines 16–36), of a
    callee's name. -/
def isMallocCall (callee : String) : Bool := callee = "malloc"
@[inherit_doc isMallocCall] def isAllocaByteCall (callee : String) : Bool :=
  callee = "__alloca_bytes__"
@[inherit_doc isMallocCall] def isFreeCall (callee : String) : Bool := callee = "free"

/-! ## `ReorderMemAccess` -/

/-- `getBlockType` (`ReorderMemAccess.cpp`, lines 38–63). -/
def getBlockType : Value → AllocType
  | .call _ callee _ =>
    if isMallocCall callee then .heap
    else if isFreeCall callee then .heap
    else if isAllocaByteCall callee then .stack
    else .call
  | .alloca _ _ => .stack
  | .bitCast _ src => getBlockType src
  | .getElementPtr _ ptr _ => getBlockType ptr
  | .load _ ptr => getBlockType ptr
  | .store _ _ ptr => getBlockType ptr
  | .globalVariable => .heap
  | .constantBitCast src => getBlockType src
  | _ => .unknown

/-- `getOpTypeReorder` (`ReorderMemAccess.cpp`, lines 64–90). -/
def getOpTypeReorder : Value → AllocType
  | .call _ callee _ =>
    if isMallocCall callee then .heap
    else if isFreeCall callee then .heap
    else if isAllocaByteCall callee then .stack
    else .unknown
  | .alloca _ _ => .stack
  | .bitCast _ src => getOpTypeReorder src
  | .getElementPtr _ ptr _ => getOpTypeReorder ptr
  | .constantBitCast src => getOpTypeReorder src
  | .globalVariable => .heap
  | .binary _ lhs rhs =>
    let op1 := getOpTypeReorder lhs
    if op1 ≠ .unknown then op1 else getOpTypeReorder rhs
  | _ => .unknown

/-- `getAccessTypeReorder` (`ReorderMemAccess.cpp`, lines 91–106). -/
def getAccessTypeReorder : Value → AllocType
  | .call _ callee _ =>
    if isMallocCall callee then .noEffect
    else if isFreeCall callee then .noEffect
    else if isAllocaByteCall callee then .noEffect
    else .call
  | .load _ ptr => getOpTypeReorder ptr
  | .store _ _ ptr => getOpTypeReorder ptr
  | _ => .noEffect

/-- `checkDom` (`ReorderMemAccess.cpp`, lines 109–121): `I` must stay before `J`. -/
def checkDom (I J : Value) : Bool :=
  if J.operands.any fun op => I.id? = some op then true
  else
    let Itype := getAccessTypeReorder I
    let Jtype := getAccessTypeReorder J
    if Itype = .noEffect ∨ Jtype = .noEffect then false
    else if Itype = .call ∨ Jtype = .call then true
    else if Itype ≠ .noEffect ∧ Itype = Jtype ∧ Itype ≠ .unknown then true
    else if Itype ≠ .noEffect ∧ Jtype = .unknown then true
    else false

/-! ## `ResetPointer` -/

/-- `getOpType` (`ResetPointer.cpp`, lines 12–42). -/
def getOpType : Value → AllocType
  | .constantIntToPtr (some address) =>
    if BitVec.ofNat 64 20480 ≤ address then .heap else .stack
  | .constantIntToPtr none | .constantBitCast _ => .unknown
  | .call _ callee _ =>
    if isMallocCall callee then .heap
    else if isAllocaByteCall callee then .stack
    else .unknown
  | .alloca _ _ => .stack
  | .bitCast _ src => getOpType src
  | .getElementPtr _ ptr _ => getOpType ptr
  | .binary _ lhs rhs =>
    let op1 := getOpType lhs
    if op1 ≠ .unknown then op1 else getOpType rhs
  | _ => .unknown

/-- `getAccessType` (`ResetPointer.cpp`, lines 43–58). -/
def getAccessType : Value → AllocType
  | .call _ callee _ =>
    if isMallocCall callee then .noEffect
    else if isFreeCall callee then .noEffect
    else if isAllocaByteCall callee then .noEffect
    else .call
  | .load _ ptr => getOpType ptr
  | .store _ _ ptr => getOpType ptr
  | _ => .noEffect

end SwppCompiler.Passes
