/-
# AffineRaising.Raise.Classify — symbols, indices and loop arguments.

Seen from the function around it, a value is a *symbol* if no affine loop changes it, and an
*index* if it is an affine function of symbols and induction variables.  A symbol in the narrow
sense can be bound to a map as it is; one in the wide sense is computed from symbols and can be
moved to a place where it becomes one.
-/
import AffineRaising.Ops.Effect

namespace AffineRaising.Raise

open AffineRaising.IR AffineRaising.Ops

/-- The operation whose region holds the block where a value becomes available. -/
def homeOwner? (s : Store) (v : ValueRef) : Except Fault (Option OpRef) := do
  match ← s.homeBlock? v with
  | none => return none
  | some block => s.blockOwner? block

/-- Whether an operation has a name. -/
def isNamed (s : Store) (o : OpRef) (name : OpName) : Except Fault Bool := do
  return (← s.nameOf o) == name

/-- A value that lives in the body of a function: an argument of it or the result of one of its
operations. -/
def isTopLevel (s : Store) (v : ValueRef) : Except Fault Bool := do
  match ← homeOwner? s v with
  | none => return false
  | some owner => isNamed s owner funcName

/-! ## Symbols -/

/-- Symbols in the narrow sense: top-level values, constants, and applications of maps to such
symbols. -/
def isScopeSymbolFuel (s : Store) : Nat → ValueRef → Except Fault Bool
  | 0, _ => throw .cyclic
  | fuel + 1, v => do
    if ← isTopLevel s v then return true
    match ← s.definingOp? v with
    | none => return false
    | some o =>
      if ← isNamed s o ArithKind.const.opName then return true
      if ← isNamed s o applyName then allInOrder (isScopeSymbolFuel s fuel) (← s.operandsOf o)
      else return false

/-- Symbols in the narrow sense. -/
def isScopeSymbol (s : Store) (v : ValueRef) : Except Fault Bool :=
  isScopeSymbolFuel s s.depthBound v

/-- Whether a value is a symbol, given which operations yield symbols. -/
def isSymbolWith (symbolOp : OpRef → Except Fault Bool) (s : Store) (v : ValueRef) :
    Except Fault Bool := do
  if ← isTopLevel s v then return true
  match ← s.definingOp? v with
  | none => return false
  | some o => if ← symbolOp o then return true else isScopeSymbol s v

/-- Whether an operation yields symbols as it is. -/
def yieldsSymbol (s : Store) (o : OpRef) : Except Fault Bool := do
  return (← arithKind? s o) == some .const

/-- Whether a value can be bound to a symbol position. -/
def isSymbol (s : Store) (v : ValueRef) : Except Fault Bool :=
  isSymbolWith (yieldsSymbol s) s v

/-- Terminators of conditionals. -/
def isYield (s : Store) (o : OpRef) : Except Fault Bool := do
  let name ← s.nameOf o
  return name == scfYieldName || name == affineYieldName

/-- Whether the operations of a conditional's branches, terminators apart, satisfy a test. -/
def branchesSatisfy (test : OpRef → Except Fault Bool) (s : Store) (o : OpRef) :
    Except Fault Bool := do
  allInOrder (fun nested => do if ← isYield s nested then return true else test nested)
    (← s.childOps o)

/-- Whether an operation computes symbols from symbols: arithmetic but for conjunctions, and
conditionals whose branches do. -/
def computesSymbolFuel (s : Store) : Nat → OpRef → Except Fault Bool
  | 0, _ => throw .cyclic
  | fuel + 1, o => do
    let symbol := isSymbolWith (computesSymbolFuel s fuel) s
    match ← arithKind? s o with
    | some .const => return true
    | some .and => return false
    | some _ => allInOrder symbol (← s.operandsOf o)
    | none =>
      if ← isNamed s o scfIfName then
        if ← symbol (← s.operand o 0) then branchesSatisfy (computesSymbolFuel s fuel) s o
        else return false
      else if ← isNamed s o affineIfName then
        if ← allInOrder symbol (← s.operandsOf o) then
          branchesSatisfy (computesSymbolFuel s fuel) s o
        else return false
      else return false

/-- Symbols in the wide sense: computed from symbols, so that they can be moved to a place where
they are symbols. -/
def isRecursiveSymbol (s : Store) (v : ValueRef) : Except Fault Bool :=
  isSymbolWith (computesSymbolFuel s s.depthBound) s v

/-! ## Indices -/

/-- Whether argument `i` of a block is an argument of a function or an induction variable.  Values
carried from one iteration to the next are not. -/
def isIndexArg (s : Store) (block : BlockRef) (i : Nat) : Except Fault Bool := do
  match ← s.blockOwner? block with
  | none => return false
  | some owner =>
    if ← isNamed s owner funcName then return true
    if ← isNamed s owner forName then return i == 0
    isNamed s owner parallelName

/-- Whether an operation computes an index, given which values are indices. -/
def computesIndexWith (index : ValueRef → Except Fault Bool) (s : Store) (o : OpRef) :
    Except Fault Bool := do
  match ← arithKind? s o, ← s.operandsOf o with
  | some .indexCast, [a] => index a
  | some .extS, [a] => index a
  | some .extU, [a] => index a
  | some .add, [a, b] => if ← index a then index b else return false
  | some .sub, [a, b] => if ← index a then index b else return false
  | some .mul, [a, b] => do
    let left ← if ← index a then isRecursiveSymbol s b else pure false
    if left then return true
    if ← index b then isRecursiveSymbol s a else return false
  | some .divS, [a, b] => if ← index a then isRecursiveSymbol s b else return false
  | some .divU, [a, b] => if ← index a then isRecursiveSymbol s b else return false
  | some .remS, [a, b] => if ← index a then return (← constantOf? s b).isSome else return false
  | some .remU, [a, b] => if ← index a then return (← constantOf? s b).isSome else return false
  | some .const, _ => return true
  | _, _ => return false

/-- Affine functions of induction variables and symbols. -/
def isIndexFuel (s : Store) : Nat → ValueRef → Except Fault Bool
  | 0, _ => throw .cyclic
  | fuel + 1, v => do
    if ← isRecursiveSymbol s v then return true
    match (← s.value v).origin with
    | .result o _ => computesIndexWith (isIndexFuel s fuel) s o
    | .argument block i => isIndexArg s block i

/-- Whether a value is an affine function of induction variables and symbols. -/
def isIndex (s : Store) (v : ValueRef) : Except Fault Bool :=
  isIndexFuel s s.depthBound v

/-- Whether a value is the induction variable of an affine loop. -/
def isLoopArg (s : Store) (v : ValueRef) : Except Fault Bool := do
  match (← s.value v).origin with
  | .result _ _ => return false
  | .argument block i =>
    match ← s.blockOwner? block with
    | none => return false
    | some owner =>
      if ← isNamed s owner forName then return i == 0 else isNamed s owner parallelName

/-! ## Casts -/

/-- Follows the first operands of operations of some kinds. -/
def stripFuel (through : ArithKind → Bool) (s : Store) : Nat → ValueRef → Except Fault ValueRef
  | 0, _ => throw .cyclic
  | fuel + 1, v => do
    match ← s.definingOp? v with
    | none => return v
    | some o =>
      match ← arithKind? s o with
      | none => return v
      | some kind => if through kind then stripFuel through s fuel (← s.operand o 0) else return v

/-- The first value behind index casts. -/
def stripIndexCasts (s : Store) (v : ValueRef) : Except Fault ValueRef :=
  stripFuel (· == .indexCast) s s.depthBound v

/-- The first value behind index casts and extensions. -/
def stripCasts (s : Store) (v : ValueRef) : Except Fault ValueRef :=
  stripFuel (fun k => k == .indexCast || k == .extU || k == .extS) s s.depthBound v

/-- The kinds that fold into a map when their right side is a constant. -/
def ArithKind.foldsConstant : ArithKind → Bool
  | .add | .sub | .mul | .remS | .remU => true
  | _ => false

/-- Whether an operation is of a kind that folds, with a constant on its right. -/
def foldsConstant (s : Store) (o : OpRef) : Except Fault Bool := do
  match ← arithKind? s o with
  | none => return false
  | some kind =>
    if ArithKind.foldsConstant kind then
      match (← s.operandsOf o)[1]? with
      | none => return false
      | some rhs => return (← constantOf? s rhs).isSome
    else return false

/-- Whether the value at a position of a map still has structure to fold into the map: it applies a
map, it is affine but not in canonical form there, or it is arithmetic with a constant. -/
def isFoldable (s : Store) (v : ValueRef) (isDim : Bool) : Except Fault Bool := do
  let applied ←
    match ← s.definingOp? v with
    | none => pure false
    | some o => isNamed s o applyName
  if applied then return true
  let unbound ←
    if ← isSymbol s v then pure false
    else if ← isIndex s v then
      if isDim then pure (!(← isLoopArg s v)) else pure true
    else pure false
  if unbound then return true
  let stripped ← stripIndexCasts s v
  let arithmetic ←
    match ← s.definingOp? stripped with
    | none => pure false
    | some o => foldsConstant s o
  if arithmetic then return true
  if isDim then return false else isLoopArg s stripped

end AffineRaising.Raise
