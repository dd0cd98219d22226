/-
# AffineRaising.Raise.Compose — folding computations into maps.

A step looks at every operand of a map and folds what it can see into the map: sums and
differences, products, quotients and remainders by constants, and maps that are applied.  What
stays opaque is bound as a dimension, if it is an induction variable, or as a symbol, for which it
may have to be promoted. Steps are repeated until nothing can be folded; then non-index operands
are replaced by casts.
-/
import AffineRaising.Raise.Journal
import AffineRaising.Raise.Rebind
import AffineRaising.Raise.Sign

namespace AffineRaising.Raise

open AffineRaising.IR AffineRaising.Ops AffineRaising.Analysis
open AffineRaising.Affine (Expr Map ConstraintSet)

/-- Why operands cannot be brought into affine form. -/
inductive ComposeError where
  /-- A value had to become a symbol, and its computation could not be moved. -/
  | unpromotable (value : ValueRef)
  /-- A value ended up in a position for which it is not valid. -/
  | notAffine (value : ValueRef)
deriving DecidableEq, Repr

/-- The wording of an error. -/
def ComposeError.message : ComposeError → String
  | .unpromotable v => "cannot promote " ++ v.render ++ " to a symbol"
  | .notAffine v => v.render ++ " is neither an induction variable nor a symbol"

/-- A draft that may find that operands are not affine; the journal survives that. -/
abbrev Compose := ExceptT ComposeError Draft

namespace Compose

/-- Runs a draft. -/
def draft {α : Type} (d : Draft α) : Compose α := ExceptT.lift d

/-- Runs an edit that the journal does not cover. -/
def lift {α : Type} (e : Edit α) : Compose α := draft (Draft.lift e)

/-- Runs a query. -/
def ask {α : Type} (q : Store → Except Fault α) : Compose α := draft (Draft.ask q)

end Compose

/-! ## Shapes of arithmetic -/

/-- An expression over symbols, and the values they stand for. -/
structure Shape where
  expr : Expr
  inputs : List ValueRef

/-- A positive constant as an expression. -/
def positiveConst? (c : Option Int64) : Option Expr :=
  (c.filter fun c => decide (0 < c)).map .const

/-- The shape of a product, quotient or remainder by a constant. -/
def scaledShape (combine : Expr → Expr → Expr) (input : ValueRef) (c : Option Expr) :
    Option Shape :=
  c.map fun c => ⟨combine (.symbol 0) c, [input]⟩

/-- The shape of an operation on two operands.  A signed quotient or remainder rounds toward zero,
so it has the shape of the affine one only over dividends that cannot be negative. -/
def binaryShape? (s : Store) (kind : ArithKind) (a b : ValueRef) : Except Fault (Option Shape) := do
  match kind with
  | .add => return some ⟨(Expr.symbol 0).plus (.symbol 1), [a, b]⟩
  | .sub => return some ⟨(Expr.symbol 0).minus (.symbol 1), [a, b]⟩
  | .mul =>
    match ← constantOf? s a, ← constantOf? s b with
    | _, some c => return scaledShape Expr.times a (some (.const c))
    | some c, none => return scaledShape Expr.times b (some (.const c))
    | none, none => return none
  | .divS =>
    if ← isNonNegative s a then
      return scaledShape Expr.floorDivide a (positiveConst? (← constantOf? s b))
    else return none
  | .divU => return scaledShape Expr.floorDivide a (positiveConst? (← constantOf? s b))
  | .remS =>
    if ← isNonNegative s a then
      return scaledShape Expr.modulo a (positiveConst? (← constantOf? s b))
    else return none
  | .remU => return scaledShape Expr.modulo a (positiveConst? (← constantOf? s b))
  | _ => return none

/-- The affine shape of the operation that defines a value, if it has one. -/
def shape? (s : Store) (v : ValueRef) : Except Fault (Option Shape) := do
  match ← constantOf? s v with
  | some c => return some ⟨.const c, []⟩
  | none =>
    match ← s.definingOp? v with
    | none => return none
    | some o =>
      match ← arithKind? s o, ← s.operandsOf o with
      | some kind, [a, b] => binaryShape? s kind a b
      | _, _ => return none

/-- The shape with which an operand is folded into a map: that of the value itself unless it is a
symbol, else that of the value behind its casts if it is arithmetic with a constant. -/
def inlineShape? (s : Store) (t decast : ValueRef) : Except Fault (Option Shape) := do
  let own ← if ← isSymbol s t then pure none else shape? s t
  match own with
  | some shape => return some shape
  | none =>
    match ← s.definingOp? decast with
    | none => return none
    | some o => if ← foldsConstant s o then shape? s decast else return none

/-! ## Steps -/

/-- Binds values in order with a way to bind single ones. -/
def bindAll (bind : Positions → ValueRef → Expr × Positions) :
    Positions → List ValueRef → List Expr × Positions
  | p, [] => ([], p)
  | p, v :: rest =>
    let (e, p) := bind p v
    let (es, p) := bindAll bind p rest
    (e :: es, p)

/-- A map with a single result that an operation applies to as many operands as it takes. -/
def appliedMap? (s : Store) (v : ValueRef) :
    Except Fault (Option (Map × Expr × List ValueRef)) := do
  match ← s.definingOp? v with
  | none => return none
  | some o =>
    if ← isNamed s o applyName then
      let operands ← s.operandsOf o
      match ← opMap? s o with
      | none => return none
      | some m =>
        match m.results with
        | [result] =>
          if m.numInputs = operands.length then return some (m, result, operands) else return none
        | _ => return none
    else return none

/-- The symbol that a value is or can be promoted to. -/
def requireSymbol (t : ValueRef) : Compose ValueRef := do
  if ← Compose.ask (isSymbol · t) then return t
  match ← Compose.draft (promote t false) with
  | none => throw (.unpromotable t)
  | some p => if ← Compose.ask (isSymbol · p) then return p else throw (.unpromotable t)

/-- The expression that replaces an operand, with the positions of what it depends on. -/
def composeOperand (p : Positions) (operand : ValueRef) (isDim : Bool) :
    Compose (Expr × Positions) := do
  let decast ← Compose.ask (stripCasts · operand)
  let t ← if ← Compose.ask (isSymbol · operand) then pure operand else pure decast
  match ← Compose.ask (inlineShape? · t decast) with
  | some shape =>
    let (syms, p) := bindAll Positions.symbol p shape.inputs
    let e ← Compose.ask fun _ => liftAffine (shape.expr.substitute [] syms)
    return (e, p)
  | none =>
    if ← Compose.ask (isLoopArg · t) then return p.dim t
    match ← Compose.ask (appliedMap? · t) with
    | some (m, result, operands) =>
      let (dims, p) := bindAll Positions.dim p (operands.take m.numDims)
      let (syms, p) := bindAll Positions.symbol p (operands.drop m.numDims)
      let e ← Compose.ask fun _ => liftAffine (result.substitute dims syms)
      return (e, p)
    | none =>
      let t ← requireSymbol t
      return if isDim then p.dim t else p.symbol t

/-- The expressions that replace operands in order; the number is the position of the first one. -/
def composeOperands (numDims : Nat) :
    Nat → Positions → List ValueRef → Compose (List Expr × Positions)
  | _, p, [] => return ([], p)
  | i, p, v :: rest => do
    let (e, p) ← composeOperand p v (decide (i < numDims))
    let (es, p) ← composeOperands numDims (i + 1) p rest
    return (e :: es, p)

/-- One step, with a canonical result. -/
def composeStep (b : Binding) : Compose Binding := do
  let (exprs, p) ← composeOperands b.map.numDims 0 Positions.empty b.operands
  let dims := exprs.take b.map.numDims
  let syms := exprs.drop b.map.numDims
  let map ← Compose.ask fun _ =>
    liftAffine (b.map.substitute dims syms p.dims.length p.symbols.length)
  Compose.ask (canonicalize · ⟨map, p.operands⟩)

/-- Whether an operand from a position on has something to fold. -/
def anyFoldable (s : Store) (numDims : Nat) : Nat → List ValueRef → Except Fault Bool
  | _, [] => return false
  | i, v :: rest => do
    if ← isFoldable s v (decide (i < numDims)) then return true
    anyFoldable s numDims (i + 1) rest

/-- Steps until nothing is left to fold, nothing changes, or the limit is reached. -/
def composeSteps : Nat → Binding → Compose Binding
  | left, b => do
    if !(← Compose.ask (anyFoldable · b.map.numDims 0 b.operands)) then return b
    match left with
    | 0 => return b
    | left + 1 =>
      let next ← composeStep b
      if next = b then return b else composeSteps left next

/-! ## Results -/

/-- Checks that dimensions are induction variables or symbols, and symbols are symbols. -/
def checkPositions (numDims : Nat) : Nat → List ValueRef → Compose Unit
  | _, [] => return
  | i, v :: rest => do
    let valid ←
      if ← Compose.ask (isSymbol · v) then pure true
      else if i < numDims then Compose.ask (isLoopArg · v)
      else pure false
    if !valid then throw (.notAffine v)
    checkPositions numDims (i + 1) rest

/-- Whether a use is a cast to the index type that is visible at the anchor and is a symbol; yields
the cast value. -/
def usableCast? (s : Store) (anchor : OpRef) (u : Use) : Except Fault (Option ValueRef) := do
  if ← isNamed s u.user ArithKind.indexCast.opName then
    let result ← s.result u.user 0
    if !(← s.typeOf result).isIndex then return none
    if (← s.op u.user).parent.isNone then return none
    if !(← isSymbol s result) then return none
    if ← valueDominates s result anchor then return some result else return none
  else return none

/-- The first use that is a cast usable at the anchor. -/
def firstUsableCast? (s : Store) (anchor : OpRef) : List Use → Except Fault (Option ValueRef)
  | [] => return none
  | u :: rest => do
    match ← usableCast? s anchor u with
    | some v => return some v
    | none => firstUsableCast? s anchor rest

/-- A cast of a value to the index type: one that is there already, or a new one behind the
definition of the value. -/
def indexCastOf (anchor : OpRef) (v : ValueRef) : Compose ValueRef := do
  match ← Compose.ask fun s => firstUsableCast? s anchor (s.usesOf v) with
  | some cast => return cast
  | none =>
    match ← Compose.ask (Point.afterDefinition? · v) with
    | none => throw (.notAffine v)
    | some p =>
      let _ ← Compose.ask (·.op anchor)
      let cast ← Compose.lift (createOp (indexCastSpec v .index))
      Compose.lift (p.insert cast)
      Compose.draft (Draft.record (.inserted cast))
      Compose.ask (·.result cast 0)

/-- Replaces operands that are not of the index type by casts; `casts` holds those made so far. -/
def indexOperands (anchor : OpRef) : List (ValueRef × ValueRef) → List ValueRef →
    Compose (List ValueRef)
  | _, [] => return []
  | casts, v :: rest => do
    if (← Compose.ask (·.typeOf v)).isIndex then
      return v :: (← indexOperands anchor casts rest)
    match casts.lookup v with
    | some cast => return cast :: (← indexOperands anchor casts rest)
    | none =>
      let cast ← indexCastOf anchor v
      return cast :: (← indexOperands anchor ((v, cast) :: casts) rest)

/-- Folds into a map what its operands compute, in at most `limit` steps, for use at the anchor. -/
def composeMap (anchor : OpRef) (limit : Nat) (b : Binding) : Compose Binding := do
  let b ← composeSteps limit b
  checkPositions b.map.numDims 0 b.operands
  let operands ← indexOperands anchor [] b.operands
  return ⟨b.map.simplify, operands⟩

/-- Folds into a set what its operands compute. -/
def composeSet (anchor : OpRef) (limit : Nat) (b : SetBinding) : Compose SetBinding := do
  return b.withBinding (← composeMap anchor limit b.toBinding)

/-- Folds and canonicalizes a map. -/
def normalizeMap (anchor : OpRef) (limit : Nat) (b : Binding) : Compose Binding := do
  let b ← composeMap anchor limit b
  Compose.ask (canonicalize · b)

/-- Folds and canonicalizes a set. -/
def normalizeSet (anchor : OpRef) (limit : Nat) (b : SetBinding) : Compose SetBinding := do
  let b ← composeSet anchor limit b
  Compose.ask (canonicalizeSet · b)

end AffineRaising.Raise
