/-
# AffineRaising.Raise.Pattern — the patterns of affine raising.

Each pattern looks at one kind of operation and brings it, or the map it carries, into affine form.
Whatever a pattern moves while it tries is undone unless it succeeds.
-/
import AffineRaising.Raise.Compose
import AffineRaising.Raise.Guard
import AffineRaising.Transform.Greedy

namespace AffineRaising.Raise

open AffineRaising.IR AffineRaising.Ops AffineRaising.Transform
open AffineRaising.Affine (Map)

/-- Runs a body with an empty journal.  If it asks for a change the journal is committed, else it is
rolled back. -/
def transaction (body : Compose Change) : Edit Change := do
  let (outcome, journal) ← body.run.run []
  match outcome with
  | .error _ =>
    Journal.rollback journal
    return .none
  | .ok .none =>
    Journal.rollback journal
    return .none
  | .ok change =>
    Journal.commit journal
    return change

/-- Runs a pattern on operations of one name and leaves others alone. -/
def onName (name : OpName) (pattern : Pattern) : Pattern := fun op => do
  if ← query (isNamed · op name) then pattern op else return .none

/-- Composes chains of applications into one map. -/
def raiseApply (limit : Nat) : Pattern := onName applyName fun op => do
  match ← query (opMap? · op) with
  | none => return .none
  | some map =>
    let operands ← query (·.operandsOf op)
    transaction do
      let b ← normalizeMap op limit ⟨map, operands⟩
      let new := b.map.dropRepeatedResults
      if new = map then return .none
      let result ← Compose.ask (·.result op 0)
      let ty ← Compose.ask (·.typeOf result)
      return .replaceBy (← Compose.lift (createOp (applySpec new b.operands ty)))

/-- A cast back to the type before a cast is the value before it; a cast of a constant to the index
type is a constant. -/
def foldIndexCast : Pattern := onName ArithKind.indexCast.opName fun op => do
  let input ← query (·.operand op 0)
  let result ← query (·.result op 0)
  let ty ← query (·.typeOf result)
  match ← query (·.definingOp? input) with
  | none => return .none
  | some inner =>
    match ← query (arithKind? · inner) with
    | some .indexCast =>
      let source ← query (·.operand inner 0)
      if (← query (·.typeOf source)) = ty then return .eraseFor [source] else return .none
    | some .const =>
      match ← query (constValue? · inner) with
      | none => return .none
      | some value =>
        if ty.isIndex && !(← query (·.typeOf input)).isIndex then
          return .replaceBy (← createOp (constantSpec ty value))
        else return .none
    | _ => return .none

/-- Normalizes the identity map over subscripts that are all indices, and asks for the operation
that `build` makes of it. -/
def raiseSubscripts (limit : Nat) (op : OpRef) (indices : List ValueRef)
    (build : Binding → OpSpec) : Edit Change :=
  transaction do
    let b ← normalizeMap op limit ⟨Map.symbolIdentity indices.length, indices⟩
    return .replaceBy (← Compose.lift (createOp (build b)))

/-- Raises a load whose subscripts are indices. -/
def raiseLoad (limit : Nat) : Pattern := onName loadName fun op => do
  let indices ← query (operandsFrom · op 1)
  if !(← query fun s => allInOrder (isIndex s) indices) then return .none
  let memory ← query (·.operand op 0)
  match (← query (·.op op)).resultTypes with
  | [] => return .none
  | ty :: _ =>
    raiseSubscripts limit op indices fun b => affineLoadSpec memory b.map b.operands ty

/-- Raises a store whose subscripts are indices. -/
def raiseStore (limit : Nat) : Pattern := onName storeName fun op => do
  let indices ← query (operandsFrom · op 2)
  if !(← query fun s => allInOrder (isIndex s) indices) then return .none
  let value ← query (·.operand op 0)
  let memory ← query (·.operand op 1)
  raiseSubscripts limit op indices fun b => affineStoreSpec value memory b.map b.operands

/-- Normalizes the map of an affine access.  The access is built anew with the same name, leading
operands and other attributes. -/
def normalizeAccess (limit : Nat) : Pattern := fun op => do
  let d ← query (·.op op)
  match AccessKind.ofName? d.name, (d.attrs.get? "map").bind Attr.map? with
  | some kind, some map =>
    let leading := d.operands.take kind.mapStart
    let operands := d.operands.drop kind.mapStart
    if d.operands.length < kind.mapStart || map.numInputs ≠ operands.length then return .none
    transaction do
      let b ← normalizeMap op limit ⟨map, operands⟩
      if b.map = map && b.operands = operands then return .none
      let d ← Compose.ask (·.op op)
      return .replaceBy (← Compose.lift (createOp
        { name := d.name, operands := leading ++ b.operands, resultTypes := d.resultTypes,
          attrs := d.attrs.insert "map" (.map b.map) }))
  | _, _ => return .none

/-! ## Loop bounds -/

/-- The operand that the only result of a map is, by position. -/
def forwardedOperand? (b : Binding) : Option ValueRef :=
  match b.map.results with
  | [.dim d] => b.operands[d]?
  | [.symbol j] => b.operands[b.map.numDims + j]?
  | _ => none

/-- An upper bound that is a minimum, or a lower bound that is a maximum, with one result for each
leaf. -/
def expandBound? (s : Store) (side : BoundSide) (b : Binding) : Except Fault (Option Binding) := do
  match forwardedOperand? b with
  | none => return none
  | some v =>
    match ← expandChoice? s v with
    | none => return none
    | some tree =>
      let expands := match side with
        | .upper => tree.min
        | .lower => tree.max
      if expands && decide (2 ≤ tree.leaves.length) then
        return some ⟨Map.symbolIdentity tree.leaves.length, tree.leaves⟩
      else return none

/-- Normalizes one bound of a loop, given its map and operands. -/
def normalizeBound (limit : Nat) (op : OpRef) (side : BoundSide) (b : Binding) : Edit Change :=
  transaction do
    let expanded ← Compose.ask (expandBound? · side b)
    let new ← normalizeMap op limit (expanded.getD b)
    let map := new.map.dropRepeatedResults
    if map = b.map && new.operands = b.operands then return .none
    Compose.lift (setBound op side map new.operands)
    return .inPlace

/-- Normalizes the bounds of a loop; each succeeds or fails on its own. -/
def normalizeBounds (limit : Nat) : Pattern := onName forName fun op => do
  match ← query (boundMap? · op .lower), ← query (boundMap? · op .upper) with
  | some lower, some upper =>
    let lowerOperands ← query (boundOperands · op .lower)
    let upperOperands ← query (boundOperands · op .upper)
    let first ← normalizeBound limit op .lower ⟨lower, lowerOperands⟩
    let second ← normalizeBound limit op .upper ⟨upper, upperOperands⟩
    if first = .none && second = .none then return .none else return .inPlace
  | _, _ => return .none

/-! ## Conditionals -/

/-- Normalizes the constraints of an affine conditional. -/
def normalizeCondition (limit : Nat) : Pattern := onName affineIfName fun op => do
  match ← query (conditionSet? · op) with
  | none => return .none
  | some set =>
    let operands ← query (·.operandsOf op)
    transaction do
      let b ← normalizeSet op limit ⟨set, operands⟩
      if b.set = set && b.operands = operands then return .none
      Compose.lift (setCondition op b.set b.operands)
      return .inPlace

/-- Climbs to an enclosing affine loop, through at most `fuel` operations. -/
def isInLoopFuel (s : Store) : Nat → OpRef → Except Fault Bool
  | 0, _ => throw .cyclic
  | fuel + 1, o => do
    match ← s.enclosingOp? o with
    | none => return false
    | some parent =>
      let name ← s.nameOf parent
      if name = forName || name = parallelName then return true
      isInLoopFuel s fuel parent

/-- Whether an affine loop encloses an operation. -/
def isInLoop (s : Store) (o : OpRef) : Except Fault Bool :=
  isInLoopFuel s s.depthBound o

/-- The regions of a new affine conditional: those of the old one with their terminators replaced,
and an else region with only a terminator if there was none. -/
def moveBranches (op : OpRef) : Edit (List RegionRef) := do
  let second := (← query (·.op op)).regions[1]?
  let elseRegion ←
    match second with
    | none => pure none
    | some r => do
      if (← query (·.region r)).blocks.isEmpty then pure none else pure (some r)
  let thenRegion ← query (·.regionAt op 0)
  let _ ← takeRegions op
  let _ ← retargetTerminators scfYieldName affineYieldName thenRegion
  match elseRegion with
  | some r =>
    let _ ← retargetTerminators scfYieldName affineYieldName r
    return [thenRegion, r]
  | none =>
    let terminator ← createOp (yieldSpec affineYieldName [])
    let r ← regionWithTerminator terminator
    return [thenRegion, r]

/-- Raises a conditional inside an affine loop whose condition is a conjunction of comparisons. -/
def raiseConditional (limit : Nat) : Pattern := onName scfIfName fun op => do
  if (← query (·.op op)).regions.isEmpty then return .none
  if !(← query (isInLoop · op)) then return .none
  let condition ← query (·.operand op 0)
  match ← query (lowerCondition? · condition) with
  | none => return .none
  | some guard =>
    transaction do
      let b ← normalizeSet op limit guard.toSet
      let types := (← Compose.ask (·.op op)).resultTypes
      let regions ← Compose.lift (moveBranches op)
      return .replaceBy (← Compose.lift (createOp (affineIfSpec b.set b.operands types regions)))

end AffineRaising.Raise
