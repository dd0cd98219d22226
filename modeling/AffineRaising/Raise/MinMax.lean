/-
# AffineRaising.Raise.MinMax — minima and maxima written as selections.

`select (a < b) a b` is a minimum and `select (a > b) a b` a maximum.  Trees of such selections over
indices flatten to their leaves, provided that they do not mix the two.
-/
import AffineRaising.Raise.Classify

namespace AffineRaising.Raise

open AffineRaising.IR AffineRaising.Ops
open AffineRaising.Affine (Map)

/-- A selection between the sides of an ordering comparison. -/
structure OrderedChoice where
  lhs : ValueRef
  rhs : ValueRef
  isMin : Bool

/-- Whether an ordering predicate selects the smaller or the larger side; none for others. -/
def selectsMin? : Predicate → Option Bool
  | .sle | .slt => some true
  | .sge | .sgt => some false
  | _ => none

/-- The choice that a value stands for, if it selects in order between the sides of a comparison. -/
def orderedChoice? (s : Store) (v : ValueRef) : Except Fault (Option OrderedChoice) := do
  match ← s.definingOp? v with
  | none => return none
  | some select =>
    if !(← isNamed s select ArithKind.select.opName) then return none
    match ← s.definingOp? (← s.operand select 0) with
    | none => return none
    | some cmp =>
      if !(← isNamed s cmp ArithKind.cmp.opName) then return none
      let ⟨lhs, rhs⟩ ← comparison s cmp
      if lhs ≠ (← s.operand select 1) then return none
      if rhs ≠ (← s.operand select 2) then return none
      return ((← cmpPredicate? s cmp).bind selectsMin?).map fun isMin => ⟨lhs, rhs, isMin⟩

/-- The leaves of a tree of minima and maxima, and which of the two occur. -/
structure MinMax where
  leaves : List ValueRef
  min : Bool
  max : Bool
deriving DecidableEq, Repr

namespace MinMax

/-- A leaf. -/
def leaf (v : ValueRef) : MinMax := ⟨[v], false, false⟩

/-- Joins two trees under a choice. -/
def join (isMin : Bool) (a b : MinMax) : MinMax :=
  ⟨a.leaves ++ b.leaves, isMin || a.min || b.min, !isMin || a.max || b.max⟩

/-- A tree that does not mix minima and maxima. -/
def unmixed? (t : MinMax) : Option MinMax :=
  if t.min && t.max then none else some t

end MinMax

/-- Flattens a tree over indices, through at most `fuel` selections. -/
def flattenFuel (s : Store) : Nat → ValueRef → Except Fault (Option MinMax)
  | 0, _ => throw .cyclic
  | fuel + 1, v => do
    if ← isIndex s v then return some (.leaf v)
    match ← orderedChoice? s v with
    | none => return none
    | some choice =>
      match ← flattenFuel s fuel choice.lhs with
      | none => return none
      | some left =>
        match ← flattenFuel s fuel choice.rhs with
        | none => return none
        | some right => return some (.join choice.isMin left right)

/-- Flattens a tree of minima or maxima over indices. -/
def flatten? (s : Store) (v : ValueRef) : Except Fault (Option MinMax) := do
  return (← flattenFuel s s.depthBound v).bind MinMax.unmixed?

/-- Flattens a value that is itself a choice, even if it is an index as a whole. -/
def expandChoice? (s : Store) (v : ValueRef) : Except Fault (Option MinMax) := do
  match ← orderedChoice? s v with
  | none => return none
  | some choice =>
    match ← flatten? s choice.lhs with
    | none => return none
    | some left =>
      match ← flatten? s choice.rhs with
      | none => return none
      | some right => return (MinMax.join choice.isMin left right).unmixed?

end AffineRaising.Raise
