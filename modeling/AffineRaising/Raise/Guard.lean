/-
# AffineRaising.Raise.Guard — conditions as constraint sets.

A condition becomes a constraint set if it is a conjunction of comparisons, each side of which is an
index or a minimum or maximum of indices that stands where it distributes: `x < min a b` is
`x < a ∧ x < b`, while `min a b < x` is no conjunction.
-/
import AffineRaising.Raise.MinMax
import AffineRaising.Raise.Rebind
import AffineRaising.Raise.Sign

namespace AffineRaising.Raise

open AffineRaising.IR AffineRaising.Ops
open AffineRaising.Affine (Expr Constraint Relation)

/-- Constraints collected so far; constraint `k` reads symbols `2k` and `2k + 1`. -/
structure Guard where
  constraints : List Constraint
  operands : List ValueRef
deriving DecidableEq, Repr

namespace Guard

/-- No constraint. -/
def empty : Guard := ⟨[], []⟩

/-- Adds a constraint on two values. -/
def push (g : Guard) (lhs rhs : ValueRef) (relation : Relation) (build : Expr → Expr → Expr) :
    Guard :=
  let k := g.constraints.length
  { constraints := g.constraints ++ [⟨build (.symbol (2 * k)) (.symbol (2 * k + 1)), relation⟩]
    operands := g.operands ++ [lhs, rhs] }

/-- Adds a constraint for each pair of a left and a right value. -/
def pushPairs (g : Guard) (lefts rights : List ValueRef) (build : Expr → Expr → Expr) : Guard :=
  (lefts.flatMap fun l => rights.map fun r => (l, r)).foldl
    (fun g p => g.push p.1 p.2 .atLeast build) g

/-- The constraint set over the symbols, and the operands bound to them. -/
def toSet (g : Guard) : SetBinding :=
  ⟨⟨0, g.operands.length, g.constraints⟩, g.operands⟩

end Guard

/-- Lowers an expression by one for a strict comparison. -/
def strictly (strict : Bool) (e : Expr) : Expr :=
  if strict then e.minus (.const 1) else e

/-- Adds the constraints of a comparison between flattened sides and says whether it did: not if the
comparison is no conjunction. -/
def addComparison (g : Guard) (predicate : Predicate) (lhs rhs : MinMax) : Bool × Guard :=
  match predicate with
  | .eq =>
    match lhs.leaves, rhs.leaves with
    | l :: _, r :: _ =>
      if lhs.min || lhs.max || rhs.min || rhs.max then (false, g)
      else (true, g.push l r .equal Expr.minus)
    | _, _ => (false, g)
  | .sge | .sgt =>
    if lhs.max || rhs.min then (false, g)
    else (true, g.pushPairs lhs.leaves rhs.leaves fun l r =>
      strictly (decide (predicate = .sgt)) (l.minus r))
  | .sle | .slt =>
    if lhs.min || rhs.max then (false, g)
    else (true, g.pushPairs lhs.leaves rhs.leaves fun l r =>
      strictly (decide (predicate = .slt)) (r.minus l))
  | _ => (false, g)

/-- Adds the constraints of a comparison and says whether it did.  An unsigned one needs sides that
cannot be negative. -/
def guardComparison (s : Store) (g : Guard) (cmp : OpRef) : Except Fault (Bool × Guard) := do
  let lhs ← flatten? s (← s.operand cmp 0)
  let rhs ← flatten? s (← s.operand cmp 1)
  match lhs, rhs, ← cmpPredicate? s cmp with
  | some lhs, some rhs, some predicate =>
    let comparable ←
      if predicate.isUnsigned then allInOrder (isNonNegative s) (lhs.leaves ++ rhs.leaves)
      else pure true
    if comparable then return addComparison g predicate.signed lhs rhs else return (false, g)
  | _, _, _ => return (false, g)

/-- Adds the constraints of one level of a tree of conjunctions; yields the operands of the
conjunctions as the next level. -/
def guardLevel (s : Store) : Guard → List ValueRef → List ValueRef →
    Except Fault (Option (Guard × List ValueRef))
  | g, next, [] => return some (g, next)
  | g, next, v :: rest => do
    match ← s.definingOp? v with
    | none => return none
    | some o =>
      match ← arithKind? s o with
      | some .cmp =>
        match ← guardComparison s g o with
        | (false, _) => return none
        | (true, g) => guardLevel s g next rest
      | some .and => guardLevel s g (next ++ (← s.operandsOf o)) rest
      | _ => return none

/-- Adds the constraints of a tree of conjunctions level by level, at most `fuel` of them. -/
def guardLevels (s : Store) : Nat → Guard → List ValueRef → Except Fault (Option Guard)
  | _, g, [] => return some g
  | 0, _, _ :: _ => throw .cyclic
  | fuel + 1, g, level@(_ :: _) => do
    match ← guardLevel s g [] level with
    | none => return none
    | some (g, next) => guardLevels s fuel g next

/-- The constraints of a condition, if it is a conjunction of comparisons. -/
def lowerCondition? (s : Store) (condition : ValueRef) : Except Fault (Option Guard) :=
  guardLevels s s.depthBound .empty [condition]

end AffineRaising.Raise
