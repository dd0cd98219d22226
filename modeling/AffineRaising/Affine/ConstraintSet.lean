/-
# AffineRaising.Affine.ConstraintSet — integer sets given by constraints.

A constraint set is a conjunction of constraints `e >= 0` and `e == 0` over dimensions and
symbols; its points are the integer set that conditionals test.
-/
import AffineRaising.Affine.Map

namespace AffineRaising.Affine

/-- How a constraint compares its expression with zero. -/
inductive Relation where
  | equal
  | atLeast
deriving DecidableEq, Repr

/-- The sign of a relation. -/
def Relation.sign : Relation → String
  | .equal => "=="
  | .atLeast => ">="

/-- Whether a word stands in the relation to zero. -/
def Relation.holds : Relation → Int64 → Bool
  | .equal, v => v == 0
  | .atLeast, v => decide (0 ≤ v)

/-- One constraint, `expr >= 0` or `expr == 0`. -/
structure Constraint where
  expr : Expr
  relation : Relation
deriving DecidableEq, Repr

/-- A conjunction of constraints over `numDims` dimensions and `numSymbols` symbols. -/
structure ConstraintSet where
  numDims : Nat
  numSymbols : Nat
  constraints : List Constraint
deriving DecidableEq, Repr

namespace ConstraintSet

/-- Pairs expressions with flags that say which are equations; the two lists must be as long as
each other. -/
def ofFlags? (numDims numSymbols : Nat) (exprs : List Expr) (equations : List Bool) :
    Option ConstraintSet :=
  if exprs.length = equations.length then
    some ⟨numDims, numSymbols,
      List.zipWith (fun e b => ⟨e, if b then .equal else .atLeast⟩) exprs equations⟩
  else none

/-- Number of operands that the set takes. -/
def numInputs (s : ConstraintSet) : Nat := s.numDims + s.numSymbols

/-- The constrained expressions in order. -/
def exprs (s : ConstraintSet) : List Expr := s.constraints.map (·.expr)

/-- Which constraints are equations. -/
def equationFlags (s : ConstraintSet) : List Bool :=
  s.constraints.map fun c => decide (c.relation = .equal)

/-- Whether dimension `position` occurs in a constraint. -/
def usesDim (s : ConstraintSet) (position : Nat) : Bool :=
  s.constraints.any (·.expr.usesDim position)

/-- Whether symbol `position` occurs in a constraint. -/
def usesSymbol (s : ConstraintSet) (position : Nat) : Bool :=
  s.constraints.any (·.expr.usesSymbol position)

/-- Substitutes in every constraint, and binds the answer to new numbers of dimensions and
symbols. -/
def substitute (s : ConstraintSet) (dims syms : List Expr) (numDims numSymbols : Nat) :
    Except DomainError ConstraintSet := do
  let constraints ← s.constraints.mapM fun c => do
    let e ← c.expr.substitute dims syms
    return ({ c with expr := e } : Constraint)
  return ⟨numDims, numSymbols, constraints⟩

/-- Every constraint in canonical form. -/
def simplify (s : ConstraintSet) : ConstraintSet :=
  { s with constraints := s.constraints.map fun c => { c with expr := c.expr.simplify } }

/-- Evaluates constraints in order; an expression without a value leaves the question open, even
after a constraint that fails. -/
def holdsAll (dims syms : List Int64) : List Constraint → Except DomainError (Option Bool)
  | [] => .ok (some true)
  | c :: rest => do
    match ← c.expr.eval dims syms with
    | none => return none
    | some v =>
      match ← holdsAll dims syms rest with
      | none => return none
      | some all => return some (c.relation.holds v && all)

/-- Whether a point satisfies every constraint, if all have a value there. -/
def contains? (s : ConstraintSet) (dims syms : List Int64) : Except DomainError (Option Bool) :=
  holdsAll dims syms s.constraints

/-- The text of a constraint. -/
def renderConstraint (c : Constraint) : String :=
  c.expr.render ++ " " ++ c.relation.sign ++ " 0"

/-- The text of a set. -/
def render (s : ConstraintSet) : String :=
  "affine_set<" ++ renderBindings s.numDims s.numSymbols ++ " : (" ++
    commaSeparated (s.constraints.map renderConstraint) ++ ")>"

end ConstraintSet

end AffineRaising.Affine
