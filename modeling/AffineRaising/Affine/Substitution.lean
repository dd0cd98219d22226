/-
# AffineRaising.Affine.Substitution — rebuilding expressions through the canonical constructors.

`Expr.simplify` rebuilds a tree bottom-up; `Expr.substitute` also replaces every identifier by an
expression.  A substitution must cover the identifiers of its expression: one that is left without
a replacement is a fault.
-/
import AffineRaising.Affine.Linear

namespace AffineRaising.Affine

/-- What can go wrong when an expression is evaluated or instantiated. -/
inductive DomainError where
  /-- The least word was divided by minus one. -/
  | quotientOverflow
  /-- No replacement was given for a dimension. -/
  | unboundDim (position : Nat)
  /-- No replacement was given for a symbol. -/
  | unboundSymbol (position : Nat)
deriving DecidableEq, Repr

namespace Expr

/-- The canonical form: the tree rebuilt bottom-up. -/
def simplify : Expr → Expr
  | .bin op l r => combine op l.simplify r.simplify
  | e => e

/-- Replaces dimension `i` by `dims[i]` and symbol `j` by `syms[j]`, rebuilding canonically. -/
def substitute (dims syms : List Expr) : Expr → Except DomainError Expr
  | .dim d =>
    match dims[d]? with
    | some e => .ok e
    | none => .error (.unboundDim d)
  | .symbol s =>
    match syms[s]? with
    | some e => .ok e
    | none => .error (.unboundSymbol s)
  | .const c => .ok (.const c)
  | .bin op l r => do
    let l' ← l.substitute dims syms
    let r' ← r.substitute dims syms
    return combine op l' r'

end Expr

end AffineRaising.Affine
