/-
# AffineRaising.Affine.Eval — the value of an expression at a point.

Evaluation is over 64-bit words.  It has no value where an identifier is missing, a divisor is zero
or a sum or product leaves the word range; it faults where the least word is divided by minus one.
Sides are evaluated from left to right, and the first side without a value decides.
-/
import AffineRaising.Affine.Substitution

namespace AffineRaising.Affine

/-- Applies a division to two words, after the checks every division makes. -/
def divideWords (divide : Int64 → Int64 → Int64) (a b : Int64) :
    Except DomainError (Option Int64) :=
  if b = 0 then .ok none
  else if quotientOverflows a b then .error .quotientOverflow
  else .ok (some (divide a b))

/-- Applies an operator to two words. -/
def BinOp.apply : BinOp → Int64 → Int64 → Except DomainError (Option Int64)
  | .add, a, b => .ok (wordOf? (a.toInt + b.toInt))
  | .mul, a, b => .ok (wordOf? (a.toInt * b.toInt))
  | .floorDiv, a, b => divideWords floorQuotient a b
  | .ceilDiv, a, b => divideWords ceilQuotient a b
  | .mod, a, b => divideWords euclideanRemainder a b

/-- The value of an expression where dimension `i` is `dims[i]` and symbol `j` is `syms[j]`. -/
def Expr.eval (dims syms : List Int64) : Expr → Except DomainError (Option Int64)
  | .dim d => .ok dims[d]?
  | .symbol s => .ok syms[s]?
  | .const c => .ok (some c)
  | .bin op l r => do
    match ← l.eval dims syms with
    | none => return none
    | some a =>
      match ← r.eval dims syms with
      | none => return none
      | some b => op.apply a b

end AffineRaising.Affine
