/-
# AffineRaising.Raise.Sign — values that cannot be negative.

Constants that are not negative, induction variables with such a lower bound, unsigned extensions,
and sums, products, quotients and remainders of such values.
-/
import AffineRaising.Raise.Classify

namespace AffineRaising.Raise

open AffineRaising.IR AffineRaising.Ops

/-- Whether the lower bound of an induction variable is a constant that is not negative. -/
def hasNonNegativeLower (s : Store) (block : BlockRef) (i : Nat) : Except Fault Bool := do
  match ← s.blockOwner? block with
  | none => return false
  | some owner =>
    let lower : Option Int64 ←
      if ← isNamed s owner forName then
        if i = 0 then pure ((← boundMap? s owner .lower).bind (·.singleConstant?)) else pure none
      else if ← isNamed s owner parallelName then
        pure ((← boundMap? s owner .lower).bind fun m => (m.results[i]?).bind (·.constant?))
      else pure none
    return lower.any fun c => decide (0 ≤ c)

/-- The kinds that yield values that are not negative from such operands. -/
def keepsNonNegative : ArithKind → Bool
  | .indexCast | .add | .mul | .divS | .remS => true
  | _ => false

/-- Whether a value is provably not negative, through at most `fuel` definitions. -/
def isNonNegativeFuel (s : Store) : Nat → ValueRef → Except Fault Bool
  | 0, _ => throw .cyclic
  | fuel + 1, v => do
    match ← constantOf? s v with
    | some c => return decide (0 ≤ c)
    | none =>
      match (← s.value v).origin with
      | .argument block i => hasNonNegativeLower s block i
      | .result o _ =>
        match ← arithKind? s o with
        | none => return false
        | some .extU => return true
        | some kind =>
          if keepsNonNegative kind then allInOrder (isNonNegativeFuel s fuel) (← s.operandsOf o)
          else return false

/-- Whether a value is provably not negative. -/
def isNonNegative (s : Store) (v : ValueRef) : Except Fault Bool :=
  isNonNegativeFuel s s.depthBound v

end AffineRaising.Raise
