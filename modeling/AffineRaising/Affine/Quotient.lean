/-
# AffineRaising.Affine.Quotient — quotients and checked sums of 64-bit words.

Affine expressions divide with floor, ceiling and Euclidean remainder.  The machine divides toward
zero, so both quotients correct its answer by one where there is a remainder and the signs say that
zero was the wrong side.  The only quotient that does not fit is the least word divided by minus
one; callers that must notice it test `quotientOverflows` first.
-/

namespace AffineRaising.Affine

/-- An integer that a 64-bit two's-complement word can hold. -/
def fitsWord (n : Int) : Bool :=
  decide (Int64.minValue.toInt ≤ n) && decide (n ≤ Int64.maxValue.toInt)

/-- The word that holds an integer, if one does. -/
def wordOf? (n : Int) : Option Int64 :=
  if fitsWord n then some (Int64.ofInt n) else none

/-- The greatest word at most the exact quotient. -/
def floorQuotient (a b : Int64) : Int64 :=
  if a % b ≠ 0 ∧ decide (a < 0) ≠ decide (b < 0) then a / b - 1 else a / b

/-- The least word at least the exact quotient. -/
def ceilQuotient (a b : Int64) : Int64 :=
  if a % b ≠ 0 ∧ decide (a < 0) = decide (b < 0) then a / b + 1 else a / b

/-- The remainder of Euclidean division, never negative. -/
def euclideanRemainder (a b : Int64) : Int64 :=
  Int64.ofInt (a.toInt % b.toInt)

/-- The one division of words whose quotient is not a word. -/
def quotientOverflows (a b : Int64) : Bool :=
  a == Int64.minValue && b == -1

end AffineRaising.Affine
