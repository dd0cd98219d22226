/-
# AffineRaising.Decimal.Shortest — the fewest decimal digits that read back.

Every finite float owns an interval of reals that round to it.  For one digit, two digits and so
on, the two neighbours of the value on that decimal grid are tested against the interval; the
first grid with a hit gives the digits, the nearer of two hits wins, and an exact tie goes up.
Seventeen digits always suffice.
-/
import AffineRaising.Decimal.Binary64

namespace AffineRaising.Decimal

/-- A positive fraction. -/
structure Fraction where
  num : Nat
  den : Nat

/-- `significand · 2^exponent` as a fraction. -/
def Fraction.ofBinary (significand : Nat) (exponent : Int) : Fraction :=
  if 0 ≤ exponent then ⟨significand * Nat.pow 2 exponent.toNat, 1⟩
  else ⟨significand, Nat.pow 2 (-exponent).toNat⟩

/-- `digits · 10^exponent` as a fraction. -/
def Fraction.ofDecimal (digits : Nat) (exponent : Int) : Fraction :=
  if 0 ≤ exponent then ⟨digits * Nat.pow 10 exponent.toNat, 1⟩
  else ⟨digits, Nat.pow 10 (-exponent).toNat⟩

/-- Order of fractions. -/
def Fraction.compare (a b : Fraction) : Ordering :=
  Ord.compare (a.num * b.den) (b.num * a.den)

/-- The reals that round to a float: the ends belong to it exactly when its significand is even. -/
structure Interval where
  low : Fraction
  high : Fraction
  closed : Bool

/-- The rounding interval of `significand · 2^exponent`.  Below a power of two the neighbour is only
half as far away. -/
def Interval.around (significand : Nat) (exponent : Int) : Interval :=
  let below : Nat :=
    if significand = hiddenBit ∧ leastExponent < exponent then 1 else 2
  { low := .ofBinary (4 * significand - below) (exponent - 2)
    high := .ofBinary (4 * significand + 2) (exponent - 2)
    closed := significand % 2 == 0 }

/-- Membership in a rounding interval. -/
def Interval.holds (i : Interval) (x : Fraction) : Bool :=
  match i.low.compare x, x.compare i.high with
  | .lt, .lt => true
  | .eq, .lt => i.closed
  | .lt, .eq => i.closed
  | _, _ => false

/-- The exponent `k` with `10^(k-1) ≤ x < 10^k`, found from an estimate by at most `fuel` steps. -/
def magnitudeFrom (x : Fraction) : Nat → Int → Int
  | 0, k => k
  | fuel + 1, k =>
    if x.compare (.ofDecimal 1 (k - 1)) == .lt then magnitudeFrom x fuel (k - 1)
    else if x.compare (.ofDecimal 1 k) != .lt then magnitudeFrom x fuel (k + 1)
    else k

/-- The exponent `k` with `10^(k-1) ≤ x < 10^k`. -/
def magnitude (x : Fraction) : Int :=
  magnitudeFrom x 4 ((digitCount x.num : Int) - (digitCount x.den : Int))

/-- Greatest `d` with `d · 10^e ≤ x`. -/
def floorOnGrid (x : Fraction) (e : Int) : Nat :=
  if 0 ≤ e then x.num / (x.den * Nat.pow 10 e.toNat) else x.num * Nat.pow 10 (-e).toNat / x.den

/-- Whether the upper neighbour `(d + 1) · 10^e` is at least as near to `x` as `d · 10^e`. -/
def upperIsNearer (x : Fraction) (d : Nat) (e : Int) : Bool :=
  -- the midpoint of the two neighbours is at most `x`
  (Fraction.ofDecimal ((2 * d + 1) * 5) (e - 1)).compare x != .gt

/-- Tries grids of more and more digits. -/
def searchGrids (x : Fraction) (i : Interval) (k : Int) : Nat → Nat → Nat × Int
  | 0, n => (floorOnGrid x (k - n), k - n)
  | fuel + 1, n =>
    let e := k - n
    let d := floorOnGrid x e
    match i.holds (.ofDecimal d e), i.holds (.ofDecimal (d + 1) e) with
    | true, true => if upperIsNearer x d e then (d + 1, e) else (d, e)
    | true, false => (d, e)
    | false, true => (d + 1, e)
    | false, false => searchGrids x i k fuel (n + 1)

/-- The digits and the decimal exponent of the shortest decimal that reads back as
`significand · 2^exponent`. -/
def shortest (significand : Nat) (exponent : Int) : Nat × Int :=
  let x := Fraction.ofBinary significand exponent
  searchGrids x (.around significand exponent) (magnitude x) 17 1

/-- Positional notation of `digits · 10^exponent`, with a point only where digits follow it. -/
def positional (digits : Nat) (exponent : Int) : String :=
  let text := Nat.toDigits 10 digits
  if 0 ≤ exponent then String.ofList (text ++ List.replicate exponent.toNat '0')
  else
    let places := (-exponent).toNat
    let padded := List.replicate (places + 1 - text.length) '0' ++ text
    let whole := padded.take (padded.length - places)
    let fraction := padded.drop (padded.length - places)
    -- a grid point can end in zeros when it was rounded up
    let kept := (fraction.reverse.dropWhile (· == '0')).reverse
    String.ofList (if kept.isEmpty then whole else whole ++ '.' :: kept)

/-- The text of a float: the shortest digits in positional notation, `.0` after a whole number. -/
def render (bits : Bits) : String :=
  match Number.ofBits bits with
  | .notANumber => "NaN"
  | .infinite negative => if negative then "-inf" else "inf"
  | .finite negative significand exponent =>
    let text :=
      if significand = 0 then "0"
      else
        let (digits, e) := shortest significand exponent
        positional digits e
    (if negative then "-" else "") ++ text ++ (if text.contains '.' then "" else ".0")

end AffineRaising.Decimal
