/-
# AffineRaising.Decimal.Binary64 — binary floating point against exact decimals.

A finite 64-bit float is `±m·2^q` with `m < 2^53`.  This module takes bit patterns apart and finds
the pattern nearest to a decimal `m·10^e`; ties go to the even significand.  All arithmetic is on
natural numbers, so nothing is rounded twice.
-/

namespace AffineRaising.Decimal

/-- Bit patterns of 64-bit floats. -/
abbrev Bits := UInt64

/-- What a bit pattern denotes. -/
inductive Number where
  | notANumber
  | infinite (negative : Bool)
  /-- `±significand · 2^exponent`. -/
  | finite (negative : Bool) (significand : Nat) (exponent : Int)
deriving DecidableEq, Repr

/-- The least binary exponent, that of the subnormal numbers. -/
def leastExponent : Int := -1074

/-- `2^52`, the least significand of a normal number. -/
def hiddenBit : Nat := Nat.pow 2 52

/-- Takes a bit pattern apart. -/
def Number.ofBits (bits : Bits) : Number :=
  let n := bits.toNat
  let negative := decide (Nat.pow 2 63 ≤ n)
  let biased := n / hiddenBit % 2048
  let fraction := n % hiddenBit
  if biased = 2047 then
    if fraction = 0 then .infinite negative else .notANumber
  else if biased = 0 then .finite negative fraction leastExponent
  else .finite negative (hiddenBit + fraction) (leastExponent + (biased : Int) - 1)

/-- The natural number nearest to `num / den`; a half goes to the even neighbour. -/
def roundQuotient (num den : Nat) : Nat :=
  let q := num / den
  let r := num % den
  if 2 * r < den then q
  else if den < 2 * r then q + 1
  else if q % 2 = 0 then q else q + 1

/-- Bits of the positive infinity; every larger finite pattern is cut to it. -/
def infinityBits : Nat := 2047 * hiddenBit

/-- Pattern of the float nearest to the positive fraction `num / den`. -/
def nearestBits (num den : Nat) : Nat :=
  let guess : Int := (Nat.log2 num : Int) - (Nat.log2 den : Int) - 52
  -- `2^52 · den · 2^guess ≤ num` decides whether the guess leaves 53 bits or only 52
  let enough : Bool :=
    if 0 ≤ guess then decide (hiddenBit * den * Nat.pow 2 guess.toNat ≤ num)
    else decide (hiddenBit * den ≤ num * Nat.pow 2 (-guess).toNat)
  let q := max (if enough then guess else guess - 1) leastExponent
  let significand :=
    if 0 ≤ q then roundQuotient num (den * Nat.pow 2 q.toNat)
    else roundQuotient (num * Nat.pow 2 (-q).toNat) den
  if significand < hiddenBit then significand
  else min infinityBits ((q - leastExponent + 1).toNat * hiddenBit + (significand - hiddenBit))

/-- Number of decimal digits of a positive number. -/
def digitCount (n : Nat) : Nat :=
  (Nat.toDigits 10 n).length

/-- Pattern of the float nearest to `±m·10^e`.  Decimals far outside the range of floats are cut off
before any power of ten is computed. -/
def bitsOfDecimal (negative : Bool) (m : Nat) (e : Int) : Bits :=
  let magnitude : Nat :=
    if m = 0 then 0
    else
      let top := (digitCount m : Int) + e
      if 310 < top then infinityBits
      else if top < -330 then 0
      else if 0 ≤ e then nearestBits (m * Nat.pow 10 e.toNat) 1
      else nearestBits m (Nat.pow 10 (-e).toNat)
  UInt64.ofNat (if negative then Nat.pow 2 63 + magnitude else magnitude)

end AffineRaising.Decimal
