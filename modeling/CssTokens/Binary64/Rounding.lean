import CssTokens.Binary64.Basic

/-!
# Rounding to floating point

The number nearest to a rational one; of two that are equally near, the one with the even
significand. Reading decimal text, converting integers, multiplying and dividing are all exact
computations followed by one such rounding.
-/

namespace CssTokens.Binary64

/-- The quotient rounded to the nearest integer, halves to the even one. -/
def divHalfEven (num den : Nat) : Nat :=
  let q := num / den
  let r := num % den
  if 2 * r < den || (2 * r == den && q % 2 == 0) then q else q + 1

/-- The exponent of the highest power of two that is at most `num / den`, both being positive. -/
def floorLog2 (num den : Nat) : Int :=
  let k : Int := (num.log2 : Int) - den.log2
  if den <<< k.toNat ≤ num <<< (-k).toNat then k else k - 1

/--
The number nearest to `num / den`, for a positive `den`.

The quotient is measured in units of the gap between the numbers around it, which is the smallest
gap of all below the normal numbers. Where the rounded quotient reaches the next power of two, the
magnitude carries over by itself.
-/
def ofRatio (negative : Bool) (num den : Nat) : Binary64 :=
  if num = 0 then zero negative
  else
    let e : Int := max (-1074) (floorLog2 num den - 52)
    let q := divHalfEven (num <<< (-e).toNat) (den <<< e.toNat)
    ofMagnitude negative ((e + 1074).toNat * hiddenBit + q)

/-- The number nearest to an integer. -/
def ofInt (n : Int) : Binary64 :=
  ofRatio (n < 0) n.natAbs 1

/--
The number nearest to `digits * 10 ^ exponent`. Exponents so large or small that the result is
certainly infinite or zero are decided without computing the power.
-/
def ofDecimal (negative : Bool) (digits : Nat) (exponent : Int) : Binary64 :=
  if digits = 0 then zero negative
  else if 400 < exponent then infinity negative
  else if exponent + digits.log2 < -400 then zero negative
  else ofRatio negative (digits * Nat.pow 10 exponent.toNat) (Nat.pow 10 (-exponent).toNat)

/-- The product of two finite numbers, rounded. -/
def mul (x y : Binary64) : Binary64 :=
  let e := x.exponent + y.exponent
  ofRatio (x.negative != y.negative) ((x.significand * y.significand) <<< e.toNat)
    (1 <<< (-e).toNat)

/-- The quotient of two finite numbers, the second of which is not zero, rounded. -/
def div (x y : Binary64) : Binary64 :=
  let e := x.exponent - y.exponent
  ofRatio (x.negative != y.negative) (x.significand <<< e.toNat)
    (y.significand <<< (-e).toNat)

end CssTokens.Binary64
