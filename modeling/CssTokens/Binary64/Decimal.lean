/-!
# Decimals in an interval

The shortest decimal in an interval around a number is found by trying the grids of decimals with
one digit, two digits and so on. If a grid has a point in the interval, then one of its two points
around the number lies there, and so does its largest point that is not beyond the upper bound.
-/

namespace CssTokens

/-- The number of decimal digits of a number; zero has one. -/
def decimalLength (n : Nat) : Nat :=
  (Nat.toDigits 10 n).length

/-- The decimal number `digits * 10 ^ exponent`. -/
structure Decimal where
  digits : Nat
  exponent : Int
  deriving DecidableEq, Repr, Inhabited

namespace Decimal

/-- The number of digits. -/
def length (d : Decimal) : Nat :=
  decimalLength d.digits

/-- Where the decimal point stands, counted from the front of the digits. -/
def point (d : Decimal) : Int :=
  d.exponent + d.length

/-- Drop trailing zeros from the digits. -/
def trim (d : Decimal) : Decimal :=
  if _h : d.digits ≠ 0 ∧ d.digits % 10 = 0 then
    trim { digits := d.digits / 10, exponent := d.exponent + 1 }
  else d
termination_by d.digits
decreasing_by omega

end Decimal

/-- Which of two integers is taken when a number lies halfway between them. -/
inductive Tie where
  | up
  | even
  deriving DecidableEq, Repr

/-- A positive number and an interval around it, all measured in units of `num / den`. -/
structure Bounds where
  low : Nat
  value : Nat
  high : Nat
  lowIncluded : Bool
  highIncluded : Bool
  num : Nat
  den : Nat

namespace Bounds

/-- Whether the integer `n` lies in the interval. -/
def contains (b : Bounds) (n : Nat) : Bool :=
  (if b.lowIncluded then b.low * b.num ≤ n * b.den else b.low * b.num < n * b.den) &&
    (if b.highIncluded then n * b.den ≤ b.high * b.num else n * b.den < b.high * b.num)

/-- The nearer one of the two integers around the number, as far as they lie in the interval. -/
def nearest? (b : Bounds) (tie : Tie) : Option Nat :=
  let below := b.value * b.num / b.den
  let above := below + 1
  match b.contains below, b.contains above with
  | true, true =>
    let toBelow := b.value * b.num - below * b.den
    let toAbove := above * b.den - b.value * b.num
    if toBelow < toAbove then some below
    else if toAbove < toBelow then some above
    else if tie == .even && below % 2 == 0 then some below
    else some above
  | true, false => some below
  | false, true => some above
  | false, false => none

/-- The largest integer in the interval. -/
def largest? (b : Bounds) : Option Nat :=
  let n := if b.highIncluded then b.high * b.num / b.den else (b.high * b.num - 1) / b.den
  if b.contains n then some n else none

end Bounds

end CssTokens
