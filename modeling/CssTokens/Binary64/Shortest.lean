import CssTokens.Binary64.Decimal
import CssTokens.Binary64.Rounding

/-!
# Shortest decimals

The shortest decimal that stands for a floating-point number. A number is what every real number
between the midpoints to its two neighbours is rounded to; the midpoints themselves belong to it if
its significand is even. There are two rules for the digits.

* The exact rule takes the shortest decimal that is rounded to the number, and of several the
  nearest.
* The narrowed rule works with 64 bits. It scales the number and its midpoints by a power of ten,
  with rounding, and moves the scaled midpoints towards each other by one unit, so that the rounding
  does no harm. It then generates digits from the upper bound. If the digits end at most eight
  places behind the point of the scaled number, the nearest decimal of that length is taken,
  otherwise the one that was generated, which is the largest.
-/

namespace CssTokens

/-- How the digits of a floating-point number are chosen. -/
inductive DigitRule where
  | exact (tie : Tie)
  | narrowed
  deriving DecidableEq, Repr

namespace Binary64

/-! ## The exact rule -/

/-- The midpoints around a positive number, over `10 ^ e`. Their unit is a quarter of the gap. -/
def exactBounds (x : Binary64) (e : Int) : Bounds :=
  let two := x.exponent - 2
  { low := 4 * x.significand - (if x.isBinadeStart then 1 else 2)
    value := 4 * x.significand
    high := 4 * x.significand + 2
    lowIncluded := x.significand % 2 == 0
    highIncluded := x.significand % 2 == 0
    num := Nat.pow 10 (-e).toNat <<< two.toNat
    den := Nat.pow 10 e.toNat <<< (-two).toNat }

/-! ## The narrowed rule -/

/-- The exponent of the highest power of two that is at most the number. -/
def log2 (x : Binary64) : Int :=
  x.significand.log2 + x.exponent

/--
The exponent of the power of ten that a positive number is divided by. It is one of every eighth
power, and leaves one to ten digits before the point. The logarithm of two is 0.30103.
-/
def scale (x : Binary64) : Int :=
  let t := (x.log2 - 2) * 30103 / 100000
  8 * -((3 - t) / 8) - 4

/-- The exponent of two that goes with the 64-bit significand of a power of ten. -/
def powerExponent (k : Int) : Int :=
  floorLog2 (Nat.pow 10 k.toNat) (Nat.pow 10 (-k).toNat) - 63

/-- The significand of a power of ten, rounded to 64 bits. -/
def powerSignificand (k : Int) : Nat :=
  let e := powerExponent k
  divHalfEven (Nat.pow 10 k.toNat <<< (-e).toNat) (Nat.pow 10 (-k).toNat <<< e.toNat)

/-- The upper 64 bits of a product, rounded. -/
def mulHigh (a b : Nat) : Nat :=
  (a * b + UInt64.size / 2) / UInt64.size

/-- The bounds of a positive number in 64 bits, over `10 ^ e`. -/
def narrowedBounds (x : Binary64) (e : Int) : Bounds :=
  let shift := 63 - x.significand.log2
  let power := powerSignificand (-x.scale)
  let value := x.significand <<< shift
  let two := x.exponent - shift + powerExponent (-x.scale) + 64
  let ten := e - x.scale
  { low := mulHigh (value - 1 <<< (if x.isBinadeStart then shift - 2 else shift - 1)) power + 1
    value := mulHigh value power
    high := mulHigh (value + 1 <<< (shift - 1)) power - 1
    lowIncluded := 0 ≤ ten
    highIncluded := true
    num := Nat.pow 10 (-ten).toNat <<< two.toNat
    den := Nat.pow 10 ten.toNat <<< (-two).toNat }

/-! ## The search -/

/--
The place of the decimal point of a positive number, counted from the front of its digits. No
positive number is smaller than `10 ^ -324`.
-/
def decimalPoint (x : Binary64) : Int :=
  let scaled := (x.significand * Nat.pow 10 324) <<< x.exponent.toNat >>> (-x.exponent).toNat
  (decimalLength scaled : Int) - 324

/-- The digits before `10 ^ e` that stand for a positive number, if there are any. -/
def digitsAt? (x : Binary64) (rule : DigitRule) (e : Int) : Option Nat :=
  match rule with
  | .exact tie => (x.exactBounds e).nearest? tie
  | .narrowed =>
    if x.scale - 8 ≤ e then (x.narrowedBounds e).nearest? .up else (x.narrowedBounds e).largest?

/-- The decimal with `n` digits that stands for a positive number, if there is one. With no digit at
all there may still be the power of ten above the number. -/
def decimalOfLength? (x : Binary64) (rule : DigitRule) (n : Nat) : Option Decimal :=
  let exponent := x.decimalPoint - n
  (x.digitsAt? rule exponent).map fun digits => { digits, exponent }

/--
The shortest decimal that stands for a positive number, without trailing zeros. Seventeen digits
suffice for the exact rule, and hardly ever more are needed for the narrowed one.
-/
def shortest (x : Binary64) (rule : DigitRule) : Decimal :=
  (((List.range 21).findSome? (x.decimalOfLength? rule)).getD default).trim

end Binary64

end CssTokens
