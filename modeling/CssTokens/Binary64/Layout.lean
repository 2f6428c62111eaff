import CssTokens.Binary64.Shortest

/-!
# Decimal text of floating-point numbers

A number is written with its shortest decimal. Formats differ in where the positional notation ends
and the scientific one begins, in how many digits they keep at most, in whether an exponent may have
a plus sign, and in how they write infinity.
-/

namespace CssTokens

/-- How floating-point numbers are written. -/
structure FloatFormat where
  /-- The notation is positional if the decimal point stands after more than this many digits. -/
  minPoint : Int
  /-- And if it stands after at most this many digits. -/
  maxPoint : Int
  /-- How the digits are chosen. -/
  digits : DigitRule
  /-- The number of significant digits that are kept, if there is a limit. -/
  precision : Option Nat := none
  /-- Whether an exponent that is not negative has a plus sign. -/
  exponentPlus : Bool := false
  /-- The text of infinity. Without one it is written like the finite number that would follow. -/
  infinity : Option String := none

/-! ## Coefficients -/

/-- A coefficient with `places` digits after the point. Trailing zeros after the point go, and so
does a point that is left bare. -/
def fixedText (digits places : Nat) : List Char :=
  let whole := Nat.toDigits 10 (digits / Nat.pow 10 places)
  let fraction := Nat.toDigits 10 (digits % Nat.pow 10 places)
  let padded := List.replicate (places - fraction.length) '0' ++ fraction
  let kept := (padded.reverse.dropWhile (· == '0')).reverse
  if places = 0 || kept.isEmpty then whole else whole ++ '.' :: kept

/-- Whether a text shows its number to be no integer, by a point or an exponent. -/
def hasPointOrExponent (text : List Char) : Bool :=
  text.any fun c => c == '.' || c == 'e'

namespace Decimal

/-- Keep `n` digits and set the others to zero. A half is rounded up. -/
def roundTo (d : Decimal) (n : Nat) : Decimal :=
  if d.length ≤ n then d
  else
    let unit := Nat.pow 10 (d.length - n)
    { d with digits := (d.digits + unit / 2) / unit * unit }

end Decimal

namespace FloatFormat

/-- The sign before an exponent. -/
def exponentSign (f : FloatFormat) (power : Int) : List Char :=
  if power < 0 then ['-'] else if f.exponentPlus then ['+'] else []

/--
The text of a decimal. The notation is chosen by the point of the decimal as it is; only then are
its digits rounded, so a carry may leave two digits before the point of a scientific coefficient.
-/
def decimalText (f : FloatFormat) (d : Decimal) : List Char :=
  let kept := match f.precision with
    | some n => d.roundTo n
    | none => d
  if f.minPoint < d.point && d.point ≤ f.maxPoint then
    if 0 ≤ d.exponent then fixedText (kept.digits * Nat.pow 10 d.exponent.toNat) 0
    else fixedText kept.digits (-d.exponent).toNat
  else
    let power := d.point - 1
    fixedText kept.digits (d.length - 1) ++
      'e' :: f.exponentSign power ++ Nat.toDigits 10 power.natAbs

/-- The text of the absolute value. -/
def magnitudeText (f : FloatFormat) (x : Binary64) : List Char :=
  if x.isZero then ['0'] else f.decimalText (x.shortest f.digits)

/--
The text of a number. An integer that is written without point and exponent gets the fraction `.0`,
which shows that it is a floating-point number.
-/
def text (f : FloatFormat) (x : Binary64) : List Char :=
  let sign := if x.negative then ['-'] else []
  match x.isInfinite, f.infinity with
  | true, some name => sign ++ name.toList
  | _, _ =>
    let body := f.magnitudeText x
    sign ++ if x.isIntegral && !hasPointOrExponent body then body ++ ['.', '0'] else body

end FloatFormat

end CssTokens
