import CssTokens.Binary64.Layout
import CssTokens.Binary64.Rounding
import CssTokens.Lexer.Numeral

/-!
# Numbers in JSON text

A numeral is read as what is asked for: an unsigned or signed integer of 64 bits, or a
floating-point number. An integer is written without fraction and exponent; `-0` is none.

A floating-point number is read in a simple way that may be off by a few units in the last place.
Its digits make an integer of 64 bits as long as they fit, and that is multiplied or divided by a
power of ten, with a rounding for each step.
-/

namespace CssTokens.Numeral

/-- The numeral as an unsigned integer of 64 bits. -/
def unsigned? (n : Numeral) : Option Nat :=
  if n.isInteger && !n.isNegative && ofDigits n.whole < UInt64.size then
    some (ofDigits n.whole)
  else none

/-- The numeral as a signed integer of 64 bits. -/
def signed? (n : Numeral) : Option Int64 :=
  if n.isInteger && n.fits && !(n.isNegative && n.integer == 0) then
    some (Int64.ofInt n.integer)
  else none

/-- Append digits to a number as long as it fits into 64 bits. Also the number of digits left. -/
def takeDigits (n : Nat) : List Char → Nat × Nat
  | [] => (n, 0)
  | c :: cs =>
    let m := Nat.ofDigitChars 10 [c] n
    if m < UInt64.size then takeDigits m cs else (n, cs.length + 1)

/-- The product with a power of ten, by multiplying or dividing by powers up to `10 ^ 308`. There is
none if it is too large. -/
def timesPower? (x : Binary64) (e : Int) : Option Binary64 :=
  if e.natAbs ≤ 308 then
    let power := Binary64.ofDecimal false 1 e.natAbs
    if 0 ≤ e then
      let y := x.mul power
      if y.isInfinite then none else some y
    else some (x.div power)
  else if x.isZero then some x
  else if 0 ≤ e then none
  else timesPower? (x.div (Binary64.ofDecimal false 1 308)) (e + 308)
termination_by e.natAbs

/-- The numeral as a floating-point number, unless it is too large. -/
def stepwiseFloat? (n : Numeral) : Option Binary64 :=
  let (digits, left) := takeDigits 0 n.whole
  let (digits, dropped) := takeDigits digits n.fraction
  let places := n.fraction.length - dropped
  let exponent := (n.exponent.map Exponent.value).getD 0 + left - places
  (timesPower? (Binary64.ofInt digits) exponent).map fun x => { x with negative := n.isNegative }

end CssTokens.Numeral

namespace CssTokens

/-- How JSON text shows floating-point numbers: positional notation from 0.00001 on and below
10000000000000000, and otherwise an exponent that always has a sign. -/
def FloatFormat.json : FloatFormat where
  minPoint := -5
  maxPoint := 16
  digits := .exact .even
  exponentPlus := true

/-- The JSON text of a floating-point number. There is none for infinity. -/
def Binary64.jsonText (x : Binary64) : String :=
  if x.isInfinite then "null" else String.ofList (FloatFormat.json.text x)

end CssTokens
