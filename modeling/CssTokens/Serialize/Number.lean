import CssTokens.Binary64.Layout
import CssTokens.Serialize.Output
import CssTokens.Token.Basic

/-!
# Writing numbers

Integers are written in decimal. Floating-point numbers are written with at most fifteen significant
digits, and those that are integers keep a fraction.
-/

namespace CssTokens

/-- How style sheets write floating-point numbers: positional notation from 0.000001 on and up to
twenty-one digits before the point. -/
def FloatFormat.css : FloatFormat where
  minPoint := -6
  maxPoint := 21
  digits := .narrowed
  precision := some 15

/-- The decimal text of an integer. -/
def integerText (n : Int) : List Char :=
  (if n < 0 then ['-'] else []) ++ Nat.toDigits 10 n.natAbs

namespace NumericValue

/-- The text of the value. -/
def cssText : NumericValue → List Char
  | integer n => integerText n.toInt
  | float x => FloatFormat.css.text x

/-- Whether the value is written without a minus sign. -/
def isUnsigned : NumericValue → Bool
  | integer n => 0 ≤ n.toInt
  | float x => !x.negative

/-- Write the value, with a plus sign before it if `plus` and if no minus sign stands there. -/
def write (plus : Bool) (v : NumericValue) : WriteM Unit := do
  if plus && v.isUnsigned then WriteM.char '+'
  WriteM.chars v.cssText

/-- Write the value. -/
def toCss (v : NumericValue) : WriteM Unit :=
  v.write false

end NumericValue

end CssTokens
