import CssTokens.Binary64.Rounding
import CssTokens.Token.Kind

/-!
# Tokens

A token is its kind, its text without the marks that the kind implies, and for numeric tokens the
value and the unit. It knows how much had been read of the input when it began.
-/

namespace CssTokens

/-- The value of a number, percentage or dimension. -/
inductive NumericValue where
  /-- An integer was written without fraction and exponent, and it fits. -/
  | integer (n : Int64)
  /-- Any other number. -/
  | float (x : Binary64)
  deriving DecidableEq

namespace NumericValue

/-- The value as a floating-point number, rounded if it is a large integer. -/
def asFloat : NumericValue → Binary64
  | integer n => Binary64.ofInt n.toInt
  | float x => x

/-- The value if it is an integer. -/
def asInteger : NumericValue → Option Int64
  | integer n => some n
  | float _ => none

end NumericValue

/-- A token and where it stands. -/
structure Token where
  kind : TokenKind
  value : String := ""
  /-- Present for numbers, percentages and dimensions. -/
  numeric : Option NumericValue := none
  /-- Present for dimensions. -/
  unit : Option String := none
  /-- The number of line breaks read before the token was begun. -/
  line : Nat := 0
  /-- The number of characters read before the token was begun, lookahead included. -/
  position : Nat := 0
  deriving DecidableEq

end CssTokens
