import CssTokens.Binary64.Layout
import CssTokens.Description
import CssTokens.Token.Basic

/-!
# What tokens look like

Descriptions of kinds and of numeric values.
-/

namespace CssTokens

/-- The name of a kind, with the character of a delimiter. -/
def TokenKind.description (kind : TokenKind) : String :=
  match kind with
  | .delim c => kind.name ++ "(" ++ describeText '\'' [c] ++ ")"
  | _ => kind.name

/-- Numbers are shown in positional notation from 0.0001 on and below 10000000000000000. -/
def FloatFormat.description : FloatFormat where
  minPoint := -4
  maxPoint := 16
  digits := .exact .up
  infinity := some "inf"

def NumericValue.description : NumericValue → String
  | integer n => "Integer(" ++ toString n.toInt ++ ")"
  | float x => "Float(" ++ String.ofList (FloatFormat.description.text x) ++ ")"

end CssTokens
