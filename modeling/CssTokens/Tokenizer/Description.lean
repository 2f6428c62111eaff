import CssTokens.Tokenizer.Basic

/-!
# What a tokenizer looks like

The description of a tokenizer shows its current token, but not its input.
-/

namespace CssTokens

def Tokenizer.description (t : Tokenizer) : String :=
  describeRecord "Tokenizer"
    [("current_token", t.token.kind.description),
      ("string_value", describeText '"' t.token.value.toList),
      ("numeric_value", describeOption (t.token.numeric.map NumericValue.description)),
      ("line_number", toString t.token.line),
      ("position", toString t.token.position),
      ("pushed_back", describeBool t.pushedBack)]

end CssTokens
