import CssTokens.Json.Value
import CssTokens.Tokenizer.Basic

/-!
# Options as JSON

Options are a record all of whose values may be missing, and then have their defaults.
-/

namespace CssTokens.Options

/-- Read options from JSON text. -/
def ofJson? (text : String) : Option Options := do
  match ← JsonValue.fields? ["skip_comments"] (← JsonValue.ofText? text) with
  | [some v] => return { skipComments := ← v.bool? }
  | _ => return {}

/-- Write options as JSON text. -/
def toJson (options : Options) : String :=
  JsonValue.objectText [("skip_comments", if options.skipComments then "true" else "false")]

end CssTokens.Options
