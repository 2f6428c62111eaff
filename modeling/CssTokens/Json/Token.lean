import CssTokens.Json.Number
import CssTokens.Json.Value
import CssTokens.Token.Basic

/-!
# Tokens as JSON

A token is a record. Its number and its unit may be missing, which in an array they cannot be, since
the values after them are needed. A kind is its name, or for a delimiter an object with the
character.
-/

namespace CssTokens

/-- A variant with a value is an object with the name of the variant as its only member. -/
def JsonValue.variant? : JsonValue → Option (String × JsonValue)
  | object [(name, v)] => (JsonChar.text? name).map fun name => (String.ofList name, v)
  | _ => none

/-- Read a kind. The name of a plain kind may also be that of a member whose value is null. -/
def TokenKind.ofJson? : JsonValue → Option TokenKind
  | .string cs => do TokenKind.ofName? (String.ofList (← JsonChar.text? cs))
  | v => do
    match ← v.variant? with
    | (name, .null) => TokenKind.ofName? name
    | (name, v) =>
      if name = "Delim" then
        match ← v.text? with
        | [c] => return .delim c
        | _ => none
      else none

def TokenKind.toJson (kind : TokenKind) : String :=
  match kind with
  | .delim c => JsonValue.objectText [(kind.name, JsonValue.stringText (String.singleton c))]
  | _ => JsonValue.stringText kind.name

/-- Read a numeric value. -/
def NumericValue.ofJson? (v : JsonValue) : Option NumericValue := do
  match ← v.variant? with
  | (name, .number n) =>
    if name = "Integer" then n.signed?.map .integer
    else if name = "Float" then n.stepwiseFloat?.map .float
    else none
  | _ => none

def NumericValue.toJson : NumericValue → String
  | integer n => JsonValue.objectText [("Integer", toString n.toInt)]
  | float x => JsonValue.objectText [("Float", x.jsonText)]

/-- Read an unsigned integer. -/
def JsonValue.unsigned? : JsonValue → Option Nat
  | number n => n.unsigned?
  | _ => none

namespace Token

/-- The names of the values of a token. -/
def jsonNames : List String :=
  ["kind", "value", "numeric_value", "unit", "line_number", "position"]

/-- Read a token. -/
def ofJson? (text : String) : Option Token := do
  match ← (← JsonValue.ofText? text).fields? jsonNames with
  | [some kind, some value, numeric, unit, some line, some position] =>
    return {
      kind := ← TokenKind.ofJson? kind
      value := String.ofList (← value.text?)
      numeric := ← (numeric.getD .null).optional? NumericValue.ofJson?
      unit := (← (unit.getD .null).optional? JsonValue.text?).map String.ofList
      line := ← line.unsigned?
      position := ← position.unsigned? }
  | _ => none

/-- Write a token. -/
def toJson (t : Token) : String :=
  JsonValue.objectText
    [("kind", t.kind.toJson),
      ("value", JsonValue.stringText t.value),
      ("numeric_value", (t.numeric.map NumericValue.toJson).getD "null"),
      ("unit", (t.unit.map JsonValue.stringText).getD "null"),
      ("line_number", toString t.line),
      ("position", toString t.position)]

end Token

end CssTokens
