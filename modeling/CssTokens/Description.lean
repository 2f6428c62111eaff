import CssTokens.CharClass

/-!
# Descriptions for diagnosis

Texts that show a value to whoever looks for an error. Text is quoted, so that control characters
and the ends of the text can be seen.
-/

namespace CssTokens

/-- The text of a record: its name and its fields, each with its own text. -/
def describeRecord (name : String) (fields : List (String × String)) : String :=
  name ++ " \x7b " ++ ", ".intercalate (fields.map fun f => f.1 ++ ": " ++ f.2) ++ " \x7d"

def isControl (c : Char) : Bool :=
  c.toNat < 0x20 || (0x7F ≤ c.toNat && c.toNat ≤ 0x9F)

/-- A character inside quotes. -/
def describeChar (quote c : Char) : List Char :=
  if c == quote || c == '\\' then ['\\', c]
  else if c == '\n' then ['\\', 'n']
  else if c == '\t' then ['\\', 't']
  else if c == '\r' then ['\\', 'r']
  else if c == '\x00' then ['\\', '0']
  else if isControl c then ['\\', 'u', '\x7b'] ++ hexDigits c.toNat ++ ['\x7d']
  else [c]

/-- A text in quotes. -/
def describeText (quote : Char) (text : List Char) : String :=
  String.ofList (quote :: text.flatMap (describeChar quote) ++ [quote])

/-- A value that may be missing. -/
def describeOption : Option String → String
  | some text => "Some(" ++ text ++ ")"
  | none => "None"

def describeBool (b : Bool) : String :=
  if b then "true" else "false"

end CssTokens
