import CssTokens.CharClass
import CssTokens.Serialize.Output

/-!
# Writing names and strings

What is written is read back as the same text. Characters that would end a name or a string, or
would be read as something else, are escaped: control characters by their code point, so that no
line break stands in the output, and other characters by a backslash before them.
-/

namespace CssTokens

open WriteM

/-- An escape by code point. The blank at the end belongs to it. -/
def writeHexEscape (c : Char) : WriteM Unit :=
  chars ('\\' :: hexDigits c.toNat ++ [' '])

/-- Whether a character is escaped by its code point inside a name. -/
def isNameControl (c : Char) : Bool :=
  c.toNat ≤ 0x1F || (0x7F ≤ c.toNat && c.toNat ≤ 0x9F)

/-- A character of a name in escaped form. -/
def writeEscaped (c : Char) : WriteM Unit :=
  if isNameControl c then writeHexEscape c else chars ['\\', c]

/-- A character inside a name. -/
def writeNameChar (c : Char) : WriteM Unit :=
  if isNameChar c then char c else writeEscaped c

/-- The characters of a name. -/
def writeName : List Char → WriteM Unit
  | [] => return ()
  | c :: cs => do
    writeNameChar c
    writeName cs

/-- The first character of an identifier after its hyphen. A digit cannot stand there, and escaped
by a backslash alone it would be read as a code point. -/
def writeNameStart (c : Char) : WriteM Unit :=
  if isNameStart c then char c
  else if c.isDigit then writeHexEscape c
  else writeEscaped c

/-- An identifier. A hyphen alone is none, so it is escaped. -/
def writeIdentifier (cs : List Char) : WriteM Unit := do
  if cs = ['-'] then chars ['\\', '-']
  else
    let body := if cs.head? = some '-' then cs.tail else cs
    if cs.head? = some '-' then char '-'
    match body with
    | [] => return ()
    | c :: rest =>
      writeNameStart c
      writeName rest

/--
A unit. If it is `e` alone or `e` before a digit or a hyphen, it could be read as the exponent of
the number before it, so the letter is escaped.
-/
def writeUnit (cs : List Char) : WriteM Unit :=
  match cs with
  | [] => writeIdentifier cs
  | c :: rest =>
    let likeExponent := (c == 'e' || c == 'E') &&
      match rest.head? with
      | none => true
      | some d => d == '-' || d.isDigit
    if likeExponent then do
      writeHexEscape c
      writeName rest
    else writeIdentifier cs

/-! ## Strings -/

/-- A character inside a string. -/
def writeStringChar (c : Char) : WriteM Unit :=
  if c == '"' || c == '\\' then chars ['\\', c]
  else if c.toNat ≤ 0x1F || c.toNat == 0x7F then writeHexEscape c
  else char c

/-- A piece of a string without quotes. A string may be written in any number of pieces. -/
def writeStringPiece : List Char → WriteM Unit
  | [] => return ()
  | c :: cs => do
    writeStringChar c
    writeStringPiece cs

/-- A string in quotes. -/
def writeString (cs : List Char) : WriteM Unit := do
  char '"'
  writeStringPiece cs
  char '"'

/-- Whether a text can be written as an identifier as it is. -/
def isPlainIdentifier (cs : List Char) : Bool :=
  match if cs.head? = some '-' then cs.tail else cs with
  | [] => false
  | c :: rest => isNameStart c && rest.all isNameChar

/-- A text as an identifier if it can be one as it is, otherwise as a string. -/
def writeStringOrIdent (cs : List Char) : WriteM Unit :=
  if isPlainIdentifier cs then chars cs else writeString cs

end CssTokens
