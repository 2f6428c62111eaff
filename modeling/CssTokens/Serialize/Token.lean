import CssTokens.Serialize.Name
import CssTokens.Serialize.Number

/-!
# Writing tokens

The text of a token, marks included. Malformed tokens are written in a form that is malformed in the
same way.
-/

namespace CssTokens

open WriteM

namespace TokenKind

/-- The text of the kinds that have only one. -/
def fixedText? : TokenKind → Option String
  | includeMatch => some "~="
  | dashMatch => some "|="
  | prefixMatch => some "^="
  | suffixMatch => some "$="
  | substringMatch => some "*="
  | column => some "||"
  | cdo => some "<!--"
  | cdc => some "-->"
  | _ => none

end TokenKind

namespace Token

/-- Write the number of a token, if it has one. It keeps a plus sign that it was written with. -/
def writeNumber (t : Token) : WriteM Unit :=
  match t.numeric with
  | some v => v.write (t.value.toList.head? = some '+')
  | none => return ()

/-- Write a token. -/
def toCss (t : Token) : WriteM Unit := do
  let value := t.value.toList
  match t.kind with
  | .eof => return ()
  | .whiteSpace => if value.isEmpty then char ' ' else chars value
  | .ident => writeIdentifier value
  | .atKeyword =>
    char '@'
    writeIdentifier value
  | .hash =>
    char '#'
    writeName value
  | .quotedString => writeString value
  | .badString =>
    char '"'
    writeStringPiece value
    char '\n'
  | .number => t.writeNumber
  | .percentage =>
    t.writeNumber
    char '%'
  | .dimension =>
    t.writeNumber
    match t.unit with
    | some unit => writeUnit unit.toList
    | none => return ()
  | .url =>
    text "url("
    writeString value
    char ')'
  | .badUrl =>
    text "url("
    chars value
    char ' '
  | .unicodeRange => chars value
  | .comment =>
    text "/*"
    chars value
    text "*/"
  | .badComment =>
    text "/*"
    chars value
  | .function =>
    writeIdentifier value
    char '('
  | .delim c => char c
  | kind => text (kind.fixedText?.getD "")

/-- The text of a token. -/
def css (t : Token) : String :=
  t.toCss.written

end Token

/-- The text of tokens, one after the other. -/
def cssOfTokens (tokens : List Token) : String :=
  String.join (tokens.map Token.css)

end CssTokens
