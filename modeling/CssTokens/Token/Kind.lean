/-!
# Kinds of tokens

The pieces that CSS text is broken into.
-/

namespace CssTokens

/-- The kind of a token. -/
inductive TokenKind where
  /-- The end of the input. -/
  | eof
  /-- A run of blanks. -/
  | whiteSpace
  | ident
  /-- An identifier after the mark `@`. -/
  | atKeyword
  | quotedString
  /-- A string cut off by a line break or the end of the input. -/
  | badString
  /-- A name after the mark `#`. -/
  | hash
  | number
  /-- A number and the mark `%`. -/
  | percentage
  /-- A number and a unit. -/
  | dimension
  | url
  /-- A URL cut off by something that cannot be part of it. -/
  | badUrl
  /-- A range of code points. The tokenizer never produces it. -/
  | unicodeRange
  /-- The text `<!--`. -/
  | cdo
  /-- The text `-->`. -/
  | cdc
  | comment
  /-- A comment cut off by the end of the input. -/
  | badComment
  /-- An identifier and an opening parenthesis. -/
  | function
  /-- The text `~=`. -/
  | includeMatch
  /-- The text `|=`. -/
  | dashMatch
  /-- The text `^=`. -/
  | prefixMatch
  /-- The text `$=`. -/
  | suffixMatch
  /-- The text `*=`. -/
  | substringMatch
  /-- The text `||`. -/
  | column
  /-- Any other single character. -/
  | delim (c : Char)
  deriving DecidableEq, Repr, Inhabited

namespace TokenKind

/-- The kinds other than delimiters. -/
def plain : List TokenKind :=
  [eof, whiteSpace, ident, atKeyword, quotedString, badString, hash, number, percentage, dimension,
    url, badUrl, unicodeRange, cdo, cdc, comment, badComment, function, includeMatch, dashMatch,
    prefixMatch, suffixMatch, substringMatch, column]

/-- The name of a kind. All delimiters have the same. -/
def name : TokenKind → String
  | eof => "Eof"
  | whiteSpace => "WhiteSpace"
  | ident => "Ident"
  | atKeyword => "AtKeyword"
  | quotedString => "QuotedString"
  | badString => "BadString"
  | hash => "Hash"
  | number => "Number"
  | percentage => "Percentage"
  | dimension => "Dimension"
  | url => "Url"
  | badUrl => "BadUrl"
  | unicodeRange => "UnicodeRange"
  | cdo => "CDO"
  | cdc => "CDC"
  | comment => "Comment"
  | badComment => "BadComment"
  | function => "Function"
  | includeMatch => "IncludeMatch"
  | dashMatch => "DashMatch"
  | prefixMatch => "PrefixMatch"
  | suffixMatch => "SuffixMatch"
  | substringMatch => "SubstringMatch"
  | column => "Column"
  | delim _ => "Delim"

/-- The kind of a name, unless it is the name of the delimiters. -/
def ofName? (s : String) : Option TokenKind :=
  plain.find? (·.name == s)

/-- The character of a delimiter. -/
def delimChar? : TokenKind → Option Char
  | delim c => some c
  | _ => none

/-- A kind other than a delimiter is found by its name. -/
theorem ofName?_name {kind : TokenKind} (h : kind.delimChar? = none) :
    ofName? kind.name = some kind := by
  cases kind with
  | delim c => cases h
  | _ => rfl

/-- Whether the kind stands for malformed input. -/
def isParseError : TokenKind → Bool
  | badString | badUrl | badComment => true
  | _ => false

/-- Whether the kind is that of a comment, well formed or not. -/
def isComment : TokenKind → Bool
  | comment | badComment => true
  | _ => false

/-- Whether the kind separates tokens without meaning anything: blanks and the marks of comments
of the language that style sheets are embedded in. -/
def isSpacing : TokenKind → Bool
  | whiteSpace | cdo | cdc => true
  | _ => false

end TokenKind

end CssTokens
