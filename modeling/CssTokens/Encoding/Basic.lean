/-!
# Character encodings

The encodings that byte input may be in, their names and the labels that select them. A label is
compared without the blanks around it and without regard to ASCII case; an unknown label selects
nothing, and the reader of bytes then falls back on UTF-8.
-/

namespace CssTokens

/-- A character encoding. -/
inductive Encoding where
  | utf8
  | utf16le
  | utf16be
  | windows1252
  | iso8859_15
  | windows1251
  | koi8r
  /-- Bytes from 80 on are the private characters U+F780 to U+F7FF. -/
  | userDefined
  /-- Stands for encodings that are not safe to decode: any input is one malformed sequence. -/
  | replacement
  deriving DecidableEq, Repr, Inhabited

namespace Encoding

/-- The name of the encoding in its standard spelling. -/
def name : Encoding → String
  | utf8 => "UTF-8"
  | utf16le => "UTF-16LE"
  | utf16be => "UTF-16BE"
  | windows1252 => "windows-1252"
  | iso8859_15 => "ISO-8859-15"
  | windows1251 => "windows-1251"
  | koi8r => "KOI8-R"
  | userDefined => "x-user-defined"
  | replacement => "replacement"

/-- All encodings. -/
def all : List Encoding :=
  [utf8, utf16le, utf16be, windows1252, iso8859_15, windows1251, koi8r, userDefined, replacement]

/-- The labels of an encoding, in lower case. -/
def labels : Encoding → List String
  | utf8 => ["unicode-1-1-utf-8", "unicode11utf8", "unicode20utf8", "utf-8", "utf8",
      "x-unicode20utf8"]
  | utf16le => ["csunicode", "iso-10646-ucs-2", "ucs-2", "unicode", "unicodefeff", "utf-16",
      "utf-16le"]
  | utf16be => ["unicodefffe", "utf-16be"]
  | windows1252 => ["ansi_x3.4-1968", "ascii", "cp1252", "cp819", "csisolatin1", "ibm819",
      "iso-8859-1", "iso-ir-100", "iso8859-1", "iso88591", "iso_8859-1", "iso_8859-1:1987", "l1",
      "latin1", "us-ascii", "windows-1252", "x-cp1252"]
  | iso8859_15 => ["csisolatin9", "iso-8859-15", "iso8859-15", "iso885915", "iso_8859-15", "l9"]
  | windows1251 => ["cp1251", "windows-1251", "x-cp1251"]
  | koi8r => ["cskoi8r", "koi", "koi8", "koi8-r", "koi8_r"]
  | userDefined => ["x-user-defined"]
  | replacement => ["csiso2022kr", "hz-gb-2312", "iso-2022-cn", "iso-2022-cn-ext", "iso-2022-kr",
      "replacement"]

/-- The blanks that may surround a label. -/
def isLabelBlank (c : Char) : Bool :=
  c == '\t' || c == '\n' || c == '\x0C' || c == '\r' || c == ' '

/-- A label without the blanks around it, in lower case. -/
def canonicalLabel (label : String) : String :=
  let rest := label.toList.dropWhile isLabelBlank
  String.ofList ((rest.reverse.dropWhile isLabelBlank).reverse.map Char.toLower)

/-- The encoding that a label selects. -/
def ofLabel? (label : String) : Option Encoding :=
  all.find? fun e => e.labels.contains (canonicalLabel label)

end Encoding

end CssTokens
