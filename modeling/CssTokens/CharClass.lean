/-!
# Character classes

The classes of characters that the grammar of CSS tokens names. They are predicates on single
characters of normalized text (see `CssTokens.Input.Scanner`): the only line break is U+000A.

Digits and letters are ASCII only, so `Char.isDigit` and `Char.isAlpha` are the right classes.
-/

namespace CssTokens

/-- A blank is a space, a tab or a line break. -/
def isBlank (c : Char) : Bool :=
  c == ' ' || c == '\t' || c == '\n'

/-- The quotes that enclose strings. -/
def isQuote (c : Char) : Bool :=
  c == '"' || c == '\''

/-- Everything above U+009F belongs to names. The controls U+0080 to U+009F do not. -/
def isNonAscii (c : Char) : Bool :=
  0x9F < c.toNat

/-- The characters that may start a name. -/
def isNameStart (c : Char) : Bool :=
  c.isAlpha || c == '_' || isNonAscii c

/-- The characters that may follow in a name. -/
def isNameChar (c : Char) : Bool :=
  isNameStart c || c.isDigit || c == '-'

/--
The characters that stand for themselves in an unquoted URL: no blank, quote, parenthesis,
backslash or control character.
-/
def isUrlChar (c : Char) : Bool :=
  c == '!' || (0x23 ≤ c.toNat && c.toNat ≤ 0x26) || (0x2A ≤ c.toNat && c.toNat ≤ 0x5B)
    || (0x5D ≤ c.toNat && c.toNat ≤ 0x7E) || isNonAscii c

/-! ## Hexadecimal digits -/

/-- The value of a hexadecimal digit, of either case. -/
def hexValue? (c : Char) : Option Nat :=
  if c.isDigit then some (c.toNat - 0x30)
  else if 0x61 ≤ c.toNat && c.toNat ≤ 0x66 then some (c.toNat - 0x57)
  else if 0x41 ≤ c.toNat && c.toNat ≤ 0x46 then some (c.toNat - 0x37)
  else none

def isHexDigit (c : Char) : Bool :=
  (hexValue? c).isSome

/-- The number written by hexadecimal digits, the highest first. -/
def ofHexDigits (cs : List Char) : Nat :=
  cs.foldl (fun n c => 16 * n + (hexValue? c).getD 0) 0

/-- The lower-case hexadecimal digits of a number, without leading zeros. -/
def hexDigits (n : Nat) : List Char :=
  Nat.toDigits 16 n

/-- U+FFFD, which stands for what cannot be represented. -/
def replacementChar : Char := '\uFFFD'

/-- The character of a code point. Surrogates and values above U+10FFFF have none. -/
def charOfCodePoint (n : Nat) : Char :=
  if n.isValidChar then Char.ofNat n else replacementChar

theorem charOfCodePoint_toNat (c : Char) : charOfCodePoint c.toNat = c := by
  have h : c.toNat.isValidChar := c.valid
  simp [charOfCodePoint, h, Char.ofNat_toNat]

end CssTokens
