import CssTokens.Encoding.Basic
import CssTokens.Input.Failure

/-!
# Sources of characters

A source is the list of what its successive reads deliver: characters and failures. After the last
event every read finds the end of the input.
-/

namespace CssTokens

/-- What one read of a source delivers. -/
inductive Event where
  /--
  A character. With `malformed`, bytes that are malformed in that encoding were replaced with
  U+FFFD in the piece of input that this character is the first of.
  -/
  | char (c : Char) (malformed : Option Encoding := none)
  | fail (f : Failure)
  deriving DecidableEq, Repr

/-- What the reads of a source deliver in turn. -/
abbrev Source := List Event

/-- A text delivers its characters and never fails. -/
def Source.ofString (text : String) : Source :=
  text.toList.map fun c => .char c

end CssTokens
