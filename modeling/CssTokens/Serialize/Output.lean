/-!
# Limited output

Text is written to an output that may have room for a limited number of characters only. It takes as
many as it has room for and then refuses the rest, which ends the writing.
-/

namespace CssTokens

/-- What has been written, and how many more characters there is room for, if that is limited. -/
structure Output where
  text : String := ""
  room : Option Nat := none
  deriving DecidableEq, Repr

/-- The output had no room for all that was to be written. -/
structure OutputFull where
  deriving DecidableEq, Repr

/-- A computation that writes. -/
abbrev WriteM := EStateM OutputFull Output

namespace WriteM

/-- Write one character. -/
def char (c : Char) : WriteM Unit := fun out =>
  match out.room with
  | none => .ok () { out with text := out.text.push c }
  | some 0 => .error {} out
  | some (n + 1) => .ok () { text := out.text.push c, room := some n }

/-- Write characters one after the other. -/
def chars : List Char → WriteM Unit
  | [] => return ()
  | c :: cs => do
    char c
    chars cs

/-- Write a text. -/
def text (s : String) : WriteM Unit :=
  chars s.toList

/-- What is written when there is room for everything. -/
def written (m : WriteM Unit) : String :=
  match m {} with
  | .ok () out => out.text
  | .error _ out => out.text

/-- What is written when there is room for `n` characters, and whether that was enough. -/
def writtenWithin (n : Nat) (m : WriteM Unit) : String × Bool :=
  match m { room := some n } with
  | .ok () out => (out.text, true)
  | .error _ out => (out.text, false)

end WriteM

end CssTokens
