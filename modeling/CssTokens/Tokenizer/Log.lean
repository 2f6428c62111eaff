import CssTokens.Encoding.Basic
import CssTokens.Token.Description

/-!
# The log of a tokenizer

A tokenizer takes note of each token that it returns, of each malformed one that it recovered from,
and of malformed bytes in its input.
-/

namespace CssTokens

/-- How important an entry is. -/
inductive LogLevel where
  | debug
  | trace
  deriving DecidableEq, Repr

/-- What a tokenizer takes note of. -/
inductive LogEntry where
  /-- Malformed bytes were replaced while the input was in this encoding. -/
  | malformedBytes (encoding : Encoding)
  /-- A malformed token was read. -/
  | recovered (token : Token)
  /-- A token was read and returned. -/
  | returned (token : Token)
  deriving DecidableEq

namespace LogLevel

def name : LogLevel → String
  | debug => "DEBUG"
  | trace => "TRACE"

end LogLevel

namespace LogEntry

def level : LogEntry → LogLevel
  | malformedBytes _ | recovered _ => .debug
  | returned _ => .trace

def message : LogEntry → String
  | malformedBytes _ => "malformed byte sequence replaced with U+FFFD"
  | recovered _ => "recovered from malformed input"
  | returned _ => "token"

/-- What a token is and where. -/
def place (token : Token) : List (String × String) :=
  [("kind", token.kind.description), ("line", toString token.line),
    ("position", toString token.position)]

/-- The particulars of an entry. -/
def fields : LogEntry → List (String × String)
  | malformedBytes encoding => [("encoding", encoding.name)]
  | recovered token => place token ++ [("value", token.value)]
  | returned token => place token

end LogEntry

end CssTokens
