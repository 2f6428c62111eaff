/-!
# Failures of the input

What a source of characters or bytes may report in place of data. A failure is not the end of the
input: reading may go on after it.
-/

namespace CssTokens

/-- What went wrong when a source was read. -/
inductive FailureKind where
  | other
  | unexpectedEof
  /-- The read was interrupted and may be tried again. -/
  | interrupted
  | wouldBlock
  | notFound
  | brokenPipe
  | invalidData
  | timedOut
  deriving DecidableEq, Repr

/-- A failed read: what went wrong, and its description. -/
structure Failure where
  kind : FailureKind
  message : String
  deriving DecidableEq, Repr

/-- Scanning stops where its source fails. -/
structure ScanError where
  cause : Failure
  deriving DecidableEq, Repr

/-- The text of a scan error. -/
def ScanError.message (e : ScanError) : String :=
  "failed to read input: " ++ e.cause.message

end CssTokens
