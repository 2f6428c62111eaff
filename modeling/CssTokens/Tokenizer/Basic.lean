import CssTokens.Input.ByteSource
import CssTokens.Lexer.Lexeme
import CssTokens.Tokenizer.Log

/-!
# The tokenizer

A tokenizer delivers the tokens of its input one after the other. One token can be pushed back, and
comments are left out unless they are asked for.

The token that was delivered last, the current one, is part of the state. A comment that is left
out becomes the current token for a moment, and a failure of the source leaves the kind of the
current token alone but not the rest of it: the failed token has a place and no value.
-/

namespace CssTokens

/-- What is fixed when a tokenizer is made. -/
structure Options where
  /-- Whether comments are left out. -/
  skipComments : Bool := true
  deriving DecidableEq, Repr

/-- A tokenizer and its current token. -/
structure Tokenizer where
  scanner : Scanner
  options : Options := {}
  /-- The current token; before the first one, an empty end of input. -/
  token : Token := { kind := .eof }
  /-- Whether a token was read. -/
  started : Bool := false
  /-- Whether the current token is to be delivered again. -/
  pushedBack : Bool := false
  /-- The log, the latest entry first. -/
  log : List LogEntry := []

/-- A push-back that is not possible. -/
inductive Misuse where
  | nothingRead
  | alreadyPushedBack
  deriving DecidableEq, Repr

def Misuse.message : Misuse → String
  | nothingRead => "push_back() called before any token was read"
  | alreadyPushedBack => "push_back() called twice without next_token() in between"

/-- Why spacing could not be skipped. -/
inductive SkipFailure where
  | scan (e : ScanError)
  | misuse (m : Misuse)
  deriving DecidableEq, Repr

/-- A computation that reads tokens. -/
abbrev TokenizeM := EStateM ScanError Tokenizer

namespace Tokenizer

/-- The tokenizer of the characters of a source. -/
def ofSource (source : Source) (options : Options := {}) : Tokenizer :=
  { scanner := { source }, options }

/-- The tokenizer of a text. -/
def ofString (text : String) (options : Options := {}) : Tokenizer :=
  ofSource (Source.ofString text) options

/-- The tokenizer of bytes. -/
def ofBytes (bytes : ByteSource) (options : Options := {}) : Tokenizer :=
  ofSource bytes.events options

/-! ## Reading a token -/

/--
The text of a token whose reading failed. Only white space is kept as it is read: if blanks are all
that came before the failure, they are the text.
-/
def unfinishedText (s : Scanner) : List Char :=
  let text := s.drain.1
  if text.all isBlank then text else []

/-- The token of a lexeme that was begun when the scanner was `s`. -/
def tokenOf (lexeme : Lexeme) (s : Scanner) : Token where
  kind := lexeme.kind
  value := String.ofList lexeme.text
  numeric := lexeme.numeric
  unit := lexeme.unit.map String.ofList
  line := s.line
  position := s.position

/-- Move the malformed pieces of input that the scanner met to the log. -/
def noteMalformed (t : Tokenizer) : Tokenizer :=
  { t with
    scanner := { t.scanner with malformed := [] }
    log := t.scanner.malformed.map .malformedBytes ++ t.log }

/-- Add an entry to the log. -/
def note (entry : LogEntry) (t : Tokenizer) : Tokenizer :=
  { t with log := entry :: t.log }

/-- Read the next token, comments included. It becomes the current one. -/
def read : TokenizeM TokenKind := fun t =>
  match Lexeme.read t.scanner with
  | .ok lexeme scanner =>
    let token := tokenOf lexeme t.scanner
    let t := { t with scanner, token, started := true }.noteMalformed
    .ok token.kind (if token.kind.isParseError then t.note (.recovered token) else t)
  | .error e scanner =>
    let value := String.ofList (unfinishedText t.scanner)
    let token : Token :=
      { kind := t.token.kind, value, line := t.scanner.line, position := t.scanner.position }
    .error e { t with scanner, token }.noteMalformed

theorem read_budget {t t' : Tokenizer} {kind : TokenKind} (h : read t = .ok kind t') :
    t'.scanner.budget + (if kind = .eof then 0 else 1) ≤ t.scanner.budget := by
  unfold read at h
  split at h
  · next lexeme scanner hl =>
    have hc : lexeme.cost = if lexeme.kind = .eof then 0 else 1 := rfl
    have := Lexeme.read_takes _ _ _ hl
    simp only [EStateM.Result.ok.injEq] at h
    obtain ⟨rfl, rfl⟩ := h
    have hb : ∀ t : Tokenizer, t.noteMalformed.scanner.budget = t.scanner.budget := fun _ => rfl
    have hn : ∀ (entry) (t : Tokenizer), (t.note entry).scanner = t.scanner := fun _ _ => rfl
    rw [apply_ite Tokenizer.scanner, hn, ite_self, hb, tokenOf, ← hc]
    exact this
  · cases h

/-- Read tokens up to one that is to be delivered. -/
def readDelivered : TokenizeM TokenKind := fun t =>
  match _h : read t with
  | .error e t' => .error e t'
  | .ok kind t' =>
    if _hk : t.options.skipComments && kind.isComment then readDelivered t'
    else .ok kind (t'.note (.returned t'.token))
termination_by t => t.scanner.budget
decreasing_by
  have hb := read_budget _h
  have hne : kind ≠ .eof := by rintro rfl; simp [TokenKind.isComment] at _hk
  rw [if_neg hne] at hb
  omega

/-! ## Delivering tokens -/

/-- The next token. After the end of the input, the end is delivered again and again. -/
def next : TokenizeM TokenKind := fun t =>
  if t.pushedBack then .ok t.token.kind { t with pushedBack := false } else readDelivered t

/-- Push the current token back, so that it is delivered again. -/
def pushBack (t : Tokenizer) : Except Misuse Tokenizer :=
  if !t.started then .error .nothingRead
  else if t.pushedBack then .error .alreadyPushedBack
  else .ok { t with pushedBack := true }

/-! ## Runs of tokens

A run ends because each token but the end of the input is either the one that was pushed back or
costs characters.
-/

/-- A bound on the number of tokens still to come before the end of the input, which counts twice
what has to be read and once what was pushed back. -/
def budget (t : Tokenizer) : Nat :=
  2 * t.scanner.budget + if t.pushedBack then 1 else 0

theorem readDelivered_budget {t t' : Tokenizer} {kind : TokenKind}
    (h : readDelivered t = .ok kind t') :
    t'.scanner.budget + (if kind = .eof then 0 else 1) ≤ t.scanner.budget := by
  fun_induction readDelivered t with
  | case1 => cases h
  | case2 t kind' t1 h1 _ ih =>
    have := ih h
    have := read_budget h1
    omega
  | case3 t kind' t1 h1 =>
    obtain ⟨rfl, rfl⟩ := EStateM.Result.ok.inj h
    have := read_budget h1
    exact this

theorem readDelivered_pushedBack {t t' : Tokenizer} {kind : TokenKind}
    (h : readDelivered t = .ok kind t') : t'.pushedBack = t.pushedBack := by
  have hread : ∀ {t t' : Tokenizer} {k}, read t = .ok k t' → t'.pushedBack = t.pushedBack := by
    intro t t' k h
    unfold read at h
    split at h
    · simp only [EStateM.Result.ok.injEq] at h
      obtain ⟨rfl, rfl⟩ := h
      split <;> rfl
    · cases h
  fun_induction readDelivered t with
  | case1 => cases h
  | case2 t kind' t1 h1 _ ih => rw [ih h, hread h1]
  | case3 t kind' t1 h1 =>
    obtain ⟨rfl, rfl⟩ := EStateM.Result.ok.inj h
    have := hread h1
    exact this

theorem next_budget {t t' : Tokenizer} {kind : TokenKind} (h : next t = .ok kind t')
    (hk : kind ≠ .eof) : t'.budget < t.budget := by
  unfold next at h
  split at h
  · next hp =>
    cases h
    simp [budget, hp]
  · next hp =>
    have h1 := readDelivered_budget h
    have h2 := readDelivered_pushedBack h
    simp only [hk, if_false] at h1
    simp only [budget, h2, hp]
    simp
    omega

/-- Deliver tokens up to the first that is not spacing, and push it back. -/
def skipWhitespace : EStateM SkipFailure Tokenizer Unit := fun t =>
  match _h : next t with
  | .error e t' => .error (.scan e) t'
  | .ok kind t' =>
    if _hk : kind.isSpacing then skipWhitespace t'
    else match t'.pushBack with
      | .ok t' => .ok () t'
      | .error m => .error (.misuse m) t'
termination_by t => t.budget
decreasing_by
  exact next_budget _h (by rintro rfl; simp [TokenKind.isSpacing] at _hk)

/-- All tokens up to the end of the input, which is one of them, or up to a failure. -/
def tokensToEnd (t : Tokenizer) (before : List Token := []) : List Token × Option ScanError :=
  match _h : next t with
  | .error e _ => (before.reverse, some e)
  | .ok kind t' =>
    if _hk : kind = .eof then ((t'.token :: before).reverse, none)
    else tokensToEnd t' (t'.token :: before)
termination_by t.budget
decreasing_by exact next_budget _h _hk

/-! ## Iterating over tokens -/

/-- An iterator over the tokens up to, but excluding, the end of the input. It also ends with the
first failure. -/
structure Tokens where
  tokenizer : Tokenizer
  done : Bool := false

/-- The next token of an iterator, unless it has ended. -/
def Tokens.next (i : Tokens) : Option (Except ScanError Token) × Tokens :=
  if i.done then (none, i)
  else match i.tokenizer.next with
    | .ok kind t =>
      if kind = .eof then (none, { tokenizer := t, done := true })
      else (some (.ok t.token), { i with tokenizer := t })
    | .error e t => (some (.error e), { tokenizer := t, done := true })

/-- The first `n` results of an iterator. -/
def Tokens.take (i : Tokens) : Nat → List (Option (Except ScanError Token)) × Tokens
  | 0 => ([], i)
  | n + 1 =>
    let (result, i) := i.next
    let (results, i) := i.take n
    (result :: results, i)

end Tokenizer

end CssTokens
