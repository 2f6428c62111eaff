import CssTokens.Lexer.Enclosed
import CssTokens.Lexer.Numeral

/-!
# Lexemes

A lexeme is a token without its place. The first character decides what it may be; where a
production fails, it has read nothing, and the next one is tried. What begins no production is a
delimiter.

Main statement: each lexeme but the end of the input costs at least one character
(`Lexeme.read_takes`).
-/

namespace CssTokens

open Scanner Lexer

/-- What a token consists of. -/
structure Lexeme where
  kind : TokenKind
  text : List Char
  numeric : Option NumericValue := none
  unit : Option (List Char) := none
  deriving DecidableEq

namespace Lexeme

/-- The end of the input. -/
def atEnd : Lexeme := { kind := .eof, text := [] }

/-- A single character. -/
def delim (c : Char) : Lexeme := { kind := .delim c, text := [c] }

/-! ## Productions that start at a mark -/

/-- The kind of the lexeme that consists of two given characters. -/
def pairKind? (c d : Char) : Option TokenKind :=
  if c = '|' then
    if d = '=' then some .dashMatch else if d = '|' then some .column else none
  else if d = '=' then
    if c = '~' then some .includeMatch
    else if c = '^' then some .prefixMatch
    else if c = '$' then some .suffixMatch
    else if c = '*' then some .substringMatch
    else none
  else none

/-- The characters that a lexeme of two characters may start with. -/
def isPairStart (c : Char) : Bool :=
  c == '~' || c == '^' || c == '$' || c == '*' || c == '|'

/-- A lexeme of two characters after its first one. -/
def pairOrDelim (c : Char) : ScanM Lexeme := do
  match ← nextIf fun d => (pairKind? c d).isSome with
  | some d => return { kind := (pairKind? c d).getD (.delim c), text := [c, d] }
  | none => return delim c

/-- A lexeme whose text is what `production` reads, or else the delimiter `c`. -/
def namedOrDelim (c : Char) (kind : TokenKind) (production : ScanM (Option (List Char))) :
    ScanM Lexeme := do
  match ← production with
  | some text => return { kind, text }
  | none => return delim c

/-- A lexeme that is enclosed between marks, after the opening one. -/
def enclosed (kind cutOff : TokenKind) (production : ScanM Enclosed) : ScanM Lexeme := do
  let contents ← production
  return { kind := if contents.closed then kind else cutOff, text := contents.text }

/-! ## Productions without a mark -/

/-- The end of a comment of the embedding language. -/
def cdc : ScanM (Option Lexeme) := do
  let mark := ['-', '-', '>']
  return if ← nextText mark then some { kind := .cdc, text := mark } else none

/-- A numeral, then a percent sign or a unit or nothing. -/
def numberLike : ScanM (Option Lexeme) := do
  match ← Numeral.read with
  | none => return none
  | some n =>
    if ← nextIs '%' then
      return some { kind := .percentage, text := n.text, numeric := some n.value }
    match ← ident with
    | some unit =>
      return some { kind := .dimension, text := n.text ++ unit, numeric := some n.value, unit }
    | none => return some { kind := .number, text := n.text, numeric := some n.value }

/-- Whether an identifier is `url`, in any case. -/
def isUrlName (text : List Char) : Bool :=
  text.map Char.toLower == ['u', 'r', 'l']

/-- An identifier, a function or, with `allowUrl`, a URL. -/
def identLike (allowUrl : Bool) : ScanM (Option Lexeme) := do
  match ← ident with
  | none => return none
  | some text =>
    if ← nextIs '(' then
      if allowUrl && isUrlName text then
        return some (← enclosed .url .badUrl url)
      else return some { kind := .function, text }
    else return some { kind := .ident, text }

/-- The productions that a lexeme starting with `c` may come from. -/
def productions (c : Char) : List (ScanM (Option Lexeme)) :=
  if c = '-' then [cdc, numberLike, identLike false]
  else if c.isDigit || c = '.' || c = '+' then [numberLike]
  else [identLike (c = 'u' || c = 'U')]

/-- What the first production that does not fail reads, or else a single character. -/
def firstOf : List (ScanM (Option Lexeme)) → ScanM Lexeme
  | [] => do
    match ← next with
    | some c => return delim c
    | none => return atEnd
  | production :: others => do
    match ← production with
    | some lexeme => return lexeme
    | none => firstOf others

/-! ## Reading a lexeme -/

/-- The lexeme that starts with `c`, which has been read. -/
def readFrom (c : Char) : ScanM Lexeme := do
  if isBlank c then return { kind := .whiteSpace, text := c :: (← Item.blank.many) }
  else if isPairStart c then pairOrDelim c
  else if c = '@' then namedOrDelim c .atKeyword ident
  else if c = '#' then namedOrDelim c .hash name
  else if isQuote c then enclosed .quotedString .badString (quoted c)
  else if c = '/' then
    if ← nextIs '*' then enclosed .comment .badComment comment else return delim c
  else if c = '<' then
    if ← nextText ['!', '-', '-'] then return { kind := .cdo, text := ['<', '!', '-', '-'] }
    else return delim c
  else
    pushBack (some c)
    firstOf (productions c)

/-- Read a lexeme. -/
def read : ScanM Lexeme := do
  match ← next with
  | some c => readFrom c
  | none => return atEnd

/-! ## What a lexeme costs -/

/-- Nothing for the end of the input. -/
def cost (l : Lexeme) : Nat :=
  if l.kind = .eof then 0 else 1

theorem cost_le (l : Lexeme) : l.cost ≤ 1 := by
  unfold cost
  split <;> omega

variable {hand : Nat}

theorem takes_one {m : ScanM Lexeme} (h : ScanM.Takes (hand + 1) m fun _ => hand + 1) :
    ScanM.Takes (hand + 1) m fun l => hand + l.cost :=
  h.mono fun l => by have := l.cost_le; omega

theorem pairOrDelim_takes (c : Char) :
    ScanM.Takes hand (pairOrDelim c) fun _ => hand := by
  refine (nextIf_takes hand _).bind fun d => ?_
  cases d with
  | some d => exact .pure (by omega)
  | none => exact .pure (by omega)

theorem namedOrDelim_takes (c : Char) (kind : TokenKind) {production : ScanM (Option (List Char))}
    (h : ScanM.Takes hand production fun _ => hand) :
    ScanM.Takes hand (namedOrDelim c kind production) fun _ => hand := by
  refine h.bind fun text => ?_
  cases text with
  | some text => exact .pure (by omega)
  | none => exact .pure (by omega)

theorem enclosed_takes (kind cutOff : TokenKind) {production : ScanM Enclosed}
    (h : ScanM.Takes hand production fun _ => hand) :
    ScanM.Takes hand (enclosed kind cutOff production) fun _ => hand :=
  h.bind fun _ => .pure (by omega)

theorem cdc_takes : ScanM.Takes hand cdc fun l => hand + countOf l := by
  refine (nextText_takes hand _).bind fun found => .pure ?_
  cases found <;> simp [countOf]

theorem numberLike_takes : ScanM.Takes hand numberLike fun l => hand + countOf l := by
  refine (Numeral.read_takes hand).bind fun n => ?_
  cases n with
  | none => exact .pure (by simp [countOf])
  | some n =>
    refine (nextIs_takes _ '%').bind fun found => ?_
    cases found with
    | true => exact .pure (by simp [countOf])
    | false =>
      refine (ident_takes _).bind fun unit => ?_
      cases unit with
      | some unit => exact .pure (by simp [countOf])
      | none => exact .pure (by simp [countOf])

theorem identLike_takes (allowUrl : Bool) :
    ScanM.Takes hand (identLike allowUrl) fun l => hand + countOf l := by
  refine (ident_takes hand).bind fun text => ?_
  cases text with
  | none => exact .pure (by simp [countOf])
  | some text =>
    refine (nextIs_takes _ '(').bind fun found => ?_
    cases found with
    | false => exact .pure (by simp [countOf])
    | true =>
      simp only [if_true]
      split
      · exact (enclosed_takes .url .badUrl (url_takes _)).bind fun _ => .pure (by simp [countOf])
      · exact .pure (by simp [countOf])

theorem productions_takes (c : Char) :
    ∀ production ∈ productions c, ScanM.Takes hand production fun l => hand + countOf l := by
  unfold productions
  split
  · simp [cdc_takes, numberLike_takes, identLike_takes]
  · split
    · simp [numberLike_takes]
    · simp [identLike_takes]

theorem firstOf_takes {productions : List (ScanM (Option Lexeme))}
    (h : ∀ p ∈ productions, ScanM.Takes hand p fun l => hand + countOf l) :
    ScanM.Takes hand (firstOf productions) fun l => hand + l.cost := by
  induction productions with
  | nil =>
    refine (next_takes hand).bind fun c => ?_
    cases c with
    | some c => exact .pure (by simp [countOf, delim, cost])
    | none => exact .pure (by simp [countOf, atEnd, cost])
  | cons p ps ih =>
    refine (h p (by simp)).bind fun l => ?_
    cases l with
    | some l => exact .pure (by have := l.cost_le; simp only [countOf]; omega)
    | none => exact ih fun q hq => h q (by simp [hq])

theorem readFrom_takes (c : Char) :
    ScanM.Takes (hand + 1) (readFrom c) fun l => hand + l.cost := by
  unfold readFrom
  split
  · exact takes_one ((Item.many_takes _ _).bind fun _ => .pure (by omega))
  split
  · exact takes_one (pairOrDelim_takes c)
  split
  · exact takes_one (namedOrDelim_takes c _ ((ident_takes _).mono fun _ => by omega))
  split
  · exact takes_one (namedOrDelim_takes c _ (name_takes _))
  split
  · exact takes_one (enclosed_takes _ _ (quoted_takes _ c))
  split
  · refine takes_one ((nextIs_takes _ '*').bind fun found => ?_)
    cases found with
    | true => exact (enclosed_takes _ _ (comment_takes _)).mono fun _ => by omega
    | false => exact .pure (by omega)
  split
  · refine takes_one ((nextText_takes _ _).bind fun found => ?_)
    cases found with
    | true => exact .pure (by omega)
    | false => exact .pure (by omega)
  · refine (pushBack_takes (by simp [countOf])).bind fun _ => ?_
    exact firstOf_takes fun p hp => productions_takes c p hp

/-- **Each lexeme but the end of the input costs at least one character.** -/
theorem read_takes : ScanM.Takes 0 read cost := by
  refine (next_takes 0).bind fun c => ?_
  cases c with
  | some c => exact (readFrom_takes c).mono fun _ => by omega
  | none => exact .pure (by simp [atEnd, cost])

end Lexeme

end CssTokens
