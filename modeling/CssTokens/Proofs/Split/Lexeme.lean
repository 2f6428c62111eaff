import CssTokens.Lexer.Lexeme
import CssTokens.Proofs.Split.Enclosed
import CssTokens.Proofs.Split.Numeral

/-!
# Lexemes in plain text

The first lexeme of a text, and the rest. Main statements: the rest is the end of the text
(`lexeme_suffix`), and a text that is cut off after its first lexeme begins with the same lexeme
(`lexeme_cut`).
-/

namespace CssTokens

namespace Split

open Lexeme (atEnd delim pairKind? isPairStart isUrlName)

/-! ## Productions that start at a mark -/

/-- A lexeme of two characters after its first one. -/
def pairOrDelim (c : Char) : Split Lexeme := do
  match ← nextIf fun d => (pairKind? c d).isSome with
  | some d => return { kind := (pairKind? c d).getD (.delim c), text := [c, d] }
  | none => return delim c

/-- A lexeme whose text is what `production` reads, or else the delimiter `c`. -/
def namedOrDelim (c : Char) (kind : TokenKind) (production : Split (Option (List Char))) :
    Split Lexeme := do
  match ← production with
  | some text => return { kind, text }
  | none => return delim c

/-- A lexeme that is enclosed between marks, after the opening one. -/
def enclosed (kind cutOff : TokenKind) (production : Split Enclosed) : Split Lexeme := do
  let contents ← production
  return { kind := if contents.closed then kind else cutOff, text := contents.text }

/-- What is read after the mark `c`, if it is one that begins a lexeme. -/
def marked (c : Char) : Option (Split Lexeme) :=
  if isBlank c then some do return { kind := .whiteSpace, text := c :: (← takeWhile isBlank) }
  else if isPairStart c then some (pairOrDelim c)
  else if c = '@' then some (namedOrDelim c .atKeyword ident)
  else if c = '#' then some (namedOrDelim c .hash name)
  else if isQuote c then some (enclosed .quotedString .badString (quoted c))
  else if c = '/' then some do
    if ← nextIs '*' then enclosed .comment .badComment comment else return delim c
  else if c = '<' then some do
    if ← nextText ['!', '-', '-'] then return { kind := .cdo, text := ['<', '!', '-', '-'] }
    else return delim c
  else none

/-! ## Productions without a mark -/

/-- The text `-->`. -/
def cdc : Split (Option Lexeme) := do
  let mark := ['-', '-', '>']
  return if ← nextText mark then some { kind := .cdc, text := mark } else none

/-- A numeral, then a percent sign or a unit or nothing. -/
def numberLike : Split (Option Lexeme) := do
  match ← numeral with
  | none => return none
  | some n =>
    if ← nextIs '%' then
      return some { kind := .percentage, text := n.text, numeric := some n.value }
    match ← ident with
    | some unit =>
      return some { kind := .dimension, text := n.text ++ unit, numeric := some n.value, unit }
    | none => return some { kind := .number, text := n.text, numeric := some n.value }

/-- An identifier, a function or, with `allowUrl`, a URL. -/
def identLike (allowUrl : Bool) : Split (Option Lexeme) := do
  match ← ident with
  | none => return none
  | some text =>
    if ← nextIs '(' then
      if allowUrl && isUrlName text then
        return some (← enclosed .url .badUrl url)
      else return some { kind := .function, text }
    else return some { kind := .ident, text }

/-- The productions that a lexeme starting with `c` may come from. -/
def productions (c : Char) : List (Split (Option Lexeme)) :=
  if c = '-' then [cdc, numberLike, identLike false]
  else if c.isDigit || c = '.' || c = '+' then [numberLike]
  else [identLike (c = 'u' || c = 'U')]

/-- What the first production that does not fail reads, or else a single character. -/
def firstOf : List (Split (Option Lexeme)) → Split Lexeme
  | [] => do
    match ← nextIf fun _ => true with
    | some c => return delim c
    | none => return atEnd
  | production :: others => do
    match ← production with
    | some l => return l
    | none => firstOf others

/-- The first lexeme of a text. -/
def lexeme : Split Lexeme
  | c :: cs =>
    match marked c with
    | some production => production cs
    | none => firstOf (productions c) (c :: cs)
  | [] => (atEnd, [])

theorem lexeme_marked {c : Char} {production : Split Lexeme} (h : marked c = some production)
    (cs : List Char) : lexeme (c :: cs) = production cs := by
  rw [lexeme, h]

theorem lexeme_unmarked {c : Char} (h : marked c = none) (cs : List Char) :
    lexeme (c :: cs) = firstOf (productions c) (c :: cs) := by
  rw [lexeme, h]

section
variable {p : Split (Option Lexeme)} {ps : List (Split (Option Lexeme))} {cs rest : List Char}

theorem firstOf_some {l : Lexeme} (h : p cs = (some l, rest)) :
    firstOf (p :: ps) cs = (l, rest) := by
  rw [firstOf, bind_apply, h]
  rfl

theorem firstOf_none (h : p cs = (none, cs)) : firstOf (p :: ps) cs = firstOf ps cs := by
  rw [firstOf, bind_apply, h]

end

/-! ## Locality -/

theorem pairOrDelim_local (c : Char) : Local (pairOrDelim c) := by
  refine (nextIf_local _).bind fun d => ?_
  cases d <;> exact .pure _

theorem namedOrDelim_local (c : Char) (kind : TokenKind) {production : Split (Option (List Char))}
    (h : Local production) : Local (namedOrDelim c kind production) := by
  refine h.bind fun text => ?_
  cases text <;> exact .pure _

theorem enclosed_local (kind cutOff : TokenKind) {production : Split Enclosed}
    (h : Local production) : Local (enclosed kind cutOff production) :=
  h.bind fun _ => .pure _

theorem marked_local {c : Char} {production : Split Lexeme} (h : marked c = some production) :
    Local production := by
  unfold marked at h
  repeat' split at h
  all_goals cases h
  · exact (takeWhile_local _).bind fun _ => .pure _
  · exact pairOrDelim_local c
  · exact namedOrDelim_local _ _ ident_local
  · exact namedOrDelim_local _ _ name_local
  · exact enclosed_local _ _ (quoted_local c)
  · refine (nextIs_local '*').bind fun found => ?_
    cases found with
    | true => exact enclosed_local _ _ comment_local
    | false => exact .pure _
  · refine (nextText_local _).bind fun found => ?_
    cases found <;> exact .pure _

theorem cdc_local : Local cdc :=
  (nextText_local _).bind fun _ => .pure _

theorem numberLike_local : Local numberLike := by
  refine numeral_local.bind fun n => ?_
  cases n with
  | none => exact .pure _
  | some n =>
    refine (nextIs_local '%').bind fun found => ?_
    cases found with
    | true => exact .pure _
    | false =>
      refine ident_local.bind fun unit => ?_
      cases unit <;> exact .pure _

theorem identLike_local (allowUrl : Bool) : Local (identLike allowUrl) := by
  refine ident_local.bind fun text => ?_
  cases text with
  | none => exact .pure _
  | some text =>
    refine (nextIs_local '(').bind fun found => ?_
    cases found with
    | false => exact .pure _
    | true =>
      simp only [if_true]
      split
      · exact (enclosed_local _ _ url_local).bind fun _ => .pure _
      · exact .pure _

theorem productions_local (c : Char) : ∀ production ∈ productions c, Local production := by
  unfold productions
  split
  · simp [cdc_local, numberLike_local, identLike_local]
  · split
    · simp [numberLike_local]
    · simp [identLike_local]

theorem firstOf_local {productions : List (Split (Option Lexeme))}
    (h : ∀ p ∈ productions, Local p) : Local (firstOf productions) := by
  induction productions with
  | nil =>
    refine (nextIf_local _).bind fun c => ?_
    cases c <;> exact .pure _
  | cons p ps ih =>
    refine (h p List.mem_cons_self).bind fun l => ?_
    cases l with
    | some l => exact .pure l
    | none => exact ih fun q hq => h q (List.mem_cons_of_mem _ hq)

theorem firstOf_productions_local (c : Char) : Local (firstOf (productions c)) :=
  firstOf_local (productions_local c)

/-- **What a lexeme leaves is the end of the text.** -/
theorem lexeme_suffix (cs : List Char) : (lexeme cs).2 <:+ cs := by
  cases cs with
  | nil => exact List.suffix_refl []
  | cons c cs =>
    cases hm : marked c with
    | some production =>
      rw [lexeme_marked hm]
      exact ((marked_local hm).suffix cs).trans (List.suffix_cons c cs)
    | none =>
      rw [lexeme_unmarked hm]
      exact (firstOf_productions_local c).suffix (c :: cs)

/-- **A text that is cut off after its first lexeme, or later, begins with the same lexeme.** -/
theorem lexeme_cut {cs rest more : List Char} {l : Lexeme} (hne : cs ≠ [])
    (h : lexeme (cs ++ more) = (l, rest ++ more)) : lexeme cs = (l, rest) := by
  obtain ⟨c, cs, rfl⟩ := List.exists_cons_of_ne_nil hne
  rw [List.cons_append] at h
  cases hm : marked c with
  | some production =>
    rw [lexeme_marked hm] at h ⊢
    exact (marked_local hm).cut more h
  | none =>
    rw [lexeme_unmarked hm] at h ⊢
    exact (firstOf_productions_local c).cut more h

/-! ## Productions that fail -/

theorem cdc_keeps : Keeps cdc := by
  intro cs h
  rw [cdc, bind_apply] at h ⊢
  cases ht : (nextText ['-', '-', '>'] cs).1 with
  | true =>
    rw [ht] at h
    cases h
  | false =>
    rw [nextText_keeps ht]
    rfl

theorem numberLike_keeps : Keeps numberLike := by
  intro cs h
  rw [numberLike, bind_apply] at h ⊢
  cases hn : (numeral cs).1 with
  | none =>
    rw [numeral_keeps hn]
    rfl
  | some n =>
    rw [hn] at h
    dsimp only at h
    rw [bind_apply] at h
    cases hp : (nextIs '%' (numeral cs).2).1 with
    | true =>
      rw [hp] at h
      cases h
    | false =>
      rw [hp, if_neg (by decide), bind_apply] at h
      cases hu : (ident (nextIs '%' (numeral cs).2).2).1 <;> rw [hu] at h <;> cases h

theorem identLike_keeps (allowUrl : Bool) : Keeps (identLike allowUrl) := by
  intro cs h
  rw [identLike, bind_apply] at h ⊢
  cases hn : (ident cs).1 with
  | none =>
    rw [ident_keeps hn]
    rfl
  | some text =>
    rw [hn] at h
    dsimp only at h
    rw [bind_apply] at h
    cases hp : (nextIs '(' (ident cs).2).1 with
    | true =>
      rw [hp, if_pos rfl] at h
      split at h <;> cases h
    | false =>
      rw [hp] at h
      cases h

theorem productions_keeps (c : Char) : ∀ production ∈ productions c, Keeps production := by
  unfold productions
  split
  · simp [cdc_keeps, numberLike_keeps, identLike_keeps]
  · split
    · simp [numberLike_keeps]
    · simp [identLike_keeps]

/-! ## Productions that do not fail -/

theorem numberLike_isSome (cs : List Char) :
    (numberLike cs).1.isSome = (numeral cs).1.isSome := by
  rw [numberLike, bind_apply]
  cases (numeral cs).1 with
  | none => rfl
  | some n =>
    dsimp only
    rw [bind_apply]
    cases (nextIs '%' (numeral cs).2).1 with
    | true => rfl
    | false =>
      rw [if_neg Bool.false_ne_true, bind_apply]
      cases (ident (nextIs '%' (numeral cs).2).2).1 <;> rfl

theorem identLike_isSome (allowUrl : Bool) (cs : List Char) :
    (identLike allowUrl cs).1.isSome = (ident cs).1.isSome := by
  rw [identLike, bind_apply]
  cases (ident cs).1 with
  | none => rfl
  | some text =>
    dsimp only
    rw [bind_apply]
    cases (nextIs '(' (ident cs).2).1 with
    | true =>
      rw [if_pos rfl]
      split <;> rfl
    | false => rfl

end Split

end CssTokens
