import CssTokens.Proofs.Split.Lexeme
import CssTokens.Serialize.Token

/-!
# The shape of a lexeme

What the parts of a lexeme have to do with one another depends on its kind. A number has a numeral
for its text and the value of the numeral, a name has some text, a mark has the text that its kind
implies, and so on. Each production keeps to one of these shapes, and a character that begins no
other lexeme is a delimiter.

Main statements: the first lexeme of a text has one of the shapes (`lexeme_shape`), so that only the
empty text has the end of the input for its first lexeme (`lexeme_kind`).
-/

namespace CssTokens

/-- Whether a character begins no lexeme but a mark, wherever it stands. -/
def isDelimiter (c : Char) : Bool :=
  !isBlank c && !isQuote c && !c.isDigit && !isNameStart c

namespace Lexeme

/-- The kinds of lexemes whose text is a name. -/
def isNamed : TokenKind → Bool
  | .ident | .atKeyword | .hash | .function => true
  | _ => false

/-- The kinds of lexemes whose text may be anything. -/
def isQuoted : TokenKind → Bool
  | .quotedString | .badString | .url | .badUrl => true
  | _ => false

/-- The lexemes of a text that begins with the character `first`. -/
inductive Shape (first : Char) : Lexeme → Prop
  | whiteSpace {text : List Char} : isBlank first = true → (∀ c ∈ text, isBlank c = true) →
    Shape first { kind := .whiteSpace, text := first :: text }
  | named {kind : TokenKind} {text : List Char} : isNamed kind = true → text ≠ [] →
    Shape first { kind, text }
  | quoted {kind : TokenKind} {text : List Char} : isQuoted kind = true → Shape first { kind, text }
  | comment {kind : TokenKind} {text : List Char} : kind.isComment = true →
    ¬['*', '/'] <:+: text → Shape first { kind, text }
  | fixed {kind : TokenKind} {text : List Char} :
    kind.fixedText? = some (String.ofList text) → Shape first { kind, text }
  | number {n : Numeral} : n.WellFormed →
    Shape first { kind := .number, text := n.text, numeric := some n.value }
  | percentage {n : Numeral} : n.WellFormed →
    Shape first { kind := .percentage, text := n.text, numeric := some n.value }
  | dimension {n : Numeral} {unit : List Char} : n.WellFormed → unit ≠ [] →
    Shape first { kind := .dimension, text := n.text ++ unit, numeric := some n.value, unit }
  | delim : isDelimiter first = true → Shape first (delim first)

/-- White space begins with a blank. -/
theorem Shape.blank_first {first : Char} {l : Lexeme} (h : Shape first l)
    (hk : l.kind = .whiteSpace) : isBlank first = true := by
  cases h with
  | whiteSpace hblank _ => exact hblank
  | number _ | percentage _ | dimension _ _ | delim _ => cases hk
  | named h _ | quoted h | comment h _ | fixed h =>
    cases hk
    cases h

/-- The end of the input is no lexeme of a text. -/
theorem Shape.kind_ne_eof {first : Char} {l : Lexeme} (h : Shape first l) : l.kind ≠ .eof := by
  intro hk
  cases h with
  | whiteSpace _ _ | number _ | percentage _ | dimension _ _ | delim _ => cases hk
  | named h _ | quoted h | comment h _ | fixed h =>
    cases hk
    cases h

end Lexeme

open Lexeme (Shape atEnd delim pairKind? isPairStart isUrlName isNamed isQuoted)

namespace Split

variable {c : Char}

/-! ## Productions that start at a mark -/

theorem isDelimiter_of_isPairStart (h : isPairStart c = true) : isDelimiter c = true := by
  simp only [isPairStart, Bool.or_eq_true, beq_iff_eq] at h
  rcases h with (((rfl | rfl) | rfl) | rfl) | rfl <;> decide

/-- The text of a mark of two characters is the one that its kind implies. -/
theorem fixedText_of_pairKind {d : Char} {kind : TokenKind} (h : pairKind? c d = some kind) :
    kind.fixedText? = some (String.ofList [c, d]) := by
  unfold pairKind? at h
  repeat' split at h
  all_goals cases h
  all_goals
    subst c
    subst d
    rfl

theorem pairOrDelim_shape (h : isDelimiter c = true) : Yields (pairOrDelim c) (Shape c) := by
  refine .bind (nextIf_yields _) fun d hd => ?_
  cases d with
  | none => exact .pure (.delim h)
  | some d =>
    obtain ⟨kind, hk⟩ := Option.isSome_iff_exists.mp (hd d rfl)
    refine .pure ?_
    rw [hk]
    exact .fixed (fixedText_of_pairKind hk)

theorem namedOrDelim_shape (h : isDelimiter c = true) {kind : TokenKind}
    (hk : isNamed kind = true) {production : Split (Option (List Char))}
    (hp : Yields production fun text => ∀ cs ∈ text, cs ≠ []) :
    Yields (namedOrDelim c kind production) (Shape c) := by
  refine .bind hp fun text htext => ?_
  cases text with
  | none => exact .pure (.delim h)
  | some text => exact .pure (.named hk (htext text rfl))

theorem quoted_shape {kind cutOff : TokenKind} (hk : isQuoted kind = true)
    (hc : isQuoted cutOff = true) (production : Split Enclosed) :
    Yields (enclosed kind cutOff production) (Shape c) := by
  refine .bind (.anything _) fun contents _ => .pure ?_
  cases contents.closed with
  | true => exact .quoted hk
  | false => exact .quoted hc

theorem comment_shape : Yields (enclosed .comment .badComment comment) (Shape c) := by
  refine .bind comment_yields fun contents hcontents => .pure ?_
  cases contents.closed with
  | true => exact .comment rfl hcontents
  | false => exact .comment rfl hcontents

theorem marked_shape {production : Split Lexeme} (h : marked c = some production) :
    Yields production (Shape c) := by
  unfold marked at h
  repeat' split at h
  all_goals cases h
  · next hblank =>
    exact .bind (takeWhile_yields _) fun text htext => .pure (.whiteSpace hblank htext)
  · next hpair => exact pairOrDelim_shape (isDelimiter_of_isPairStart hpair)
  · next hat =>
    subst hat
    exact namedOrDelim_shape (by decide) rfl ident_yields
  · next hsharp =>
    subst hsharp
    exact namedOrDelim_shape (by decide) rfl name_yields
  · exact quoted_shape rfl rfl (quoted c)
  · next hslash =>
    subst hslash
    refine .bind (.anything _) fun found _ => ?_
    cases found with
    | true => exact comment_shape
    | false => exact .pure (.delim (by decide))
  · next hless =>
    subst hless
    refine .bind (.anything _) fun found _ => ?_
    cases found with
    | true => exact .pure (.fixed rfl)
    | false => exact .pure (.delim (by decide))

/-! ## Productions without a mark -/

/-- A production may fail, but what it reads has a shape. -/
def Shaped (c : Char) (l : Option Lexeme) : Prop :=
  ∀ x ∈ l, Shape c x

theorem Shaped.none : Shaped c none :=
  fun _ h => absurd h (Option.not_mem_none _)

theorem Shaped.some {l : Lexeme} (h : Shape c l) : Shaped c (some l) := by
  intro x hx
  cases hx
  exact h

theorem cdc_shape : Yields cdc (Shaped c) := by
  refine .bind (.anything _) fun found _ => .pure ?_
  cases found with
  | true => exact .some (.fixed rfl)
  | false => exact .none

theorem numberLike_shape : Yields numberLike (Shaped c) := by
  refine .bind numeral_yields fun n hn => ?_
  cases n with
  | none => exact .pure .none
  | some n =>
    refine .bind (.anything _) fun found _ => ?_
    cases found with
    | true => exact .pure (.some (.percentage (hn n rfl)))
    | false =>
      refine .bind ident_yields fun unit hunit => ?_
      cases unit with
      | none => exact .pure (.some (.number (hn n rfl)))
      | some unit => exact .pure (.some (.dimension (hn n rfl) (hunit unit rfl)))

theorem identLike_shape (allowUrl : Bool) : Yields (identLike allowUrl) (Shaped c) := by
  refine .bind ident_yields fun text htext => ?_
  cases text with
  | none => exact .pure .none
  | some text =>
    refine .bind (.anything _) fun found _ => ?_
    cases found with
    | false => exact .pure (.some (.named rfl (htext text rfl)))
    | true =>
      simp only [if_true]
      split
      · have hurl : Yields (enclosed .url .badUrl url) (Shape c) := quoted_shape rfl rfl url
        exact .bind hurl fun _ hl => .pure (.some hl)
      · exact .pure (.some (.named rfl (htext text rfl)))

theorem productions_shape (d : Char) :
    ∀ production ∈ productions d, Yields production (Shaped c) := by
  unfold productions
  split
  · simp [cdc_shape, numberLike_shape, identLike_shape]
  · split
    · simp [numberLike_shape]
    · simp [identLike_shape]

/-! ## Delimiters -/

/-- A digit begins a number. -/
theorem numeral_isSome_of_isDigit (h : c.isDigit = true) (cs : List Char) :
    (numeral (c :: cs)).1.isSome = true := by
  rw [numeral_isSome, nextIf_neg (isSign_of_isDigit h)]
  unfold startsFraction
  split
  · next heq =>
    obtain ⟨rfl, -⟩ := List.cons.inj heq
    exact absurd h (by decide)
  · exact h

/-- A character that starts a name begins an identifier. -/
theorem ident_isSome_of_isNameStart (h : isNameStart c = true) (cs : List Char) :
    (ident (c :: cs)).1.isSome = true := by
  have hhyphen : (c == '-') = false := by
    rw [beq_eq_false_iff_ne]
    rintro rfl
    cases h
  rw [ident_isSome, nextIf_neg (p := (· == '-')) hhyphen, charOrEscape_pos h]
  rfl

theorem notBlank_of_unmarked (hm : marked c = none) : isBlank c = false ∧ isQuote c = false := by
  unfold marked at hm
  repeat' split at hm
  all_goals cases hm
  next hblank _ _ _ hquote _ _ =>
  rw [Bool.not_eq_true] at hblank hquote
  exact ⟨hblank, hquote⟩

/-- A character that is no mark and begins no lexeme is a delimiter. -/
theorem isDelimiter_of_unmarked (hm : marked c = none) {cs : List Char}
    (hp : ∀ p ∈ productions c, (p (c :: cs)).1 = none) : isDelimiter c = true := by
  unfold productions at hp
  split at hp
  · next hc =>
    subst hc
    decide
  · split at hp
    · next hc =>
      have hdigit : c.isDigit = false := by
        refine Bool.eq_false_iff.mpr fun hd => ?_
        have hsome := numeral_isSome_of_isDigit hd cs
        rw [← numberLike_isSome, hp _ List.mem_cons_self] at hsome
        cases hsome
      simp only [hdigit, Bool.or_eq_true, decide_eq_true_eq, Bool.false_eq_true, false_or] at hc
      rcases hc with rfl | rfl <;> decide
    · next hc =>
      have hstart : isNameStart c = false := by
        refine Bool.eq_false_iff.mpr fun hs => ?_
        have hsome := ident_isSome_of_isNameStart hs cs
        rw [← identLike_isSome, hp _ List.mem_cons_self] at hsome
        cases hsome
      obtain ⟨hblank, hquote⟩ := notBlank_of_unmarked hm
      simp only [Bool.or_eq_true, not_or, Bool.not_eq_true] at hc
      rw [isDelimiter, hblank, hquote, hc.1.1, hstart]
      rfl

theorem firstOf_shape {productions : List (Split (Option Lexeme))} {cs : List Char}
    (hs : ∀ p ∈ productions, Yields p (Shaped c)) (hk : ∀ p ∈ productions, Keeps p)
    (hd : (∀ p ∈ productions, (p (c :: cs)).1 = none) → isDelimiter c = true) :
    Shape c (firstOf productions (c :: cs)).1 := by
  induction productions with
  | nil => exact .delim (hd fun p hp => absurd hp List.not_mem_nil)
  | cons p ps ih =>
    rw [List.forall_mem_cons] at hs hk
    rw [firstOf, bind_apply]
    cases hp : (p (c :: cs)).1 with
    | some l => exact hs.1 (c :: cs) l hp
    | none =>
      have hkeep : (p (c :: cs)).2 = c :: cs := congrArg Prod.snd (hk.1 hp)
      rw [hkeep]
      refine ih hs.2 hk.2 fun hps => hd ?_
      exact List.forall_mem_cons.mpr ⟨hp, hps⟩

/-- **The first lexeme of a text has one of the shapes.** -/
theorem lexeme_shape (c : Char) (cs : List Char) : Shape c (lexeme (c :: cs)).1 := by
  cases hm : marked c with
  | some production =>
    rw [lexeme_marked hm]
    exact marked_shape hm cs
  | none =>
    rw [lexeme_unmarked hm]
    exact firstOf_shape (productions_shape c) (productions_keeps c) (isDelimiter_of_unmarked hm)

/-- **Only the empty text has the end of the input for its first lexeme.** -/
theorem lexeme_kind (cs : List Char) : (lexeme cs).1.kind = .eof ↔ cs = [] := by
  cases cs with
  | nil => exact ⟨fun _ => rfl, fun _ => rfl⟩
  | cons c cs =>
    constructor
    · exact fun h => absurd h (lexeme_shape c cs).kind_ne_eof
    · exact fun h => absurd h (List.cons_ne_nil c cs)

/-- **No blank follows white space.** -/
theorem lexeme_whiteSpace {cs : List Char} (hk : (lexeme cs).1.kind = .whiteSpace) :
    ∀ c ∈ (lexeme cs).2.head?, isBlank c = false := by
  cases cs with
  | nil => cases hk
  | cons c cs =>
    have hblank := (lexeme_shape c cs).blank_first hk
    have hm : marked c =
        some (do return { kind := .whiteSpace, text := c :: (← takeWhile isBlank) }) :=
      if_pos hblank
    rw [lexeme_marked hm]
    show ∀ d ∈ (cs.dropWhile isBlank).head?, isBlank d = false
    intro d hd
    have hnot := List.head?_dropWhile_not isBlank cs
    rw [Option.mem_def.mp hd] at hnot
    exact hnot

end Split

end CssTokens
