import CssTokens.Proofs.Grammar.NumberValue
import CssTokens.Proofs.Refinement.Failing
import CssTokens.Proofs.Run.Reachable

/-!
# Tokens are well formed

The parts of a token go together: what kind it has decides which of the others it has, and what they
may be. A token that has been read is the lexeme that comes first in the text, be the source one
that fails or not, and a lexeme has one of a few shapes.

Main statement: each token that a call of `next` reads is well formed, and no blank follows white
space (`next_wellFormed`).
-/

namespace CssTokens

/-- How the parts of a token go together. -/
structure Token.WellFormed (t : Token) : Prop where
  /-- Numbers, percentages and dimensions have a value, and no others. -/
  numeric : t.numeric.isSome = true ↔
    t.kind = .number ∨ t.kind = .percentage ∨ t.kind = .dimension
  /-- Dimensions have a unit, and no others. -/
  unit : t.unit.isSome = true ↔ t.kind = .dimension
  /-- The text of a number or a percentage is a numeral, and its value is what the numeral is parsed
  as. -/
  number : t.kind = .number ∨ t.kind = .percentage →
    ∃ n : Numeral, n.WellFormed ∧ t.value = String.ofList n.text
      ∧ t.numeric = Parse.number? (Parse.hasPointOrLetter n.text) n.text
  /-- The text of a dimension is a numeral and the unit, which is not empty. -/
  dimension : t.kind = .dimension →
    ∃ (n : Numeral) (unit : String), n.WellFormed ∧ unit ≠ "" ∧ t.unit = some unit
      ∧ t.value = String.ofList n.text ++ unit
      ∧ t.numeric = Parse.number? (Parse.hasPointOrLetter n.text) n.text
  /-- A name is not empty. -/
  named : t.kind = .ident ∨ t.kind = .atKeyword ∨ t.kind = .hash ∨ t.kind = .function →
    t.value ≠ ""
  whiteSpace : t.kind = .whiteSpace →
    t.value ≠ "" ∧ ∀ c ∈ t.value.toList, c = ' ' ∨ c = '\t' ∨ c = '\n'
  /-- A delimiter is none of the characters that always belong to another token or that normalized
  text does not have. -/
  delim : ∀ c, t.kind = .delim c → t.value = String.singleton c
    ∧ isBlank c = false ∧ c ≠ '\r' ∧ c ≠ '\x0C' ∧ c ≠ '\x00' ∧ isQuote c = false
    ∧ c.isDigit = false ∧ c.isAlpha = false ∧ c ≠ '_' ∧ c.toNat ≤ 0x9F
  /-- A comment does not hold its end, even if it is cut off. -/
  comment : t.kind = .comment ∨ t.kind = .badComment → ¬['*', '/'] <:+: t.value.toList
  eof : t.kind = .eof → t.value = ""
  /-- A mark has the text that its kind implies. -/
  fixed : ∀ text, t.kind.fixedText? = some text → t.value = text
  produced : t.kind ≠ .unicodeRange

/-- A token without a numeral has no part but its kind and its text. -/
theorem Token.WellFormed.unplaced_eq {t : Token} (h : t.WellFormed)
    (hk : ¬(t.kind = .number ∨ t.kind = .percentage ∨ t.kind = .dimension)) :
    t.unplaced = { kind := t.kind, value := t.value } := by
  have hnumeric : t.numeric = none := by
    rw [← Option.not_isSome_iff_eq_none, h.numeric]
    exact hk
  have hunit : t.unit = none := by
    rw [← Option.not_isSome_iff_eq_none, h.unit]
    exact fun hdimension => hk (.inr (.inr hdimension))
  rw [Token.unplaced, hnumeric, hunit]

namespace Lexeme

open TokenKind (fixedText?)

theorem atEnd_wellFormed : atEnd.token.WellFormed := by
  constructor
  all_goals simp [token, atEnd, fixedText?]

theorem Shape.wellFormed {first : Char} {l : Lexeme} (hn : isNormal first = true)
    (h : Shape first l) : l.token.WellFormed := by
  cases h with
  | whiteSpace hfirst htext =>
    constructor
    case whiteSpace =>
      intro _
      refine ⟨by simp [token], fun c hc => ?_⟩
      rw [token, String.toList_ofList, List.mem_cons] at hc
      have hblank : isBlank c = true := by
        rcases hc with rfl | hc
        · exact hfirst
        · exact htext c hc
      rwa [isBlank, Bool.or_eq_true, Bool.or_eq_true, beq_iff_eq, beq_iff_eq, beq_iff_eq,
        or_assoc] at hblank
    all_goals simp [token, fixedText?]
  | @named kind text hk hne =>
    have hvalue : String.ofList text ≠ "" := by simpa using hne
    cases kind with
    | ident | atKeyword | hash | function =>
      constructor
      case named => exact fun _ => hvalue
      all_goals simp [token, fixedText?]
    | _ => cases hk
  | @quoted kind text hk =>
    cases kind with
    | quotedString | badString | url | badUrl =>
      constructor
      all_goals simp [token, fixedText?]
    | _ => cases hk
  | @comment kind text hk htext =>
    cases kind with
    | comment | badComment =>
      constructor
      case comment => exact fun _ => by rwa [token, String.toList_ofList]
      all_goals simp [token, fixedText?]
    | _ => cases hk
  | @fixed kind text hk =>
    have hfixed : ∀ t, kind.fixedText? = some t → String.ofList text = t := by
      intro t ht
      exact Option.some.inj (hk.symm.trans ht)
    cases kind with
    | includeMatch | dashMatch | prefixMatch | suffixMatch | substringMatch | column | cdo | cdc =>
      constructor
      case fixed => exact hfixed
      all_goals simp [token]
    | _ => cases hk
  | @number n hwell =>
    constructor
    case number => exact fun _ => ⟨n, hwell, rfl, (Parse.number?_of_text hwell).symm⟩
    all_goals simp [token, fixedText?]
  | @percentage n hwell =>
    constructor
    case number => exact fun _ => ⟨n, hwell, rfl, (Parse.number?_of_text hwell).symm⟩
    all_goals simp [token, fixedText?]
  | @dimension n unit hwell hne =>
    constructor
    case dimension =>
      refine fun _ => ⟨n, String.ofList unit, hwell, by simpa using hne, rfl, ?_,
        (Parse.number?_of_text hwell).symm⟩
      exact String.ofList_append
    all_goals simp [token, fixedText?]
  | delim hdelim =>
    constructor
    case delim =>
      intro c hc
      cases hc
      simp only [isDelimiter, Bool.and_eq_true, Bool.not_eq_true'] at hdelim
      obtain ⟨⟨⟨hblank, hquote⟩, hdigit⟩, hstart⟩ := hdelim
      simp only [isNameStart, isNonAscii, Bool.or_eq_false_iff, beq_eq_false_iff_ne,
        decide_eq_false_iff_not, Nat.not_lt] at hstart
      simp only [isNormal, Bool.and_eq_true, bne_iff_ne] at hn
      exact ⟨(String.singleton_eq_ofList).symm, hblank, hn.1.1, hn.1.2, hn.2, hquote, hdigit,
        hstart.1.1, hstart.1.2, hstart.2⟩
    all_goals simp [token, Lexeme.delim, fixedText?]

end Lexeme

namespace Split

/-- **The first lexeme of a text in normal form makes a token that is well formed**, and no blank
follows white space. -/
theorem lexeme_wellFormed {cs : List Char} (hn : ∀ c ∈ cs, isNormal c = true) :
    (lexeme cs).1.token.WellFormed := by
  cases cs with
  | nil => exact Lexeme.atEnd_wellFormed
  | cons c cs => exact (lexeme_shape c cs).wellFormed (hn c List.mem_cons_self)

end Split

namespace Tokenizer

variable {source : Source} {options : Options} {t t' : Tokenizer} {kind : TokenKind}

/-- In each state the scanner is sound, whatever failures there have been. -/
theorem Reachable.sound (h : Reachable source options t) : t.scanner.Sound := by
  induction h with
  | start => exact Scanner.sound_of_pushed_nil rfl
  | next _ ih => exact next_sound ih
  | pushBack _ hb ih =>
    rw [pushBack_of_ok hb]
    exact ih

/-- What a call of `next` reads is the first lexeme of an end of the text. -/
theorem Reachable.next_lexeme (h : Reachable source options t) (hp : t.pushedBack = false)
    (hn : t.next = .ok kind t') :
    ∃ later, later <:+ t.remaining ∧ (Split.lexeme later).1.kind = kind
      ∧ FailingStep t (Split.lexeme later).1 (Split.lexeme later).2 t' := by
  obtain ⟨hkind, hstep⟩ := next_of_sound h.sound hp hn
  obtain ⟨later, hlater, heq⟩ := Split.delivered_eq t.options.skipComments t.remaining
  rw [heq] at hkind hstep
  exact ⟨later, hlater, hkind, hstep⟩

theorem Reachable.token_wellFormed (h : Reachable source options t) (hp : t.pushedBack = false)
    (hn : t.next = .ok kind t') : t'.token.kind = kind ∧ t'.token.WellFormed := by
  obtain ⟨later, hlater, hkind, hstep⟩ := h.next_lexeme hp hn
  have hwell : t'.token.unplaced.WellFormed := by
    rw [hstep.token]
    exact Split.lexeme_wellFormed fun c hc => h.sound.normal c (hlater.subset hc)
  exact ⟨(congrArg Token.kind hstep.token).trans hkind, { hwell with }⟩

/-- **Each token that is read is well formed**, and no blank follows white space. The source may
fail, and the calls before may have come to anything. -/
theorem next_wellFormed (h : Reachable source options t) (hp : t.pushedBack = false)
    (hn : t.next = .ok kind t') :
    t'.token.kind = kind ∧ t'.token.WellFormed
      ∧ (kind = .whiteSpace → ∀ c ∈ t'.remaining.head?, isBlank c = false) := by
  obtain ⟨htoken, hwell⟩ := h.token_wellFormed hp hn
  obtain ⟨later, -, hkind, hstep⟩ := h.next_lexeme hp hn
  refine ⟨htoken, hwell, fun hk => ?_⟩
  rw [hstep.remaining]
  exact Split.lexeme_whiteSpace (hkind.trans hk)

/-- After a failure has cost a sign, the next token is a dimension whose unit looks like the
beginning of an exponent. -/
theorem next_wellFormed_dimension :
    ∃ t', (stateOf (ofSource [.char '+', .fail ⟨.other, "x"⟩, .char '-', .char '.', .char '5',
        .char 'e', .char '1', .char 'e', .char '-']).next).next = .ok .dimension t'
      ∧ t'.token.value = "-.5e1e-" ∧ t'.token.WellFormed := by
  generalize ht : stateOf (ofSource [.char '+', .fail ⟨.other, "x"⟩, .char '-', .char '.',
    .char '5', .char 'e', .char '1', .char 'e', .char '-']).next = t
  have hr : (resultOf t.next).toOption.map (fun r => (r.1, r.2.value)) =
      some (.dimension, "-.5e1e-") := by
    rw [← ht]
    decide +kernel
  have hp : t.pushedBack = false := by
    rw [← ht]
    decide +kernel
  obtain ⟨kind, t', hn, heq⟩ := exists_next hr
  obtain ⟨rfl, hvalue⟩ := Prod.mk.inj heq
  refine ⟨t', hn, hvalue, ?_⟩
  rw [← ht] at hn hp
  exact (next_wellFormed (.next .start) hp hn).2.1

end Tokenizer

end CssTokens
