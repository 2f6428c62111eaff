import CssTokens.Proofs.Grammar.Name
import CssTokens.Proofs.Refinement.Failing
import CssTokens.Proofs.Text.CodePoint

/-!
# Escapes by code point

After its backslash an escape by code point takes all digits that there are, but not more than six.
A blank that follows less than six digits is taken too, so that a digit or another blank can be
written behind it. Six digits are at most 0xFFFFFF, which may be no code point.

The characters that are written by their code point are below U+00A0. They have two digits at most,
and the blank that is written behind the digits is taken with them, whatever follows.

Main statements: there is no choice in what is taken (`Grammar.CodePoint.unique`), escapes by code
point are read in this way, and those that are written are read back
(`Lexer.escape_codePoint_outcome`).
-/

namespace CssTokens

/-! ## What is taken -/

namespace Grammar

/-- What an escape by code point takes of the text after its backslash: digits, and perhaps a
blank. -/
structure CodePoint (cs digits : List Char) (blank : Option Char) (rest : List Char) : Prop where
  text : cs = digits ++ blank.toList ++ rest
  allDigits : ∀ d ∈ digits, isHexDigit d = true
  nonempty : digits ≠ []
  atMostSix : digits.length ≤ 6
  /-- Less than six digits are all that there are. -/
  longest : digits.length < 6 → ∀ c ∈ (blank.toList ++ rest).head?, isHexDigit c = false
  /-- A blank is taken only behind less than six digits. -/
  blankBehind : ∀ b ∈ blank, digits.length < 6 ∧ (b = ' ' ∨ b = '\t' ∨ b = '\n')
  /-- And if there is one behind them, it is taken. -/
  takesBlank : blank = none → digits.length < 6 →
    ∀ c ∈ rest.head?, ¬(c = ' ' ∨ c = '\t' ∨ c = '\n')

namespace CodePoint

variable {cs digits digits' rest rest' : List Char} {blank blank' : Option Char}
  (h : CodePoint cs digits blank rest) (h' : CodePoint cs digits' blank' rest')
include h h'

theorem length_le : digits'.length ≤ digits.length := by
  refine Nat.le_of_not_lt fun hlt => ?_
  have hdigits : digits <+: cs := ⟨blank.toList ++ rest, by rw [h.text, List.append_assoc]⟩
  have hdigits' : digits' <+: cs := ⟨blank'.toList ++ rest', by rw [h'.text, List.append_assoc]⟩
  obtain ⟨more, rfl⟩ := List.prefix_of_prefix_length_le hdigits hdigits' (Nat.le_of_lt hlt)
  -- The first one of the other digits comes next, but there is no digit.
  cases more with
  | nil => exact absurd hlt (by simp)
  | cons d more =>
    have htext := h.text.symm.trans h'.text
    rw [List.append_assoc, List.append_assoc, List.append_assoc] at htext
    have hnone := h.longest (Nat.lt_of_lt_of_le hlt h'.atMostSix) d (by
      rw [List.append_cancel_left htext]
      rfl)
    rw [h'.allDigits d List.mem_append_cons_self] at hnone
    cases hnone

/-- **There is no choice in what an escape by code point takes.** -/
theorem unique : digits = digits' ∧ blank = blank' ∧ rest = rest' := by
  have htext := h.text.symm.trans h'.text
  rw [List.append_assoc, List.append_assoc] at htext
  obtain ⟨rfl, hafter⟩ :=
    List.append_inj htext (Nat.le_antisymm (h'.length_le h) (h.length_le h'))
  cases blank with
  | none =>
    cases blank' with
    | none => exact ⟨rfl, rfl, hafter⟩
    | some b =>
      obtain ⟨hlt, hb⟩ := h'.blankBehind b rfl
      exact absurd hb (h.takesBlank rfl hlt b (congrArg List.head? hafter))
  | some b =>
    cases blank' with
    | none =>
      obtain ⟨hlt, hb⟩ := h.blankBehind b rfl
      exact absurd hb (h'.takesBlank rfl hlt b (congrArg List.head? hafter.symm))
    | some b' =>
      obtain ⟨rfl, hrest⟩ := List.cons.inj hafter
      exact ⟨rfl, rfl, hrest⟩

end CodePoint

theorem isBlank_iff {c : Char} : isBlank c = true ↔ c = ' ' ∨ c = '\t' ∨ c = '\n' := by
  simp [isBlank, or_assoc]

theorem begins_escape_of_isHexDigit {cs : List Char}
    (hx : ∃ d ∈ cs.head?, isHexDigit d = true) : Begins Escape cs := by
  obtain ⟨d, hd, hx⟩ := hx
  refine Split.begins_escape_iff.mpr ⟨?_, ?_⟩
  · rintro rfl
    cases hd
  · intro hn
    rw [hn] at hd
    cases hd
    cases hx

/-- **An escape that begins with a digit is an escape by code point.** -/
theorem Escape.takes_codePoint {c : Char} {cs rest : List Char} (h : Escape cs c rest)
    (hx : ∃ d ∈ cs.head?, isHexDigit d = true) :
    ∃ digits blank, CodePoint cs digits blank rest
      ∧ c = charOfCodePoint (ofHexDigits digits) := by
  obtain ⟨d, hd, hx⟩ := hx
  cases h with
  | plain hnone _ =>
    cases hd
    exact absurd hx (by simp [hnone])
  | @codePoint digits _ hne hlen hdigits hend =>
    refine ⟨digits, none, ⟨?_, hdigits, hne, hlen, ?_, ?_, ?_⟩, rfl⟩
    · rw [Option.toList_none, List.append_nil]
    · exact fun hlt c hc => (hend hlt c hc).1
    · rintro b ⟨⟩
    · intro _ hlt c hc
      rw [← isBlank_iff, (hend hlt c hc).2]
      exact Bool.false_ne_true
  | @blank digits _ b hne hlt hdigits hb =>
    refine ⟨digits, some b, ⟨?_, hdigits, hne, Nat.le_of_lt hlt, ?_, ?_, ?_⟩, rfl⟩
    · rw [List.append_assoc]
      rfl
    · rintro _ c ⟨⟩
      exact Split.isHexDigit_of_isBlank hb
    · rintro c ⟨⟩
      exact ⟨hlt, isBlank_iff.mp hb⟩
    · rintro ⟨⟩

/-- How digits come to a number, one after the other: each number on the way is that of the digits
so far, is not more than 0xFFFFFF, and a word of 32 bits holds it. -/
structure Accumulates (digits : List Char) : Prop where
  value : ∀ ds, ds <+: digits → ofHexDigits ds = Nat.ofDigits 16 (ds.map hexDigitValue).reverse
  bound : ∀ ds, ds <+: digits → ofHexDigits ds ≤ 0xFFFFFF
  word : ∀ ds, ds <+: digits → (hexWord ds).toNat = ofHexDigits ds

theorem accumulates {digits : List Char} (h : digits.length ≤ 6) : Accumulates digits where
  value ds _ := ofHexDigits_eq_ofDigits ds
  bound _ hds := Nat.le_of_lt_succ (ofHexDigits_lt_of_length_le (Nat.le_trans hds.length_le h))
  word _ hds := hexWord_toNat (Nat.le_trans hds.length_le (Nat.le_trans h (by decide)))

end Grammar

/-! ## What is written -/

section
open WriteM

/-- A character that is written by its code point somewhere in a name, a unit or a string. -/
inductive HexEscaped (c : Char) : Prop
  | inName : writeNameChar c = writeHexEscape c → HexEscaped c
  | startsName : writeNameStart c = writeHexEscape c → HexEscaped c
  | startsUnit (cs : List Char) : writeUnit (c :: cs) = (do writeHexEscape c; writeName cs) →
    HexEscaped c
  | inString : writeStringChar c = writeHexEscape c → HexEscaped c

variable {c : Char}

theorem WriteM.chars_inj {cs ds : List Char} : chars cs = chars ds ↔ cs = ds := by
  refine ⟨fun h => ?_, congrArg chars⟩
  have hwritten := congrArg written h
  rw [written_chars, written_chars] at hwritten
  exact String.ofList_inj.mp hwritten

theorem writeHexEscape_eq (c : Char) : writeHexEscape c = chars (hexEscapeText c) := rfl

/-- There is a digit between the backslash and the blank. -/
theorem two_lt_length_hexEscapeText (c : Char) : 2 < (hexEscapeText c).length := by
  have hpos := List.length_pos_iff.mpr (hexDigits_ne_nil c.toNat)
  simp only [hexEscapeText, List.length_cons, List.length_append, List.length_nil]
  omega

theorem ne_hexEscapeText {cs : List Char} (h : cs.length ≤ 2) : cs ≠ hexEscapeText c := by
  rintro rfl
  exact absurd (two_lt_length_hexEscapeText c) (Nat.not_lt_of_le h)

theorem isNameControl_of_escapedText (h : escapedText c = hexEscapeText c) :
    isNameControl c = true := by
  unfold escapedText at h
  split at h
  · next hc => exact hc
  · exact absurd h (ne_hexEscapeText (Nat.le_refl 2))

theorem of_nameStartText (h : nameStartText c = hexEscapeText c) :
    isNameControl c = true ∨ c.isDigit = true := by
  unfold nameStartText at h
  split at h
  · exact absurd h (ne_hexEscapeText (Nat.le_succ 1))
  · split at h
    · next hd => exact .inr hd
    · exact .inl (isNameControl_of_escapedText h)

theorem isNameChar_of_isNameControl (h : isNameControl c = true) : isNameChar c = false := by
  rw [isNameControl_iff] at h
  refine Bool.eq_false_iff.mpr fun hc => ?_
  simp only [isNameChar, isNameStart, isNonAscii, Bool.or_eq_true, beq_iff_eq, decide_eq_true_eq,
    isAlpha_iff_toNat] at hc
  rcases hc with (((hc | rfl) | hc) | hc) | rfl
  · omega
  · revert h
    decide
  · omega
  · have := toNat_of_isDigit hc
    omega
  · revert h
    decide

/-- **What is written by its code point** are the controls, digits that start a name, and the letter
e where a unit could be read as an exponent. -/
theorem hexEscaped_iff :
    HexEscaped c ↔ isNameControl c = true ∨ c.isDigit = true ∨ c = 'e' ∨ c = 'E' := by
  constructor
  · intro h
    cases h with
    | inName h =>
      rw [writeNameChar_eq, writeHexEscape_eq, chars_inj] at h
      unfold nameCharText at h
      split at h
      · exact absurd h (ne_hexEscapeText (Nat.le_succ 1))
      · exact .inl (isNameControl_of_escapedText h)
    | startsName h =>
      rw [writeNameStart_eq, writeHexEscape_eq, chars_inj] at h
      exact (of_nameStartText h).imp_right .inl
    | startsUnit cs h =>
      rw [writeUnit_eq, writeName_eq, writeHexEscape_eq, ← chars_append, chars_inj, unitText] at h
      split at h
      · next hlike =>
        simp only [likeExponent, Bool.and_eq_true, Bool.or_eq_true, beq_iff_eq] at hlike
        exact .inr (.inr hlike.1)
      · by_cases hc : c = '-'
        · subst hc
          cases cs <;> cases h
        · rw [identifierText_of_ne hc] at h
          exact (of_nameStartText (List.append_cancel_right h)).imp_right .inl
    | inString h =>
      rw [writeStringChar_eq, writeHexEscape_eq, chars_inj] at h
      unfold stringCharText at h
      split at h
      · exact absurd h (ne_hexEscapeText (Nat.le_refl 2))
      · split at h
        · next hc =>
          simp only [Bool.or_eq_true, decide_eq_true_eq, beq_iff_eq] at hc
          exact .inl (isNameControl_iff.mpr (by omega))
        · exact absurd h (ne_hexEscapeText (Nat.le_succ 1))
  · rintro (h | h | rfl | rfl)
    · refine .inName ?_
      rw [writeNameChar, isNameChar_of_isNameControl h, writeEscaped, if_pos h]
      rfl
    · refine .startsName ?_
      have hstart : ¬isNameStart c = true := fun hc => by
        rw [isDigit_of_isNameStart hc] at h
        cases h
      rw [writeNameStart, if_neg hstart, if_pos h]
    · exact .startsUnit [] rfl
    · exact .startsUnit [] rfl

/-- They have two digits at most. -/
theorem HexEscaped.lt (h : HexEscaped c) : c.toNat < 0xA0 := by
  rcases hexEscaped_iff.mp h with h | h | rfl | rfl
  · rw [isNameControl_iff] at h
    omega
  · have := toNat_of_isDigit h
    omega
  · decide
  · decide

theorem written_hexEscape (c : Char) :
    (writeHexEscape c).written.toList = '\\' :: (hexDigits c.toNat ++ [' ']) := by
  rw [writeHexEscape_eq, written_chars, String.toList_ofList]
  rfl

end

/-! ## Reading -/

open Grammar

/--
**An escape by code point takes up to six digits, and a blank after less than six**, no more and no
less, and it stands for the character of the number that the digits write. What was written as an
escape by code point is read back, whatever follows.
-/
theorem Lexer.escape_codePoint_outcome {s : Scanner} (hs : none ∈ s.pushed → s.Settled) :
    ((∃ d ∈ s.remaining.head?, isHexDigit d = true) →
      ∃ digits blank rest c, CodePoint s.remaining digits blank rest ∧ Accumulates digits
        ∧ StandsFor (ofHexDigits digits) c ∧ escape.ComesTo s (some c) rest)
    ∧ ∀ c text, HexEscaped c → '\\' :: s.remaining = (writeHexEscape c).written.toList ++ text →
      escape.ComesTo s (some c) text := by
  have hcomes := escape_reads.comesTo escape_composed.framed hs
  constructor
  · intro hx
    obtain ⟨c, rest, hescape⟩ := begins_escape_of_isHexDigit hx
    rw [Split.escape_iff.mpr hescape] at hcomes
    obtain ⟨digits, blank, htaken, rfl⟩ := hescape.takes_codePoint hx
    exact ⟨digits, blank, rest, _, htaken, accumulates htaken.atMostSix,
      charOfCodePoint_standsFor _, hcomes⟩
  · intro c text hc htext
    rw [written_hexEscape, List.cons_append, List.append_assoc] at htext
    have hlt : c.toNat < 0x100000 := Nat.lt_trans hc.lt (by decide)
    rw [(List.cons.inj htext).2, List.singleton_append, Split.escape_hexDigits hlt] at hcomes
    exact hcomes

/-- The digits were pushed back, and one of two blanks behind them is taken. A failure that is not
reached does not matter. -/
theorem Lexer.escape_codePoint_outcome_pushed :
    ∃ s',
      escape
          { source := [.char ' ', .char ' ', .fail ⟨.other, "x"⟩, .char 'B']
            pushed := [some '1', some 'f'] } =
        .ok (some '\x1F') s'
      ∧ s'.remaining = [' ', 'B'] ∧ HexEscaped '\x1F'
      ∧ CodePoint ['1', 'f', ' ', ' ', 'B'] ['1', 'f'] (some ' ') [' ', 'B']
      ∧ StandsFor (ofHexDigits ['1', 'f']) '\x1F' := by
  let s : Scanner :=
    { source := [.char ' ', .char ' ', .fail ⟨.other, "x"⟩, .char 'B']
      pushed := [some '1', some 'f'] }
  have hremaining : s.remaining = ['1', 'f', ' ', ' ', 'B'] := by decide +kernel
  obtain ⟨hread, hback⟩ :=
    escape_codePoint_outcome (s := s) fun hnone => absurd hnone (by decide)
  rw [hremaining] at hread hback
  obtain ⟨s', h⟩ := ScanM.exists_of_run' (m := escape) (s := s) (a := some '\x1F')
    (by decide +kernel)
  have hescaped : HexEscaped '\x1F' := hexEscaped_iff.mpr (.inl rfl)
  have hcomes := hback '\x1F' [' ', 'B'] hescaped (by rw [written_hexEscape]; rfl)
  obtain ⟨-, hrest, -⟩ := hcomes.ok _ _ h
  have htaken : CodePoint ['1', 'f', ' ', ' ', 'B'] ['1', 'f'] (some ' ') [' ', 'B'] := by
    refine ⟨rfl, List.all_eq_true.mp rfl, List.cons_ne_nil _ _, by decide, ?_, ?_, ?_⟩
    · rintro - c ⟨⟩
      rfl
    · rintro b ⟨⟩
      exact ⟨by decide, .inl rfl⟩
    · rintro ⟨⟩
  obtain ⟨digits, blank, rest, c, htaken', -, hstands, hcomes⟩ := hread ⟨'1', rfl, rfl⟩
  obtain ⟨rfl, rfl, rfl⟩ := htaken.unique htaken'
  obtain ⟨hc, -⟩ := hcomes.ok _ _ h
  cases hc
  exact ⟨s', h, hrest, hescaped, htaken, hstands⟩

end CssTokens
