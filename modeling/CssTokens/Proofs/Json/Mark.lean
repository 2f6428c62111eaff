import CssTokens.Json.Value
import CssTokens.Proofs.Grammar.NumberValue
import CssTokens.Proofs.Roundtrip.Hex

/-!
# Marks of JSON text read back

In a string, a quote, a backslash and a control character are written as escapes, and any other
character stands for itself. A numeral is written as it is; what follows must not go on with it.

Main statements: a string is read back from its text (`JsonMark.ofText?_string`), and so is a
numeral (`JsonMark.ofText?_numeral`).
-/

namespace CssTokens

/-- A numeral as JSON text may have it, without a plus sign and without needless zeros in front. -/
structure Numeral.InJson (n : Numeral) : Prop where
  wellFormed : n.WellFormed
  sign : n.sign ≠ some '+'
  whole : ∃ k, n.whole = Nat.toDigits 10 k

/-- Characters that were not escaped surrogates are a text. -/
theorem JsonChar.text?_chars (cs : List Char) : text? (cs.map char) = some cs := by
  induction cs with
  | nil => rfl
  | cons c cs ih =>
    rw [List.map_cons, text?, ih]
    rfl

/-- Small code units are no surrogates. -/
theorem JsonChar.ofUnit_of_lt {c : Char} (h : c.toNat < 0x20) : ofUnit c.toNat = char c := by
  have hlead : Utf16.isLead c.toNat = false := by
    rw [Utf16.isLead, decide_eq_false (by omega), Bool.false_and]
  have htrail : Utf16.isTrail c.toNat = false := by
    rw [Utf16.isTrail, decide_eq_false (by omega), Bool.false_and]
  rw [ofUnit, hlead, htrail, charOfCodePoint_toNat]
  rfl

namespace JsonMark

open JsonValue (escapeChar)

variable {c : Char} {cs rest : List Char}

/-! ## Strings -/

theorem stringChars?_escape {e : Char} (he : e ≠ 'u') (hc : JsonChar.ofEscape? e = some c)
    (rest : List Char) :
    stringChars? ('\\' :: e :: rest) =
      (stringChars? rest).map fun r => (.char c :: r.1, r.2) := by
  rw [stringChars?, hc]
  rintro _ _ _ _ _ rfl
  exact absurd rfl he

theorem stringChars?_unit {ds : List Char} (hlength : ds.length = 4)
    (hx : ds.all isHexDigit = true) (rest : List Char) :
    stringChars? ('\\' :: 'u' :: ds ++ rest) =
      (stringChars? rest).map fun r => (.ofUnit (ofHexDigits ds) :: r.1, r.2) := by
  obtain ⟨a, b, c, d, rfl⟩ := List.length_eq_four.mp hlength
  show stringChars? ('\\' :: 'u' :: a :: b :: c :: d :: rest) = _
  rw [stringChars?, if_pos hx]

theorem stringChars?_plain (hc : 0x20 ≤ c.toNat) (hquote : c ≠ '"') (hslash : c ≠ '\\')
    (rest : List Char) :
    stringChars? (c :: rest) = (stringChars? rest).map fun r => (.char c :: r.1, r.2) := by
  rw [stringChars?]
  · rw [if_neg (by simp [hslash, hc])]
  · exact hquote
  · rintro _ _ _ _ _ rfl
    exact absurd rfl hslash
  · rintro _ _ rfl
    exact absurd rfl hslash

/-- The hexadecimal digits of a control character, with zeros in front. -/
theorem exists_unitDigits (h : c.toNat < 0x20) :
    ∃ ds, ds.length = 4 ∧ ds.all isHexDigit = true ∧ ofHexDigits ds = c.toNat
      ∧ (if c.toNat < 0x10 then ['\\', 'u', '0', '0', '0'] ++ hexDigits c.toNat
        else ['\\', 'u', '0', '0'] ++ hexDigits c.toNat) = '\\' :: 'u' :: ds := by
  have hx : (hexDigits c.toNat).all isHexDigit = true :=
    List.all_eq_true.mpr fun _ hd => isHexDigit_of_mem_hexDigits hd
  split
  · next hlt =>
    have hdigits : hexDigits c.toNat = [c.toNat.digitChar] := Nat.toDigits_of_lt_base hlt
    refine ⟨['0', '0', '0'] ++ hexDigits c.toNat, ?_, ?_, ofHexDigits_hexDigits _, rfl⟩
    · rw [hdigits]
      rfl
    · rw [List.all_append, hx]
      rfl
  · next hge =>
    have hdigits : hexDigits c.toNat = ['1', (c.toNat % 16).digitChar] := by
      rw [hexDigits, Nat.toDigits_of_base_le (by decide) (by omega),
        show c.toNat / 16 = 1 by omega]
      rfl
    refine ⟨['0', '0'] ++ hexDigits c.toNat, ?_, ?_, ofHexDigits_hexDigits _, rfl⟩
    · rw [hdigits]
      rfl
    · rw [List.all_append, hx]
      rfl

/-- **A character is read back from how it is written inside a string.** -/
theorem stringChars?_escapeChar (c : Char) (rest : List Char) :
    stringChars? (escapeChar c ++ rest) =
      (stringChars? rest).map fun r => (.char c :: r.1, r.2) := by
  unfold escapeChar
  split
  · next h =>
    rw [Bool.or_eq_true, beq_iff_eq, beq_iff_eq] at h
    rcases h with rfl | rfl
    · exact stringChars?_escape (by decide) rfl rest
    · exact stringChars?_escape (by decide) rfl rest
  next hquoted =>
  rw [Bool.or_eq_true, beq_iff_eq, beq_iff_eq, not_or] at hquoted
  iterate 5
    split
    · next h =>
      obtain rfl := beq_iff_eq.mp h
      exact stringChars?_escape (by decide) rfl rest
  by_cases hcontrol : c.toNat < 0x20
  · obtain ⟨ds, hlength, hx, hvalue, htext⟩ := exists_unitDigits hcontrol
    rw [if_pos hcontrol, htext, stringChars?_unit hlength hx, hvalue,
      JsonChar.ofUnit_of_lt hcontrol]
  · rw [if_neg (by omega), if_neg hcontrol]
    exact stringChars?_plain (by omega) hquoted.1 hquoted.2 rest

theorem stringChars?_escaped (cs rest : List Char) :
    stringChars? (cs.flatMap escapeChar ++ '"' :: rest) = some (cs.map .char, rest) := by
  induction cs with
  | nil => exact stringChars?.eq_2 rest
  | cons c cs ih =>
    rw [List.flatMap_cons, List.append_assoc, stringChars?_escapeChar, ih]
    rfl

/-! ## Numerals -/

/-- A text that does not go on with a numeral. -/
def EndsNumeral (rest : List Char) : Prop :=
  ∀ c ∈ rest.head?, c.isDigit = false ∧ c ≠ '.' ∧ isExponentLetter c = false

theorem digits?_append {ds : List Char} (hne : ds ≠ []) (hd : ∀ c ∈ ds, c.isDigit = true)
    (hrest : ∀ c ∈ rest.head?, c.isDigit = false) : digits? (ds ++ rest) = some (ds, rest) := by
  have hspan := Parse.span_append hd hrest
  rw [List.span_eq_takeWhile_dropWhile] at hspan
  obtain ⟨htake, hdrop⟩ := Prod.mk.inj hspan
  rw [digits?, htake, hdrop, if_neg hne]

theorem whole?_toDigits (k : Nat) (hrest : ∀ c ∈ rest.head?, c.isDigit = false) :
    whole? (Nat.toDigits 10 k ++ rest) = some (Nat.toDigits 10 k, rest) := by
  rcases Nat.eq_zero_or_pos k with rfl | hk
  · rfl
  · have hdigits := digits?_append (Nat.toDigits_ne_nil (b := 10) (n := k)) isDigit_of_mem_toDigits
      hrest
    obtain ⟨d, ds, htext, hd⟩ := exists_toDigits_of_pos hk
    rw [htext] at hdigits ⊢
    rw [← hdigits, List.cons_append, whole?]
    intro _ h
    exact hd (List.cons.inj h).1

theorem fraction?_fractionText {ds : List Char} (hd : ∀ c ∈ ds, c.isDigit = true)
    (hrest : ∀ c ∈ rest.head?, c.isDigit = false ∧ c ≠ '.') :
    fraction? (fractionText ds ++ rest) = some (ds, rest) := by
  cases ds with
  | nil =>
    show fraction? rest = some ([], rest)
    rw [fraction?]
    rintro rest rfl
    exact absurd rfl (hrest '.' rfl).2
  | cons d ds => exact digits?_append (List.cons_ne_nil d ds) hd fun c hc => (hrest c hc).1

theorem exponentSign_append {sign : Option Char} (hs : ∀ c ∈ sign, isSign c = true)
    {ds : List Char} (hne : ds ≠ []) (hd : ∀ c ∈ ds, c.isDigit = true) (rest : List Char) :
    exponentSign (sign.toList ++ (ds ++ rest)) = (sign, ds ++ rest) := by
  obtain ⟨d, ds, rfl⟩ := List.exists_cons_of_ne_nil hne
  cases sign with
  | none =>
    show exponentSign (d :: (ds ++ rest)) = _
    rw [exponentSign, if_neg (by simp [isSign_of_isDigit (hd d List.mem_cons_self)])]
    rfl
  | some c =>
    show exponentSign (c :: (d :: ds ++ rest)) = _
    rw [exponentSign, if_pos (hs c rfl)]

theorem exponent?_exponentText {e : Option Exponent} (he : ∀ x ∈ e, x.WellFormed)
    (hrest : EndsNumeral rest) : exponent? (exponentText e ++ rest) = some (e, rest) := by
  cases e with
  | none =>
    show exponent? rest = _
    cases rest with
    | nil => rfl
    | cons c rest => rw [exponent?, (hrest c rfl).2.2, if_neg Bool.false_ne_true]
  | some x =>
    obtain ⟨hletter, hsign, hdigits, hne⟩ := he x rfl
    have htext : exponentText (some x) ++ rest =
        x.letter :: (x.sign.toList ++ (x.digits ++ rest)) := by
      show x.letter :: (x.sign.toList ++ x.digits) ++ rest = _
      rw [List.cons_append, List.append_assoc]
    rw [htext, exponent?, if_pos hletter, exponentSign_append hsign hne hdigits,
      digits?_append hne hdigits fun c hc => (hrest c hc).1]
    rfl

/-- Neither a digit nor a point is at the front of an exponent. -/
theorem head_exponentText {e : Option Exponent} (he : ∀ x ∈ e, x.WellFormed)
    (hrest : EndsNumeral rest) :
    ∀ c ∈ (exponentText e ++ rest).head?, c.isDigit = false ∧ c ≠ '.' := by
  cases e with
  | none => exact fun c hc => ⟨(hrest c hc).1, (hrest c hc).2.1⟩
  | some x =>
    rintro c ⟨⟩
    rcases isExponentLetter_iff.mp (he x rfl).letter with hl | hl
    · rw [hl]
      decide
    · rw [hl]
      decide

/-- **A numeral is read back after its sign.** -/
theorem numeral?_text {n : Numeral} (hn : n.InJson) (hrest : EndsNumeral rest) :
    numeral? n.sign (n.whole ++ (fractionText n.fraction ++ (exponentText n.exponent ++ rest))) =
      some (n, rest) := by
  obtain ⟨sign, whole, fraction, exponent⟩ := n
  obtain ⟨⟨-, -, hfraction, -, hexponent⟩, -, k, rfl⟩ := hn
  dsimp only at hfraction hexponent ⊢
  have hhead := head_exponentText hexponent hrest
  have hpoint : ∀ c ∈ (fractionText fraction ++ (exponentText exponent ++ rest)).head?,
      c.isDigit = false := by
    cases fraction with
    | nil => exact fun c hc => (hhead c hc).1
    | cons d ds =>
      rintro c ⟨⟩
      rfl
  rw [numeral?, whole?_toDigits k hpoint, Option.bind_eq_bind, Option.bind_some]
  dsimp only
  rw [fraction?_fractionText hfraction hhead, Option.bind_some]
  dsimp only
  rw [exponent?_exponentText hexponent hrest]
  rfl

/-! ## Marks -/

/-- A mark is read, and then the others. -/
theorem ofText?_cons {mark : JsonMark} (hblank : isJsonBlank c = false)
    (h : startingWith? c cs = some (mark, rest)) :
    ofText? (c :: cs) = (ofText? rest).map (mark :: ·) := by
  rw [ofText?, hblank, if_neg Bool.false_ne_true]
  split
  · next mark' rest' h' =>
    obtain ⟨rfl, rfl⟩ := Prod.mk.inj (Option.some.inj (h.symm.trans h'))
    rfl
  · next h' =>
    rw [h] at h'
    cases h'

/-- **A string is read back.** -/
theorem ofText?_string (text : String) (rest : List Char) :
    ofText? ((JsonValue.stringText text).toList ++ rest) =
      (ofText? rest).map (string (text.toList.map .char) :: ·) := by
  have htext : (JsonValue.stringText text).toList ++ rest =
      '"' :: (text.toList.flatMap escapeChar ++ '"' :: rest) := by
    simp [JsonValue.stringText]
  rw [htext]
  refine ofText?_cons rfl ?_
  show ((stringChars? _).map fun r => (string r.1, r.2)) = _
  rw [stringChars?_escaped]
  rfl

/-- No mark of another kind begins with a digit. -/
theorem startingWith?_digit (hc : c.isDigit = true) (cs : List Char) :
    isJsonBlank c = false
      ∧ startingWith? c cs = (numeral? none (c :: cs)).map fun r => (number r.1, r.2) := by
  have hne : ∀ d : Char, d.isDigit = false → (c == d) = false := by
    rintro d hd
    rw [beq_eq_false_iff_ne]
    rintro rfl
    rw [hc] at hd
    cases hd
  have hlookup : ∀ {α : Type} (table : List (Char × α)), table.all (!·.1.isDigit) = true →
      table.lookup c = none := by
    intro α table htable
    refine List.lookup_eq_none_iff.mpr fun m hm => ?_
    have hdigit := List.all_eq_true.mp htable m hm
    rw [Bool.not_eq_true'] at hdigit
    exact bne_iff_ne.mpr (beq_eq_false_iff_ne.mp (hne m.1 hdigit))
  constructor
  · rw [isJsonBlank, hne ' ' rfl, hne '\t' rfl, hne '\n' rfl, hne '\r' rfl]
    rfl
  · have hquote := beq_eq_false_iff_ne.mp (hne '"' rfl)
    have hminus := beq_eq_false_iff_ne.mp (hne '-' rfl)
    rw [startingWith?, hlookup punctuation rfl, hlookup literals rfl]
    dsimp only
    rw [if_neg hquote, if_neg hminus, if_pos hc]

/-- **A numeral is read back, if what follows does not go on with it.** -/
theorem ofText?_numeral {n : Numeral} (hn : n.InJson) (hrest : EndsNumeral rest) :
    ofText? (n.text ++ rest) = (ofText? rest).map (number n :: ·) := by
  have hread := numeral?_text hn hrest
  rw [n.text_eq, List.append_assoc, List.append_assoc, List.append_assoc]
  cases hsign : n.sign with
  | some s =>
    rw [hsign] at hread
    obtain rfl : s = '-' := by
      rcases isSign_iff.mp (hn.wellFormed.sign s hsign) with rfl | rfl
      · exact absurd hsign hn.sign
      · rfl
    show ofText? ('-' :: (n.whole ++ (fractionText n.fraction ++
      (exponentText n.exponent ++ rest)))) = _
    refine ofText?_cons rfl ?_
    show ((numeral? (some '-') _).map fun r => (number r.1, r.2)) = _
    rw [hread]
    rfl
  | none =>
    rw [hsign] at hread
    obtain ⟨k, hk⟩ := hn.whole
    obtain ⟨d, ds, hwhole⟩ := List.exists_cons_of_ne_nil (hk ▸ Nat.toDigits_ne_nil : n.whole ≠ [])
    have hd : d.isDigit = true := hn.wellFormed.whole d (hwhole ▸ List.mem_cons_self)
    rw [hwhole, List.cons_append] at hread ⊢
    obtain ⟨hblank, hstart⟩ := startingWith?_digit hd
      (ds ++ (fractionText n.fraction ++ (exponentText n.exponent ++ rest)))
    refine ofText?_cons hblank ?_
    rw [hstart, hread]
    rfl

end JsonMark

end CssTokens
