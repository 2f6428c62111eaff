import CssTokens.Proofs.Split.Item
import CssTokens.Proofs.Split.Numeral

/-!
# Numerals read back

A numeral is read back from its text, unless the text goes on as if it belonged to the numeral: with
a digit, with a point and a digit, or with an exponent.

Main statement: `numeral_text`.
-/

namespace CssTokens

/-- The digits of a fraction with the point before them. -/
def fractionText (ds : List Char) : List Char :=
  if ds.isEmpty then [] else '.' :: ds

/-- The text of an exponent, if there is one. -/
def exponentText (e : Option Exponent) : List Char :=
  (e.map Exponent.text).getD []

theorem Numeral.text_eq (n : Numeral) :
    n.text =
      n.sign.toList ++ (n.whole ++ (fractionText n.fraction ++ exponentText n.exponent)) := by
  rw [text, List.append_assoc, List.append_assoc, fractionText, exponentText]

/-- After its sign, a numeral begins with a digit or with a point. -/
theorem Numeral.WellFormed.exists_text_eq {n : Numeral} (hn : n.WellFormed) :
    ∃ d ds, n.text = n.sign.toList ++ d :: ds ∧ (d.isDigit = true ∨ d = '.') := by
  rw [Numeral.text_eq]
  cases hw : n.whole with
  | cons d ds => exact ⟨d, _, rfl, .inl (hn.whole d (by simp [hw]))⟩
  | nil =>
    obtain ⟨d, ds, hf⟩ := List.exists_cons_of_ne_nil (hn.nonempty.resolve_left fun h => h hw)
    exact ⟨'.', _, by rw [hf]; rfl, .inr rfl⟩

/-- What the text of a numeral is made of. -/
theorem Numeral.WellFormed.mem_text {n : Numeral} (hn : n.WellFormed) {c : Char}
    (hc : c ∈ n.text) :
    c.isDigit = true ∨ isSign c = true ∨ c = '.' ∨ isExponentLetter c = true := by
  rw [Numeral.text_eq, List.mem_append, List.mem_append, List.mem_append] at hc
  rcases hc with hc | hc | hc | hc
  · exact .inr (.inl (hn.sign c (Option.mem_toList.mp hc)))
  · exact .inl (hn.whole c hc)
  · unfold fractionText at hc
    split at hc
    · cases hc
    · rcases List.mem_cons.mp hc with rfl | hc
      · exact .inr (.inr (.inl rfl))
      · exact .inl (hn.fraction c hc)
  · cases he : n.exponent with
    | none =>
      rw [he] at hc
      cases hc
    | some e =>
      obtain ⟨hletter, hsign, hdigits, -⟩ := hn.exponent e he
      rw [he] at hc
      have hc : c ∈ e.letter :: e.sign.toList ++ e.digits := hc
      rw [List.mem_append, List.mem_cons] at hc
      rcases hc with (rfl | hc) | hc
      · exact .inr (.inr (.inr hletter))
      · exact .inr (.inl (hsign c (Option.mem_toList.mp hc)))
      · exact .inl (hdigits c hc)

namespace Split

/-- A text that does not look like the rest of a numeral. -/
structure EndsNumeral (rest : List Char) : Prop where
  digits : startsDigits rest = false
  fraction : (fraction rest).1 = []
  exponent : (exponent rest).1 = none

/-! ## Digits and signs -/

variable {rest : List Char}

theorem digits_append {ds : List Char} (hd : ∀ c ∈ ds, c.isDigit = true)
    (h : startsDigits rest = false) : digits (ds ++ rest) = (ds, rest) := by
  induction ds with
  | nil =>
    have hnil : (digits rest).1 = [] := by
      rw [← List.isEmpty_iff, digits_isEmpty, h]
      rfl
    rw [List.nil_append, eq_of_fst hnil, digits_keeps hnil]
  | cons d ds ih =>
    obtain ⟨hd, hds⟩ := List.forall_mem_cons.mp hd
    rw [List.cons_append, digits_cons hd, ih hds]

theorem nextIf_toList {p : Char → Bool} {sign : Option Char} (hs : ∀ c ∈ sign, p c = true)
    (h : (nextIf p rest).1 = none) : nextIf p (sign.toList ++ rest) = (sign, rest) := by
  cases sign with
  | none => exact (Item.satisfying p).keeps h
  | some c => exact nextIf_pos (hs c rfl)

/-- No sign comes before a digit. -/
theorem nextIf_isSign_digits {ds : List Char} (hd : ∀ c ∈ ds, c.isDigit = true) (hne : ds ≠ []) :
    (nextIf isSign (ds ++ rest)).1 = none := by
  obtain ⟨d, ds, rfl⟩ := List.exists_cons_of_ne_nil hne
  rw [List.cons_append, nextIf_neg (isSign_of_isDigit (hd d List.mem_cons_self))]

/-! ## Fractions and exponents -/

theorem fraction_fractionText {ds : List Char} (hd : ∀ c ∈ ds, c.isDigit = true)
    (h : startsDigits rest = false) (hf : (fraction rest).1 = []) :
    fraction (fractionText ds ++ rest) = (ds, rest) := by
  cases ds with
  | nil =>
    show fraction rest = _
    rw [eq_of_fst hf, fraction_keeps hf]
  | cons d ds =>
    have hdigits : digits ((d :: ds) ++ rest) = (d :: ds, rest) := digits_append hd h
    show fraction ('.' :: ((d :: ds) ++ rest)) = _
    rw [fraction_point (by rw [hdigits]; rfl), hdigits]

theorem exponent_exponentText {e : Option Exponent} (he : ∀ x ∈ e, x.WellFormed)
    (h : EndsNumeral rest) : exponent (exponentText e ++ rest) = (e, rest) := by
  cases e with
  | none => exact attempt_keeps _ h.exponent
  | some x =>
    obtain ⟨letter, sign, ds⟩ := x
    obtain ⟨hletter, hsign, hdigits, hne⟩ := he _ rfl
    have htext : exponentText (some ⟨letter, sign, ds⟩) ++ rest =
        letter :: (sign.toList ++ (ds ++ rest)) := by
      show letter :: (sign.toList ++ ds) ++ rest = _
      rw [List.cons_append, List.append_assoc]
    rw [htext]
    refine attempt_some ?_
    rw [bind_apply, nextIf_pos hletter]
    dsimp only
    rw [bind_apply, nextIf_toList hsign (nextIf_isSign_digits hdigits hne), bind_apply,
      digits_append hdigits h.digits]
    cases ds with
    | nil => exact absurd rfl hne
    | cons d ds => rfl

/-- Neither a digit nor a fraction begins where an exponent does. -/
theorem exponentText_ends {e : Option Exponent} (he : ∀ x ∈ e, x.WellFormed)
    (h : EndsNumeral rest) :
    startsDigits (exponentText e ++ rest) = false ∧ (fraction (exponentText e ++ rest)).1 = [] := by
  cases e with
  | none => exact ⟨h.digits, h.fraction⟩
  | some x =>
    show startsDigits (x.letter :: _) = false ∧ (fraction (x.letter :: _)).1 = []
    rcases isExponentLetter_iff.mp (he x rfl).letter with hl | hl
    · rw [hl]
      exact ⟨rfl, rfl⟩
    · rw [hl]
      exact ⟨rfl, rfl⟩

/-! ## Numerals -/

/-- **A numeral is read back up to where none can go on.** -/
theorem numeral_text {n : Numeral} (hn : n.WellFormed) (h : EndsNumeral rest) :
    numeral (n.text ++ rest) = (some n, rest) := by
  obtain ⟨sign, whole, ds, e⟩ := n
  obtain ⟨hsign, hwhole, hds, hne, he⟩ := hn
  obtain ⟨hdigits, hfraction⟩ := exponentText_ends he h
  -- The digits end before the point, or else before the exponent.
  have hpoint : startsDigits (fractionText ds ++ (exponentText e ++ rest)) = false := by
    cases ds with
    | nil => exact hdigits
    | cons d ds => rfl
  have hnosign : (nextIf isSign (whole ++ (fractionText ds ++ (exponentText e ++ rest)))).1 =
      none := by
    cases whole with
    | nil =>
      obtain ⟨d, ds, rfl⟩ := List.exists_cons_of_ne_nil (hne.resolve_left fun hw => hw rfl)
      rfl
    | cons d whole => exact nextIf_isSign_digits hwhole (List.cons_ne_nil d whole)
  have hsome : (whole.isEmpty && ds.isEmpty) = false := by
    rw [Bool.and_eq_false_iff, List.isEmpty_eq_false_iff, List.isEmpty_eq_false_iff]
    exact hne
  rw [Numeral.text_eq, List.append_assoc, List.append_assoc, List.append_assoc]
  refine attempt_some ?_
  rw [bind_apply, nextIf_toList hsign hnosign, bind_apply, digits_append hwhole hpoint, bind_apply,
    fraction_fractionText hds hdigits hfraction]
  dsimp only
  rw [hsome, if_neg Bool.false_ne_true, bind_apply, exponent_exponentText he h]
  rfl

end Split

end CssTokens
