import CssTokens.Proofs.Binary64.Value
import CssTokens.Proofs.Roundtrip.Digits
import CssTokens.Proofs.Roundtrip.Written
import CssTokens.Serialize.Number
import Mathlib.Tactic.FieldSimp

/-!
# Written numbers are numerals

Whatever its value, a number is written as a numeral: a sign or none, digits, a fraction or none and
an exponent or none. Infinity is no exception. An integer is written as the numeral of its value.

Main statements: `NumericValue.write_eq` says which text is written, `NumericValue.exists_numeral`
that the text is a numeral.
-/

namespace CssTokens

/-! ## Numerals without a sign -/

namespace Numeral

/-- The text is that of a numeral without a sign, and a fraction or an exponent shows in it. The
digits before the point are those of a number. -/
structure Writes (n : Numeral) (cs : List Char) : Prop where
  wellFormed : n.WellFormed
  sign : n.sign = none
  whole : ∃ k, n.whole = Nat.toDigits 10 k
  text : n.text = cs
  isInteger : n.isInteger = !hasPointOrExponent cs

/-- No digit is a point or the letter of an exponent. -/
theorem hasPointOrExponent_digits {ds : List Char} (hd : ∀ c ∈ ds, c.isDigit = true) :
    hasPointOrExponent ds = false := by
  refine List.any_eq_false.mpr fun c hc => ?_
  have hdigit := hd c hc
  rw [Bool.or_eq_true, beq_iff_eq, beq_iff_eq, not_or]
  constructor <;> rintro rfl <;> cases hdigit

/-- A numeral is written as digits and a fraction. -/
theorem writes_fraction (k : Nat) {fraction : List Char} (hf : ∀ c ∈ fraction, c.isDigit = true) :
    Writes { sign := none, whole := Nat.toDigits 10 k, fraction, exponent := none }
      (Nat.toDigits 10 k ++ fractionText fraction) where
  wellFormed := ⟨by simp, isDigit_of_mem_toDigits, hf, .inl Nat.toDigits_ne_nil, by simp⟩
  sign := rfl
  whole := ⟨k, rfl⟩
  text := by simp [text_eq, exponentText]
  isInteger := by
    cases fraction with
    | nil =>
      rw [fractionText, List.isEmpty_nil, if_pos rfl, List.append_nil,
        hasPointOrExponent_digits isDigit_of_mem_toDigits]
      rfl
    | cons d ds => simp [hasPointOrExponent, fractionText, Numeral.isInteger]

theorem writes_digits (k : Nat) :
    Writes { sign := none, whole := Nat.toDigits 10 k, fraction := [], exponent := none }
      (Nat.toDigits 10 k) := by
  have h := writes_fraction k (List.forall_mem_nil _)
  simpa [fractionText] using h

section
variable {n : Numeral} {cs : List Char} (h : n.Writes cs)
include h

/-- What shows neither a fraction nor an exponent has none. -/
theorem Writes.parts (hn : hasPointOrExponent cs = false) :
    n.fraction = [] ∧ n.exponent = none := by
  have hint : n.isInteger = true := by
    rw [h.isInteger, hn]
    rfl
  rwa [Numeral.isInteger, Bool.and_eq_true, List.isEmpty_iff, Option.isNone_iff_eq_none] at hint

/-- An exponent may follow. -/
theorem Writes.exponent (hn : n.exponent = none) {e : Exponent} (he : e.WellFormed)
    (hletter : e.letter = 'e') : Writes { n with exponent := some e } (cs ++ e.text) where
  wellFormed := { h.wellFormed with exponent := fun _ hx => Option.some.inj hx ▸ he }
  sign := h.sign
  whole := h.whole
  text := by
    rw [← h.text, text_eq, text_eq, hn]
    simp [exponentText]
  isInteger := by simp [hasPointOrExponent, Exponent.text, hletter, Numeral.isInteger]

/-- A point and a zero may follow an integer. -/
theorem Writes.pointZero (hn : hasPointOrExponent cs = false) :
    Writes { n with fraction := ['0'] } (cs ++ ['.', '0']) where
  wellFormed :=
    { h.wellFormed with
      fraction := List.forall_mem_singleton.mpr rfl
      nonempty := .inr (List.cons_ne_nil _ _) }
  sign := h.sign
  whole := h.whole
  text := by
    obtain ⟨hfraction, hexponent⟩ := h.parts hn
    rw [← h.text, text_eq, text_eq, hfraction, hexponent]
    simp [fractionText, exponentText]
  isInteger := by simp [hasPointOrExponent, Numeral.isInteger]

end

end Numeral

/-! ## Decimals -/

namespace Numeral

/-- The decimal that a numeral writes after its sign. -/
def decimal (n : Numeral) : Decimal where
  digits := ofDigits (n.whole ++ n.fraction)
  exponent := (n.exponent.map Exponent.value).getD 0 - n.fraction.length

variable {n : Numeral}

/-- An exponent is a power of ten. -/
theorem decimal_exponent (hn : n.exponent = none) (e : Exponent) :
    decimal { n with exponent := some e } =
      { n.decimal with exponent := n.decimal.exponent + e.value } := by
  unfold decimal
  rw [hn]
  simp [sub_eq_neg_add]

/-- A zero after the point changes nothing. -/
theorem decimal_pointZero (hn : n.fraction = []) :
    (decimal { n with fraction := ['0'] }).value = n.decimal.value := by
  have hdigits : ofDigits (n.whole ++ ['0']) = ofDigits n.whole * 10 := by
    rw [ofDigits_append]
    rfl
  unfold Decimal.value decimal
  dsimp only
  rw [hdigits, hn, List.append_nil, List.length_singleton, List.length_nil, Nat.cast_mul,
    Nat.cast_one, zpow_sub_one₀ (by norm_num)]
  norm_num
  ring

end Numeral

/-- **A coefficient is written as a numeral**, and as an integer if it is one. -/
theorem exists_writes_fixedText (digits places : Nat) :
    ∃ n : Numeral, n.Writes (fixedText digits places) ∧ n.exponent = none
      ∧ n.decimal.value = digits / 10 ^ places
      ∧ (n.isInteger = true ↔ ∃ k : Nat, (digits : ℚ) / 10 ^ places = k) := by
  obtain ⟨whole, fraction, hf, htext, hvalue, hinteger⟩ := fixedText_eq digits places
  rw [htext]
  refine ⟨_, Numeral.writes_fraction whole hf, rfl, ?_, ?_⟩
  · have hvalue' : (ofDigits (Nat.toDigits 10 whole ++ fraction) : ℚ) * 10 ^ places =
        digits * 10 ^ fraction.length := by exact_mod_cast hvalue
    unfold Decimal.value Numeral.decimal
    dsimp only
    rw [Option.map_none, Option.getD_none, zero_sub, zpow_neg, zpow_natCast, ← div_eq_mul_inv,
      div_eq_div_iff (by positivity) (by positivity), hvalue']
  · have hinteger' : Numeral.isInteger
        { sign := none, whole := Nat.toDigits 10 whole, fraction, exponent := none } = true ↔
        fraction = [] := by simp [Numeral.isInteger]
    rw [hinteger', hinteger]
    constructor
    · rintro ⟨k, rfl⟩
      exact ⟨k, by push_cast; field_simp⟩
    · rintro ⟨k, hk⟩
      rw [div_eq_iff (by positivity)] at hk
      exact ⟨k, by rw [mul_comm]; exact_mod_cast hk⟩

namespace FloatFormat

/-- The decimal of which all digits are written. -/
def kept (f : FloatFormat) (d : Decimal) : Decimal :=
  match f.precision with
  | some n => d.roundTo n
  | none => d

theorem kept_exponent (f : FloatFormat) (d : Decimal) : (f.kept d).exponent = d.exponent := by
  unfold kept
  split
  · unfold Decimal.roundTo
    split <;> rfl
  · rfl

/-- The sign of an exponent is a single one, and it is a minus sign for a negative exponent. -/
theorem exponentSign_eq (f : FloatFormat) (power : Int) :
    ∃ sign : Option Char, (∀ c ∈ sign, isSign c = true) ∧ f.exponentSign power = sign.toList
      ∧ (sign = some '-' ↔ power < 0) := by
  unfold exponentSign
  split
  · next h => exact ⟨some '-', by simp [isSign], rfl, by simpa using h⟩
  · next h =>
    split
    · exact ⟨some '+', by simp [isSign], rfl, by simpa using h⟩
    · exact ⟨none, by simp, rfl, by simpa using h⟩

/-- An exponent is written with its value. -/
theorem exists_exponent (f : FloatFormat) (power : Int) :
    ∃ e : Exponent, e.WellFormed ∧ e.letter = 'e' ∧ e.value = power
      ∧ e.text = 'e' :: f.exponentSign power ++ Nat.toDigits 10 power.natAbs := by
  obtain ⟨sign, hsign, htext, hminus⟩ := f.exponentSign_eq power
  refine ⟨{ letter := 'e', sign, digits := Nat.toDigits 10 power.natAbs },
    ⟨rfl, hsign, isDigit_of_mem_toDigits, Nat.toDigits_ne_nil⟩, rfl, ?_, ?_⟩
  · unfold Exponent.value
    dsimp only
    rw [ofDigits_toDigits]
    split
    · next h =>
      rw [hminus] at h
      omega
    · next h =>
      rw [hminus] at h
      omega
  · rw [htext]
    rfl

/-- In positional notation the coefficient is the number, with or without places after the point. -/
theorem exists_coefficient (digits : Nat) (exponent : Int) :
    ∃ coefficient places : Nat,
      (if 0 ≤ exponent then fixedText (digits * Nat.pow 10 exponent.toNat) 0
        else fixedText digits (-exponent).toNat) = fixedText coefficient places
      ∧ (coefficient : ℚ) / 10 ^ places = digits * 10 ^ exponent := by
  split
  · next h =>
    refine ⟨_, _, rfl, ?_⟩
    rw [Nat.cast_mul, Nat.pow_eq, Nat.cast_pow, Nat.cast_ofNat, ← zpow_natCast (10 : ℚ),
      Int.toNat_of_nonneg h, pow_zero, div_one]
  · next h =>
    refine ⟨_, _, rfl, ?_⟩
    rw [← zpow_natCast, Int.toNat_of_nonneg (by omega), zpow_neg, div_inv_eq_mul]

/-- **A decimal is written as a numeral**, in either notation, and as an integer if it is one and
its notation is positional. -/
theorem exists_writes_decimalText (f : FloatFormat) (d : Decimal) :
    ∃ n : Numeral, n.Writes (f.decimalText d) ∧ n.decimal.value = (f.kept d).value
      ∧ (n.isInteger = true ↔
        (f.minPoint < d.point ∧ d.point ≤ f.maxPoint) ∧ ∃ k : Nat, (f.kept d).value = k) := by
  have hexponent := f.kept_exponent d
  unfold decimalText
  extract_lets written power
  have hvalue : (f.kept d).value = written.digits * 10 ^ d.exponent := by
    rw [← hexponent]
    rfl
  rw [hvalue]
  split
  · next hpositional =>
    rw [Bool.and_eq_true, decide_eq_true_eq, decide_eq_true_eq] at hpositional
    obtain ⟨coefficient, places, htext, heq⟩ := exists_coefficient written.digits d.exponent
    obtain ⟨n, hn, -, hdecimal, hinteger⟩ := exists_writes_fixedText coefficient places
    rw [heq] at hdecimal hinteger
    rw [htext]
    exact ⟨n, hn, hdecimal, hinteger.trans (and_iff_right hpositional).symm⟩
  · next hpositional =>
    rw [Bool.and_eq_true, decide_eq_true_eq, decide_eq_true_eq] at hpositional
    obtain ⟨n, hn, hnone, hdecimal, -⟩ := exists_writes_fixedText written.digits (d.length - 1)
    obtain ⟨e, he, hletter, hpower, htext⟩ := f.exists_exponent power
    refine ⟨{ n with exponent := some e }, ?_, ?_, ?_⟩
    · have hwrites := hn.exponent hnone he hletter
      rwa [htext, ← List.append_assoc] at hwrites
    · have hlength : 0 < d.length := Nat.length_toDigits_pos
      have hpoint : power = d.exponent + (d.length - 1 : Nat) := by
        show d.exponent + (d.length : Int) - 1 = _
        omega
      rw [Numeral.decimal_exponent hnone, hpower, Decimal.value_exponent, hdecimal, hpoint,
        zpow_add₀ (by norm_num), zpow_natCast]
      field_simp
    · simp [Numeral.isInteger, hpositional]

end FloatFormat

/-! ## Written floating-point numbers -/

namespace FloatFormat

variable (f : FloatFormat) (x : Binary64)

/-- The decimal that is written, without its sign. -/
def written : Decimal :=
  if x.isZero then { digits := 0, exponent := 0 } else f.kept (x.shortest f.digits)

/-- Whether the number is written without an exponent. -/
def IsPositional : Prop :=
  f.minPoint < (x.shortest f.digits).point ∧ (x.shortest f.digits).point ≤ f.maxPoint

/-- The text without a sign, also for infinity. -/
def unsignedText : List Char :=
  let body := f.magnitudeText x
  if x.isIntegral && !hasPointOrExponent body then body ++ ['.', '0'] else body

/-- The sign stands before the rest, unless infinity has a text of its own. -/
theorem text_eq (h : x.isInfinite = false ∨ f.infinity = none) :
    f.text x = (if x.negative then ['-'] else []) ++ f.unsignedText x := by
  unfold text
  rcases h with h | h
  · rw [h]
    rfl
  · rw [h]
    cases x.isInfinite <;> rfl

/-- The absolute value is written as a numeral. -/
theorem exists_writes_magnitudeText :
    ∃ n : Numeral, n.Writes (f.magnitudeText x) ∧ n.decimal.value = (f.written x).value
      ∧ (x.isZero = false →
        (n.isInteger = true ↔ f.IsPositional x ∧ ∃ k : Nat, (f.written x).value = k)) := by
  unfold magnitudeText written
  by_cases hz : x.isZero = true
  · rw [if_pos hz, if_pos hz]
    refine ⟨_, Numeral.writes_digits 0, rfl, fun h => ?_⟩
    rw [hz] at h
    cases h
  · rw [if_neg hz, if_neg hz]
    obtain ⟨n, hn, hvalue, hinteger⟩ := f.exists_writes_decimalText (x.shortest f.digits)
    exact ⟨n, hn, hvalue, fun _ => hinteger⟩

/-- **A floating-point number is written as a numeral of its decimal**, and as an integer if the
decimal is one and the number is not. -/
theorem exists_writes_unsignedText :
    ∃ n : Numeral, n.Writes (f.unsignedText x) ∧ n.decimal.value = (f.written x).value
      ∧ (n.isInteger = true ↔
        x.isIntegral = false ∧ f.IsPositional x ∧ ∃ k : Nat, (f.written x).value = k) := by
  obtain ⟨n, hn, hvalue, hinteger⟩ := f.exists_writes_magnitudeText x
  unfold unsignedText
  dsimp only
  split
  · next h =>
    rw [Bool.and_eq_true, Bool.not_eq_true'] at h
    have hzero := Numeral.decimal_pointZero (hn.parts h.2).1
    exact ⟨_, hn.pointZero h.2, hzero.trans hvalue, by simp [Numeral.isInteger, h.1]⟩
  · next h =>
    refine ⟨n, hn, hvalue, ?_⟩
    cases hintegral : x.isIntegral with
    | true =>
      -- The text of an integer has a point or an exponent then.
      have hpoint : hasPointOrExponent (f.magnitudeText x) = true := by
        simpa [hintegral] using h
      simp [hn.isInteger, hpoint]
    | false =>
      exact (hinteger (Binary64.isZero_eq_false hintegral)).trans (and_iff_right rfl).symm

end FloatFormat

/-! ## Written values -/

namespace NumericValue

open WriteM

/-- The sign that the value is written with, a plus sign only if `plus`. -/
def sign (plus : Bool) (v : NumericValue) : Option Char :=
  if v.isUnsigned then if plus then some '+' else none else some '-'

/-- The text of the value without a sign. -/
def unsignedText : NumericValue → List Char
  | integer n => Nat.toDigits 10 n.toInt.natAbs
  | float x => FloatFormat.css.unsignedText x

/-- Floating-point numbers have no text but that of a number, not even infinity. -/
theorem cssText_eq (v : NumericValue) : v.cssText = (v.sign false).toList ++ v.unsignedText := by
  cases v with
  | integer n =>
    show integerText n.toInt = _
    unfold integerText sign isUnsigned unsignedText
    by_cases hn : n.toInt < 0
    · simp [hn, Int.not_le.mpr hn]
    · simp [hn, Int.not_lt.mp hn]
  | float x =>
    show FloatFormat.css.text x = _
    rw [FloatFormat.text_eq _ x (.inr rfl), sign, isUnsigned]
    cases x.negative <;> rfl

/-- **What is written for a number.** -/
theorem write_eq (plus : Bool) (v : NumericValue) :
    v.write plus = chars ((v.sign plus).toList ++ v.unsignedText) := by
  rw [write, cssText_eq, sign, sign]
  cases v.isUnsigned <;> cases plus <;> rfl

/-- The decimal that is written for a floating-point number, without its sign. -/
def written (x : Binary64) : Decimal :=
  FloatFormat.css.written x

/-- Whether a floating-point number is written without an exponent. -/
def isPositional (x : Binary64) : Prop :=
  FloatFormat.css.IsPositional x

/-- **A floating-point number is written as a numeral of its decimal**, and as an integer if the
decimal is one and the number is not. -/
theorem exists_writes_float (x : Binary64) :
    ∃ n : Numeral, n.Writes (unsignedText (.float x)) ∧ n.decimal.value = (written x).value
      ∧ (n.isInteger = true ↔
        x.isIntegral = false ∧ isPositional x ∧ ∃ k : Nat, (written x).value = k) :=
  FloatFormat.css.exists_writes_unsignedText x

/-- The text without a sign is a numeral, and that of an integer is its digits. -/
theorem exists_writes (v : NumericValue) :
    ∃ n : Numeral, n.Writes v.unsignedText
      ∧ ∀ i, v = integer i → n.isInteger = true ∧ ofDigits n.whole = i.toInt.natAbs := by
  cases v with
  | integer i =>
    refine ⟨_, Numeral.writes_digits i.toInt.natAbs, ?_⟩
    rintro j ⟨⟩
    exact ⟨rfl, ofDigits_toDigits _⟩
  | float x =>
    obtain ⟨n, hn, -, -⟩ := exists_writes_float x
    exact ⟨n, hn, fun i hi => by cases hi⟩

/-- A numeral with the sign and the digits of an integer has it for its value. -/
theorem value_of_digits {n : Numeral} {plus : Bool} {i : Int64} (hint : n.isInteger = true)
    (hwhole : ofDigits n.whole = i.toInt.natAbs) (hsign : n.sign = (integer i).sign plus) :
    n.value = integer i := by
  have hinteger : n.integer = i.toInt := by
    rw [Numeral.integer, Numeral.isNegative, hwhole, hsign, sign, isUnsigned]
    by_cases hi : 0 ≤ i.toInt
    · rw [decide_eq_true hi, Int.natAbs_of_nonneg hi]
      cases plus <;> rfl
    · rw [decide_eq_false hi, Int.ofNat_natAbs_of_nonpos (by omega), Int.neg_neg]
      rfl
  have hfits : n.fits = true := by
    rw [Numeral.fits, hinteger, Bool.and_eq_true, decide_eq_true_eq, decide_eq_true_eq]
    exact ⟨Int64.minValue_le_toInt i, Int64.toInt_le i⟩
  rw [Numeral.value, hint, hfits, hinteger, Int64.ofInt_toInt]
  rfl

/-- A numeral that writes a value without its sign gets the sign. -/
theorem write_signed {n : Numeral} {v : NumericValue} (plus : Bool)
    (hn : n.Writes v.unsignedText) :
    Numeral.WellFormed { n with sign := v.sign plus }
      ∧ v.write plus = chars (Numeral.text { n with sign := v.sign plus }) := by
  constructor
  · refine { hn.wellFormed with sign := ?_ }
    unfold sign
    cases v.isUnsigned <;> cases plus <;> simp [isSign]
  · rw [write_eq, ← hn.text, Numeral.text_eq, Numeral.text_eq, hn.sign]
    rfl

/-- **A number is written as a numeral**, and an integer as one with its value. -/
theorem exists_numeral (plus : Bool) (v : NumericValue) :
    ∃ n : Numeral, n.WellFormed ∧ n.sign = v.sign plus ∧ v.write plus = chars n.text
      ∧ ∀ i, v = integer i → n.value = integer i := by
  obtain ⟨n, hn, hinteger⟩ := v.exists_writes
  obtain ⟨hwellFormed, hwrite⟩ := write_signed plus hn
  refine ⟨{ n with sign := v.sign plus }, hwellFormed, rfl, hwrite, ?_⟩
  rintro i rfl
  obtain ⟨hint, hwhole⟩ := hinteger i rfl
  exact value_of_digits hint hwhole rfl

end NumericValue

end CssTokens
