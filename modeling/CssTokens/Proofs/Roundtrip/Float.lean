import CssTokens.Proofs.Roundtrip.Number
import CssTokens.Proofs.Roundtrip.WrittenFloat

/-!
# Floating-point numbers read back

The text of a finite floating-point number is read back as one number. It is a floating-point number
again, unless the number is no integer and its first fifteen digits are one. It is near the number,
but the five largest numbers are read back as infinity.

Main statements: `float_reads` and `float_reads_near`.
-/

namespace CssTokens

open Binary64

/-! ## The values of numerals -/

namespace NumericValue

/-- Whether a value is no infinity. -/
def isFinite : NumericValue → Bool
  | integer _ => true
  | float x => !x.isInfinite

/-- The rational number that a finite value stands for. -/
def rat : NumericValue → ℚ
  | integer i => i.toInt
  | float x => x.value

end NumericValue

namespace Numeral

variable {n : Numeral}

theorem decimal_of_isInteger (h : n.isInteger = true) : n.decimal.value = ofDigits n.whole := by
  rw [isInteger, Bool.and_eq_true, List.isEmpty_iff, Option.isNone_iff_eq_none] at h
  unfold decimal Decimal.value
  dsimp only
  rw [h.1, h.2, List.append_nil]
  simp

/-- An integer of few bits fits. -/
theorem fits_of_lt (h : n.isInteger = true) (hlt : n.decimal.value < 2 ^ 53) : n.fits = true := by
  rw [decimal_of_isInteger h] at hlt
  have hdigits : ofDigits n.whole < 2 ^ 53 := by exact_mod_cast hlt
  have hmin : Int64.minValue.toInt = -2 ^ 63 := by decide
  have hmax : Int64.maxValue.toInt = 2 ^ 63 - 1 := by decide
  rw [fits, hmin, hmax, Bool.and_eq_true, decide_eq_true_eq, decide_eq_true_eq, integer]
  split <;> omega

/-- **An integer that fits is read with its value.** -/
theorem value_of_fits (h : n.isInteger = true) (hfits : n.fits = true) :
    n.value = .integer (Int64.ofInt n.integer)
      ∧ n.value.rat = if n.isNegative then -n.decimal.value else n.decimal.value := by
  have hvalue : n.value = .integer (Int64.ofInt n.integer) := by
    rw [value, h, hfits]
    rfl
  refine ⟨hvalue, ?_⟩
  have hinteger : (Int64.ofInt n.integer).toInt = n.integer := by
    rw [fits, Bool.and_eq_true, decide_eq_true_eq, decide_eq_true_eq] at hfits
    exact Int64.toInt_ofInt_of_le hfits.1 (Int.lt_of_le_of_lt hfits.2 (by decide))
  rw [hvalue, NumericValue.rat, hinteger, integer, decimal_of_isInteger h]
  split <;> push_cast <;> rfl

/-- Any other numeral is rounded. -/
theorem value_of_not_isInteger (h : n.isInteger = false) :
    n.value = .float n.float
      ∧ n.value.rat = if n.isNegative then -n.float.absValue else n.float.absValue := by
  have hvalue : n.value = .float n.float := by
    rw [value, h]
    rfl
  refine ⟨hvalue, ?_⟩
  have hsign : n.float.negative = n.isNegative := ofDecimal_negative _ _ _
  rw [hvalue, NumericValue.rat, Binary64.value, hsign]

end Numeral

namespace NumericValue

open WriteM

/-- The numeral that a floating-point number is written as. -/
structure WritesFloat (n : Numeral) (x : Binary64) : Prop where
  wellFormed : n.WellFormed
  text : (float x).toCss.written = String.ofList n.text
  isNegative : n.isNegative = x.negative
  decimal : n.decimal.value = (written x).value
  isInteger : n.isInteger = true ↔ x.isIntegral = false ∧ ∃ k : Nat, (written x).value = k
  fits : n.isInteger = true → n.fits = true

/-- **A finite floating-point number is written as a numeral**, with its sign. -/
theorem exists_writesFloat {x : Binary64} (hx : x.isInfinite = false) :
    ∃ n : Numeral, WritesFloat n x := by
  obtain ⟨n, hn, hvalue, hinteger⟩ := exists_writes_float x
  obtain ⟨hwellFormed, hwrite⟩ := write_signed false hn
  refine ⟨{ n with sign := (float x).sign false }, hwellFormed, ?_, ?_, hvalue, ?_, fun h => ?_⟩
  · rw [toCss, hwrite, written_chars]
  · show ((float x).sign false == some '-') = x.negative
    cases hx : x.negative <;> simp [sign, isUnsigned, hx]
  · refine hinteger.trans ⟨fun h => ⟨h.1, h.2.2⟩, fun h => ⟨h.1, ?_, h.2⟩⟩
    obtain ⟨k, hk⟩ := h.2
    exact isPositional_of_integer hx h.1 hk
  · have hlt := written_lt_of_not_isIntegral hx (hinteger.mp h).1
    rw [← hvalue] at hlt
    exact Numeral.fits_of_lt h hlt

theorem WritesFloat.reads {n : Numeral} {x : Binary64} (h : WritesFloat n x) (options : Options) :
    Tokenizer.ReadsAs (float x).toCss.written options
      [{ kind := .number, value := (float x).toCss.written, numeric := some n.value }] := by
  rw [h.text]
  exact Tokenizer.readsAs_number h.wellFormed options

end NumericValue

/-! ## Reading back -/

namespace Tokenizer

open NumericValue

variable {x : Binary64}

/-- **The text of a finite floating-point number is read back as one number.** This is a
floating-point number again unless the number is no integer and its decimal of fifteen digits is
one; then it is that integer. -/
theorem float_reads (hx : x.isInfinite = false) (options : Options) :
    ∃ v : NumericValue,
      ReadsAs (float x).toCss.written options
        [{ kind := .number, value := (float x).toCss.written, numeric := some v }]
      ∧ ((∃ y, v = .float y) ↔ x.isIntegral = true ∨ ¬∃ k : Nat, (written x).value = k)
      ∧ ((∃ i, v = .integer i) →
        v.rat = if x.negative then -(written x).value else (written x).value) := by
  obtain ⟨n, hn⟩ := exists_writesFloat hx
  refine ⟨n.value, hn.reads options, ?_⟩
  cases hint : n.isInteger with
  | true =>
    obtain ⟨hi, hwhole⟩ := hn.isInteger.mp hint
    obtain ⟨heq, hrat⟩ := n.value_of_fits hint (hn.fits hint)
    rw [hn.isNegative, hn.decimal] at hrat
    refine ⟨⟨?_, ?_⟩, fun _ => hrat⟩
    · rintro ⟨y, hy⟩
      rw [heq] at hy
      cases hy
    · rintro (h | h)
      · rw [hi] at h
        cases h
      · exact absurd hwhole h
  | false =>
    obtain ⟨heq, -⟩ := n.value_of_not_isInteger hint
    refine ⟨⟨fun _ => ?_, fun _ => ⟨_, heq⟩⟩, ?_⟩
    · by_contra hnone
      rw [not_or, not_not, Bool.not_eq_true] at hnone
      rw [hn.isInteger.mpr hnone] at hint
      cases hint
    · rintro ⟨i, hi⟩
      rw [heq] at hi
      cases hi

/-- An integer keeps a fraction, which shows that it is a floating-point number. -/
theorem float_reads_three :
    (ofMagnitude false 0x4008000000000000).isInfinite = false
      ∧ (float (ofMagnitude false 0x4008000000000000)).toCss.written = "3.0"
      ∧ ∃ y, ReadsAs "3.0" {}
        [{ kind := .number, value := "3.0", numeric := some (.float y) }] := by
  obtain ⟨v, hreads, hfloat, -⟩ :=
    float_reads (by decide : (ofMagnitude false 0x4008000000000000).isInfinite = false) {}
  have hcss : (float (ofMagnitude false 0x4008000000000000)).toCss.written = "3.0" := by
    decide +kernel
  obtain ⟨y, rfl⟩ := hfloat.mpr (.inl (by decide +kernel))
  rw [hcss] at hreads
  exact ⟨by decide, hcss, y, hreads⟩

/-- The largest number below one is written with fifteen digits as one, and without a fraction,
since it is no integer. -/
theorem css_float_below_one :
    (ofString "0.9999999999999999").tokensToEnd.1.map (fun token =>
        (token.kind, token.numeric, token.css)) =
        [(.number, some (.float (ofMagnitude false 0x3FEFFFFFFFFFFFFF)), "1"), (.eof, none, "")]
      ∧ (float (ofMagnitude false 0x3FEFFFFFFFFFFFFF)).toCss.written = "1"
      ∧ ReadsAs "1" {} [{ kind := .number, value := "1", numeric := some (.integer 1) }] := by
  refine ⟨by decide +kernel, by decide +kernel, ?_⟩
  unfold ReadsAs
  decide +kernel

/-! ## How near the number is that is read back -/

/-- With the same sign, numbers are as far from each other as their absolute values. -/
theorem abs_sub_signed (negative : Bool) (r s : ℚ) :
    |(if negative then -r else r) - (if negative then -s else s)| = |r - s| := by
  cases negative with
  | true => rw [if_pos rfl, if_pos rfl, neg_sub_neg, abs_sub_comm]
  | false => rfl

/-- The tolerance for what is written is a small part of a number with a large significand. -/
theorem tolerance_written_le (hz : x.isZero = false) (hs : 2 ^ 30 ≤ x.significand) :
    tolerance (written x).value ≤ x.absValue / 2 ^ 31 := by
  have hbound := (written_bounds hz).2
  have hpos := absValue_pos hz
  refine max_le ?_ ?_
  · norm_num
    linarith
  · have hpow : (2 : ℚ) ^ (-1075 : Int) ≤ 2 ^ (x.exponent - 1) :=
      zpow_le_zpow_right₀ (by norm_num) (by linarith [x.exponent_ge])
    exact hpow.trans (gap_le_of_large hs)

/-- A number with a small significand is not written as an integer. -/
theorem written_ne_of_small (hz : x.isZero = false) (hs : x.significand < 2 ^ 30) (k : Nat) :
    (written x).value ≠ k := by
  intro hk
  obtain ⟨hpos, hlt⟩ := written_bounds hz
  obtain ⟨hvalue, -⟩ := written_near_small hs
  have hs' : (x.significand : ℚ) < 2 ^ 30 := by exact_mod_cast hs
  have hpow : (2 : ℚ) ^ (-1074 : Int) ≤ 2 ^ (-31 : Int) :=
    zpow_le_zpow_right₀ (by norm_num) (by norm_num)
  have hone : (written x).value < 1 := by
    calc (written x).value < 2 * x.absValue := hlt
      _ ≤ 2 * (2 ^ 30 * 2 ^ (-31 : Int)) := by
        rw [hvalue]
        gcongr
      _ = 1 := by norm_num
  rw [hk] at hpos hone
  have hpos' : 0 < k := by exact_mod_cast hpos
  have hone' : k < 1 := by exact_mod_cast hone
  omega

section
variable {n : Numeral} (hn : WritesFloat n x)
include hn

/-- **Numbers with a small significand are read back exactly.** -/
theorem rat_of_small (hs : x.significand < 2 ^ 30) :
    n.value.isFinite = true ∧ n.value.rat = x.value := by
  obtain ⟨hvalue, hnear⟩ := written_near_small hs
  have hint : n.isInteger = false := by
    refine Bool.eq_false_iff.mpr fun hint => ?_
    obtain ⟨hi, k, hk⟩ := hn.isInteger.mp hint
    exact written_ne_of_small (isZero_eq_false hi) hs k hk
  obtain ⟨heq, hrat⟩ := n.value_of_not_isInteger hint
  rw [← hn.decimal] at hnear
  obtain ⟨hfinite, habs⟩ :=
    ofDecimal_subnormal n.isNegative (hs.trans (by norm_num)) hnear
  refine ⟨?_, ?_⟩
  · rw [heq, isFinite, Bool.not_eq_true']
    exact hfinite
  · rw [hrat, Binary64.value, hn.isNegative, hvalue, ← habs]
    rfl

/-- **Numbers with a large significand are read back with a small error**, unless they are among the
five largest ones. -/
theorem rat_near_of_large (hs : 2 ^ 30 ≤ x.significand) (hx : x.magnitude + 5 < infinite) :
    n.value.isFinite = true ∧ |n.value.rat - x.value| ≤ 1 / 10 ^ 6 * x.absValue := by
  have hz : x.isZero = false := by
    refine Bool.eq_false_iff.mpr fun hz => ?_
    rw [significand_of_isZero hz] at hs
    omega
  have hpos := absValue_pos hz
  have hwritten := written_near_large hz hs
  have htolerance := tolerance_written_le hz hs
  rw [Binary64.value, ← hn.isNegative]
  cases hint : n.isInteger with
  | true =>
    obtain ⟨heq, hrat⟩ := n.value_of_fits hint (hn.fits hint)
    refine ⟨by rw [heq]; rfl, ?_⟩
    rw [hrat, abs_sub_signed, hn.decimal]
    linarith
  | false =>
    obtain ⟨heq, hrat⟩ := n.value_of_not_isInteger hint
    have hlimit := written_lt_limit hx
    rw [← hn.decimal] at hlimit hwritten htolerance
    obtain ⟨hfinite, hnear⟩ := ofDecimal_near n.isNegative n.decimal hlimit
    refine ⟨?_, ?_⟩
    · rw [heq, isFinite, Bool.not_eq_true']
      exact hfinite
    · rw [hrat, abs_sub_signed]
      calc |n.float.absValue - x.absValue|
          ≤ |n.float.absValue - n.decimal.value| + |n.decimal.value - x.absValue| :=
            abs_sub_le _ _ _
        _ ≤ tolerance n.decimal.value + x.absValue / 2 ^ 30 := add_le_add hnear hwritten
        _ ≤ 1 / 10 ^ 6 * x.absValue := by linarith only [htolerance, hpos]

/-- **The five largest numbers are read back as infinity.** -/
theorem isInfinite_of_largest (hx : x.isInfinite = false) (hlarge : ¬x.magnitude + 5 < infinite) :
    n.value.isFinite = false := by
  obtain ⟨hi, hlimit⟩ := limit_lt_written hx hlarge
  have hint : n.isInteger = false := by
    refine Bool.eq_false_iff.mpr fun hint => ?_
    rw [(hn.isInteger.mp hint).1] at hi
    cases hi
  rw [← hn.decimal] at hlimit
  rw [(n.value_of_not_isInteger hint).1, isFinite, Bool.not_eq_false']
  exact ofDecimal_isInfinite n.isNegative n.decimal hlimit

end

/-- **The text of a finite floating-point number is read back as one number near it**, which is
finite for all numbers but the five largest ones. -/
theorem float_reads_near (hx : x.isInfinite = false) (options : Options) :
    ∃ v : NumericValue,
      ReadsAs (float x).toCss.written options
        [{ kind := .number, value := (float x).toCss.written, numeric := some v }]
      ∧ (v.isFinite = true ↔ x.magnitude + 5 < infinite)
      ∧ (v.isFinite = true → |v.rat - x.value| ≤ 1 / 10 ^ 6 * max |v.rat| |x.value|) := by
  obtain ⟨n, hn⟩ := exists_writesFloat hx
  refine ⟨n.value, hn.reads options, ?_⟩
  by_cases hmagnitude : x.magnitude + 5 < infinite
  · rcases Nat.lt_or_ge x.significand (2 ^ 30) with hs | hs
    · obtain ⟨hfinite, hrat⟩ := rat_of_small hn hs
      refine ⟨iff_of_true hfinite hmagnitude, fun _ => ?_⟩
      rw [hrat, sub_self, abs_zero]
      positivity
    · obtain ⟨hfinite, hnear⟩ := rat_near_of_large hn hs hmagnitude
      refine ⟨iff_of_true hfinite hmagnitude, fun _ => hnear.trans ?_⟩
      rw [← abs_value]
      gcongr
      exact le_max_right _ _
  · have hinfinite := isInfinite_of_largest hn hx hmagnitude
    rw [hinfinite]
    exact ⟨by simp [hmagnitude], fun h => by cases h⟩

theorem float_reads_near_tenth :
    (ofMagnitude false 0x3FB999999999999A).isInfinite = false
      ∧ ∃ v, ReadsAs "0.1" {} [{ kind := .number, value := "0.1", numeric := some v }]
        ∧ v.isFinite = true
        ∧ |v.rat - (ofMagnitude false 0x3FB999999999999A).value| ≤
          1 / 10 ^ 6 * max |v.rat| |(ofMagnitude false 0x3FB999999999999A).value| := by
  obtain ⟨v, hreads, hfinite, hnear⟩ :=
    float_reads_near (by decide : (ofMagnitude false 0x3FB999999999999A).isInfinite = false) {}
  have hcss : (float (ofMagnitude false 0x3FB999999999999A)).toCss.written = "0.1" := by
    decide +kernel
  have hv : v.isFinite = true := hfinite.mpr (by decide)
  rw [hcss] at hreads
  exact ⟨by decide, v, hreads, hv, hnear hv⟩

/-- The largest number is rounded up to a decimal that is nearer to `2 ^ 1024`. -/
theorem css_float_largest :
    (ofMagnitude false 0x7FEFFFFFFFFFFFFF).isInfinite = false
      ∧ (float (ofMagnitude false 0x7FEFFFFFFFFFFFFF)).toCss.written = "1.79769313486232e308"
      ∧ ReadsAs "1.79769313486232e308" {}
        [{ kind := .number, value := "1.79769313486232e308",
           numeric := some (.float (infinity false)) }] := by
  refine ⟨by decide, by decide +kernel, ?_⟩
  unfold ReadsAs
  decide +kernel

end Tokenizer

end CssTokens
