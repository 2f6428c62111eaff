import CssTokens.Proofs.Binary64.Shortest
import CssTokens.Proofs.Roundtrip.NumberText

/-!
# Fifteen digits are near

A floating-point number is written with at most fifteen digits of its shortest decimal. Numbers with
a large significand are off by a small part of themselves; those with a small one need fewer digits,
and are written with their shortest decimal as it is.

Main statements: how near the written decimal is (`written_near_large` and `written_near_small`),
and that it is within the range of the finite numbers except for the five largest of these
(`written_lt_limit` and `limit_lt_written`).
-/

namespace CssTokens.NumericValue

open Binary64

variable {x : Binary64}

/-- Half a gap is a small part of a number with a large significand. -/
theorem gap_le_of_large (hs : 2 ^ 30 ≤ x.significand) :
    2 ^ (x.exponent - 1) ≤ x.absValue / 2 ^ 31 := by
  have hs' : (2 : ℚ) ^ 30 ≤ x.significand := by exact_mod_cast hs
  rw [zpow_sub_one₀ (by norm_num), absValue, le_div_iff₀ (by positivity)]
  calc (2 : ℚ) ^ x.exponent * 2⁻¹ * 2 ^ 31 = 2 ^ 30 * 2 ^ x.exponent := by ring
    _ ≤ (x.significand : ℚ) * 2 ^ x.exponent := by gcongr

theorem written_value_of_isZero (hz : x.isZero = true) : (written x).value = 0 := by
  rw [written, FloatFormat.written, hz, if_pos rfl, Decimal.value, Nat.cast_zero, zero_mul]

section
variable (hz : x.isZero = false)
include hz

theorem written_eq : written x = (x.shortest .narrowed).roundTo 15 := by
  rw [written, FloatFormat.written, hz, if_neg Bool.false_ne_true]
  rfl

/-- The shortest decimal is at most half of the number away. -/
theorem shortest_le : (x.shortest .narrowed).value ≤ 3 / 2 * x.absValue := by
  linarith [(abs_lt.mp (shortest_near hz)).2, half_gap_le_half hz]

/-- **The written decimal is near the number**: half a gap away and a small part of the number. -/
theorem written_near :
    |(written x).value - x.absValue| ≤ 2 ^ (x.exponent - 1) + x.absValue / 10 ^ 14 := by
  have hround := Decimal.roundTo_near (shortest_digits_pos hz) 15
  have hsmall : 10 * (x.shortest .narrowed).value / (2 * 10 ^ 15) ≤ x.absValue / 10 ^ 14 := by
    rw [div_le_div_iff₀ (by norm_num) (by norm_num)]
    linarith [shortest_le hz, x.absValue_nonneg]
  rw [written_eq hz]
  calc |((x.shortest .narrowed).roundTo 15).value - x.absValue|
      ≤ |((x.shortest .narrowed).roundTo 15).value - (x.shortest .narrowed).value|
        + |(x.shortest .narrowed).value - x.absValue| := abs_sub_le _ _ _
    _ ≤ 2 ^ (x.exponent - 1) + x.absValue / 10 ^ 14 := by
      linarith only [hround, hsmall, shortest_near hz]

theorem written_bounds : 0 < (written x).value ∧ (written x).value < 2 * x.absValue := by
  obtain ⟨hlower, hupper⟩ := abs_le.mp (written_near hz)
  have hhalf := half_gap_le_half hz
  have hpos := absValue_pos hz
  constructor <;> linarith

theorem written_near_large (hs : 2 ^ 30 ≤ x.significand) :
    |(written x).value - x.absValue| ≤ x.absValue / 2 ^ 30 := by
  have hgap := gap_le_of_large hs
  have hnear := written_near hz
  have hpos := absValue_pos hz
  linarith

end

/-- **Numbers with a small significand are written with their shortest decimal.** -/
theorem written_near_small (hs : x.significand < 2 ^ 30) :
    x.absValue = x.significand * 2 ^ (-1074 : Int)
      ∧ |(written x).value - x.significand * 2 ^ (-1074 : Int)| < 2 ^ (-1075 : Int) := by
  have hexponent : x.exponent = -1074 := by
    by_contra hne
    have hge := significand_ge (lt_of_le_of_ne x.exponent_ge (Ne.symm hne))
    omega
  have hvalue : x.absValue = x.significand * 2 ^ (-1074 : Int) := by rw [absValue, hexponent]
  refine ⟨hvalue, ?_⟩
  cases hz : x.isZero with
  | true =>
    rw [written_value_of_isZero hz, significand_of_isZero hz, Nat.cast_zero, zero_mul, sub_zero,
      abs_zero]
    positivity
  | false =>
    have hlength := shortest_length_le hz (by decide : 11 < 21) (by omega)
    have hnear := shortest_near hz
    rw [← hvalue, written_eq hz, Decimal.roundTo, if_pos (by omega)]
    rwa [hexponent] at hnear

/-! ## Numbers that are no integers -/

section
variable (hx : x.isInfinite = false) (hi : x.isIntegral = false)
include hx hi

/-- A number that is no integer is written with less than sixty-three bits. -/
theorem written_lt_of_not_isIntegral : (written x).value < 2 ^ 53 := by
  have hlt := (absValue_lt_of_not_isIntegral hx hi).2
  linarith [(written_bounds (isZero_eq_false hi)).2]

/-- **A number that is no integer has no exponent in its text** if it is written as an integer. -/
theorem isPositional_of_integer {k : Nat} (hk : (written x).value = k) : isPositional x := by
  have hz := isZero_eq_false hi
  have hpos := (written_bounds hz).1
  have hround := Decimal.roundTo_near (shortest_digits_pos hz) 15
  rw [← written_eq hz] at hround
  have hdecimal : FloatFormat.css.digits = .narrowed := rfl
  unfold isPositional FloatFormat.IsPositional
  rw [hdecimal]
  constructor
  · -- A number below one is not written as an integer.
    by_contra hsmall
    have hpoint : (x.shortest .narrowed).point ≤ -6 := by
      have : FloatFormat.css.minPoint = -6 := rfl
      omega
    have hvalue : (x.shortest .narrowed).value < 10 ^ (-6 : Int) :=
      (x.shortest .narrowed).value_lt.trans_le (zpow_le_zpow_right₀ (by norm_num) hpoint)
    norm_num at hvalue
    have hlt : (k : ℚ) < 1 := by
      rw [← hk]
      linarith [(abs_le.mp hround).2]
    have hzero : k = 0 := by
      have hlt : k < 1 := by exact_mod_cast hlt
      omega
    rw [hk, hzero, Nat.cast_zero] at hpos
    exact lt_irrefl _ hpos
  · by_contra hlarge
    have hpoint : 21 ≤ (x.shortest .narrowed).point - 1 := by
      have : FloatFormat.css.maxPoint = 21 := rfl
      omega
    have hpow : (10 : ℚ) ^ (21 : Int) ≤ 10 ^ ((x.shortest .narrowed).point - 1) :=
      zpow_le_zpow_right₀ (by norm_num) hpoint
    have hfirst := Decimal.le_value (shortest_digits_pos hz)
    have hlt := (absValue_lt_of_not_isIntegral hx hi).2
    have hvalue := shortest_le hz
    norm_num at hpow
    linarith

end

/-! ## The largest numbers

Between the five largest numbers and the others lies the number from which on fifteen digits are
rounded up to `1.79769313486232e308`. This is nearer to `2 ^ 1024` than to the largest number.
-/

/-- The largest numbers but five, with half a gap, are below the number where the digits change. -/
theorem shortest_lt_limit (hz : x.isZero = false) (hx : x.magnitude + 5 < infinite) :
    (x.shortest .narrowed).value + 11 * 2 ^ (970 : Int) < 2 ^ 54 * 2 ^ (970 : Int) := by
  have hnear := (abs_lt.mp (shortest_near hz)).2
  have hfinite : x.isInfinite = false := not_isInfinite_iff.mpr (by omega)
  have hexponent := exponent_le hfinite
  rcases hexponent.lt_or_eq with he | he
  · have hs : (x.significand : ℚ) < 2 ^ 53 := by exact_mod_cast x.significand_lt
    have hgap : (2 : ℚ) ^ x.exponent ≤ 2 ^ (970 : Int) :=
      zpow_le_zpow_right₀ (by norm_num) (by omega)
    have hvalue : x.absValue ≤ 2 ^ 53 * 2 ^ (970 : Int) := by
      unfold absValue
      gcongr
    rw [zpow_sub_one₀ (by norm_num)] at hnear
    have hunit : (0 : ℚ) < 2 ^ (970 : Int) := by positivity
    generalize (2 : ℚ) ^ (970 : Int) = unit at *
    linarith only [hnear, hvalue, hgap, hunit]
  · have hs : x.significand ≤ 2 ^ 53 - 6 := by
      unfold Binary64.exponent at he
      unfold significand
      unfold biasedExponent fraction hiddenBit infinite at *
      split at he
      · omega
      · next hb =>
        rw [if_neg hb]
        omega
    have hs' : (x.significand : ℚ) + 6 ≤ 2 ^ 53 := by
      have hle : x.significand + 6 ≤ 2 ^ 53 := by omega
      exact_mod_cast hle
    have hgap : (2 : ℚ) ^ (971 : Int) = 2 * 2 ^ (970 : Int) := by
      rw [← zpow_one_add₀ (by norm_num)]
      rfl
    rw [absValue, he, hgap, show (971 : Int) - 1 = 970 from rfl] at hnear
    have hunit : (0 : ℚ) < 2 ^ (970 : Int) := by positivity
    generalize (2 : ℚ) ^ (970 : Int) = unit at *
    have hproduct : ((x.significand : ℚ) + 6) * unit ≤ 2 ^ 53 * unit := by gcongr
    linarith only [hnear, hproduct, hunit]

/-- Where the fifteenth digit of the largest numbers changes. -/
theorem limit_facts :
    (2 : ℚ) ^ 54 * 2 ^ (970 : Int) + 10 ^ (294 : Int) / 2 <
        179769313486232 * 10 ^ (294 : Int) + 11 * 2 ^ (970 : Int)
      ∧ 179769313486231 * 10 ^ (294 : Int) + 2 ^ (970 : Int) < (2 : ℚ) ^ (1024 : Int)
      ∧ (2 : ℚ) ^ (1024 : Int) < 179769313486232 * 10 ^ (294 : Int) + 2 ^ (970 : Int) := by
  have hcast : ∀ b n : Nat, ((b ^ n : Nat) : ℚ) = (b : ℚ) ^ (n : Int) := fun b n => by
    rw [Nat.cast_pow, zpow_natCast]
  have hunit : ((2 ^ 970 : Nat) : ℚ) = (2 : ℚ) ^ (970 : Int) := hcast 2 970
  have hlimit : ((2 ^ 1024 : Nat) : ℚ) = (2 : ℚ) ^ (1024 : Int) := hcast 2 1024
  have hten : ((10 ^ 294 : Nat) : ℚ) = (10 : ℚ) ^ (294 : Int) := hcast 10 294
  have hchange : 2 * (2 ^ 54 * 2 ^ 970) + 10 ^ 294 <
      2 * (179769313486232 * 10 ^ 294) + 22 * 2 ^ 970 := by decide +kernel
  have hbelow : 179769313486231 * 10 ^ 294 + 2 ^ 970 < 2 ^ 1024 := by decide +kernel
  have habove : 2 ^ 1024 < 179769313486232 * 10 ^ 294 + 2 ^ 970 := by decide +kernel
  rw [← hunit, ← hlimit, ← hten]
  generalize 2 ^ 970 = unit at hchange hbelow habove ⊢
  generalize 2 ^ 1024 = limit at hbelow habove ⊢
  generalize 10 ^ 294 = ten at hchange hbelow habove ⊢
  refine ⟨?_, by exact_mod_cast hbelow, by exact_mod_cast habove⟩
  have hchange' : (2 : ℚ) * (2 ^ 54 * unit) + ten < 2 * (179769313486232 * ten) + 22 * unit := by
    exact_mod_cast hchange
  linarith

/-- **All but the five largest numbers are written within the range of the finite ones.** -/
theorem written_lt_limit (hx : x.magnitude + 5 < infinite) :
    (written x).value + 2 ^ (970 : Int) < 2 ^ (1024 : Int) := by
  obtain ⟨hchange, hbelow, -⟩ := limit_facts
  have hten : (0 : ℚ) < 10 ^ (294 : Int) := by positivity
  have hunit : (0 : ℚ) < 2 ^ (970 : Int) := by positivity
  -- A decimal of fifteen digits below the change has the smaller ones.
  have hbound : (written x).value ≤ 179769313486231 * 10 ^ (294 : Int) := by
    cases hz : x.isZero with
    | true =>
      rw [written_value_of_isZero hz]
      positivity
    | false =>
      have hlt := shortest_lt_limit hz hx
      have hplace : (309 : Int) - (15 : Nat) = 294 := rfl
      have hround := @Decimal.roundTo_le 15 _ (shortest_digits_pos hz) 179769313486231 309
        (by norm_num) (by norm_num)
      rw [hplace, Nat.cast_ofNat] at hround
      rw [written_eq hz]
      generalize (10 : ℚ) ^ (294 : Int) = ten at hround hchange ⊢
      generalize (2 : ℚ) ^ (970 : Int) = unit at hlt hchange
      exact hround (by linarith only [hlt, hchange])
  exact (add_le_add_left hbound _).trans_lt hbelow

/-- The five largest numbers are written as `1.79769313486232e308`, or as more than that. -/
theorem written_largest (negative : Bool) (k : Nat) (hk : k < 5) :
    (ofMagnitude negative (infinite - 1 - k)).isIntegral = true
      ∧ 179769313486232 * 10 ^ (294 : Int) ≤
        (written (ofMagnitude negative (infinite - 1 - k))).value := by
  have hlargest : ∀ negative : Bool, ∀ k < 5,
      (ofMagnitude negative (infinite - 1 - k)).isIntegral = true
        ∧ 0 ≤ (written (ofMagnitude negative (infinite - 1 - k))).exponent
        ∧ 179769313486232 * 10 ^ 294 ≤
          (written (ofMagnitude negative (infinite - 1 - k))).digits
            * 10 ^ (written (ofMagnitude negative (infinite - 1 - k))).exponent.toNat := by
    decide +kernel
  obtain ⟨hintegral, hexponent, hdigits⟩ := hlargest negative k hk
  have hvalue := @Decimal.le_value_of_digits _ 179769313486232 294 hexponent hdigits
  rw [Nat.cast_ofNat] at hvalue
  exact ⟨hintegral, hvalue⟩

/-- **The five largest numbers are written beyond the range of the finite ones.** -/
theorem limit_lt_written (hx : x.isInfinite = false) (hlarge : ¬x.magnitude + 5 < infinite) :
    x.isIntegral = true ∧ 2 ^ (1024 : Int) < (written x).value + 2 ^ (970 : Int) := by
  rw [not_isInfinite_iff] at hx
  obtain ⟨k, hk, hmagnitude⟩ : ∃ k < 5, x.magnitude = infinite - 1 - k :=
    ⟨infinite - 1 - x.magnitude, by omega, by omega⟩
  have hx' : x = ofMagnitude x.negative (infinite - 1 - k) := by
    rw [← hmagnitude, ofMagnitude_magnitude]
  obtain ⟨hintegral, hwritten⟩ := written_largest x.negative k hk
  rw [← hx'] at hintegral hwritten
  exact ⟨hintegral, limit_facts.2.2.trans_le (add_le_add_left hwritten _)⟩

end CssTokens.NumericValue
