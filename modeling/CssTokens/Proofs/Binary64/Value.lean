import CssTokens.Binary64.Layout
import Mathlib.Data.Rat.Lemmas
import Mathlib.Tactic.Linarith
import Mathlib.Tactic.Positivity
import Mathlib.Tactic.NormNum
import Mathlib.Tactic.Ring
import Mathlib.Algebra.Order.Field.Power
import Mathlib.Algebra.Order.Field.Rat

/-!
# The values of floating-point numbers and decimals

A floating-point number and a decimal stand for a rational number each, so that rounding can be
measured. The absolute value of an infinity is the one that the finite numbers would go on with.

Main statement: a significand of at most 53 bits and an exponent make the number of this value
(`absValue_ofMagnitude`).
-/

namespace CssTokens

/-- The rational number that a decimal stands for. -/
def Decimal.value (d : Decimal) : ℚ :=
  d.digits * 10 ^ d.exponent

theorem Decimal.value_nonneg (d : Decimal) : 0 ≤ d.value := by
  unfold value
  positivity

/-- Decimals are compared by their digits. -/
theorem Decimal.le_value_of_digits {d : Decimal} {m n : Nat} (hd : 0 ≤ d.exponent)
    (h : m * 10 ^ n ≤ d.digits * 10 ^ d.exponent.toNat) : (m : ℚ) * 10 ^ (n : Int) ≤ d.value := by
  obtain ⟨k, hk⟩ := Int.eq_ofNat_of_zero_le hd
  rw [hk, Int.toNat_natCast] at h
  rw [value, hk, zpow_natCast, zpow_natCast]
  exact_mod_cast h

/-- An exponent is a power of ten. -/
theorem Decimal.value_exponent (d : Decimal) (e : Int) :
    Decimal.value { d with exponent := d.exponent + e } = d.value * 10 ^ e := by
  rw [value, value, zpow_add₀ (by norm_num), mul_assoc]

namespace Binary64

/-- The absolute value of a number. -/
def absValue (x : Binary64) : ℚ :=
  x.significand * 2 ^ x.exponent

/-- The rational number that a finite floating-point number stands for. -/
def value (x : Binary64) : ℚ :=
  if x.negative then -x.absValue else x.absValue

variable {x : Binary64}

theorem absValue_nonneg (x : Binary64) : 0 ≤ x.absValue := by
  unfold absValue
  positivity

theorem abs_value (x : Binary64) : |x.value| = x.absValue := by
  unfold value
  split
  · rw [abs_neg, abs_of_nonneg x.absValue_nonneg]
  · rw [abs_of_nonneg x.absValue_nonneg]

/-! ## Significand and exponent -/

theorem fraction_lt (x : Binary64) : x.fraction < 2 ^ 52 :=
  Nat.mod_lt _ (by decide)

theorem significand_lt (x : Binary64) : x.significand < 2 ^ 53 := by
  have h := x.fraction_lt
  unfold significand hiddenBit
  split <;> omega

theorem exponent_ge (x : Binary64) : -1074 ≤ x.exponent := by
  unfold exponent
  split <;> omega

/-- The numbers above the subnormal ones have all bits of their significand. -/
theorem significand_ge (h : -1074 < x.exponent) : 2 ^ 52 ≤ x.significand := by
  unfold exponent at h
  unfold significand hiddenBit
  split at h
  · omega
  · next hb =>
    rw [if_neg hb]
    omega

theorem not_isInfinite_iff : x.isInfinite = false ↔ x.magnitude < infinite := by
  have h := x.magnitude_le
  rw [isInfinite, beq_eq_false_iff_ne]
  unfold infinite
  omega

theorem exponent_le (h : x.isInfinite = false) : x.exponent ≤ 971 := by
  rw [not_isInfinite_iff] at h
  unfold exponent biasedExponent hiddenBit
  unfold infinite at h
  split <;> omega

theorem significand_pos (h : x.isZero = false) : 0 < x.significand := by
  rw [isZero, beq_eq_false_iff_ne] at h
  unfold significand biasedExponent fraction hiddenBit
  split <;> omega

theorem absValue_pos (h : x.isZero = false) : 0 < x.absValue := by
  have hs : (0 : ℚ) < x.significand := by exact_mod_cast significand_pos h
  unfold absValue
  positivity

theorem significand_of_isZero (h : x.isZero = true) : x.significand = 0 := by
  rw [isZero, beq_iff_eq] at h
  unfold significand biasedExponent fraction
  rw [h]
  rfl

theorem absValue_of_isZero (h : x.isZero = true) : x.absValue = 0 := by
  rw [absValue, significand_of_isZero h, Nat.cast_zero, zero_mul]

/-! ## Integers -/

theorem isIntegral_of_isZero (h : x.isZero = true) : x.isIntegral = true := by
  have hfinite : x.isInfinite = false := by
    rw [isZero, beq_iff_eq] at h
    rw [isInfinite, h]
    rfl
  rw [isIntegral, hfinite, significand_of_isZero h, Nat.zero_mod]
  simp

theorem isZero_eq_false (h : x.isIntegral = false) : x.isZero = false :=
  Bool.eq_false_iff.mpr fun hz => by
    rw [isIntegral_of_isZero hz] at h
    cases h

/-- Numbers that are no integers have bits after the point. -/
theorem absValue_lt_of_not_isIntegral (hfinite : x.isInfinite = false)
    (h : x.isIntegral = false) : x.exponent < 0 ∧ x.absValue < 2 ^ 52 := by
  have he : x.exponent < 0 := by
    rw [isIntegral, hfinite] at h
    simp only [Bool.not_false, Bool.true_and, Bool.or_eq_false_iff, decide_eq_false_iff_not,
      not_le] at h
    exact h.1
  refine ⟨he, ?_⟩
  have hs : (x.significand : ℚ) < 2 ^ 53 := by exact_mod_cast x.significand_lt
  have hpow : (2 : ℚ) ^ x.exponent ≤ 2 ^ (-1 : Int) :=
    zpow_le_zpow_right₀ (by norm_num) (by omega)
  calc x.absValue ≤ x.significand * 2 ^ (-1 : Int) := by
        unfold absValue
        gcongr
    _ < 2 ^ 53 * 2 ^ (-1 : Int) := by gcongr
    _ = 2 ^ 52 := by norm_num

/-! ## Numbers from their parts -/

theorem ofMagnitude_magnitude (x : Binary64) : ofMagnitude x.negative x.magnitude = x := by
  unfold ofMagnitude
  congr
  exact Nat.min_eq_left x.magnitude_le

/-- A number by its significand and exponent, as far as these are in range. -/
theorem absValue_eq {e : Int} {q : Nat} (he : -1074 ≤ e) (hq : q < 2 ^ 53)
    (hn : -1074 < e → 2 ^ 52 ≤ q) (hx : x.magnitude = (e + 1074).toNat * hiddenBit + q) :
    x.absValue = q * 2 ^ e := by
  obtain ⟨k, rfl⟩ : ∃ k : Nat, e = k - 1074 := ⟨(e + 1074).toNat, by omega⟩
  have hk : ((k : Int) - 1074 + 1074).toNat = k := by omega
  rw [hk] at hx
  by_cases hsub : q < 2 ^ 52
  · -- A subnormal number.
    have hk0 : k = 0 := by
      by_contra hne
      have := hn (by omega)
      omega
    subst hk0
    rw [Nat.zero_mul, Nat.zero_add] at hx
    have hb : x.biasedExponent = 0 := by
      unfold biasedExponent hiddenBit
      omega
    have hf : x.fraction = q := by
      unfold fraction hiddenBit
      omega
    rw [absValue, significand, exponent, if_pos hb, if_pos hb, hf]
    norm_num
  · have hb : x.biasedExponent = k + 1 := by
      unfold biasedExponent
      unfold hiddenBit at hx ⊢
      omega
    have hf : hiddenBit + x.fraction = q := by
      unfold fraction
      unfold hiddenBit at hx ⊢
      omega
    have he : x.exponent = (k : Int) - 1074 := by
      rw [exponent, if_neg (by omega), hb]
      push_cast
      ring
    rw [absValue, significand, if_neg (by omega), hf, he]

/-- Powers of two are added up. -/
theorem two_pow_mul_zpow {n : Nat} {e f : Int} (h : n + e = f) : (2 : ℚ) ^ n * 2 ^ e = 2 ^ f := by
  rw [← h, zpow_add₀ (by norm_num), zpow_natCast]

/-- Every number is a multiple of the smallest positive one. -/
theorem exists_absValue_eq (x : Binary64) : ∃ m : Nat, x.absValue = m * 2 ^ (-1074 : Int) := by
  have he := x.exponent_ge
  obtain ⟨k, hk⟩ := Int.eq_ofNat_of_zero_le (by omega : 0 ≤ x.exponent + 1074)
  refine ⟨x.significand * 2 ^ k, ?_⟩
  rw [absValue, Nat.cast_mul, Nat.cast_pow, Nat.cast_ofNat, mul_assoc,
    two_pow_mul_zpow (by omega : (k : Int) + -1074 = x.exponent)]

/-- No other multiple of the smallest positive number is as near to a number as that. -/
theorem absValue_eq_of_near {m : Nat}
    (h : |x.absValue - m * 2 ^ (-1074 : Int)| < 2 ^ (-1074 : Int)) :
    x.absValue = m * 2 ^ (-1074 : Int) := by
  obtain ⟨k, hk⟩ := x.exists_absValue_eq
  rw [hk, ← sub_mul, abs_mul, abs_of_pos (by positivity : (0 : ℚ) < 2 ^ (-1074 : Int)),
    mul_lt_iff_lt_one_left (by positivity)] at h
  have hdist : |(k : Int) - m| < 1 := by exact_mod_cast h
  have heq : k = m := by
    rw [Int.abs_lt_one_iff] at hdist
    omega
  rw [hk, heq]

/-- What is beyond the range of the finite numbers is `2 ^ 1024` at least. -/
theorem le_of_infinite_le {e : Int} {q : Nat} (hq : q ≤ 2 ^ 53) (hn : -1074 < e → 2 ^ 52 ≤ q)
    (hge : infinite ≤ (e + 1074).toNat * hiddenBit + q) : (2 : ℚ) ^ (1024 : Int) ≤ q * 2 ^ e := by
  unfold hiddenBit infinite at hge
  by_cases he : e ≤ 971
  · obtain rfl : e = 971 := by omega
    obtain rfl : q = 2 ^ 53 := by omega
    rw [Nat.cast_pow, Nat.cast_ofNat,
      two_pow_mul_zpow (by norm_num : ((53 : Nat) : Int) + 971 = 1024)]
  · have hpow : (2 : ℚ) ^ (972 : Int) ≤ 2 ^ e := zpow_le_zpow_right₀ (by norm_num) (by omega)
    have hqe : (2 : ℚ) ^ 52 ≤ q := by exact_mod_cast hn (by omega)
    rw [← two_pow_mul_zpow (by norm_num : ((52 : Nat) : Int) + 972 = 1024)]
    exact mul_le_mul hqe hpow (by positivity) (by positivity)

/-- **What is made of a significand of at most 53 bits and an exponent.** A significand of `2 ^ 53`
is one of the next exponent. From `2 ^ 1024` on everything is infinite. -/
theorem absValue_ofMagnitude {e : Int} {q : Nat} (negative : Bool) (he : -1074 ≤ e)
    (hq : q ≤ 2 ^ 53) (hn : -1074 < e → 2 ^ 52 ≤ q) (hlt : (q : ℚ) * 2 ^ e < 2 ^ (1024 : Int)) :
    (ofMagnitude negative ((e + 1074).toNat * hiddenBit + q)).isInfinite = false
      ∧ (ofMagnitude negative ((e + 1074).toNat * hiddenBit + q)).absValue = q * 2 ^ e := by
  have hfinite : (e + 1074).toNat * hiddenBit + q < infinite := by
    by_contra hge
    exact absurd hlt (not_lt.mpr (le_of_infinite_le hq hn (by omega)))
  have hmagnitude : (ofMagnitude negative ((e + 1074).toNat * hiddenBit + q)).magnitude =
      (e + 1074).toNat * hiddenBit + q := Nat.min_eq_left (Nat.le_of_lt hfinite)
  refine ⟨not_isInfinite_iff.mpr (by rwa [hmagnitude]), ?_⟩
  by_cases hq' : q < 2 ^ 53
  · exact absValue_eq he hq' hn hmagnitude
  · obtain rfl : q = 2 ^ 53 := by omega
    have hnext : (e + 1074).toNat * hiddenBit + 2 ^ 53 =
        (e + 1 + 1074).toNat * hiddenBit + 2 ^ 52 := by
      unfold hiddenBit
      omega
    rw [absValue_eq (by omega : -1074 ≤ e + 1) (by norm_num : 2 ^ 52 < 2 ^ 53) (fun _ => le_refl _)
      (hmagnitude.trans hnext), zpow_add_one₀ (by norm_num)]
    push_cast
    ring

end Binary64

end CssTokens
