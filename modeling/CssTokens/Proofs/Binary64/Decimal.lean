import CssTokens.Proofs.Binary64.Value

/-!
# Decimals and grids of decimals

Dropping trailing zeros leaves the value of a decimal as it is, and keeping `n` digits changes it by
half a unit of the last of them at most.

If a grid of decimals has a point in an interval around a number, the search for a point finds one.

Main statements: `Decimal.roundTo_near`, `Bounds.nearest?_isSome` and `Bounds.largest?_isSome`.
-/

namespace CssTokens

/-! ## The number of digits -/

variable {n k : Nat}

theorem decimalLength_pos (n : Nat) : 0 < decimalLength n :=
  Nat.length_toDigits_pos

theorem decimalLength_le_iff (hk : 0 < k) : decimalLength n ≤ k ↔ n < 10 ^ k :=
  Nat.length_toDigits_le_iff (by decide) hk

theorem lt_pow_decimalLength (n : Nat) : n < 10 ^ decimalLength n :=
  (decimalLength_le_iff (decimalLength_pos n)).mp (Nat.le_refl _)

theorem pow_le_of_pos (hn : 0 < n) : 10 ^ (decimalLength n - 1) ≤ n := by
  rcases Nat.eq_zero_or_pos (decimalLength n - 1) with hlen | hlen
  · rw [hlen, pow_zero]
    exact hn
  · have hpos := decimalLength_pos n
    exact Nat.le_of_not_lt fun hlt => by
      have := (decimalLength_le_iff hlen).mpr hlt
      omega

theorem decimalLength_mono {m : Nat} (h : m ≤ n) : decimalLength m ≤ decimalLength n :=
  (decimalLength_le_iff (decimalLength_pos n)).mpr (h.trans_lt (lt_pow_decimalLength n))

namespace Decimal

/-! ## Trailing zeros -/

/-- **Without its trailing zeros a decimal has the value that it had.** -/
theorem trim_value (d : Decimal) : d.trim.value = d.value := by
  fun_induction trim d with
  | case1 d h ih =>
    have hdigits : d.digits = d.digits / 10 * 10 := by omega
    rw [ih, value, value, zpow_add_one₀ (by norm_num)]
    conv_rhs => rw [hdigits]
    push_cast
    ring
  | case2 d h => rfl

theorem trim_digits_le (d : Decimal) : d.trim.digits ≤ d.digits := by
  fun_induction trim d with
  | case1 d h ih => exact ih.trans (Nat.div_le_self _ _)
  | case2 d h => exact Nat.le_refl _

theorem trim_length_le (d : Decimal) : d.trim.length ≤ d.length :=
  decimalLength_mono d.trim_digits_le

/-! ## The place of the point -/

/-- A decimal lies between the powers of ten at its point. -/
theorem value_lt (d : Decimal) : d.value < 10 ^ d.point := by
  have hdigits : (d.digits : ℚ) < 10 ^ d.length := by exact_mod_cast lt_pow_decimalLength d.digits
  rw [point, add_comm, zpow_add₀ (by norm_num), zpow_natCast]
  unfold value
  gcongr

theorem le_value {d : Decimal} (h : 0 < d.digits) : 10 ^ (d.point - 1) ≤ d.value := by
  have hdigits : (10 : ℚ) ^ (d.length - 1) ≤ d.digits := by exact_mod_cast pow_le_of_pos h
  have hlength := decimalLength_pos d.digits
  have hpoint : d.point - 1 = (d.length - 1 : Nat) + d.exponent := by
    unfold point length
    omega
  rw [hpoint, zpow_add₀ (by norm_num), zpow_natCast]
  unfold value
  gcongr

/-! ## Significant digits -/

/-- A number rounded to a multiple of an even unit is off by half a unit at most. -/
theorem round_near (digits : Nat) {half : Nat} (hhalf : 0 < half) :
    (digits + half) / (2 * half) * (2 * half) ≤ digits + half
      ∧ digits ≤ (digits + half) / (2 * half) * (2 * half) + half := by
  have hmod := Nat.mod_lt (digits + half) (by omega : 0 < 2 * half)
  have hdiv := Nat.div_add_mod' (digits + half) (2 * half)
  omega

/-- A decimal with few digits is a multiple of the power of ten at the last one of more digits. -/
theorem value_eq_mul {d : Decimal} (h : d.length ≤ n) :
    d.value = (d.digits * 10 ^ (n - d.length) : Nat) * 10 ^ (d.point - n) := by
  have hexponent : d.exponent = (n - d.length : Nat) + (d.point - n) := by
    unfold point
    omega
  rw [value, Nat.cast_mul, Nat.cast_pow, Nat.cast_ofNat, mul_assoc, ← zpow_natCast,
    ← zpow_add₀ (by norm_num), ← hexponent]

/-- **A decimal is rounded to a multiple of the power of ten at its last digit**, which is off by
half of that power at most. -/
theorem exists_roundTo (d : Decimal) (n : Nat) :
    ∃ m : Nat, (d.roundTo n).value = m * 10 ^ (d.point - n)
      ∧ |m * 10 ^ (d.point - n) - d.value| ≤ 10 ^ (d.point - n) / 2 := by
  rcases Nat.lt_or_ge n d.length with h | h
  · obtain ⟨k, hk⟩ : ∃ k, d.length = n + k + 1 := ⟨d.length - n - 1, by omega⟩
    have hunit : Nat.pow 10 (d.length - n) = 2 * (5 * 10 ^ k) := by
      rw [show d.length - n = k + 1 by omega, Nat.pow_eq, pow_succ]
      ring
    have hhalf : Nat.pow 10 (d.length - n) / 2 = 5 * 10 ^ k := by omega
    have hpoint : (10 : ℚ) ^ (d.point - n) = 2 * (5 * 10 ^ k) * 10 ^ d.exponent := by
      rw [point, show d.exponent + (d.length : Int) - n = (k + 1 : Nat) + d.exponent by omega,
        zpow_add₀ (by norm_num), zpow_natCast, pow_succ]
      ring
    obtain ⟨hupper, hlower⟩ := round_near d.digits (by positivity : 0 < 5 * 10 ^ k)
    refine ⟨(d.digits + 5 * 10 ^ k) / (2 * (5 * 10 ^ k)), ?_, ?_⟩
    · rw [roundTo, if_neg (by omega)]
      unfold value
      dsimp only
      rw [hhalf, hunit, hpoint]
      push_cast
      ring
    · generalize (d.digits + 5 * 10 ^ k) / (2 * (5 * 10 ^ k)) = m at *
      have hupper' : (m : ℚ) * (2 * (5 * 10 ^ k)) ≤ d.digits + 5 * 10 ^ k := by
        exact_mod_cast hupper
      have hlower' : (d.digits : ℚ) ≤ m * (2 * (5 * 10 ^ k)) + 5 * 10 ^ k := by
        exact_mod_cast hlower
      have hscaled : (m : ℚ) * (2 * (5 * 10 ^ k) * 10 ^ d.exponent) - d.digits * 10 ^ d.exponent =
          (m * (2 * (5 * 10 ^ k)) - d.digits) * 10 ^ d.exponent := by ring
      have hhalf' : (2 : ℚ) * (5 * 10 ^ k) * 10 ^ d.exponent / 2 =
          5 * 10 ^ k * 10 ^ d.exponent := by ring
      rw [hpoint, value, hscaled, hhalf', abs_mul,
        abs_of_nonneg (by positivity : (0 : ℚ) ≤ 10 ^ d.exponent)]
      gcongr
      rw [abs_le]
      constructor <;> linarith
  · refine ⟨d.digits * 10 ^ (n - d.length), ?_, ?_⟩
    · rw [roundTo, if_pos h, value_eq_mul h]
    · rw [← value_eq_mul h, sub_self, abs_zero]
      positivity

section
variable {d : Decimal} (hd : 0 < d.digits)
include hd

/-- **A decimal of `n` significant digits is near the one that it was rounded from.** -/
theorem roundTo_near (n : Nat) :
    |(d.roundTo n).value - d.value| ≤ 10 * d.value / (2 * 10 ^ n) := by
  obtain ⟨m, heq, hnear⟩ := d.exists_roundTo n
  have hfirst := le_value hd
  rw [zpow_sub₀ (by norm_num), zpow_one, div_le_iff₀ (by norm_num)] at hfirst
  rw [heq]
  refine hnear.trans ?_
  rw [zpow_sub₀ (by norm_num), zpow_natCast, div_div, mul_comm ((10 : ℚ) ^ n)]
  gcongr
  linarith

/-- **A number of `n` digits bounds what is rounded** if the next one is half a unit away. -/
theorem roundTo_le {m : Nat} {p : Int} (hm : 10 ^ n < 10 * m) (hm' : m < 10 ^ n)
    (h : d.value + 10 ^ (p - n) / 2 < (m + 1) * 10 ^ (p - n)) :
    (d.roundTo n).value ≤ m * 10 ^ (p - n) := by
  obtain ⟨k, heq, hnear⟩ := d.exists_roundTo n
  have hupper := (abs_le.mp hnear).2
  have hunit : (0 : ℚ) < 10 ^ (p - n) := by positivity
  have hsplit : (10 : ℚ) ^ p = 10 ^ n * 10 ^ (p - n) := by
    rw [← zpow_natCast, ← zpow_add₀ (by norm_num)]
    congr 1
    ring
  have hn : (m : ℚ) + 1 ≤ 10 ^ n := by exact_mod_cast hm'
  have hfirst : (10 : ℚ) ^ n + 1 ≤ 10 * m := by exact_mod_cast hm
  rw [heq]
  have hpoint : d.point ≤ p := by
    by_contra hlarge
    have hpow : (10 : ℚ) ^ p ≤ 10 ^ (d.point - 1) := zpow_le_zpow_right₀ (by norm_num) (by omega)
    have hlimit : ((m : ℚ) + 1) * 10 ^ (p - n) ≤ 10 ^ n * 10 ^ (p - n) := by gcongr
    have hle := le_value hd
    linarith
  rcases hpoint.lt_or_eq with hless | heq
  · -- One digit less leaves room for the rounding.
    have htenth : (10 : ℚ) ^ (d.point - n) ≤ 10 ^ (p - n) / 10 := by
      rw [div_eq_mul_inv, ← zpow_sub_one₀ (by norm_num)]
      exact zpow_le_zpow_right₀ (by norm_num) (by omega)
    have hvalue : d.value ≤ 10 ^ n * (10 ^ (p - n) / 10) := by
      rw [← mul_div_assoc, ← hsplit, div_eq_mul_inv, ← zpow_sub_one₀ (by norm_num)]
      exact d.value_lt.le.trans (zpow_le_zpow_right₀ (by norm_num) (by omega))
    have hproduct : ((10 : ℚ) ^ n + 1) * (10 ^ (p - n) / 10) ≤
        10 * m * (10 ^ (p - n) / 10) := by gcongr
    linarith
  · rw [heq] at hupper ⊢
    have hlt : (k : ℚ) * 10 ^ (p - n) < (m + 1) * 10 ^ (p - n) := by linarith
    have hk : k ≤ m := by
      have hk := lt_of_mul_lt_mul_right hlt hunit.le
      exact Nat.lt_succ_iff.mp (by exact_mod_cast hk)
    gcongr

end

end Decimal

/-! ## Points of a grid in an interval -/

namespace Bounds

variable {b : Bounds} {tie : Tie}

theorem contains_iff (hhigh : b.highIncluded = true) :
    b.contains n = true ↔
      (if b.lowIncluded then b.low * b.num ≤ n * b.den else b.low * b.num < n * b.den)
        ∧ n * b.den ≤ b.high * b.num := by
  unfold contains
  rw [hhigh]
  cases b.lowIncluded <;> simp

/-- An interval that includes its upper end has a point if it has one that is not smaller. -/
theorem contains_of_le {m : Nat} (hhigh : b.highIncluded = true) (hm : b.contains m = true)
    (h : m ≤ n) (hn : n * b.den ≤ b.high * b.num) : b.contains n = true := by
  rw [contains_iff hhigh] at hm ⊢
  have hle : m * b.den ≤ n * b.den := Nat.mul_le_mul_right _ h
  refine ⟨?_, hn⟩
  split
  · next hlow =>
    rw [if_pos hlow] at hm
    exact hm.1.trans hle
  · next hlow =>
    rw [if_neg hlow] at hm
    exact hm.1.trans_le hle

theorem contains_nearest? (h : b.nearest? tie = some n) : b.contains n = true := by
  unfold nearest? at h
  extract_lets below above at h
  split at h
  · next hbelow habove =>
    split_ifs at h <;> rw [← Option.some.inj h]
    · exact hbelow
    · exact habove
    · exact hbelow
    · exact habove
  · next hbelow _ => rwa [← Option.some.inj h]
  · next _ habove => rwa [← Option.some.inj h]
  · cases h

theorem contains_largest? (h : b.largest? = some n) : b.contains n = true := by
  unfold largest? at h
  extract_lets m at h
  split at h
  · next hm => rwa [← Option.some.inj h]
  · cases h

section
variable (hhigh : b.highIncluded = true) (hden : 0 < b.den) {m : Nat} (hm : b.contains m = true)
include hhigh hden hm

/-- **One of the two points around the number is found**, if any point lies in the interval. -/
theorem nearest?_isSome (hlow : b.low ≤ b.value) (hvalue : b.value ≤ b.high) :
    (b.nearest? tie).isSome = true := by
  have hpoint := ((contains_iff hhigh).mp hm).2
  have hlower : b.low * b.num ≤ b.value * b.num := Nat.mul_le_mul_right _ hlow
  have hhigher : b.value * b.num ≤ b.high * b.num := Nat.mul_le_mul_right _ hvalue
  have hmod := Nat.mod_lt (b.value * b.num) hden
  unfold nearest?
  extract_lets below above
  have hdiv : below * b.den + b.value * b.num % b.den = b.value * b.num := Nat.div_add_mod' _ _
  have habove : above * b.den = below * b.den + b.den := Nat.succ_mul _ _
  have hsome : b.contains below = true ∨ b.contains above = true := by
    rcases Nat.lt_or_ge below m with hlt | hle
    · have hle : above * b.den ≤ m * b.den := Nat.mul_le_mul_right _ hlt
      refine .inr ((contains_iff hhigh).mpr ⟨?_, hle.trans hpoint⟩)
      split <;> omega
    · exact .inl (contains_of_le hhigh hm hle (by omega))
  split
  · split_ifs <;> rfl
  · rfl
  · rfl
  · next hbelow habove =>
    rw [hbelow, habove] at hsome
    simp at hsome

/-- **The largest point is found**, if any point lies in the interval. -/
theorem largest?_isSome : b.largest?.isSome = true := by
  have hpoint := ((contains_iff hhigh).mp hm).2
  have hcontains : b.contains (b.high * b.num / b.den) = true :=
    contains_of_le hhigh hm ((Nat.le_div_iff_mul_le hden).mpr hpoint) (Nat.div_mul_le_self _ _)
  rw [largest?, hhigh, if_pos rfl, if_pos hcontains]
  rfl

end

end Bounds

end CssTokens
