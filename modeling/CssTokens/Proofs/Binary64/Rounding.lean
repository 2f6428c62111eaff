import CssTokens.Proofs.Binary64.Value
import Mathlib.Tactic.FieldSimp
import Mathlib.Tactic.GCongr

/-!
# Rounding is to the nearest number

The quotient that is rounded is measured in units of the gap between the numbers around it, so that
rounding to an integer is off by half a gap at most. The gap is a part of the number, or the
smallest gap of all.

Main statements: how near to a quotient (`ofRatio_near`) and to a decimal (`ofDecimal_near`) the
number is that they are rounded to, and that it is finite.
-/

namespace CssTokens.Binary64

variable {num den : Nat}

/-! ## Rounding to an integer -/

/-- **The nearest integer is at most a half away.** -/
theorem divHalfEven_near (num : Nat) (hden : 0 < den) :
    |(divHalfEven num den : ℚ) - num / den| ≤ 1 / 2 := by
  have hd : (0 : ℚ) < den := by exact_mod_cast hden
  have hnum : (num : ℚ) = den * (num / den : Nat) + (num % den : Nat) := by
    exact_mod_cast (Nat.div_add_mod num den).symm
  have hmod : ((num % den : Nat) : ℚ) < den := by exact_mod_cast Nat.mod_lt num hden
  have hquot : (num : ℚ) / den = (num / den : Nat) + (num % den : Nat) / den := by
    rw [hnum]
    field_simp
  rw [hquot, abs_le]
  unfold divHalfEven
  dsimp only
  split
  · next hlow =>
    have hle : 2 * (num % den) ≤ den := by
      simp only [Bool.or_eq_true, decide_eq_true_eq, Bool.and_eq_true, beq_iff_eq] at hlow
      omega
    have hle' : (2 : ℚ) * (num % den : Nat) ≤ den := by exact_mod_cast hle
    have hrest : ((num % den : Nat) : ℚ) / den ≤ 1 / 2 := by
      rw [div_le_div_iff₀ hd (by norm_num)]
      linarith
    have hnonneg : (0 : ℚ) ≤ (num % den : Nat) / den := by positivity
    constructor <;> linarith
  · next hhigh =>
    have hge : den ≤ 2 * (num % den) := by
      simp only [Bool.or_eq_true, decide_eq_true_eq, not_or] at hhigh
      omega
    have hge' : (den : ℚ) ≤ 2 * (num % den : Nat) := by exact_mod_cast hge
    have hrest : 1 / 2 ≤ ((num % den : Nat) : ℚ) / den := by
      rw [div_le_div_iff₀ (by norm_num) hd]
      linarith
    have hlt : ((num % den : Nat) : ℚ) / den < 1 := by rwa [div_lt_one hd]
    push_cast
    constructor <;> linarith

/-! ## The place of a quotient among the powers of two -/

theorem cast_shiftLeft (n k : Nat) : ((n <<< k : Nat) : ℚ) = n * 2 ^ k := by
  rw [Nat.shiftLeft_eq, Nat.cast_mul, Nat.cast_pow, Nat.cast_ofNat]

/-- Shifting the numerator or the denominator multiplies by a power of two. -/
theorem shift_div (num den : Nat) (e : Int) :
    ((num <<< (-e).toNat : Nat) : ℚ) / (den <<< e.toNat : Nat) = num / den * 2 ^ (-e) := by
  rw [cast_shiftLeft, cast_shiftLeft]
  rcases le_total 0 e with he | he
  · obtain ⟨n, rfl⟩ := Int.eq_ofNat_of_zero_le he
    have hneg : (-(n : Int)).toNat = 0 := by omega
    rw [hneg, Int.toNat_natCast, zpow_neg, zpow_natCast, pow_zero, mul_one]
    field_simp
  · obtain ⟨n, hn⟩ := Int.eq_ofNat_of_zero_le (by omega : 0 ≤ -e)
    have hpos : e.toNat = 0 := by omega
    rw [hn, hpos, Int.toNat_natCast, zpow_natCast, pow_zero, mul_one]
    ring

theorem log2_bounds {n : Nat} (h : 0 < n) :
    (2 : ℚ) ^ (n.log2 : Int) ≤ n ∧ (n : ℚ) < 2 ^ ((n.log2 : Int) + 1) := by
  constructor
  · rw [zpow_natCast]
    exact_mod_cast Nat.log2_self_le (by omega)
  · rw [← Nat.cast_succ, zpow_natCast]
    exact_mod_cast Nat.lt_log2_self

/-- A power of two against a quotient, in integers. -/
theorem two_zpow_le_iff (hden : 0 < den) (k : Int) :
    (2 : ℚ) ^ k ≤ num / den ↔ den <<< k.toNat ≤ num <<< (-k).toNat := by
  have hpow : (0 : ℚ) < 2 ^ k := by positivity
  have hshift : (0 : ℚ) < (den <<< k.toNat : Nat) := by
    rw [cast_shiftLeft]
    positivity
  rw [← Nat.cast_le (α := ℚ), ← one_le_div hshift, shift_div, zpow_neg, ← div_eq_mul_inv,
    one_le_div hpow]

/-- **The power of two below a quotient.** -/
theorem floorLog2_bounds (hnum : 0 < num) (hden : 0 < den) :
    (2 : ℚ) ^ floorLog2 num den ≤ num / den
      ∧ (num : ℚ) / den < 2 ^ (floorLog2 num den + 1) := by
  have hd : (0 : ℚ) < den := by exact_mod_cast hden
  obtain ⟨hnum₁, hnum₂⟩ := log2_bounds hnum
  obtain ⟨hden₁, hden₂⟩ := log2_bounds hden
  have htwo : (2 : ℚ) ≠ 0 := by norm_num
  unfold floorLog2
  extract_lets k
  have hupper : (num : ℚ) / den < 2 ^ (k + 1) := by
    rw [div_lt_iff₀ hd]
    calc (num : ℚ) < 2 ^ ((num.log2 : Int) + 1) := hnum₂
      _ = 2 ^ (k + 1) * 2 ^ (den.log2 : Int) := by
        rw [← zpow_add₀ htwo]
        congr 1
        omega
      _ ≤ 2 ^ (k + 1) * den := by gcongr
  have hlower : (2 : ℚ) ^ (k - 1) ≤ num / den := by
    rw [le_div_iff₀ hd]
    calc (2 : ℚ) ^ (k - 1) * den ≤ 2 ^ (k - 1) * 2 ^ ((den.log2 : Int) + 1) := by gcongr
      _ = 2 ^ (num.log2 : Int) := by
        rw [← zpow_add₀ htwo]
        congr 1
        omega
      _ ≤ num := hnum₁
  split
  · next h => exact ⟨(two_zpow_le_iff hden k).mpr h, hupper⟩
  · next h =>
    rw [← two_zpow_le_iff hden, not_le] at h
    rw [sub_add_cancel]
    exact ⟨hlower, h⟩

/-! ## Rounding to 53 bits -/

/-- What is nearest to a number below an integer is at most that integer. -/
theorem le_of_near {q n : Nat} {y : ℚ} (h : |(q : ℚ) - y| ≤ 1 / 2) (hy : y < n) : q ≤ n := by
  have hq : (q : ℚ) < (n + 1 : Nat) := by
    push_cast
    linarith [(abs_le.mp h).2]
  exact Nat.lt_succ_iff.mp (by exact_mod_cast hq)

theorem ge_of_near {q n : Nat} {y : ℚ} (h : |(q : ℚ) - y| ≤ 1 / 2) (hy : n ≤ y) : n ≤ q := by
  have hq : (n : ℚ) < (q + 1 : Nat) := by
    push_cast
    linarith [(abs_le.mp h).1]
  exact Nat.lt_succ_iff.mp (by exact_mod_cast hq)

/-- **A quotient is rounded to a significand that is off by half a gap at most**, and above the
subnormal numbers the gap is a part of the quotient. -/
theorem exists_ofRatio (negative : Bool) (hnum : 0 < num) (hden : 0 < den) :
    ∃ (e : Int) (q : Nat), -1074 ≤ e ∧ q ≤ 2 ^ 53 ∧ (-1074 < e → 2 ^ 52 ≤ q)
      ∧ (-1074 < e → (2 : ℚ) ^ (e + 52) ≤ num / den)
      ∧ |(q : ℚ) * 2 ^ e - num / den| ≤ 2 ^ (e - 1)
      ∧ ofRatio negative num den = ofMagnitude negative ((e + 1074).toNat * hiddenBit + q) := by
  obtain ⟨hlow, hhigh⟩ := floorLog2_bounds hnum hden
  have htwo : (2 : ℚ) ≠ 0 := by norm_num
  rw [ofRatio, if_neg hnum.ne']
  extract_lets e q
  have he : (2 : ℚ) ^ e ≠ 0 := zpow_ne_zero _ htwo
  have hshift : 0 < den <<< e.toNat := by
    rw [Nat.shiftLeft_eq]
    positivity
  have hnear : |(q : ℚ) - num / den * 2 ^ (-e)| ≤ 1 / 2 := by
    rw [← shift_div]
    exact divHalfEven_near _ hshift
  -- The quotient in units of the gap has at most 53 bits before the point.
  have hbelow : (num : ℚ) / den * 2 ^ (-e) < (2 ^ 53 : Nat) := by
    have hpow : (2 : ℚ) ^ (floorLog2 num den + 1) ≤ 2 ^ (53 + e) :=
      zpow_le_zpow_right₀ (by norm_num) (by omega)
    rw [zpow_neg, mul_inv_lt_iff₀ (by positivity)]
    calc (num : ℚ) / den < 2 ^ (53 + e) := lt_of_lt_of_le hhigh hpow
      _ = (2 ^ 53 : Nat) * 2 ^ e := by
        rw [zpow_add₀ htwo]
        norm_num
  have habove : -1074 < e → (2 : ℚ) ^ (e + 52) ≤ num / den := by
    intro h
    rwa [show e + 52 = floorLog2 num den by omega]
  refine ⟨e, q, le_max_left _ _, le_of_near hnear hbelow, fun h => ge_of_near hnear ?_, habove, ?_,
    rfl⟩
  · rw [zpow_neg, le_mul_inv_iff₀ (by positivity)]
    calc ((2 ^ 52 : Nat) : ℚ) * 2 ^ e = 2 ^ (e + 52) := by
          rw [add_comm, zpow_add₀ htwo]
          norm_num
      _ ≤ num / den := habove h
  · have hscaled : (q : ℚ) * 2 ^ e - num / den = (q - num / den * 2 ^ (-e)) * 2 ^ e := by
      rw [zpow_neg, sub_mul, inv_mul_cancel_right₀ he]
    rw [hscaled, abs_mul, abs_of_nonneg (by positivity : (0 : ℚ) ≤ 2 ^ e), zpow_sub_one₀ htwo,
      mul_comm ((2 : ℚ) ^ e)]
    gcongr
    rwa [← one_div]

/-- How far from a number the nearest one of the format can be: a part of it, or half of the
smallest gap of all. -/
def tolerance (r : ℚ) : ℚ :=
  max (r * 2 ^ (-53 : Int)) (2 ^ (-1075 : Int))

theorem tolerance_nonneg {r : ℚ} (h : 0 ≤ r) : 0 ≤ tolerance r :=
  le_max_of_le_left (by positivity)

/-- Half of the gap around a number is within the tolerance. -/
theorem half_gap_le {e : Int} {r : ℚ} (he : -1074 ≤ e) (hgap : -1074 < e → 2 ^ (e + 52) ≤ r) :
    2 ^ (e - 1) ≤ tolerance r := by
  rcases he.eq_or_lt with rfl | he
  · exact le_max_right _ _
  · refine le_max_of_le_left ?_
    calc (2 : ℚ) ^ (e - 1) = 2 ^ (e + 52) * 2 ^ (-53 : Int) := by
          rw [← zpow_add₀ (by norm_num)]
          congr 1
          ring
      _ ≤ r * 2 ^ (-53 : Int) := by gcongr; exact hgap he

/-- **A quotient is rounded to a finite number near it**, unless it is half a gap below `2 ^ 1024`
or beyond that. -/
theorem ofRatio_near (negative : Bool) (hden : 0 < den)
    (h : (num : ℚ) / den + 2 ^ (970 : Int) < 2 ^ (1024 : Int)) :
    (ofRatio negative num den).isInfinite = false
      ∧ |(ofRatio negative num den).absValue - num / den| ≤ tolerance (num / den) := by
  rcases Nat.eq_zero_or_pos num with rfl | hnum
  · have hzero : (zero negative).absValue = 0 := absValue_of_isZero rfl
    rw [ofRatio, if_pos rfl, hzero, Nat.cast_zero, zero_div, sub_zero, abs_zero]
    exact ⟨rfl, tolerance_nonneg le_rfl⟩
  obtain ⟨e, q, he, hq, hn, hgap, hnear, heq⟩ := exists_ofRatio negative hnum hden
  have he' : e ≤ 971 := by
    by_contra hlarge
    have hpow : (2 : ℚ) ^ (1024 : Int) ≤ 2 ^ (e + 52) :=
      zpow_le_zpow_right₀ (by norm_num) (by omega)
    have hpos : (0 : ℚ) ≤ 2 ^ (970 : Int) := by positivity
    exact absurd h (not_lt.mpr ((hpow.trans (hgap (by omega))).trans (le_add_of_nonneg_right hpos)))
  have hlt : (q : ℚ) * 2 ^ e < 2 ^ (1024 : Int) := by
    have hpow : (2 : ℚ) ^ (e - 1) ≤ 2 ^ (970 : Int) :=
      zpow_le_zpow_right₀ (by norm_num) (by omega)
    calc (q : ℚ) * 2 ^ e ≤ num / den + 2 ^ (e - 1) := by linarith only [(abs_le.mp hnear).2]
      _ ≤ num / den + 2 ^ (970 : Int) := by linarith only [hpow]
      _ < 2 ^ (1024 : Int) := h
  obtain ⟨hfinite, hvalue⟩ := absValue_ofMagnitude negative he hq hn hlt
  rw [heq, hvalue]
  exact ⟨hfinite, hnear.trans (half_gap_le he hgap)⟩

/-- **A quotient beyond the range of the finite numbers is rounded to infinity.** -/
theorem ofRatio_isInfinite (negative : Bool) (hden : 0 < den)
    (h : 2 ^ (1024 : Int) < (num : ℚ) / den + 2 ^ (970 : Int)) :
    (ofRatio negative num den).isInfinite = true := by
  -- The powers near the limit are multiples of one of them, which nothing tries to compute.
  have hunit : (0 : ℚ) < 2 ^ (970 : Int) := by positivity
  rw [← two_pow_mul_zpow (by norm_num : ((54 : Nat) : Int) + 970 = 1024)] at h
  have hnum : 0 < num := by
    by_contra hzero
    obtain rfl : num = 0 := by omega
    rw [Nat.cast_zero, zero_div, zero_add] at h
    generalize (2 : ℚ) ^ (970 : Int) = unit at h hunit
    linarith
  obtain ⟨e, q, he, hq, hn, -, hnear, heq⟩ := exists_ofRatio negative hnum hden
  have hlarge : infinite ≤ (e + 1074).toNat * hiddenBit + q := by
    by_contra hsmall
    have hcases : e ≤ 970 ∨ e = 971 ∧ q + 1 ≤ 2 ^ 53 := by
      unfold infinite hiddenBit at hsmall
      omega
    have hupper := (abs_le.mp hnear).1
    have hq' : (q : ℚ) ≤ 2 ^ 53 := by exact_mod_cast hq
    rw [zpow_sub_one₀ (by norm_num)] at hupper
    rcases hcases with he | ⟨rfl, hq⟩
    · have hgap : (2 : ℚ) ^ e ≤ 2 ^ (970 : Int) := zpow_le_zpow_right₀ (by norm_num) he
      have hproduct : (q : ℚ) * 2 ^ e ≤ 2 ^ 53 * 2 ^ (970 : Int) := by gcongr
      generalize (2 : ℚ) ^ (970 : Int) = unit at *
      linarith
    · have hgap : (2 : ℚ) ^ (971 : Int) = 2 * 2 ^ (970 : Int) := by
        rw [← zpow_one_add₀ (by norm_num)]
        rfl
      have hq' : (q : ℚ) + 1 ≤ 2 ^ 53 := by exact_mod_cast hq
      rw [hgap] at hupper
      generalize (2 : ℚ) ^ (970 : Int) = unit at *
      have hproduct : ((q : ℚ) + 1) * unit ≤ 2 ^ 53 * unit := by gcongr
      linarith
  rw [heq, isInfinite, beq_iff_eq]
  exact Nat.min_eq_right hlarge

/-! ## Decimals -/

theorem ofRatio_negative (negative : Bool) (num den : Nat) :
    (ofRatio negative num den).negative = negative := by
  unfold ofRatio
  split <;> rfl

/-- The sign of a decimal is that of its number. -/
theorem ofDecimal_negative (negative : Bool) (digits : Nat) (exponent : Int) :
    (ofDecimal negative digits exponent).negative = negative := by
  unfold ofDecimal
  split_ifs <;> first | rfl | exact ofRatio_negative _ _ _

/-- A decimal as a quotient. -/
theorem cast_mul_pow_div (digits : Nat) (exponent : Int) :
    ((digits * Nat.pow 10 exponent.toNat : Nat) : ℚ) / (Nat.pow 10 (-exponent).toNat : Nat) =
      digits * 10 ^ exponent := by
  rcases le_total 0 exponent with h | h
  · obtain ⟨n, rfl⟩ := Int.eq_ofNat_of_zero_le h
    rw [show (-(n : Int)).toNat = 0 by omega, Int.toNat_natCast, zpow_natCast]
    simp
  · obtain ⟨n, hn⟩ := Int.eq_ofNat_of_zero_le (by omega : 0 ≤ -exponent)
    obtain rfl : exponent = -(n : Int) := by omega
    rw [show (-(n : Int)).toNat = 0 by omega, neg_neg, Int.toNat_natCast, zpow_neg, zpow_natCast]
    simp [div_eq_mul_inv]

/-- Three bits are less than a decimal digit. -/
theorem two_zpow_le_ten_zpow {n : Int} (h : 0 ≤ n) : (2 : ℚ) ^ (3 * n) ≤ 10 ^ n := by
  rw [zpow_mul]
  exact zpow_le_zpow_left₀ h (by positivity) (by norm_num)

/-- Decimals with a very large exponent are beyond the range of the finite numbers. -/
theorem le_value_of_large {d : Decimal} (hd : 0 < d.digits) (h : 400 < d.exponent) :
    (2 : ℚ) ^ (1024 : Int) ≤ d.value := by
  have hdigits : (1 : ℚ) ≤ d.digits := by exact_mod_cast hd
  calc (2 : ℚ) ^ (1024 : Int) ≤ 2 ^ (3 * d.exponent) :=
        zpow_le_zpow_right₀ (by norm_num) (by omega)
    _ ≤ 10 ^ d.exponent := two_zpow_le_ten_zpow (by omega)
    _ ≤ d.value := le_mul_of_one_le_left (by positivity) hdigits

/-- Decimals with a very small exponent are below half of the smallest gap. -/
theorem value_le_of_small {d : Decimal} (hd : 0 < d.digits)
    (h : d.exponent + d.digits.log2 < -400) : d.value ≤ 2 ^ (-1075 : Int) := by
  have hsum : (0 : Int) ≤ -(d.exponent + d.digits.log2) := by omega
  have hlog : (2 : ℚ) ^ ((d.digits.log2 : Int) + 1) ≤ 2 * 10 ^ (d.digits.log2 : Int) := by
    rw [zpow_add_one₀ (by norm_num), mul_comm]
    gcongr
    exact zpow_le_zpow_left₀ (by omega) (by norm_num) (by norm_num)
  calc d.value ≤ 2 * 10 ^ (d.digits.log2 : Int) * 10 ^ d.exponent := by
        unfold Decimal.value
        gcongr
        exact ((log2_bounds hd).2.trans_le hlog).le
    _ = 2 * (10 ^ (-(d.exponent + d.digits.log2)))⁻¹ := by
        rw [mul_assoc, ← zpow_add₀ (by norm_num), ← zpow_neg, neg_neg, add_comm d.exponent]
    _ ≤ 2 * (2 ^ (3 * -(d.exponent + d.digits.log2)))⁻¹ := by
        gcongr
        exact two_zpow_le_ten_zpow hsum
    _ = 2 ^ (1 + 3 * (d.exponent + d.digits.log2)) := by
        rw [← zpow_neg, zpow_add₀ (by norm_num), zpow_one]
        congr 2
        ring
    _ ≤ 2 ^ (-1075 : Int) := zpow_le_zpow_right₀ (by norm_num) (by omega)

/-- A decimal that is far out of the range of the numbers is rounded without a computation, and any
other as a quotient. -/
theorem ofDecimal_cases (negative : Bool) (d : Decimal) :
    (ofDecimal negative d.digits d.exponent = zero negative ∧ d.value ≤ 2 ^ (-1075 : Int))
      ∨ (ofDecimal negative d.digits d.exponent = infinity negative
        ∧ 2 ^ (1024 : Int) ≤ d.value)
      ∨ ∃ num den : Nat, 0 < den ∧ (num : ℚ) / den = d.value
        ∧ ofDecimal negative d.digits d.exponent = ofRatio negative num den := by
  unfold ofDecimal
  split_ifs with hdigits hlarge hsmall
  · refine .inl ⟨rfl, ?_⟩
    rw [Decimal.value, hdigits, Nat.cast_zero, zero_mul]
    positivity
  · exact .inr (.inl ⟨rfl, le_value_of_large (Nat.pos_of_ne_zero hdigits) hlarge⟩)
  · exact .inl ⟨rfl, value_le_of_small (Nat.pos_of_ne_zero hdigits) hsmall⟩
  · exact .inr (.inr ⟨_, _, Nat.pow_pos (by norm_num), cast_mul_pow_div _ _, rfl⟩)

/-- **A decimal is rounded to a finite number near it**, unless it is half a gap below `2 ^ 1024` or
beyond that. -/
theorem ofDecimal_near (negative : Bool) (d : Decimal)
    (h : d.value + 2 ^ (970 : Int) < 2 ^ (1024 : Int)) :
    (ofDecimal negative d.digits d.exponent).isInfinite = false
      ∧ |(ofDecimal negative d.digits d.exponent).absValue - d.value| ≤ tolerance d.value := by
  rcases ofDecimal_cases negative d with
    ⟨heq, hsmall⟩ | ⟨-, hlarge⟩ | ⟨num, den, hden, hquot, heq⟩
  · -- The decimal itself is the error.
    rw [heq, absValue_of_isZero rfl, zero_sub, abs_neg, abs_of_nonneg d.value_nonneg]
    exact ⟨rfl, hsmall.trans (le_max_right _ _)⟩
  · have hpos : (0 : ℚ) ≤ 2 ^ (970 : Int) := by positivity
    exact absurd (h.trans_le hlarge) (not_lt.mpr (le_add_of_nonneg_right hpos))
  · rw [← hquot] at h ⊢
    rw [heq]
    exact ofRatio_near negative hden h

/-- **A decimal beyond the range of the finite numbers is rounded to infinity.** -/
theorem ofDecimal_isInfinite (negative : Bool) (d : Decimal)
    (h : 2 ^ (1024 : Int) < d.value + 2 ^ (970 : Int)) :
    (ofDecimal negative d.digits d.exponent).isInfinite = true := by
  rcases ofDecimal_cases negative d with
    ⟨-, hsmall⟩ | ⟨heq, -⟩ | ⟨num, den, hden, hquot, heq⟩
  · -- What is rounded to zero is far below the limit.
    exfalso
    have hpow : (2 : ℚ) ^ (-1075 : Int) ≤ 2 ^ (970 : Int) :=
      zpow_le_zpow_right₀ (by norm_num) (by norm_num)
    have hunit : (0 : ℚ) < 2 ^ (970 : Int) := by positivity
    rw [← two_pow_mul_zpow (by norm_num : ((54 : Nat) : Int) + 970 = 1024)] at h
    generalize (2 : ℚ) ^ (970 : Int) = unit at *
    linarith only [h, hsmall, hpow, hunit]
  · rw [heq]
    rfl
  · rw [← hquot] at h
    rw [heq]
    exact ofRatio_isInfinite negative hden h

/-- **A decimal within half a gap of a subnormal number is rounded to it.** -/
theorem ofDecimal_subnormal (negative : Bool) {d : Decimal} {s : Nat} (hs : s < 2 ^ 52)
    (h : |d.value - s * 2 ^ (-1074 : Int)| < 2 ^ (-1075 : Int)) :
    (ofDecimal negative d.digits d.exponent).isInfinite = false
      ∧ (ofDecimal negative d.digits d.exponent).absValue = s * 2 ^ (-1074 : Int) := by
  have hgap : (2 : ℚ) ^ (-1075 : Int) + 2 ^ (-1075 : Int) = 2 ^ (-1074 : Int) := by
    rw [← two_mul, ← zpow_one_add₀ (by norm_num)]
    rfl
  have hsmall : d.value ≤ 2 ^ (-1022 : Int) := by
    have hs' : ((s : ℚ) + 1) ≤ 2 ^ 52 := by exact_mod_cast hs
    have hpos : (0 : ℚ) < 2 ^ (-1075 : Int) := by positivity
    calc d.value ≤ s * 2 ^ (-1074 : Int) + 2 ^ (-1075 : Int) := by linarith only [(abs_lt.mp h).2]
      _ ≤ (s + 1) * 2 ^ (-1074 : Int) := by linarith only [hgap, hpos]
      _ ≤ 2 ^ 52 * 2 ^ (-1074 : Int) := by gcongr
      _ = 2 ^ (-1022 : Int) := two_pow_mul_zpow (by norm_num)
  have htolerance : tolerance d.value = 2 ^ (-1075 : Int) := by
    refine max_eq_right ?_
    calc d.value * 2 ^ (-53 : Int) ≤ 2 ^ (-1022 : Int) * 2 ^ (-53 : Int) := by gcongr
      _ = 2 ^ (-1075 : Int) := (zpow_add₀ (by norm_num) _ _).symm
  have hrange : d.value + 2 ^ (970 : Int) < 2 ^ (1024 : Int) := by
    calc d.value + 2 ^ (970 : Int) ≤ 2 ^ (970 : Int) + 2 ^ (970 : Int) := by
          gcongr
          exact hsmall.trans (zpow_le_zpow_right₀ (by norm_num) (by norm_num))
      _ = 2 ^ (971 : Int) := by
          rw [← two_mul, ← zpow_one_add₀ (by norm_num)]
          rfl
      _ < 2 ^ (1024 : Int) := zpow_lt_zpow_right₀ (by norm_num) (by norm_num)
  obtain ⟨hfinite, hnear⟩ := ofDecimal_near negative d hrange
  rw [htolerance] at hnear
  refine ⟨hfinite, absValue_eq_of_near ?_⟩
  exact ((abs_sub_le _ d.value _).trans_lt (add_lt_add_of_le_of_lt hnear h)).trans_eq hgap

end CssTokens.Binary64
