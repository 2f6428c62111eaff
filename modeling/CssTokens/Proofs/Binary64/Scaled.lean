import CssTokens.Binary64.Shortest
import CssTokens.Proofs.Binary64.Decimal
import CssTokens.Proofs.Binary64.Rounding

/-!
# Numbers scaled to 64 bits

The narrowed rule scales a number and the midpoints around it, which is off by less than one unit of
64 bits, and moves the midpoints by one unit towards the number. So whatever lies between the moved
midpoints lies between the exact ones. The unit is a small part of the gap between the numbers, so
that there is much room between the moved midpoints, too.

Main statements: `near_of_contains`, that what lies between the moved midpoints is near the number,
and `exists_contains`, that there is something between them.
-/

namespace CssTokens.Binary64

/-! ## Powers of ten in 64 bits -/

/-- A power of ten over a power of two, as a quotient. -/
theorem power_div (k e : Int) :
    ((Nat.pow 10 k.toNat <<< (-e).toNat : Nat) : ℚ) / (Nat.pow 10 (-k).toNat <<< e.toNat : Nat) =
      10 ^ k * 2 ^ (-e) := by
  have hpow := cast_mul_pow_div 1 k
  rw [Nat.one_mul, Nat.cast_one, one_mul] at hpow
  rw [shift_div, hpow]

theorem power_pos (k : Nat) : 0 < Nat.pow 10 k :=
  Nat.pow_pos (by norm_num)

/-- The scaled power of ten has 64 bits before the point. -/
theorem scaledPower_bounds (k : Int) :
    (2 : ℚ) ^ 63 ≤ 10 ^ k * 2 ^ (-powerExponent k)
      ∧ (10 : ℚ) ^ k * 2 ^ (-powerExponent k) < 2 ^ 64 := by
  have hpow := cast_mul_pow_div 1 k
  rw [Nat.one_mul, Nat.cast_one, one_mul] at hpow
  obtain ⟨hlow, hhigh⟩ := floorLog2_bounds (power_pos k.toNat) (power_pos (-k).toNat)
  have hexponent : floorLog2 (Nat.pow 10 k.toNat) (Nat.pow 10 (-k).toNat) =
      (63 : Nat) + powerExponent k := by
    unfold powerExponent
    omega
  rw [hpow, hexponent] at hlow hhigh
  rw [zpow_neg, le_mul_inv_iff₀ (by positivity), mul_inv_lt_iff₀ (by positivity)]
  constructor
  · rwa [two_pow_mul_zpow rfl]
  · rw [two_pow_mul_zpow rfl]
    rwa [show ((64 : Nat) : Int) + powerExponent k = (63 : Nat) + powerExponent k + 1 by omega]

theorem powerSignificand_near (k : Int) :
    |(powerSignificand k : ℚ) - 10 ^ k * 2 ^ (-powerExponent k)| ≤ 1 / 2 := by
  have hden : 0 < Nat.pow 10 (-k).toNat <<< (powerExponent k).toNat := by
    rw [Nat.shiftLeft_eq]
    exact Nat.mul_pos (power_pos _) (by positivity)
  rw [← power_div]
  exact divHalfEven_near _ hden

/-! ## Scaled numbers -/

/-- The upper half of a product is rounded to an integer. -/
theorem mulHigh_near (a b : Nat) : |(mulHigh a b : ℚ) - a * b / 2 ^ 64| ≤ 1 / 2 := by
  have hle : mulHigh a b * 2 ^ 64 ≤ a * b + 2 ^ 63 := Nat.div_mul_le_self _ _
  have hlt : a * b + 2 ^ 63 < mulHigh a b * 2 ^ 64 + 2 ^ 64 :=
    Nat.lt_div_mul_add (by decide)
  have hle' : (mulHigh a b : ℚ) * 2 ^ 64 ≤ a * b + 2 ^ 63 := by exact_mod_cast hle
  have hlt' : (a * b + 2 ^ 63 : ℚ) < mulHigh a b * 2 ^ 64 + 2 ^ 64 := by exact_mod_cast hlt
  rw [abs_le]
  constructor <;> linarith

/-- **A product is off by less than one** if the second factor is off by a half at most. -/
theorem scaled_near {a b : Nat} {exact : ℚ} (ha : a < 2 ^ 64) (hb : |(b : ℚ) - exact| ≤ 1 / 2) :
    |(mulHigh a b : ℚ) - a * exact / 2 ^ 64| < 1 := by
  have hproduct := mulHigh_near a b
  generalize (mulHigh a b : ℚ) = product at hproduct ⊢
  have hpart : (a : ℚ) / 2 ^ 64 < 1 := by
    rw [div_lt_one (by positivity)]
    exact_mod_cast ha
  have hfactor : (a : ℚ) * b / 2 ^ 64 - a * exact / 2 ^ 64 = a / 2 ^ 64 * (b - exact) := by ring
  have hloss : |(a : ℚ) * b / 2 ^ 64 - a * exact / 2 ^ 64| < 1 / 2 := by
    rw [hfactor, abs_mul, abs_of_nonneg (by positivity)]
    calc (a : ℚ) / 2 ^ 64 * |b - exact| ≤ a / 2 ^ 64 * (1 / 2) := by gcongr
      _ < 1 * (1 / 2) := by gcongr
      _ = 1 / 2 := one_mul _
  calc |product - a * exact / 2 ^ 64|
      ≤ |product - a * b / 2 ^ 64| + |a * b / 2 ^ 64 - a * exact / 2 ^ 64| := abs_sub_le _ _ _
    _ < 1 := by linarith only [hproduct, hloss]

variable {x : Binary64} {e : Int} {n : Nat}

/-- How far a significand is shifted to have 64 bits. -/
def shift (x : Binary64) : Nat :=
  63 - x.significand.log2

/-- The unit of the scaled bounds. -/
def unit (x : Binary64) : ℚ :=
  2 ^ (x.exponent - x.shift + powerExponent (-x.scale) + 64) * 10 ^ x.scale

theorem unit_pos (x : Binary64) : 0 < x.unit := by
  unfold unit
  positivity

/-- Scaling back what was scaled. -/
theorem power_mul_unit (x : Binary64) :
    (10 : ℚ) ^ (-x.scale) * 2 ^ (-powerExponent (-x.scale)) * x.unit =
      2 ^ 64 * 2 ^ (x.exponent - x.shift) := by
  have hten : (10 : ℚ) ^ x.scale ≠ 0 := zpow_ne_zero _ (by norm_num)
  have hsum : -powerExponent (-x.scale) + (x.exponent - x.shift + powerExponent (-x.scale) + 64) =
      (64 : Nat) + (x.exponent - x.shift) := by omega
  rw [two_pow_mul_zpow rfl, ← hsum, zpow_add₀ (by norm_num), unit, zpow_neg 10]
  field_simp

theorem shift_add (x : Binary64) : x.significand.log2 + x.shift = 63 ∧ 11 ≤ x.shift := by
  have hlog : x.significand.log2 < 53 := by
    rcases Nat.eq_zero_or_pos x.significand with hs | hs
    · rw [hs]
      decide
    · exact (Nat.log2_lt (by omega)).mpr x.significand_lt
  unfold shift
  omega

/-- The shifted significand has 64 bits. -/
theorem significand_shift_le (x : Binary64) :
    x.significand * 2 ^ x.shift + 2 ^ x.shift ≤ 2 ^ 64 := by
  have hlog : x.significand + 1 ≤ 2 ^ (x.significand.log2 + 1) := Nat.lt_log2_self
  calc x.significand * 2 ^ x.shift + 2 ^ x.shift = (x.significand + 1) * 2 ^ x.shift := by ring
    _ ≤ 2 ^ (x.significand.log2 + 1) * 2 ^ x.shift := Nat.mul_le_mul_right _ hlog
    _ = 2 ^ 64 := by
      rw [← pow_add]
      congr 1
      have := x.shift_add.1
      omega

theorem significand_shift_lt (x : Binary64) : x.significand <<< x.shift < 2 ^ 64 := by
  have hle := x.significand_shift_le
  have hpos : 0 < 2 ^ x.shift := by positivity
  rw [Nat.shiftLeft_eq]
  omega

/-- The unit is a small part of the gap. -/
theorem unit_le (x : Binary64) : 2 ^ 10 * x.unit ≤ 2 ^ x.exponent := by
  have hpower := (scaledPower_bounds (-x.scale)).1
  have hscale := x.power_mul_unit
  have hunit := x.unit_pos
  have hshift : (2 : ℚ) ^ 11 ≤ 2 ^ x.shift := pow_le_pow_right₀ (by norm_num) x.shift_add.2
  have hexponent : (2 : ℚ) ^ x.shift * 2 ^ (x.exponent - x.shift) = 2 ^ x.exponent :=
    two_pow_mul_zpow (by omega)
  have hlarge : (2 : ℚ) ^ 63 * x.unit ≤ 2 ^ 64 * 2 ^ (x.exponent - x.shift) := by
    rw [← hscale]
    gcongr
  calc (2 : ℚ) ^ 10 * x.unit = 2 ^ 11 * (2 ^ 63 * x.unit / 2 ^ 64) := by ring
    _ ≤ 2 ^ x.shift * 2 ^ (x.exponent - x.shift) := by
      gcongr
      rwa [div_le_iff₀ (by positivity), mul_comm _ ((2 : ℚ) ^ 64)]
    _ = 2 ^ x.exponent := hexponent

/-- **Scaling is off by less than a unit.** -/
theorem mulHigh_unit_near (x : Binary64) {a : Nat} (ha : a < 2 ^ 64) :
    |mulHigh a (powerSignificand (-x.scale)) * x.unit - a * 2 ^ (x.exponent - x.shift)|
      < x.unit := by
  have hunit := x.unit_pos
  have hscale : (a : ℚ) * 2 ^ (x.exponent - x.shift) =
      a * (10 ^ (-x.scale) * 2 ^ (-powerExponent (-x.scale))) / 2 ^ 64 * x.unit := by
    rw [div_mul_eq_mul_div, mul_assoc (a : ℚ), x.power_mul_unit, mul_left_comm,
      mul_div_cancel_left₀ _ (by positivity)]
  rw [hscale, ← sub_mul, abs_mul, abs_of_pos hunit, mul_lt_iff_lt_one_left hunit]
  exact scaled_near ha (powerSignificand_near _)

/-! ## The moved midpoints -/

theorem shifted_value (x : Binary64) :
    ((x.significand <<< x.shift : Nat) : ℚ) * 2 ^ (x.exponent - x.shift) = x.absValue := by
  rw [cast_shiftLeft, mul_assoc, two_pow_mul_zpow (by omega : _ = x.exponent)]
  rfl

/-- A part of the gap, scaled. -/
theorem shifted_part {j : Nat} (hj : j ≤ x.shift) :
    ((1 <<< (x.shift - j) : Nat) : ℚ) * 2 ^ (x.exponent - x.shift) = 2 ^ (x.exponent - j) := by
  rw [cast_shiftLeft, Nat.cast_one, one_mul, two_pow_mul_zpow (by omega : _ = x.exponent - j)]

/-- The quarter of the gap is large against the unit, and two of them are half a gap. -/
theorem quarter_gap (x : Binary64) :
    256 * x.unit ≤ 2 ^ (x.exponent - 2)
      ∧ (2 : ℚ) ^ (x.exponent - 1) = 2 * 2 ^ (x.exponent - 2) := by
  have hunit := x.unit_le
  have hquarter : (2 : ℚ) ^ x.exponent = 4 * 2 ^ (x.exponent - 2) := by
    rw [zpow_sub₀ (by norm_num)]
    norm_num
    ring
  have hhalf : (2 : ℚ) ^ (x.exponent - 1) = 2 * 2 ^ (x.exponent - 2) := by
    rw [← zpow_one_add₀ (by norm_num)]
    congr 1
    ring
  refine ⟨?_, hhalf⟩
  linarith

theorem value_near (x : Binary64) (e : Int) :
    |(x.narrowedBounds e).value * x.unit - x.absValue| < x.unit := by
  have hnear := x.mulHigh_unit_near x.significand_shift_lt
  rwa [shifted_value] at hnear

/-- The upper bound is below the midpoint, by two units at most. -/
theorem high_bounds (x : Binary64) (e : Int) :
    x.absValue + 2 ^ (x.exponent - 1) - 2 * x.unit < (x.narrowedBounds e).high * x.unit
      ∧ (x.narrowedBounds e).high * x.unit < x.absValue + 2 ^ (x.exponent - 1) := by
  have hshift := x.shift_add.2
  have hunit := x.unit_pos
  obtain ⟨hquarter, hhalf⟩ := x.quarter_gap
  have hhigh : (x.narrowedBounds e).high =
      mulHigh (x.significand <<< x.shift + 1 <<< (x.shift - 1)) (powerSignificand (-x.scale)) - 1 :=
    rfl
  have hlt : x.significand <<< x.shift + 1 <<< (x.shift - 1) < 2 ^ 64 := by
    have hle := x.significand_shift_le
    have hpow : 2 ^ (x.shift - 1) < 2 ^ x.shift :=
      Nat.pow_lt_pow_right (by omega) (by omega)
    rw [Nat.shiftLeft_eq, Nat.shiftLeft_eq]
    omega
  have hnear := x.mulHigh_unit_near hlt
  rw [Nat.cast_add, add_mul, shifted_value, shifted_part (by omega), Nat.cast_one] at hnear
  rw [hhigh]
  generalize mulHigh _ _ = scaled at hnear ⊢
  obtain ⟨hlower, hupper⟩ := abs_lt.mp hnear
  have hpos : 1 ≤ scaled := by
    by_contra hzero
    obtain rfl : scaled = 0 := by omega
    have := x.absValue_nonneg
    rw [Nat.cast_zero, zero_mul] at hlower
    linarith
  rw [Nat.cast_sub hpos, Nat.cast_one, sub_one_mul]
  constructor <;> linarith

/-- A midpoint below the number, scaled. -/
theorem scaled_below (hz : x.isZero = false) {j : Nat} (hj : 1 ≤ j) (hj' : j ≤ x.shift) :
    |mulHigh (x.significand <<< x.shift - 1 <<< (x.shift - j)) (powerSignificand (-x.scale))
        * x.unit - (x.absValue - 2 ^ (x.exponent - j))| < x.unit := by
  have hle : 1 <<< (x.shift - j) ≤ x.significand <<< x.shift := by
    rw [Nat.shiftLeft_eq, Nat.shiftLeft_eq]
    exact Nat.mul_le_mul (significand_pos hz) (Nat.pow_le_pow_right (by omega) (by omega))
  have hlt : x.significand <<< x.shift - 1 <<< (x.shift - j) < 2 ^ 64 :=
    (Nat.sub_le _ _).trans_lt x.significand_shift_lt
  have hnear := x.mulHigh_unit_near hlt
  rwa [Nat.cast_sub hle, sub_mul, shifted_value, shifted_part hj'] at hnear

/-- The lower bound is above the midpoint, by two units at most. The midpoint is a quarter or a half
of the gap away. -/
theorem low_bounds (hz : x.isZero = false) (e : Int) :
    x.absValue - 2 ^ (x.exponent - 1) < (x.narrowedBounds e).low * x.unit
      ∧ (x.narrowedBounds e).low * x.unit < x.absValue - 2 ^ (x.exponent - 2) + 2 * x.unit := by
  have hshift := x.shift_add.2
  have hunit := x.unit_pos
  obtain ⟨hquarter, hhalf⟩ := x.quarter_gap
  have hlow : (x.narrowedBounds e).low =
      mulHigh (x.significand <<< x.shift -
        1 <<< (if x.isBinadeStart then x.shift - 2 else x.shift - 1))
        (powerSignificand (-x.scale)) + 1 := rfl
  rw [hlow, Nat.cast_succ, add_one_mul]
  split
  · have hnear := scaled_below hz (by norm_num : 1 ≤ 2) (by omega)
    generalize mulHigh _ _ = scaled at hnear ⊢
    obtain ⟨hlower, hupper⟩ := abs_lt.mp hnear
    rw [Nat.cast_ofNat] at hlower hupper
    constructor <;> linarith
  · have hnear := scaled_below hz (le_refl 1) (by omega)
    generalize mulHigh _ _ = scaled at hnear ⊢
    obtain ⟨hlower, hupper⟩ := abs_lt.mp hnear
    rw [Nat.cast_one] at hlower hupper
    constructor <;> linarith

/-! ## Points between the moved midpoints -/

theorem narrowedBounds_den_pos (x : Binary64) (e : Int) : 0 < (x.narrowedBounds e).den := by
  show 0 < Nat.pow 10 _ <<< _
  rw [Nat.shiftLeft_eq]
  exact Nat.mul_pos (power_pos _) (by positivity)

/-- The unit over a power of ten. -/
theorem num_div_den (x : Binary64) (e : Int) :
    ((x.narrowedBounds e).num : ℚ) / (x.narrowedBounds e).den = x.unit / 10 ^ e := by
  have hratio := power_div (-(e - x.scale))
    (-(x.exponent - x.shift + powerExponent (-x.scale) + 64))
  rw [neg_neg, neg_neg, neg_sub, zpow_sub₀ (by norm_num)] at hratio
  have hnum : (x.narrowedBounds e).num =
      Nat.pow 10 (-(e - x.scale)).toNat
        <<< (x.exponent - x.shift + powerExponent (-x.scale) + 64).toNat := rfl
  have hden : (x.narrowedBounds e).den =
      Nat.pow 10 (e - x.scale).toNat
        <<< (-(x.exponent - x.shift + powerExponent (-x.scale) + 64)).toNat := rfl
  rw [hnum, hden, neg_sub, hratio, unit]
  ring

/-- A multiple of the numerator stands for as many units. -/
theorem cast_mul_num (x : Binary64) (e : Int) (m : Nat) :
    ((m * (x.narrowedBounds e).num : Nat) : ℚ) =
      m * x.unit / 10 ^ e * (x.narrowedBounds e).den := by
  have hden : ((x.narrowedBounds e).den : ℚ) ≠ 0 := by
    exact_mod_cast (x.narrowedBounds_den_pos e).ne'
  have hratio := x.num_div_den e
  rw [div_eq_iff hden] at hratio
  rw [Nat.cast_mul, hratio]
  ring

section
variable {m : Nat}

/-- A point of the grid is at most as large as so many units. -/
theorem mul_den_le_iff :
    n * (x.narrowedBounds e).den ≤ m * (x.narrowedBounds e).num ↔
      (n : ℚ) * 10 ^ e ≤ m * x.unit := by
  have hden : (0 : ℚ) < (x.narrowedBounds e).den := by exact_mod_cast x.narrowedBounds_den_pos e
  rw [← Nat.cast_le (α := ℚ), cast_mul_num, Nat.cast_mul, mul_le_mul_iff_left₀ hden,
    le_div_iff₀ (by positivity)]

theorem mul_num_le_iff :
    m * (x.narrowedBounds e).num ≤ n * (x.narrowedBounds e).den ↔
      m * x.unit ≤ (n : ℚ) * 10 ^ e := by
  have hden : (0 : ℚ) < (x.narrowedBounds e).den := by exact_mod_cast x.narrowedBounds_den_pos e
  rw [← Nat.cast_le (α := ℚ), cast_mul_num, Nat.cast_mul, mul_le_mul_iff_left₀ hden,
    div_le_iff₀ (by positivity)]

end

section
variable (hz : x.isZero = false)
include hz

/-- **Whatever lies between the moved midpoints is less than half a gap away.** -/
theorem near_of_contains (h : (x.narrowedBounds e).contains n = true) :
    |(n : ℚ) * 10 ^ e - x.absValue| < 2 ^ (x.exponent - 1) := by
  obtain ⟨hlow, hhigh⟩ := (Bounds.contains_iff rfl).mp h
  have hlow : (x.narrowedBounds e).low * (x.narrowedBounds e).num ≤
      n * (x.narrowedBounds e).den := by
    split at hlow
    · exact hlow
    · exact hlow.le
  rw [mul_num_le_iff] at hlow
  rw [mul_den_le_iff] at hhigh
  rw [abs_lt]
  have hlower := (low_bounds hz e).1
  have hupper := (x.high_bounds e).2
  constructor <;> linarith

/-- **A grid has a point between the moved midpoints** if it is not coarser than half a gap. -/
theorem exists_contains (h : (10 : ℚ) ^ e ≤ 2 ^ (x.exponent - 1)) :
    ∃ n, (x.narrowedBounds e).contains n = true := by
  have hunit := x.unit_pos
  have hden := x.narrowedBounds_den_pos e
  have hlower := (low_bounds hz e).2
  have hupper := (x.high_bounds e).1
  obtain ⟨hquarter, hhalf⟩ := x.quarter_gap
  generalize hn : (x.narrowedBounds e).high * (x.narrowedBounds e).num /
    (x.narrowedBounds e).den = n
  have hnle : n * (x.narrowedBounds e).den ≤
      (x.narrowedBounds e).high * (x.narrowedBounds e).num := by
    rw [← hn]
    exact Nat.div_mul_le_self _ _
  have hnext : ¬(n + 1) * (x.narrowedBounds e).den ≤
      (x.narrowedBounds e).high * (x.narrowedBounds e).num := by
    rw [← Nat.le_div_iff_mul_le hden, hn]
    omega
  have hlow : ¬n * (x.narrowedBounds e).den ≤
      (x.narrowedBounds e).low * (x.narrowedBounds e).num := by
    rw [mul_den_le_iff, not_le] at hnext ⊢
    push_cast at hnext
    linarith
  refine ⟨n, (Bounds.contains_iff rfl).mpr ⟨?_, hnle⟩⟩
  split <;> omega

end

end CssTokens.Binary64
