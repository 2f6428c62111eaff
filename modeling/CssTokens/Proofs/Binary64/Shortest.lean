import CssTokens.Proofs.Binary64.Scaled

/-!
# Shortest decimals are near

The digits of a number lie between the moved midpoints, so that their decimal is less than half a
gap away from it. Once there are more decimals than numbers, digits are found; so small significands
need few digits.

Main statements: `shortest_near`, how near to a number its shortest decimal is, and
`shortest_length_le`, how many digits it has.
-/

namespace CssTokens.Binary64

variable {x : Binary64} {e : Int} {n : Nat}

/-! ## Digits -/

section
variable (hz : x.isZero = false)
include hz

/-- **Digits are found** before a power of ten of at most half a gap. -/
theorem digitsAt?_isSome (h : (10 : ℚ) ^ e ≤ 2 ^ (x.exponent - 1)) :
    (x.digitsAt? .narrowed e).isSome = true := by
  have hunit := x.unit_pos
  have hden := x.narrowedBounds_den_pos e
  obtain ⟨hquarter, hhalf⟩ := x.quarter_gap
  obtain ⟨n, hn⟩ := exists_contains hz h
  obtain ⟨hlow, hhigh⟩ := abs_lt.mp (x.value_near e)
  have hlower : (x.narrowedBounds e).low ≤ (x.narrowedBounds e).value := by
    have hlt : (x.narrowedBounds e).low * x.unit < (x.narrowedBounds e).value * x.unit := by
      linarith [(low_bounds hz e).2]
    exact_mod_cast (lt_of_mul_lt_mul_right hlt hunit.le).le
  have hupper : (x.narrowedBounds e).value ≤ (x.narrowedBounds e).high := by
    have hlt : (x.narrowedBounds e).value * x.unit < (x.narrowedBounds e).high * x.unit := by
      linarith [(x.high_bounds e).1]
    exact_mod_cast (lt_of_mul_lt_mul_right hlt hunit.le).le
  unfold digitsAt?
  dsimp only
  split
  · exact Bounds.nearest?_isSome rfl hden hn hlower hupper
  · exact Bounds.largest?_isSome rfl hden hn

/-- **Digits that are found are less than half a gap away.** -/
theorem digitsAt?_near (h : x.digitsAt? .narrowed e = some n) :
    |(n : ℚ) * 10 ^ e - x.absValue| < 2 ^ (x.exponent - 1) := by
  refine near_of_contains hz ?_
  unfold digitsAt? at h
  dsimp only at h
  split at h
  · exact Bounds.contains_nearest? h
  · exact Bounds.contains_largest? h

end

/-! ## The place of the decimal point -/

/-- A number that is scaled by a power of ten is rounded down. -/
theorem le_scaled_iff (k m : Nat) :
    m ≤ (x.significand * Nat.pow 10 k) <<< x.exponent.toNat >>> (-x.exponent).toNat ↔
      (m : ℚ) ≤ x.absValue * 10 ^ k := by
  have hden : (0 : ℚ) < (1 <<< (-x.exponent).toNat : Nat) := by
    rw [cast_shiftLeft]
    positivity
  have hratio := shift_div (x.significand * Nat.pow 10 k) 1 (-x.exponent)
  rw [neg_neg, Nat.cast_one, div_one] at hratio
  have hvalue : x.absValue * 10 ^ k =
      ((x.significand * Nat.pow 10 k : Nat) : ℚ) * 2 ^ x.exponent := by
    rw [absValue, Nat.cast_mul, Nat.pow_eq, Nat.cast_pow, Nat.cast_ofNat]
    ring
  rw [Nat.shiftRight_eq_div_pow, Nat.le_div_iff_mul_le (by positivity), hvalue, ← hratio,
    le_div_iff₀ hden, ← Nat.cast_mul, Nat.cast_le, Nat.shiftLeft_eq 1, Nat.one_mul]

/-- The digits before the point of a scaled number tell its place among the powers of ten. -/
theorem scaled_bounds {k scaled : Nat}
    (hle : ∀ m : Nat, m ≤ scaled ↔ (m : ℚ) ≤ x.absValue * 10 ^ k)
    (hone : 1 ≤ x.absValue * 10 ^ k) :
    (10 : ℚ) ^ ((decimalLength scaled : Int) - k - 1) ≤ x.absValue
      ∧ x.absValue < 10 ^ ((decimalLength scaled : Int) - k) := by
  have hpos : 0 < scaled := (hle 1).mpr (by rwa [Nat.cast_one])
  have hlow := (hle _).mp (pow_le_of_pos hpos)
  have hhigh := not_le.mp (mt (hle _).mpr (lt_pow_decimalLength scaled).not_ge)
  rw [Nat.cast_pow, Nat.cast_ofNat, ← zpow_natCast, ← zpow_natCast] at hlow hhigh
  rw [Nat.cast_sub (decimalLength_pos scaled), Nat.cast_one] at hlow
  have hsplit : (decimalLength scaled : Int) - k - 1 = decimalLength scaled - 1 - k := by ring
  rw [hsplit, zpow_sub₀ (by norm_num) _ (k : Int), zpow_sub₀ (by norm_num) _ (k : Int),
    div_le_iff₀ (by positivity), lt_div_iff₀ (by positivity)]
  exact ⟨hlow, hhigh⟩

section
variable (hz : x.isZero = false)
include hz

/-- No positive number is smaller than `10 ^ -324`. -/
theorem one_le_scaled : 1 ≤ x.absValue * 10 ^ 324 := by
  have hs : (1 : ℚ) ≤ x.significand := by exact_mod_cast significand_pos hz
  have hpow : (2 : ℚ) ^ (1074 : Int) ≤ 10 ^ 324 := by
    have hle : 2 ^ 1074 ≤ 10 ^ 324 := by decide +kernel
    exact_mod_cast hle
  have he : (2 : ℚ) ^ (-1074 : Int) ≤ 2 ^ x.exponent :=
    zpow_le_zpow_right₀ (by norm_num) x.exponent_ge
  calc (1 : ℚ) = 2 ^ (-1074 : Int) * 2 ^ (1074 : Int) := by
        rw [← zpow_add₀ (by norm_num)]
        rfl
    _ ≤ 2 ^ x.exponent * 10 ^ 324 := by gcongr
    _ ≤ x.absValue * 10 ^ 324 := by
      unfold absValue
      gcongr
      exact le_mul_of_one_le_left (by positivity) hs

/-- **A number lies between the powers of ten at its decimal point.** -/
theorem decimalPoint_bounds :
    (10 : ℚ) ^ (x.decimalPoint - 1) ≤ x.absValue ∧ x.absValue < 10 ^ x.decimalPoint := by
  have hone := one_le_scaled hz
  have hcast : (324 : Int) = (324 : Nat) := rfl
  unfold decimalPoint
  dsimp only
  -- With the power of ten as a variable, nothing tries to compute it.
  rw [hcast]
  generalize 324 = k at hone ⊢
  exact scaled_bounds (le_scaled_iff k) hone

end

/-! ## The search -/

/-- What is found is found at the first number where something is found. -/
theorem exists_findSome?_range {α : Type} {f : Nat → Option α} {k m : Nat} (hk : k < m)
    (h : (f k).isSome = true) :
    ∃ i a, i ≤ k ∧ f i = some a ∧ (List.range m).findSome? f = some a := by
  have hsome : ((List.range m).findSome? f).isSome = true :=
    List.findSome?_isSome_iff.mpr ⟨k, List.mem_range.mpr hk, h⟩
  obtain ⟨a, ha⟩ := Option.isSome_iff_exists.mp hsome
  obtain ⟨before, i, after, hsplit, hi, hnone⟩ := List.findSome?_eq_some_iff.mp ha
  refine ⟨i, a, ?_, hi, ha⟩
  have hmem : k ∈ before ++ i :: after := hsplit ▸ List.mem_range.mpr hk
  have hordered : (before ++ i :: after).Pairwise (· < ·) := hsplit ▸ List.pairwise_lt_range
  rw [List.pairwise_append, List.pairwise_cons] at hordered
  rcases List.mem_append.mp hmem with hk | hk
  · rw [hnone k hk] at h
    cases h
  · rcases List.mem_cons.mp hk with rfl | hk
    · exact Nat.le_refl _
    · exact (hordered.2.1.1 k hk).le

section
variable (hz : x.isZero = false)
include hz

/-- **Decimals of `k` digits are fine enough** if twenty times the significand has no more. -/
theorem pow_le_half_gap {k : Nat} (hfine : 20 * x.significand ≤ 10 ^ k) :
    (10 : ℚ) ^ (x.decimalPoint - k) ≤ 2 ^ (x.exponent - 1) := by
  have hfine' : (20 : ℚ) * x.significand ≤ 10 ^ (k : Int) := by
    rw [zpow_natCast]
    exact_mod_cast hfine
  have hpoint := (decimalPoint_bounds hz).1
  have hsplit : (10 : ℚ) ^ (x.decimalPoint - 1) = 10 ^ x.decimalPoint / 10 := by
    rw [zpow_sub_one₀ (by norm_num)]
    rfl
  rw [hsplit, absValue] at hpoint
  rw [zpow_sub₀ (by norm_num), zpow_sub_one₀ (by norm_num), div_le_iff₀ (by positivity)]
  calc (10 : ℚ) ^ x.decimalPoint ≤ 10 * (x.significand * 2 ^ x.exponent) := by linarith
    _ = 2 ^ x.exponent * 2⁻¹ * (20 * x.significand) := by ring
    _ ≤ 2 ^ x.exponent * 2⁻¹ * 10 ^ (k : Int) := by gcongr

/-- **The shortest decimal**, found with at most as many digits as are fine enough. -/
theorem exists_shortest {k : Nat} (hk : k < 21) (hfine : 20 * x.significand ≤ 10 ^ k) :
    ∃ i digits, i ≤ k ∧ x.digitsAt? .narrowed (x.decimalPoint - i) = some digits
      ∧ x.shortest .narrowed = Decimal.trim { digits, exponent := x.decimalPoint - i } := by
  have hsome : (x.decimalOfLength? .narrowed k).isSome = true := by
    unfold decimalOfLength?
    rw [Option.isSome_map]
    exact digitsAt?_isSome hz (pow_le_half_gap hz hfine)
  obtain ⟨i, d, hi, hd, hfind⟩ := exists_findSome?_range hk hsome
  obtain ⟨digits, hdigits, rfl⟩ := Option.map_eq_some_iff.mp hd
  refine ⟨i, digits, hi, hdigits, ?_⟩
  rw [shortest, hfind]
  rfl

/-! ## The shortest decimal -/

/-- Half of the gap is at most half of the number. -/
theorem half_gap_le_half : (2 : ℚ) ^ (x.exponent - 1) ≤ x.absValue / 2 := by
  have hs : (1 : ℚ) ≤ x.significand := by exact_mod_cast significand_pos hz
  rw [zpow_sub_one₀ (by norm_num), absValue, mul_div_assoc, div_eq_mul_inv]
  exact le_mul_of_one_le_left (by positivity) hs

/-- **The shortest decimal of a number is less than half a gap away from it.** -/
theorem shortest_near :
    |(x.shortest .narrowed).value - x.absValue| < 2 ^ (x.exponent - 1) := by
  have hfine : 20 * x.significand ≤ 10 ^ 18 := by
    have hlt := x.significand_lt
    omega
  obtain ⟨i, digits, -, hdigits, heq⟩ := exists_shortest hz (by decide : 18 < 21) hfine
  rw [heq, Decimal.trim_value]
  exact digitsAt?_near hz hdigits

theorem shortest_digits_pos : 0 < (x.shortest .narrowed).digits := by
  have hnear := (abs_lt.mp (shortest_near hz)).1
  have hhalf := half_gap_le_half hz
  have hpos := absValue_pos hz
  by_contra hnone
  have hzero : (x.shortest .narrowed).value = 0 := by
    rw [Decimal.value, show (x.shortest .narrowed).digits = 0 by omega, Nat.cast_zero, zero_mul]
  linarith

/-- **The shortest decimal has at most one digit more than are fine enough.** -/
theorem shortest_length_le {k : Nat} (hk : k < 21) (hfine : 20 * x.significand ≤ 10 ^ k) :
    (x.shortest .narrowed).length ≤ k + 1 := by
  obtain ⟨i, digits, hi, hdigits, heq⟩ := exists_shortest hz hk hfine
  have hnear := (abs_lt.mp (digitsAt?_near hz hdigits)).2
  have hhalf := half_gap_le_half hz
  have hpoint := (decimalPoint_bounds hz).2
  have hlt : (digits : ℚ) < 10 ^ (i + 1) := by
    have hscaled : (digits : ℚ) * 10 ^ (x.decimalPoint - i) <
        10 ^ (i + 1) * 10 ^ (x.decimalPoint - i) := by
      have hpower : (10 : ℚ) ^ (i + 1) * 10 ^ (x.decimalPoint - i) = 10 * 10 ^ x.decimalPoint := by
        rw [pow_succ, ← zpow_natCast, mul_right_comm, ← zpow_add₀ (by norm_num), add_sub_cancel,
          mul_comm]
      have hpos := absValue_pos hz
      linarith
    exact lt_of_mul_lt_mul_right hscaled (by positivity)
  have hlength : decimalLength digits ≤ i + 1 :=
    (decimalLength_le_iff (by omega)).mpr (by exact_mod_cast hlt)
  rw [heq]
  calc Decimal.length (Decimal.trim { digits, exponent := x.decimalPoint - i })
      ≤ decimalLength digits := Decimal.trim_length_le _
    _ ≤ i + 1 := hlength
    _ ≤ k + 1 := by omega

end

end CssTokens.Binary64
