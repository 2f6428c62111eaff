import CssTokens.CharClass

/-!
# Where the character classes are

Bounds of the code points in a class, from which it follows that two classes have no character in
common or that one is part of another.
-/

namespace CssTokens

variable {c : Char}

theorem toNat_of_isDigit (h : c.isDigit = true) : 0x30 ≤ c.toNat ∧ c.toNat ≤ 0x39 :=
  Char.isDigit_iff_toNat.mp h

/-- A range of characters is a range of code points. -/
theorem between_iff_toNat (a b : Char) :
    (decide (a.val ≤ c.val) && decide (c.val ≤ b.val)) = true ↔
      a.toNat ≤ c.toNat ∧ c.toNat ≤ b.toNat := by
  rw [Bool.and_eq_true, decide_eq_true_eq, decide_eq_true_eq, UInt32.le_iff_toNat_le,
    UInt32.le_iff_toNat_le]
  exact Iff.rfl

theorem isAlpha_iff_toNat :
    c.isAlpha = true ↔ 0x41 ≤ c.toNat ∧ c.toNat ≤ 0x5A ∨ 0x61 ≤ c.toNat ∧ c.toNat ≤ 0x7A := by
  have hupper : c.isUpper = true ↔ 0x41 ≤ c.toNat ∧ c.toNat ≤ 0x5A := by
    show decide _ = true ↔ _
    rw [Bool.decide_and]
    exact between_iff_toNat 'A' 'Z'
  have hlower : c.isLower = true ↔ 0x61 ≤ c.toNat ∧ c.toNat ≤ 0x7A := between_iff_toNat 'a' 'z'
  show (c.isUpper || c.isLower) = true ↔ _
  rw [Bool.or_eq_true, hupper, hlower]

/-- What is a letter in lower case is that letter or the one in upper case. -/
theorem eq_or_eq_of_toLower {lower upper : Char}
    (hletter : lower.val = upper.val + ('a'.val - 'A'.val)) (h : c.toLower = lower) :
    c = lower ∨ c = upper := by
  unfold Char.toLower at h
  split at h
  · have hval : c.val + ('a'.val - 'A'.val) = lower.val := congrArg Char.val h
    exact .inr (Char.ext ((UInt32.add_left_inj _).mp (hval.trans hletter)))
  · exact .inl h

theorem toNat_of_isNameStart (h : isNameStart c = true) : 0x41 ≤ c.toNat := by
  simp only [isNameStart, isNonAscii, Bool.or_eq_true, beq_iff_eq, decide_eq_true_eq,
    isAlpha_iff_toNat] at h
  rcases h with (h | rfl) | h
  · omega
  · decide
  · omega

theorem toNat_of_isNameChar (h : isNameChar c = true) : 0x2D ≤ c.toNat := by
  simp only [isNameChar, Bool.or_eq_true, beq_iff_eq] at h
  rcases h with (h | h) | rfl
  · have := toNat_of_isNameStart h
    omega
  · have := toNat_of_isDigit h
    omega
  · decide

theorem isDigit_of_isNameStart (h : isNameStart c = true) : c.isDigit = false := by
  refine Bool.eq_false_iff.mpr fun hd => ?_
  have hstart := toNat_of_isNameStart h
  have hdigit := toNat_of_isDigit hd
  omega

/-- A hexadecimal digit is a letter or a digit. -/
theorem isNameStart_or_isDigit (h : isHexDigit c = true) :
    isNameStart c = true ∨ c.isDigit = true := by
  unfold isHexDigit hexValue? at h
  split at h
  · next hd => exact .inr hd
  · have hletter : c.isAlpha = true := by
      rw [isAlpha_iff_toNat]
      simp only [Bool.and_eq_true, decide_eq_true_eq] at h
      split at h
      · omega
      · split at h
        · omega
        · cases h
    refine .inl ?_
    rw [isNameStart, hletter]
    rfl

theorem isHexDigit_eq_false (hs : isNameStart c = false) (hd : c.isDigit = false) :
    isHexDigit c = false := by
  refine Bool.eq_false_iff.mpr fun h => ?_
  rcases isNameStart_or_isDigit h with h | h
  · rw [hs] at h
    cases h
  · rw [hd] at h
    cases h

end CssTokens
