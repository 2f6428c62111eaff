import CssTokens.CharClass

/-!
# Hexadecimal digits read back

Main statement: the digits of a number are the digits of this number only
(`ofHexDigits_hexDigits`).
-/

namespace CssTokens

theorem hexValue?_digitChar : ∀ d : Nat, d < 16 → hexValue? d.digitChar = some d := by
  decide

theorem ofHexDigits_append_singleton (cs : List Char) (c : Char) :
    ofHexDigits (cs ++ [c]) = 16 * ofHexDigits cs + (hexValue? c).getD 0 := by
  rw [ofHexDigits, List.foldl_append]
  rfl

/-- **The digits of a number write this number.** -/
theorem ofHexDigits_hexDigits (n : Nat) : ofHexDigits (hexDigits n) = n := by
  induction n using Nat.base_induction 16 (by decide) with
  | single d hd =>
    rw [hexDigits, Nat.toDigits_of_lt_base hd]
    show 16 * 0 + (hexValue? d.digitChar).getD 0 = d
    rw [hexValue?_digitChar d hd, Option.getD_some, Nat.mul_zero, Nat.zero_add]
  | digit n d hd hn ih =>
    rw [hexDigits, ← Nat.toDigits_append_toDigits (by decide) hn hd, Nat.toDigits_of_lt_base hd,
      ofHexDigits_append_singleton, hexValue?_digitChar d hd]
    exact congrArg (16 * · + d) ih

theorem isHexDigit_of_mem_hexDigits {n : Nat} {c : Char} (h : c ∈ hexDigits n) :
    isHexDigit c = true := by
  have hdigit : ∀ d : Nat, d < 16 → isHexDigit d.digitChar = true := by decide
  induction n using Nat.base_induction 16 (by decide) with
  | single d hd =>
    rw [hexDigits, Nat.toDigits_of_lt_base hd] at h
    rw [List.mem_singleton.mp h]
    exact hdigit d hd
  | digit n d hd hn ih =>
    rw [hexDigits, ← Nat.toDigits_append_toDigits (by decide) hn hd,
      Nat.toDigits_of_lt_base hd] at h
    rcases List.mem_append.mp h with h | h
    · exact ih h
    · rw [List.mem_singleton.mp h]
      exact hdigit d hd

theorem hexDigits_ne_nil (n : Nat) : hexDigits n ≠ [] :=
  Nat.toDigits_ne_nil

/-- A number has not more than five digits if it is below 16 to the power of 5. -/
theorem hexDigits_length_le {n : Nat} (h : n < 0x100000) : (hexDigits n).length ≤ 5 :=
  (Nat.length_toDigits_le_iff (by decide) (by decide)).mpr h

end CssTokens
