import CssTokens.Proofs.Roundtrip.Hex
import CssTokens.Proofs.Text.CharClass
import Mathlib.Data.List.Induction
import Mathlib.Data.Nat.Digits.Defs

/-!
# Numbers in hexadecimal digits and their characters

The number that hexadecimal digits write is the sum of the digits, each at its place. It may be put
together in a word of 32 bits, four bits for a digit, where up to eight digits find room.

Not every number is a code point. Those that are none, the surrogates and what is too large, stand
for U+FFFD.

Main statements: digits write the number of their places (`ofHexDigits_eq_ofDigits`), a word holds
it (`hexWord_toNat`), and its character is that of the code point (`charOfCodePoint_standsFor`).
-/

namespace CssTokens

/-! ## Digits -/

/-- The value of a hexadecimal digit, and 0 for what is none. -/
def hexDigitValue (c : Char) : Nat :=
  (hexValue? c).getD 0

theorem hexDigitValue_lt (c : Char) : hexDigitValue c < 16 := by
  unfold hexDigitValue hexValue?
  simp only [Bool.and_eq_true, decide_eq_true_eq]
  split
  · next hd =>
    have := toNat_of_isDigit hd
    rw [Option.getD_some]
    omega
  · split
    · rw [Option.getD_some]
      omega
    · split
      · rw [Option.getD_some]
        omega
      · exact Nat.succ_pos 15

/-! ## Numbers -/

/-- **Each digit counts by its place.** -/
theorem ofHexDigits_eq_ofDigits (digits : List Char) :
    ofHexDigits digits = Nat.ofDigits 16 (digits.map hexDigitValue).reverse := by
  induction digits using List.reverseRecOn with
  | nil => rfl
  | append_singleton digits d ih =>
    rw [ofHexDigits_append_singleton, ih, List.map_append, List.reverse_append]
    show _ = Nat.ofDigits 16 (hexDigitValue d :: (digits.map hexDigitValue).reverse)
    rw [Nat.ofDigits_cons, Nat.add_comm]
    rfl

/-- A number has as many digits as it needs at least. -/
theorem ofHexDigits_lt (digits : List Char) : ofHexDigits digits < 16 ^ digits.length := by
  have hdigits : ∀ d ∈ (digits.map hexDigitValue).reverse, d < 16 := by
    intro d hd
    obtain ⟨c, -, rfl⟩ := List.mem_map.mp (List.mem_reverse.mp hd)
    exact hexDigitValue_lt c
  have hlt := Nat.ofDigits_lt_base_pow_length (by decide) hdigits
  rwa [← ofHexDigits_eq_ofDigits, List.length_reverse, List.length_map] at hlt

theorem ofHexDigits_lt_of_length_le {digits : List Char} {n : Nat} (h : digits.length ≤ n) :
    ofHexDigits digits < 16 ^ n :=
  Nat.lt_of_lt_of_le (ofHexDigits_lt digits) (Nat.pow_le_pow_right (by decide) h)

/-- The number in a word of 32 bits, where each digit is shifted in from the right. -/
def hexWord (digits : List Char) : UInt32 :=
  digits.foldl (fun word d => word <<< 4 ||| UInt32.ofNat (hexDigitValue d)) 0

/-- **A word has room for eight digits.** -/
theorem hexWord_toNat {digits : List Char} (h : digits.length ≤ 8) :
    (hexWord digits).toNat = ofHexDigits digits := by
  induction digits using List.reverseRecOn with
  | nil => rfl
  | append_singleton digits d ih =>
    rw [List.length_append, List.length_singleton] at h
    have hdigit := hexDigitValue_lt d
    -- Without its last digit the number has 28 bits, so that none is lost in the shift.
    have hnumber : ofHexDigits digits < 16 ^ 7 := ofHexDigits_lt_of_length_le (by omega)
    have hshift : ofHexDigits digits <<< 4 < 2 ^ 32 := by
      rw [Nat.shiftLeft_eq]
      omega
    have hword : hexWord (digits ++ [d]) =
        hexWord digits <<< 4 ||| UInt32.ofNat (hexDigitValue d) := by
      rw [hexWord, List.foldl_append]
      rfl
    rw [hword, UInt32.toNat_or, UInt32.toNat_shiftLeft, ih (by omega),
      UInt32.toNat_ofNat_of_lt' (by simp only [UInt32.size]; omega),
      ofHexDigits_append_singleton]
    show ofHexDigits digits <<< 4 % 2 ^ 32 ||| hexDigitValue d =
      16 * ofHexDigits digits + hexDigitValue d
    rw [Nat.mod_eq_of_lt hshift, ← Nat.shiftLeft_add_eq_or_of_lt (i := 4) hdigit, Nat.shiftLeft_eq,
      Nat.mul_comm]

/-! ## Characters -/

/-- The character that a number stands for: that of the code point, if it is one, and else
U+FFFD. -/
structure StandsFor (n : Nat) (c : Char) : Prop where
  codePoint : n ≤ 0x10FFFF → ¬(0xD800 ≤ n ∧ n ≤ 0xDFFF) → c.toNat = n
  surrogate : 0xD800 ≤ n → n ≤ 0xDFFF → c = '\uFFFD'
  tooLarge : 0x10FFFF < n → c = '\uFFFD'

theorem isValidChar_iff {n : Nat} :
    n.isValidChar ↔ n ≤ 0x10FFFF ∧ ¬(0xD800 ≤ n ∧ n ≤ 0xDFFF) := by
  unfold Nat.isValidChar
  omega

/-- **A number is given the character that it stands for.** -/
theorem charOfCodePoint_standsFor (n : Nat) : StandsFor n (charOfCodePoint n) := by
  unfold charOfCodePoint
  split
  · next h =>
    have hn := isValidChar_iff.mp h
    have hchar : (Char.ofNat n).toNat = n := by
      rw [Char.ofNat, dif_pos h]
      rfl
    exact ⟨fun _ _ => hchar, fun hlow hhigh => absurd ⟨hlow, hhigh⟩ hn.2, fun hlt => by omega⟩
  · next h =>
    rw [isValidChar_iff] at h
    exact ⟨fun hle hne => absurd ⟨hle, hne⟩ h, fun _ _ => rfl, fun _ => rfl⟩

/-- Zero is a code point, too. -/
example : charOfCodePoint 0 = '\x00' := rfl

end CssTokens
