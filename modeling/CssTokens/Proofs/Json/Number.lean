import CssTokens.Json.Number
import CssTokens.Proofs.Json.Value

/-!
# Numbers read back from JSON

Integers and finite floating-point numbers are written as numerals. An integer is read back from its
numeral. The decimal of a floating-point number is read in steps with a rounding each, and they need
not come to the same number.

Main statements: the text of an integer is that of its numeral (`JsonValue.isText_int`), and from
this it is read back (`Numeral.signed?_ofInt`, `Numeral.unsigned?_ofInt`). The text of a finite
number is that of a numeral of its shortest decimal (`Binary64.exists_jsonText`).
-/

namespace CssTokens

/-! ## Integers -/

namespace Numeral

/-- The numeral that an integer is written as. -/
def ofInt (i : Int) : Numeral where
  sign := if i < 0 then some '-' else none
  whole := Nat.toDigits 10 i.natAbs
  fraction := []
  exponent := none

theorem ofInt_inJson (i : Int) : (ofInt i).InJson where
  wellFormed := by
    refine ⟨?_, isDigit_of_mem_toDigits, by simp [ofInt], .inl Nat.toDigits_ne_nil, by simp [ofInt]⟩
    unfold ofInt
    split
    · rintro c ⟨⟩
      rfl
    · rintro c ⟨⟩
  sign := by
    unfold ofInt
    split <;> simp
  whole := ⟨i.natAbs, rfl⟩

theorem ofInt_text (i : Int) : String.ofList (ofInt i).text = toString i := by
  have htext : (ofInt i).text = (ofInt i).sign.toList ++ Nat.toDigits 10 i.natAbs := by
    rw [text_eq]
    exact congrArg (_ ++ ·) (List.append_nil _)
  rw [htext]
  cases i with
  | ofNat n => exact Nat.repr_eq_ofList_toDigits.symm
  | negSucc n =>
    have hsign : (ofInt (.negSucc n)).sign = some '-' := if_pos (Int.negSucc_lt_zero n)
    show _ = "-" ++ (n + 1).repr
    rw [hsign, String.ofList_append, Nat.repr_eq_ofList_toDigits]
    rfl

theorem ofInt_isNegative (i : Int) : (ofInt i).isNegative = decide (i < 0) := by
  unfold isNegative ofInt
  by_cases hi : i < 0
  · rw [if_pos hi, decide_eq_true hi]
    rfl
  · rw [if_neg hi, decide_eq_false hi]
    rfl

theorem ofInt_integer (i : Int) : (ofInt i).integer = i := by
  have hwhole : ofDigits (ofInt i).whole = i.natAbs := ofDigits_toDigits _
  rw [integer, ofInt_isNegative, hwhole]
  by_cases hi : i < 0
  · rw [if_pos (decide_eq_true hi)]
    omega
  · rw [if_neg (by simpa using hi)]
    omega

/-- **An integer is read back as a signed integer.** -/
theorem signed?_ofInt (i : Int64) : (ofInt i.toInt).signed? = some i := by
  have hvalue : (ofInt i.toInt).value = .integer i := by
    rw [value_eq_integer_iff, ofInt_integer]
    exact ⟨rfl, rfl⟩
  have hfits : (ofInt i.toInt).fits = true := by
    rw [fits, ofInt_integer, Bool.and_eq_true, decide_eq_true_eq, decide_eq_true_eq]
    exact ⟨Int64.minValue_le_toInt i, Int64.toInt_le i⟩
  have hzero : ((ofInt i.toInt).isNegative && (ofInt i.toInt).integer == 0) = false := by
    rw [ofInt_isNegative, ofInt_integer, Bool.and_eq_false_iff]
    by_cases hi : i.toInt < 0
    · exact .inr (beq_eq_false_iff_ne.mpr (by omega))
    · exact .inl (decide_eq_false hi)
  rw [signed?, hfits, hzero, ofInt_integer, Int64.ofInt_toInt]
  rfl

/-- **A natural number is read back as an unsigned integer**, if it fits into 64 bits. -/
theorem unsigned?_ofInt {n : Nat} (hn : n < UInt64.size) : (ofInt n).unsigned? = some n := by
  have hwhole : ofDigits (ofInt n).whole = n := ofDigits_toDigits _
  have hnegative : (ofInt n).isNegative = false := by
    rw [ofInt_isNegative]
    exact decide_eq_false (by omega)
  rw [unsigned?, hnegative, hwhole, decide_eq_true hn]
  rfl

end Numeral

/-- **The text of an integer is that of its numeral.** -/
theorem JsonValue.isText_int (i : Int) : IsText (toString i) (.number (.ofInt i)) := by
  rw [← Numeral.ofInt_text]
  exact isText_number (Numeral.ofInt_inJson i)

/-! ## Floating-point numbers -/

/-- **A finite number is written as a numeral of its shortest decimal**, with its sign. -/
theorem Binary64.exists_jsonText {x : Binary64} (hx : x.isInfinite = false) :
    ∃ n : Numeral, n.InJson ∧ x.jsonText = String.ofList n.text ∧ n.isNegative = x.negative
      ∧ n.decimal.value = (FloatFormat.json.written x).value := by
  obtain ⟨n, hn, hvalue, -⟩ := FloatFormat.json.exists_writes_unsignedText x
  have htext : x.jsonText = String.ofList (FloatFormat.json.text x) := by
    rw [jsonText, hx]
    rfl
  rw [htext, FloatFormat.text_eq _ x (.inl hx)]
  refine ⟨{ n with sign := if x.negative then some '-' else none },
    ⟨{ hn.wellFormed with sign := ?_ }, ?_, hn.whole⟩, ?_, ?_, hvalue⟩
  · cases x.negative <;> simp [isSign]
  · cases x.negative <;> simp
  · rw [← hn.text, Numeral.text_eq, Numeral.text_eq, hn.sign]
    cases x.negative <;> rfl
  · cases x.negative <;> rfl

end CssTokens
