import CssTokens.Proofs.Grammar.Parse
import CssTokens.Proofs.Refinement.Composed
import CssTokens.Proofs.Roundtrip.NumberText

/-!
# Numerals and the parsers of numbers

The value of a numeral is computed from its parts. It is the value that parsing the text of the
numeral comes to: an integer if the text has neither a point nor an exponent and the integer does
not overflow, and a floating-point number otherwise. The parsers accept more than numerals, but
there is no numeral that both of them refuse.

Main statement: `Numeral.read_value`.
-/

namespace CssTokens

/-! ## Integers that fit -/

namespace Numeral

theorem checked_integer (n : Numeral) :
    Parse.checked n.integer = if n.fits then some (Int64.ofInt n.integer) else none := by
  rw [Parse.checked, fits]
  simp only [Bool.and_eq_true, decide_eq_true_eq]

/-- The value is an integer if the numeral is written as that integer, which then fits. -/
theorem value_eq_integer_iff {n : Numeral} {k : Int64} :
    n.value = .integer k ↔ n.isInteger = true ∧ n.integer = k.toInt := by
  have hchecked := Parse.checked_eq_some_iff (i := n.integer) (k := k)
  rw [checked_integer] at hchecked
  rw [value, eq_comm (a := n.integer), ← hchecked]
  cases n.isInteger <;> cases n.fits <;> simp

end Numeral

/-! ## The text of a numeral -/

namespace Parse

/-- A sign is split off from what does not begin with one. -/
theorem splitSign_append {sign : Option Char} (hs : ∀ c ∈ sign, isSign c = true) {d : Char}
    {ds : List Char} (hd : isSign d = false) :
    splitSign (sign.toList ++ d :: ds) = (sign == some '-', d :: ds) := by
  cases sign with
  | none =>
    show splitSign (d :: ds) = (false, d :: ds)
    unfold splitSign
    split
    · next heq =>
      cases heq
      cases hd
    · next heq =>
      cases heq
      cases hd
    · rfl
  | some c =>
    rcases isSign_iff.mp (hs c rfl) with rfl | rfl <;> rfl

theorem integer?_digits {sign : Option Char} (hs : ∀ c ∈ sign, isSign c = true) {ds : List Char}
    (hd : ∀ c ∈ ds, c.isDigit = true) (hne : ds ≠ []) :
    integer? (sign.toList ++ ds) = some (withSign (sign == some '-') (ofDigits ds)) := by
  obtain ⟨d, ds, rfl⟩ := List.exists_cons_of_ne_nil hne
  have hfirst : isSign d = false := isSign_of_isDigit (hd d List.mem_cons_self)
  rw [integer?, splitSign_append hs hfirst]
  dsimp only
  rw [List.all_eq_true.mpr hd]
  rfl

/-- What goes on with a class of characters is taken up to where it ends. -/
theorem span_append {p : Char → Bool} {as bs : List Char} (ha : ∀ c ∈ as, p c = true)
    (hb : ∀ c ∈ bs.head?, p c = false) : (as ++ bs).span p = (as, bs) := by
  rw [List.span_eq_takeWhile_dropWhile, List.takeWhile_append_of_pos ha,
    List.dropWhile_append_of_pos ha]
  cases bs with
  | nil => rw [List.takeWhile_nil, List.append_nil, List.dropWhile_nil]
  | cons b bs =>
    have hb := hb b rfl
    rw [List.takeWhile_cons, List.dropWhile_cons, hb]
    simp

theorem coefficient?_append {whole fraction : List Char} (hw : ∀ c ∈ whole, c.isDigit = true)
    (hf : ∀ c ∈ fraction, c.isDigit = true) (hne : whole ≠ [] ∨ fraction ≠ []) :
    coefficient? (whole ++ fractionText fraction) = some (whole, fraction) := by
  cases fraction with
  | nil =>
    have hwhole : whole.isEmpty = false :=
      List.isEmpty_eq_false_iff.mpr (hne.resolve_right fun h => h rfl)
    have hspan : (whole ++ []).span Char.isDigit = (whole, []) := span_append hw (by simp)
    rw [fractionText, List.isEmpty_nil, if_pos rfl, coefficient?, hspan]
    simp [hwhole]
  | cons d ds =>
    have hspan : (whole ++ '.' :: d :: ds).span Char.isDigit = (whole, '.' :: d :: ds) :=
      span_append hw (by simp)
    rw [fractionText, List.isEmpty_cons, if_neg Bool.false_ne_true, coefficient?, hspan]
    simp [List.all_eq_true.mpr hf]

theorem power?_exponentText {e : Option Exponent} (he : ∀ x ∈ e, x.WellFormed) :
    power? (exponentText e) = some ((e.map Exponent.value).getD 0) := by
  cases e with
  | none => rfl
  | some e =>
    obtain ⟨-, hsign, hdigits, hne⟩ := he e rfl
    show integer? (e.sign.toList ++ e.digits) = some e.value
    rw [integer?_digits hsign hdigits hne, Exponent.value, withSign]
    simp

theorem isExponentLetter_of_isDigit {c : Char} (h : c.isDigit = true) :
    isExponentLetter c = false := by
  rw [isExponentLetter, Bool.or_eq_false_iff, beq_eq_false_iff_ne, beq_eq_false_iff_ne]
  constructor <;> rintro rfl <;> cases h

theorem isExponentLetter_of_isSign {c : Char} (h : isSign c = true) :
    isExponentLetter c = false := by
  rcases isSign_iff.mp h with rfl | rfl <;> rfl

theorem toLower_of_digit {c : Char} (h : c.isDigit = true ∨ c = '.') : c.toLower = c := by
  rcases h with h | rfl
  · unfold Char.toLower
    split
    · next hupper =>
      have hc := toNat_of_isDigit h
      have ha : 'A'.toNat ≤ c.toNat := UInt32.le_iff_toNat_le.mp hupper.1
      have hcode : 'A'.toNat = 0x41 := rfl
      omega
    · rfl
  · rfl

/-- What begins with a digit or a point is not the name of infinity. -/
theorem not_mem_infinityNames {d : Char} (hd : d.isDigit = true ∨ d = '.') (ds : List Char) :
    (d :: ds).map Char.toLower ∉ infinityNames := by
  intro h
  have hfirst : d = 'i' := by
    rw [List.map_cons, toLower_of_digit hd] at h
    rcases List.mem_pair.mp h with h | h
    · exact (List.cons.inj h).1
    · exact (List.cons.inj h).1
  rw [hfirst] at hd
  rcases hd with hd | hd <;> cases hd

section
variable {n : Numeral} (hn : n.WellFormed)
include hn

theorem splitSign_text :
    splitSign n.text =
      (n.isNegative, n.whole ++ (fractionText n.fraction ++ exponentText n.exponent)) := by
  obtain ⟨d, ds, htext, hd⟩ := hn.exists_text_eq
  have hsign : isSign d = false := by
    rcases hd with hd | rfl
    · exact isSign_of_isDigit hd
    · rfl
  have hrest := List.append_cancel_left (htext.symm.trans n.text_eq)
  rw [htext, splitSign_append hn.sign hsign, hrest]
  rfl

/-- What is written as an integer is parsed as its value. -/
theorem integer?_text (h : n.isInteger = true) : integer? n.text = some n.integer := by
  rw [Numeral.isInteger, Bool.and_eq_true, List.isEmpty_iff, Option.isNone_iff_eq_none] at h
  have hne : n.whole ≠ [] := hn.nonempty.resolve_right fun hf => hf h.1
  rw [n.text_eq, h.1, h.2]
  show integer? (n.sign.toList ++ (n.whole ++ [])) = _
  rw [List.append_nil, integer?_digits hn.sign hn.whole hne]
  rfl

/-- **The text shows a fraction or an exponent exactly if the numeral has one.** -/
theorem hasPointOrLetter_text : hasPointOrLetter n.text = !n.isInteger := by
  have hdigits : ∀ {ds : List Char}, (∀ c ∈ ds, c.isDigit = true) →
      hasPointOrLetter ds = false := by
    intro ds hds
    refine List.any_eq_false.mpr fun c hc => ?_
    rw [isExponentLetter_of_isDigit (hds c hc), Bool.or_false, beq_iff_eq]
    rintro rfl
    exact absurd (hds _ hc) (by decide)
  have hsign : hasPointOrLetter n.sign.toList = false := by
    refine List.any_eq_false.mpr fun c hc => ?_
    have hc := hn.sign c (Option.mem_toList.mp hc)
    rw [isExponentLetter_of_isSign hc, Bool.or_false, beq_iff_eq]
    rintro rfl
    cases hc
  have hfraction : hasPointOrLetter (fractionText n.fraction) = !n.fraction.isEmpty := by
    cases n.fraction <;> rfl
  have hexponent : hasPointOrLetter (exponentText n.exponent) = !n.exponent.isNone := by
    cases he : n.exponent with
    | none => rfl
    | some e =>
      show (e.letter == '.' || isExponentLetter e.letter || _) = true
      rw [(hn.exponent e he).letter, Bool.or_true, Bool.true_or]
  unfold hasPointOrLetter at *
  rw [n.text_eq, List.any_append, List.any_append, List.any_append, hsign, hdigits hn.whole,
    hfraction, hexponent, Numeral.isInteger, Bool.not_and]
  rfl

theorem isExponentLetter_of_mem_coefficient {c : Char}
    (hc : c ∈ n.whole ++ fractionText n.fraction) : isExponentLetter c = false := by
  rcases List.mem_append.mp hc with hc | hc
  · exact isExponentLetter_of_isDigit (hn.whole c hc)
  · unfold fractionText at hc
    split at hc
    · cases hc
    · rcases List.mem_cons.mp hc with rfl | hc
      · rfl
      · exact isExponentLetter_of_isDigit (hn.fraction c hc)

theorem isExponentLetter_of_head_exponentText {c : Char}
    (hc : c ∈ (exponentText n.exponent).head?) : isExponentLetter c = true := by
  cases he : n.exponent with
  | none =>
    rw [he] at hc
    cases hc
  | some e =>
    rw [he] at hc
    cases hc
    exact (hn.exponent e he).letter

/-- The text without the sign is parsed as the decimal. -/
theorem decimal?_text :
    decimal? (n.whole ++ (fractionText n.fraction ++ exponentText n.exponent)) =
      some n.decimal := by
  -- The coefficient ends where the letter of the exponent is.
  have hspan : (n.whole ++ fractionText n.fraction ++ exponentText n.exponent).span
      (fun c => !isExponentLetter c) =
        (n.whole ++ fractionText n.fraction, exponentText n.exponent) := by
    refine span_append (fun c hc => ?_) fun c hc => ?_
    · rw [isExponentLetter_of_mem_coefficient hn hc, Bool.not_false]
    · rw [isExponentLetter_of_head_exponentText hn hc, Bool.not_true]
  rw [← List.append_assoc, decimal?, hspan]
  dsimp only
  rw [coefficient?_append hn.whole hn.fraction hn.nonempty]
  show (power? (exponentText n.exponent) >>= _) = _
  rw [power?_exponentText hn.exponent]
  rfl

/-- **To the parser, each numeral is a floating-point number**, that of its decimal. -/
theorem binary64?_text : binary64? n.text = some n.float := by
  obtain ⟨d, ds, htext, hd⟩ := hn.exists_text_eq
  have hrest := List.append_cancel_left (htext.symm.trans n.text_eq)
  rw [binary64?, splitSign_text hn, ← hrest]
  dsimp only
  rw [if_neg (not_mem_infinityNames hd ds), hrest, decimal?_text hn]
  rfl

/-- **Parsing the text comes to the value of the numeral.** -/
theorem number?_text : number? (!n.isInteger) n.text = some n.value := by
  have hfloat : (binary64? n.text).map NumericValue.float = some (.float n.float) := by
    rw [binary64?_text hn]
    rfl
  unfold Numeral.value
  cases hint : n.isInteger with
  | false =>
    rw [Bool.not_false, number?_float (.inl rfl), hfloat]
    rfl
  | true =>
    have hparse : int64? n.text = if n.fits then some (Int64.ofInt n.integer) else none := by
      rw [int64?_eq, integer?_text hn hint, Option.bind_some, Numeral.checked_integer]
    cases hfits : n.fits with
    | false =>
      rw [hfits] at hparse
      rw [Bool.not_true, number?_float (.inr hparse), hfloat]
      rfl
    | true =>
      rw [hfits] at hparse
      exact number?_integer hparse

/-- So the text alone tells the value. -/
theorem number?_of_text : number? (hasPointOrLetter n.text) n.text = some n.value := by
  rw [hasPointOrLetter_text hn, number?_text hn]

end

end Parse

/-! ## Reading a numeral -/

theorem Item.many_satisfying_mayReturn {p : Char → Bool} {cs : List Char}
    (h : (satisfying p).many.MayReturn cs) : ∀ c ∈ cs, p c = true := by
  have hafter : ∀ {items cs : List Char} {s s' : Scanner}, (∀ c ∈ items, p c = true) →
      (satisfying p).manyAfter items s = .ok cs s' → ∀ c ∈ cs, p c = true := by
    intro items cs s s' hitems h
    fun_induction Item.manyAfter (satisfying p) items s with
    | case1 items s a s₁ h1 ih =>
      have ha : p a = true := Scanner.of_nextIf_mayReturn ⟨s, s₁, h1⟩
      exact ih (List.forall_mem_cons.mpr ⟨ha, hitems⟩) h
    | case2 items s s₁ h1 =>
      cases h
      intro c hc
      exact hitems c (List.mem_reverse.mp hc)
    | case3 => cases h
  obtain ⟨s, s', h⟩ := h
  exact hafter (List.forall_mem_nil _) h

theorem Exponent.read_wellFormed {e : Exponent} (h : read.MayReturn (some e)) : e.WellFormed := by
  obtain ⟨s, s', h⟩ := h
  obtain ⟨letter, s₁, hletter, h⟩ := ScanM.bind_ok h
  cases letter with
  | none => cases h
  | some letter =>
    obtain ⟨sign, s₂, hsign, h⟩ := ScanM.bind_ok h
    obtain ⟨digits, s₃, hdigits, h⟩ := ScanM.bind_ok h
    cases digits with
    | nil =>
      cases sign <;> cases h
    | cons d ds =>
      cases h
      refine ⟨Scanner.of_nextIf_mayReturn ⟨_, _, hletter⟩, ?_, ?_, List.cons_ne_nil d ds⟩
      · rintro c rfl
        exact Scanner.of_nextIf_mayReturn ⟨_, _, hsign⟩
      · exact Item.many_satisfying_mayReturn ⟨_, _, hdigits⟩

namespace Numeral

theorem readFraction_digits {ds : List Char} (h : readFraction.MayReturn ds) :
    ∀ c ∈ ds, c.isDigit = true := by
  obtain ⟨s, s', h⟩ := h
  obtain ⟨found, s₁, -, h⟩ := ScanM.bind_ok h
  cases found with
  | false =>
    cases h
    exact List.forall_mem_nil _
  | true =>
    obtain ⟨digits, s₂, hdigits, h⟩ := ScanM.bind_ok h
    have hds : digits = ds := by
      cases digits <;> cases h <;> rfl
    rw [← hds]
    exact Item.many_satisfying_mayReturn ⟨_, _, hdigits⟩

/-- **Whatever is read as a numeral is one**, from wherever it is read. -/
theorem read_wellFormed {n : Numeral} (h : read.MayReturn (some n)) : n.WellFormed := by
  obtain ⟨s, s', h⟩ := h
  obtain ⟨sign, s₁, hsign, h⟩ := ScanM.bind_ok h
  obtain ⟨whole, s₂, hwhole, h⟩ := ScanM.bind_ok h
  obtain ⟨fraction, s₃, hfraction, h⟩ := ScanM.bind_ok h
  split at h
  · cases sign <;> cases h
  · next hsome =>
    obtain ⟨exponent, s₄, hexponent, h⟩ := ScanM.bind_ok h
    cases h
    refine ⟨?_, Item.many_satisfying_mayReturn ⟨_, _, hwhole⟩,
      readFraction_digits ⟨_, _, hfraction⟩, ?_, ?_⟩
    · rintro c rfl
      exact Scanner.of_nextIf_mayReturn ⟨_, _, hsign⟩
    · rwa [Bool.and_eq_true, List.isEmpty_iff, List.isEmpty_iff, not_and_or] at hsome
    · rintro e rfl
      exact Exponent.read_wellFormed ⟨_, _, hexponent⟩

/--
**The value of a numeral that is read is that of parsing its text.** It is an integer exactly if the
text has neither a point nor an exponent and the integer fits into 64 bits, and otherwise it is the
floating-point number that the text stands for. One of the two parsers always accepts the text.
-/
theorem read_value {s s' : Scanner} {n : Numeral} (h : read s = .ok (some n) s') :
    (n.isInteger = false ↔ Parse.hasPointOrLetter n.text = true)
      ∧ (∀ i : Int, (∃ k : Int64, n.value = .integer k ∧ k.toInt = i) ↔
        Parse.hasPointOrLetter n.text = false ∧ Parse.integer? n.text = some i
          ∧ -2 ^ 63 ≤ i ∧ i ≤ 2 ^ 63 - 1)
      ∧ ((∀ k, n.value ≠ .integer k) →
        ∃ x, Parse.binary64? n.text = some x ∧ n.value = .float x)
      ∧ Parse.number? (!n.isInteger) n.text = some n.value := by
  have hn := read_wellFormed ⟨s, s', h⟩
  have hpoint := Parse.hasPointOrLetter_text hn
  refine ⟨?_, fun i => ?_, fun hnone => ?_, Parse.number?_text hn⟩
  · rw [hpoint, Bool.not_eq_true']
  · rw [hpoint, Bool.not_eq_false']
    constructor
    · rintro ⟨k, hk, rfl⟩
      obtain ⟨hint, hk⟩ := value_eq_integer_iff.mp hk
      rw [Parse.integer?_text hn hint, hk]
      exact ⟨hint, rfl, Int64.minValue_le_toInt k, Int64.toInt_le k⟩
    · rintro ⟨hint, hi, hmin, hmax⟩
      have hk : (Int64.ofInt i).toInt = i := Int64.toInt_ofInt_of_le hmin (by omega)
      rw [Parse.integer?_text hn hint] at hi
      exact ⟨_, value_eq_integer_iff.mpr ⟨hint, (Option.some.inj hi).trans hk.symm⟩, hk⟩
  · refine ⟨n.float, Parse.binary64?_text hn, ?_⟩
    unfold value at hnone ⊢
    split
    · next hfits =>
      rw [if_pos hfits] at hnone
      exact absurd rfl (hnone _)
    · rfl

/-- The integer after the largest one that fits is a floating-point number. -/
theorem read_value_overflow :
    ∃ n s', read { source := Source.ofString "+9223372036854775808" } = .ok (some n) s'
      ∧ Parse.hasPointOrLetter n.text = false ∧ Parse.integer? n.text = some (2 ^ 63)
      ∧ n.value = .float (Binary64.ofMagnitude false 0x43E0000000000000) := by
  have hrun : EStateM.run' read { source := Source.ofString "+9223372036854775808" } =
      some (some { sign := some '+', whole := "9223372036854775808".toList, fraction := []
                   exponent := none }) := by
    decide +kernel
  obtain ⟨s', h⟩ := ScanM.exists_of_run' hrun
  obtain ⟨-, hinteger, hfloat, -⟩ := read_value h
  refine ⟨_, s', h, by decide, by decide, ?_⟩
  obtain ⟨x, hx, hvalue⟩ := hfloat fun k hk => by
    obtain ⟨-, hi, -, hmax⟩ := (hinteger k.toInt).mp ⟨k, hk, rfl⟩
    have hlarge : k.toInt = 2 ^ 63 := Option.some.inj (hi.symm.trans (by decide +kernel))
    omega
  have hparse : Parse.binary64? "+9223372036854775808".toList =
      some (Binary64.ofMagnitude false 0x43E0000000000000) := by decide +kernel
  rw [hvalue, Option.some.inj (hx.symm.trans hparse)]

end Numeral

end CssTokens
