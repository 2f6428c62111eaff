import CssTokens.Proofs.Roundtrip.Identifier
import CssTokens.Proofs.Roundtrip.NumberText

/-!
# Numbers, percentages and dimensions read back

What follows a number is not taken for a part of it. A percent sign ends it, and no unit is written
so that it begins with a digit or a point, or with what could be an exponent.

Main statement: `number_reads`.
-/

namespace CssTokens

namespace Split

/-! ## What ends a numeral -/

theorem endsNumeral_nil : EndsNumeral [] :=
  ⟨rfl, rfl, rfl⟩

section
variable {d : Char} {ds : List Char} (hdigit : d.isDigit = false) (hpoint : d ≠ '.')
include hdigit hpoint

/-- Only a letter with the digits of an exponent after it is an exponent. -/
theorem endsNumeral_cons
    (h : isExponentLetter d = true → startsDigits (nextIf isSign ds).2 = false) :
    EndsNumeral (d :: ds) where
  digits := hdigit
  fraction := by rw [fraction_of_ne hpoint]
  exponent := by
    rw [← Option.not_isSome_iff_eq_none, exponent_isSome]
    cases hd : isExponentLetter d with
    | true =>
      rw [nextIf_pos hd, h hd, Bool.and_false]
      exact Bool.false_ne_true
    | false =>
      rw [nextIf_neg hd]
      exact Bool.false_ne_true

theorem endsNumeral_of_not_letter (h : isExponentLetter d = false) : EndsNumeral (d :: ds) :=
  endsNumeral_cons hdigit hpoint fun hd => by rw [h] at hd; cases hd

end

theorem endsNumeral_percent (rest : List Char) : EndsNumeral ('%' :: rest) :=
  endsNumeral_of_not_letter rfl (by decide) rfl

theorem endsNumeral_backslash (rest : List Char) : EndsNumeral ('\\' :: rest) :=
  endsNumeral_of_not_letter rfl (by decide) rfl

/-! ## Units -/

/-- No digits of an exponent begin where a name goes on without a digit or a hyphen. -/
theorem startsDigits_nameCharText {c : Char} (hd : c.isDigit = false) (hc : c ≠ '-')
    (rest : List Char) : startsDigits (nextIf isSign (nameCharText c ++ rest)).2 = false := by
  obtain ⟨d, ds, hds, hstart⟩ := nameStartText_cons c
  have hsign : isSign d = false := by
    rw [isSign, Bool.or_eq_false_iff, beq_eq_false_iff_ne, beq_eq_false_iff_ne]
    exact ⟨ne_of_nameStart hstart rfl (by decide), ne_of_nameStart hstart rfl (by decide)⟩
  rw [nameCharText_eq_nameStartText hd hc, hds, List.cons_append, nextIf_neg hsign]
  exact isDigit_of_nameStart hstart

/-- After a letter that is not escaped there is something else than the digits of an exponent. -/
theorem exists_of_likeExponent {c : Char} {cs : List Char} (h : likeExponent (c :: cs) = false)
    (hc : isExponentLetter c = true) : ∃ d ds, cs = d :: ds ∧ d.isDigit = false ∧ d ≠ '-' := by
  rw [likeExponent, ← isExponentLetter, hc, Bool.true_and] at h
  cases cs with
  | nil => cases h
  | cons d ds =>
    rw [List.head?_cons, Bool.or_eq_false_iff, beq_eq_false_iff_ne] at h
    exact ⟨d, ds, rfl, h.2, h.1⟩

/-- **A unit does not go on with the numeral before it.** -/
theorem endsNumeral_unitText {cs : List Char} (h : cs ≠ []) (rest : List Char) :
    EndsNumeral (unitText cs ++ rest) := by
  obtain ⟨c, cs, rfl⟩ := List.exists_cons_of_ne_nil h
  rw [unitText]
  split
  · exact endsNumeral_backslash _
  next hletter =>
  have hletter : likeExponent (c :: cs) = false := by simpa using hletter
  by_cases hc : c = '-'
  · subst hc
    cases cs with
    | nil => exact endsNumeral_backslash _
    | cons c cs => exact endsNumeral_of_not_letter rfl (by decide) rfl
  · rw [identifierText_of_ne hc]
    rcases nameStartText_cases c with ⟨hstart, htext⟩ | ⟨ds, htext⟩
    · have hpoint : c ≠ '.' := ne_of_nameStart (.inl hstart) rfl (by decide)
      rw [htext]
      refine endsNumeral_cons (isDigit_of_isNameStart hstart) hpoint fun hexp => ?_
      obtain ⟨d, ds, rfl, hd, hhyphen⟩ := exists_of_likeExponent hletter hexp
      show startsDigits (nextIf isSign (nameCharText d ++ nameText ds ++ rest)).2 = false
      rw [List.append_assoc]
      exact startsDigits_nameCharText hd hhyphen _
    · rw [htext]
      exact endsNumeral_backslash _

/-- **A unit is read back up to where no name can go on.** -/
theorem ident_unitText {cs rest : List Char} (hrest : (charOrEscape isNameChar rest).1 = none)
    (h : cs ≠ []) : ident (unitText cs ++ rest) = (some cs, rest) := by
  obtain ⟨c, cs, rfl⟩ := List.exists_cons_of_ne_nil h
  rw [unitText]
  split
  · next hletter =>
    have hcode : c.toNat < 0x100000 := by
      rw [likeExponent, Bool.and_eq_true, Bool.or_eq_true, beq_iff_eq, beq_iff_eq] at hletter
      rcases hletter.1 with rfl | rfl <;> decide
    have hhyphen : nextIf (· == '-') (hexEscapeText c ++ (nameText cs ++ rest)) =
        (none, hexEscapeText c ++ (nameText cs ++ rest)) := nextIf_neg rfl
    rw [List.append_assoc, ident_of_first hhyphen (charOrEscape_hexEscapeText rfl hcode _),
      many_nameText_end hrest]
    rfl
  · exact ident_identifierText hrest h

/-- No identifier begins with a percent sign. -/
theorem nextIs_percent_of_ident {cs rest : List Char} {name : List Char}
    (h : ident cs = (some name, rest)) : nextIs '%' cs = (false, cs) := by
  cases cs with
  | nil => rfl
  | cons c cs =>
    refine nextIs_neg ?_
    rintro rfl
    cases h

/-! ## Lexemes -/

section
variable {d : Char} (h : d.isDigit = true ∨ d = '.')
include h

theorem ne_of_digit {c : Char} (hd : c.isDigit = false) (hc : c ≠ '.') : d ≠ c := by
  rintro rfl
  rcases h with h | h
  · rw [hd] at h
    cases h
  · exact hc h

/-- No mark begins a numeral. -/
theorem marked_of_digit : marked d = none := by
  refine marked_of_all (p := fun c => !c.isDigit && c != '.') (by decide) ?_
  rcases h with h | rfl
  · rw [h]
    rfl
  · rfl

theorem productions_of_digit : productions d = [numberLike] := by
  have hhyphen : d ≠ '-' := ne_of_digit h rfl (by decide)
  rcases h with h | rfl
  · simp [productions, h, hhyphen]
  · rfl

end

section
variable {n : Numeral} (hn : n.WellFormed)
include hn

/-- Where a numeral begins, no other lexeme begins. -/
theorem lexeme_of_numberLike {l : Lexeme} {rest after : List Char}
    (h : numberLike (n.text ++ rest) = (some l, after)) : lexeme (n.text ++ rest) = (l, after) := by
  obtain ⟨d, ds, htext, hd⟩ := hn.exists_text_eq
  rw [htext] at h ⊢
  cases hs : n.sign with
  | none =>
    rw [hs] at h
    show lexeme (d :: (ds ++ rest)) = _
    rw [lexeme_unmarked (marked_of_digit hd), productions_of_digit hd]
    exact firstOf_some h
  | some c =>
    rw [hs] at h
    show lexeme (c :: d :: (ds ++ rest)) = _
    rcases isSign_iff.mp (hn.sign c hs) with rfl | rfl
    · rw [lexeme_unmarked rfl]
      exact firstOf_some h
    · rw [lexeme_unmarked rfl]
      show firstOf [cdc, numberLike, identLike false] _ = _
      rw [firstOf_none (cdc_hyphen (ne_of_digit hd rfl (by decide)) _)]
      exact firstOf_some h

/-- **A number is read back**, unless a numeral goes on or a unit follows. -/
theorem lexeme_number {rest : List Char} (h : EndsNumeral rest)
    (hpercent : nextIs '%' rest = (false, rest)) (hident : ident rest = (none, rest)) :
    lexeme (n.text ++ rest) =
      ({ kind := .number, text := n.text, numeric := some n.value }, rest) := by
  refine lexeme_of_numberLike hn ?_
  rw [numberLike, bind_apply, numeral_text hn h]
  dsimp only
  rw [bind_apply, hpercent]
  show (ident >>= _) rest = _
  rw [bind_apply, hident]
  rfl

theorem lexeme_percentage (rest : List Char) :
    lexeme (n.text ++ '%' :: rest) =
      ({ kind := .percentage, text := n.text, numeric := some n.value }, rest) := by
  refine lexeme_of_numberLike hn ?_
  rw [numberLike, bind_apply, numeral_text hn (endsNumeral_percent rest)]
  dsimp only
  rw [bind_apply, nextIs_pos]
  rfl

/-- **A dimension is read back up to where no name can go on.** -/
theorem lexeme_dimension {unit rest : List Char} (hu : unit ≠ [])
    (hrest : (charOrEscape isNameChar rest).1 = none) :
    lexeme (n.text ++ (unitText unit ++ rest)) =
      ({ kind := .dimension, text := n.text ++ unit, numeric := some n.value, unit }, rest) := by
  have hunit := ident_unitText hrest hu
  refine lexeme_of_numberLike hn ?_
  rw [numberLike, bind_apply, numeral_text hn (endsNumeral_unitText hu rest)]
  dsimp only
  rw [bind_apply, nextIs_percent_of_ident hunit]
  show (ident >>= _) _ = _
  rw [bind_apply, hunit]
  rfl

end

end Split

/-! ## No control characters -/

theorem Numeral.WellFormed.noControls {n : Numeral} (hn : n.WellFormed) : NoControls n.text := by
  intro c hc
  rcases hn.mem_text hc with hd | hs | rfl | hletter
  · have := toNat_of_isDigit hd
    omega
  · rcases isSign_iff.mp hs with rfl | rfl <;> decide
  · decide
  · rcases isExponentLetter_iff.mp hletter with rfl | rfl <;> decide

theorem unitText_noControls (cs : List Char) : NoControls (unitText cs) := by
  unfold unitText
  split
  · exact .nil
  · split
    · exact (hexEscapeText_noControls _).append (nameText_noControls _)
    · exact identifierText_noControls _

/-! ## Tokens -/

/-- A token of a kind that has a number. A dimension has a unit. -/
structure Token.IsNumeric (t : Token) (v : NumericValue) : Prop where
  kind : t.kind = .number ∨ t.kind = .percentage ∨ t.kind = .dimension
  numeric : t.numeric = some v
  unit : t.kind = .dimension → ∃ unit, t.unit = some unit ∧ unit ≠ ""

/-- What is written after the number of a token. -/
def Token.afterNumber (t : Token) : List Char :=
  match t.kind with
  | .percentage => ['%']
  | .dimension => unitText (t.unit.getD "").toList
  | _ => []

/-- **What is written for a token with a number.** -/
theorem Token.IsNumeric.css_eq {t : Token} {v : NumericValue} (h : t.IsNumeric v) {cs : List Char}
    (hcs : t.writeNumber = WriteM.chars cs) : t.css = String.ofList (cs ++ t.afterNumber) := by
  rw [Token.css, Token.toCss, afterNumber]
  rcases h.kind with hk | hk | hk
  · rw [hk, List.append_nil]
    dsimp only
    rw [hcs, WriteM.written_chars]
  · rw [hk]
    dsimp only
    rw [hcs, WriteM.char_eq, ← WriteM.chars_append, WriteM.written_chars]
  · obtain ⟨unit, hunit, -⟩ := h.unit hk
    rw [hk, hunit]
    dsimp only
    rw [hcs, writeUnit_eq, ← WriteM.chars_append, WriteM.written_chars]
    rfl

namespace Tokenizer

open Split WriteM

section
variable {n : Numeral} (hn : n.WellFormed) (options : Options)
include hn

theorem readsAs_number :
    ReadsAs (String.ofList n.text) options
      [{ kind := .number, value := String.ofList n.text, numeric := some n.value }] := by
  have hlexeme := lexeme_number hn endsNumeral_nil rfl rfl
  rw [List.append_nil] at hlexeme
  exact readsAs_of_lexeme (fun _ => hn.noControls.isNormal) hlexeme (by simp) (Bool.and_false _)

theorem readsAs_percentage :
    ReadsAs (String.ofList (n.text ++ ['%'])) options
      [{ kind := .percentage, value := String.ofList n.text, numeric := some n.value }] := by
  have htext : NoControls (n.text ++ ['%']) := hn.noControls.append (by decide)
  exact readsAs_of_lexeme (fun _ => htext.isNormal) (lexeme_percentage hn []) (by simp)
    (Bool.and_false _)

theorem readsAs_dimension {unit : String} (hu : unit ≠ "") :
    ReadsAs (String.ofList (n.text ++ unitText unit.toList)) options
      [{ kind := .dimension, value := String.ofList n.text ++ unit, numeric := some n.value,
         unit := some unit }] := by
  have hne : unit.toList ≠ [] := fun hnil => hu (String.toList_eq_nil_iff.mp hnil)
  have hend : (charOrEscape isNameChar []).1 = none := rfl
  have hlexeme := lexeme_dimension hn hne hend
  have htext : NoControls (n.text ++ unitText unit.toList) :=
    hn.noControls.append (unitText_noControls _)
  rw [List.append_nil] at hlexeme
  have htoken : Lexeme.token
      { kind := .dimension, text := n.text ++ unit.toList, numeric := some n.value,
        unit := unit.toList } =
      { kind := .dimension, value := String.ofList n.text ++ unit, numeric := some n.value,
        unit := some unit } := by
    simp [Lexeme.token, String.ofList_append]
  rw [← htoken]
  exact readsAs_of_lexeme (fun _ => htext.isNormal) hlexeme (by simp) (Bool.and_false _)

end

/-- **A number, with a percent sign or a unit or alone, is written so that it is read back.** -/
theorem number_reads {t : Token} {v : NumericValue} (h : t.IsNumeric v) (options : Options) :
    ∃ n : Numeral, t.writeNumber.written = String.ofList n.text
      ∧ ReadsAs t.css options
        [{ kind := t.kind
           value := String.ofList n.text ++ if t.kind = .dimension then t.unit.getD "" else ""
           numeric := some n.value
           unit := if t.kind = .dimension then t.unit else none }]
      ∧ (∀ i, v = .integer i → n.value = .integer i)
      ∧ (t.value.toList.head? = some '+' → v.isUnsigned = true →
        n.text.head? = some '+' ∧ t.css.toList.head? = some '+') := by
  obtain ⟨n, hn, hsign, hwrite, hinteger⟩ := v.exists_numeral (t.value.toList.head? = some '+')
  have hnumber : t.writeNumber = chars n.text := by
    rw [Token.writeNumber, h.numeric]
    exact hwrite
  have hcss := h.css_eq hnumber
  refine ⟨n, by rw [hnumber, written_chars], ?_, hinteger, fun hplus hv => ?_⟩
  · rw [hcss, Token.afterNumber]
    rcases h.kind with hk | hk | hk
    · rw [hk, List.append_nil]
      simpa using readsAs_number hn options
    · rw [hk]
      simpa using readsAs_percentage hn options
    · obtain ⟨unit, hunit, hne⟩ := h.unit hk
      rw [hk, hunit]
      simpa using readsAs_dimension hn options hne
  · have hhead : n.sign = some '+' := by
      rw [hsign, NumericValue.sign, if_pos hv, decide_eq_true hplus]
      rfl
    have htext : n.text.head? = some '+' := by
      rw [Numeral.text_eq, hhead]
      rfl
    refine ⟨htext, ?_⟩
    rw [hcss, String.toList_ofList, List.head?_append, htext]
    rfl

/-- The letter of the unit `e3` is escaped, so that the unit is no exponent. -/
theorem number_reads_unit_e3 :
    Token.css { kind := .dimension, value := "+5", numeric := some (.integer 5), unit := "e3" } =
        "+5\\65 3"
      ∧ ReadsAs "+5\\65 3" {}
        [{ kind := .dimension, value := "+5e3", numeric := some (.integer 5), unit := "e3" }] := by
  have hnumeric : Token.IsNumeric
      { kind := .dimension, value := "+5", numeric := some (.integer 5), unit := "e3" }
      (.integer 5) := ⟨.inr (.inr rfl), rfl, fun _ => ⟨"e3", rfl, by decide⟩⟩
  obtain ⟨n, hwritten, hreads, hinteger, -⟩ := number_reads hnumeric {}
  have htext : String.ofList n.text = "+5" := hwritten.symm.trans (by decide)
  have hcss : Token.css
      { kind := .dimension, value := "+5", numeric := some (.integer 5), unit := "e3" } =
        "+5\\65 3" := by decide
  rw [htext, hinteger 5 rfl, hcss] at hreads
  exact ⟨hcss, hreads⟩

end Tokenizer

end CssTokens
