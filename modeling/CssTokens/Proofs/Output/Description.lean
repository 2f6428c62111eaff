import CssTokens.Proofs.Grammar.NumberValue
import CssTokens.Proofs.Json.Number
import CssTokens.Proofs.Roundtrip.Hex
import CssTokens.Tokenizer.Description

/-!
# What descriptions show

Text in quotes shows where it ends, whatever it holds. The fields of a record end at commas, and
what the fields of a tokenizer hold cannot be taken for such a comma. So each field can be told from
the description.

Main statements: text in quotes is that of one text only (`describeText_inj`), and two tokenizers
look alike only if what they show is the same (`Tokenizer.description_eq_iff`).
-/

namespace CssTokens

/-! ## Text in quotes -/

/-- The character that an escape shows after its backslash, and what comes after it. -/
def shownEscape : List Char → Char × List Char
  | 'u' :: '\x7b' :: cs =>
    (charOfCodePoint (ofHexDigits (cs.takeWhile isHexDigit)), (cs.dropWhile isHexDigit).drop 1)
  | 'n' :: cs => ('\n', cs)
  | 't' :: cs => ('\t', cs)
  | 'r' :: cs => ('\r', cs)
  | '0' :: cs => ('\x00', cs)
  | c :: cs => (c, cs)
  | [] => (default, [])

/-- The character that is shown first, and what comes after it. -/
def shownChar : List Char → Char × List Char
  | '\\' :: cs => shownEscape cs
  | c :: cs => (c, cs)
  | [] => (default, [])

theorem shownEscape_codePoint (c : Char) (cs : List Char) :
    shownEscape ('u' :: '\x7b' :: (hexDigits c.toNat ++ '\x7d' :: cs)) = (c, cs) := by
  have hspan : (hexDigits c.toNat ++ '\x7d' :: cs).span isHexDigit =
      (hexDigits c.toNat, '\x7d' :: cs) := by
    refine Parse.span_append (fun d hd => isHexDigit_of_mem_hexDigits hd) ?_
    rintro d ⟨⟩
    decide
  rw [List.span_eq_takeWhile_dropWhile] at hspan
  obtain ⟨htake, hdrop⟩ := Prod.mk.inj hspan
  rw [shownEscape, htake, hdrop, ofHexDigits_hexDigits, charOfCodePoint_toNat]
  rfl

variable {quote : Char}

/-- **Each character is shown as itself.** -/
theorem shownChar_describeChar (hquote : isQuote quote = true) (c : Char) (cs : List Char) :
    shownChar (describeChar quote c ++ cs) = (c, cs) := by
  rw [isQuote, Bool.or_eq_true, beq_iff_eq, beq_iff_eq] at hquote
  unfold describeChar
  split
  · next h =>
    rw [Bool.or_eq_true, beq_iff_eq, beq_iff_eq] at h
    rcases h with rfl | rfl
    · rcases hquote with rfl | rfl <;> rfl
    · rfl
  next hplain =>
  rw [Bool.or_eq_true, beq_iff_eq, beq_iff_eq, not_or] at hplain
  iterate 4
    split
    · next h =>
      obtain rfl := beq_iff_eq.mp h
      rfl
  split
  · have htext : ['\\', 'u', '\x7b'] ++ hexDigits c.toNat ++ ['\x7d'] ++ cs =
        '\\' :: 'u' :: '\x7b' :: (hexDigits c.toNat ++ '\x7d' :: cs) := by simp
    rw [htext, shownChar, shownEscape_codePoint]
  · rw [List.singleton_append, shownChar]
    exact hplain.2

/-- What is shown of a character does not begin like the end of the text. -/
theorem describeChar_ne (hquote : isQuote quote = true) (c : Char) (cs ds : List Char) :
    describeChar quote c ++ cs ≠ quote :: ds := by
  intro h
  have hshown := shownChar_describeChar hquote c cs
  have hslash : quote ≠ '\\' := by
    rintro rfl
    cases hquote
  have hfirst : shownChar (quote :: ds) = (quote, ds) := by
    rw [shownChar]
    exact hslash
  -- So the character would be the quote, but that has a backslash before it.
  rw [h, hfirst] at hshown
  obtain ⟨rfl, rfl⟩ := Prod.mk.inj hshown
  rw [describeChar, beq_self_eq_true, Bool.true_or, if_pos rfl] at h
  exact hslash (List.cons.inj h).1.symm

/-- **Text in quotes is that of one text only**, and it shows where it ends. -/
theorem describeText_inj (hquote : isQuote quote = true) {cs ds r s : List Char}
    (h : (describeText quote cs).toList ++ r = (describeText quote ds).toList ++ s) :
    cs = ds ∧ r = s := by
  have hbody : cs.flatMap (describeChar quote) ++ quote :: r =
      ds.flatMap (describeChar quote) ++ quote :: s := by
    simpa [describeText] using h
  clear h
  induction cs generalizing ds with
  | nil =>
    cases ds with
    | nil => exact ⟨rfl, (List.cons.inj hbody).2⟩
    | cons d ds =>
      rw [List.flatMap_cons, List.append_assoc] at hbody
      exact absurd hbody.symm (describeChar_ne hquote d _ r)
  | cons c cs ih =>
    rw [List.flatMap_cons, List.append_assoc] at hbody
    cases ds with
    | nil => exact absurd hbody (describeChar_ne hquote c _ s)
    | cons d ds =>
      rw [List.flatMap_cons, List.append_assoc] at hbody
      have hshown := congrArg shownChar hbody
      rw [shownChar_describeChar hquote, shownChar_describeChar hquote] at hshown
      obtain ⟨rfl, hrest⟩ := Prod.mk.inj hshown
      obtain ⟨rfl, hend⟩ := ih hrest
      exact ⟨rfl, hend⟩

/-! ## Records -/

/-- If a comma follows, the texts do not look alike unless they are the same. -/
def Apart (v w : String) : Prop :=
  ∀ r s, v.toList ++ ',' :: r = w.toList ++ ',' :: s → v = w

theorem apart_of_comma_notMem {v w : String} (hv : ',' ∉ v.toList) (hw : ',' ∉ w.toList) :
    Apart v w := by
  have hspan : ∀ {v : String}, ',' ∉ v.toList → ∀ r,
      (v.toList ++ ',' :: r).span (· != ',') = (v.toList, ',' :: r) := by
    intro v hv r
    refine Parse.span_append (fun c hc => ?_) ?_
    · rw [bne_iff_ne]
      rintro rfl
      exact hv hc
    · rintro c ⟨⟩
      rfl
  intro r s h
  have heq := congrArg (List.span (· != ',')) h
  rw [hspan hv, hspan hw] at heq
  exact String.toList_inj.mp (Prod.mk.inj heq).1

theorem apart_describeText (hquote : isQuote quote = true) (cs ds : List Char) :
    Apart (describeText quote cs) (describeText quote ds) := by
  intro r s h
  rw [(describeText_inj hquote h).1]

/-- The fields of a record and its end. -/
def fieldsText (fields : List (String × String)) : List Char :=
  (", ".intercalate (fields.map fun f => f.1 ++ ": " ++ f.2)).toList ++ [' ', '\x7d']

theorem fieldsText_single (f : String × String) :
    fieldsText [f] = f.1.toList ++ ':' :: ' ' :: (f.2.toList ++ [' ', '\x7d']) := by
  simp [fieldsText]

theorem fieldsText_cons_cons (f g : String × String) (fields : List (String × String)) :
    fieldsText (f :: g :: fields) =
      f.1.toList ++ ':' :: ' ' :: (f.2.toList ++ ',' :: ' ' :: fieldsText (g :: fields)) := by
  simp [fieldsText, String.intercalate_cons_cons]

/-- **The fields of a record can be told from its description**, if each can before a comma. -/
theorem describeRecord_inj {name : String} {fields fields' : List (String × String)}
    (h : describeRecord name fields = describeRecord name fields')
    (hfields : List.Forall₂ (fun f g => f.1 = g.1 ∧ Apart f.2 g.2) fields fields') :
    fields = fields' := by
  have htext : fieldsText fields = fieldsText fields' := by
    have hlist := congrArg String.toList h
    simp only [describeRecord, String.toList_append, List.append_assoc] at hlist
    exact List.append_cancel_left (List.append_cancel_left hlist)
  clear h
  induction hfields with
  | nil => rfl
  | @cons f g fields fields' hfg hrest ih =>
    obtain ⟨hname, hapart⟩ := hfg
    cases hrest with
    | nil =>
      rw [fieldsText_single, fieldsText_single, hname] at htext
      have hv := (List.cons.inj (List.cons.inj (List.append_cancel_left htext)).2).2
      rw [Prod.ext hname (String.toList_inj.mp (List.append_cancel_right hv))]
    | cons _ _ =>
      rw [fieldsText_cons_cons, fieldsText_cons_cons, hname] at htext
      have hv := (List.cons.inj (List.cons.inj (List.append_cancel_left htext)).2).2
      obtain rfl : f = g := Prod.ext hname (hapart _ _ hv)
      rw [ih (List.cons.inj (List.cons.inj (List.append_cancel_left hv)).2).2]

/-! ## Values that may be missing -/

theorem describeOption_inj {o p : Option String} (h : describeOption o = describeOption p) :
    o = p := by
  have hlist := congrArg String.toList h
  cases o with
  | none =>
    cases p with
    | none => rfl
    | some text => simp [describeOption] at hlist
  | some text =>
    cases p with
    | none => simp [describeOption] at hlist
    | some text' =>
      simp only [describeOption, String.toList_append, List.append_assoc] at hlist
      have htext := List.append_cancel_right (List.append_cancel_left hlist)
      rw [String.toList_inj.mp htext]

theorem describeOption_comma_notMem {o : Option String} (h : ∀ v ∈ o, ',' ∉ v.toList) :
    ',' ∉ (describeOption o).toList := by
  cases o with
  | none => decide
  | some v => simpa [describeOption] using h v rfl

theorem describeBool_apart (b c : Bool) : Apart (describeBool b) (describeBool c) := by
  have hnot : ∀ b : Bool, ',' ∉ (describeBool b).toList := by decide
  exact apart_of_comma_notMem (hnot b) (hnot c)

theorem describeBool_inj {b c : Bool} (h : describeBool b = describeBool c) : b = c := by
  revert h
  cases b <;> cases c <;> decide

/-! ## Kinds and numbers -/

namespace TokenKind

/-- What is shown of a delimiter after its name. -/
def delimText : TokenKind → List Char
  | delim c => '(' :: (describeText '\'' [c]).toList ++ [')']
  | _ => []

theorem description_toList (kind : TokenKind) :
    kind.description.toList = kind.name.toList ++ kind.delimText := by
  cases kind with
  | delim c => simp [description, delimText]
  | _ => rfl

theorem isAlpha_of_mem_name (kind : TokenKind) : ∀ c ∈ kind.name.toList, c.isAlpha = true := by
  cases kind with
  | delim c => exact (List.all_eq_true.mp rfl : ∀ c ∈ "Delim".toList, c.isAlpha = true)
  | _ => exact List.all_eq_true.mp rfl

theorem eq_delim_of_delimChar? {kind : TokenKind} {c : Char} (h : kind.delimChar? = some c) :
    kind = delim c := by
  cases kind with
  | delim d => rw [Option.some.inj h]
  | _ => cases h

/-- **A kind can be told from its description**, if a comma follows. -/
theorem eq_of_description {kind kind' : TokenKind} {r s : List Char}
    (h : kind.description.toList ++ ',' :: r = kind'.description.toList ++ ',' :: s) :
    kind = kind' := by
  -- The name ends at the parenthesis or at the comma.
  have hspan : ∀ (kind : TokenKind) (r : List Char),
      (kind.description.toList ++ ',' :: r).span Char.isAlpha =
        (kind.name.toList, kind.delimText ++ ',' :: r) := by
    intro kind r
    rw [description_toList, List.append_assoc]
    refine Parse.span_append kind.isAlpha_of_mem_name ?_
    cases kind <;> rintro c ⟨⟩ <;> rfl
  have heq := congrArg (List.span Char.isAlpha) h
  rw [hspan, hspan] at heq
  obtain ⟨hname, hrest⟩ := Prod.mk.inj heq
  have hname := String.toList_inj.mp hname
  cases hk : kind.delimChar? with
  | none =>
    cases hk' : kind'.delimChar? with
    | none => exact Option.some.inj (by rw [← ofName?_name hk, ← ofName?_name hk', hname])
    | some d =>
      rw [eq_delim_of_delimChar? hk'] at hrest
      cases kind with
      | delim c => cases hk
      | _ => cases (List.cons.inj hrest).1
  | some c =>
    obtain rfl := eq_delim_of_delimChar? hk
    cases kind' with
    | delim d =>
      simp only [delimText, List.cons_append, List.append_assoc, List.cons.injEq, true_and] at hrest
      obtain ⟨hchar, -⟩ := describeText_inj rfl hrest
      rw [(List.cons.inj hchar).1]
    | _ => cases (List.cons.inj hrest).1

theorem description_apart (kind kind' : TokenKind) :
    Apart kind.description kind'.description := by
  intro r s h
  rw [eq_of_description h]

end TokenKind

/-- The text of a numeral has no comma. -/
theorem Numeral.WellFormed.comma_notMem {n : Numeral} (hn : n.WellFormed) : ',' ∉ n.text := by
  intro h
  rcases hn.mem_text h with h | h | h | h <;> exact absurd h (by decide)

/-- **Integers are told apart by their texts**, which are parsed as them. -/
theorem toString_int_inj {i j : Int} (h : toString i = toString j) : i = j := by
  have hparse : ∀ i : Int, Parse.integer? (Numeral.ofInt i).text = some i := by
    intro i
    rw [Parse.integer?_text (Numeral.ofInt_inJson i).wellFormed rfl, Numeral.ofInt_integer]
  rw [← Numeral.ofInt_text, ← Numeral.ofInt_text] at h
  exact Option.some.inj (by rw [← hparse i, ← hparse j, String.ofList_injective h])

theorem toString_nat_inj {m n : Nat} (h : toString m = toString n) : m = n :=
  Int.ofNat.inj (toString_int_inj (i := m) (j := n) h)

theorem comma_notMem_toString (i : Int) : ',' ∉ (toString i).toList := by
  rw [← Numeral.ofInt_text, String.toList_ofList]
  exact (Numeral.ofInt_inJson i).wellFormed.comma_notMem

theorem apart_toString (m n : Nat) : Apart (toString m) (toString n) :=
  apart_of_comma_notMem (comma_notMem_toString m) (comma_notMem_toString n)

namespace NumericValue

/-- Before infinity there is a sign, and all other numbers are numerals. -/
theorem comma_notMem_text (x : Binary64) : ',' ∉ FloatFormat.description.text x := by
  cases hx : x.isInfinite with
  | true =>
    have htext : FloatFormat.description.text x =
        (if x.negative then ['-'] else []) ++ "inf".toList := by
      unfold FloatFormat.text
      rw [hx]
      rfl
    rw [htext]
    cases x.negative <;> decide
  | false =>
    obtain ⟨n, hn, -⟩ := FloatFormat.description.exists_writes_unsignedText x
    have hnot := hn.wellFormed.comma_notMem
    rw [hn.text] at hnot
    rw [FloatFormat.text_eq _ x (.inl hx), List.mem_append, not_or]
    refine ⟨?_, hnot⟩
    cases x.negative <;> decide

theorem comma_notMem_description (v : NumericValue) : ',' ∉ v.description.toList := by
  cases v with
  | integer i =>
    simpa [description] using comma_notMem_toString i.toInt
  | float x => simpa [description] using comma_notMem_text x

/-- **An integer can be told from its description.** -/
theorem description_eq_integer_iff {v : NumericValue} {i : Int64} :
    v.description = (integer i).description ↔ v = integer i := by
  refine ⟨fun h => ?_, fun h => by rw [h]⟩
  have hlist := congrArg String.toList h
  cases v with
  | integer j =>
    simp only [description, String.toList_append, List.append_assoc] at hlist
    have htext := List.append_cancel_right (List.append_cancel_left hlist)
    rw [Int64.toInt_inj.mp (toString_int_inj (String.toList_inj.mp htext))]
  | float x => simp [description] at hlist

end NumericValue

/-! ## Tokenizers -/

/--
**A tokenizer shows its current token and whether it was pushed back.** Two tokenizers look alike
only if the kind, the value, the line and the position of their tokens are the same, and the number
as far as it is shown.
-/
theorem Tokenizer.description_eq_iff {t u : Tokenizer} :
    t.description = u.description ↔
      t.token.kind = u.token.kind ∧ t.token.value = u.token.value
        ∧ t.token.numeric.map NumericValue.description =
          u.token.numeric.map NumericValue.description
        ∧ t.token.line = u.token.line ∧ t.token.position = u.token.position
        ∧ t.pushedBack = u.pushedBack := by
  constructor
  · intro h
    have hnumeric : ∀ t : Tokenizer, ',' ∉
        (describeOption (t.token.numeric.map NumericValue.description)).toList := by
      intro t
      refine describeOption_comma_notMem fun v hv => ?_
      obtain ⟨n, -, rfl⟩ := Option.mem_map.mp hv
      exact n.comma_notMem_description
    rw [description, description] at h
    have hfields := describeRecord_inj h
      (.cons ⟨rfl, TokenKind.description_apart _ _⟩
        (.cons ⟨rfl, apart_describeText rfl _ _⟩
          (.cons ⟨rfl, apart_of_comma_notMem (hnumeric t) (hnumeric u)⟩
            (.cons ⟨rfl, apart_toString _ _⟩ (.cons ⟨rfl, apart_toString _ _⟩
              (.cons ⟨rfl, describeBool_apart _ _⟩ .nil))))))
    simp only [List.cons.injEq, Prod.mk.injEq, true_and, and_true] at hfields
    obtain ⟨hkind, hvalue, hnumber, hline, hposition, hback⟩ := hfields
    have hvalue := (describeText_inj (r := []) (s := []) rfl (congrArg (·.toList ++ []) hvalue)).1
    have hkind := TokenKind.eq_of_description (r := []) (s := [])
      (congrArg (·.toList ++ [',']) hkind)
    exact ⟨hkind, String.toList_inj.mp hvalue,
      describeOption_inj hnumber, toString_nat_inj hline, toString_nat_inj hposition,
      describeBool_inj hback⟩
  · rintro ⟨hkind, hvalue, hnumber, hline, hposition, hback⟩
    rw [description, description, hkind, hvalue, hnumber, hline, hposition, hback]

end CssTokens
