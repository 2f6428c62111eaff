import CssTokens.Json.Options
import CssTokens.Json.Token
import CssTokens.Proofs.Json.Number

/-!
# Tokens read back from JSON

A token is written as a record, and each of its fields is read back from its text. Only a
floating-point number may come back as another one, and infinity does not come back at all.

Main statements: a token is read back up to its number, which comes back as it does by itself
(`Token.ofJson?_toJson`), and all of it is read back if it has no floating-point number
(`Token.ofJson?_toJson_of_integer`). So are options (`Options.ofJson?_toJson`).
-/

namespace CssTokens

open JsonValue (IsText isText_string isText_number isText_literal isText_int isText_variant
  fields?_objectText)

/-- A variant is read back with its value. -/
theorem JsonValue.variant?_single (name : String) (v : JsonValue) :
    variant? (.object [(name.toList.map .char, v)]) = some (name, v) := by
  rw [variant?, JsonChar.text?_chars, Option.map_some, String.ofList_toList]

/-! ## Numeric values -/

namespace NumericValue

/-- What a numeric value is read back as from its JSON text, if it is read at all. -/
def reread? (v : NumericValue) : Option NumericValue :=
  (JsonValue.ofText? v.toJson).bind ofJson?

/-- The text of a numeric value is that of an object. -/
theorem exists_isText (v : NumericValue) : ∃ members, IsText v.toJson (.object members) := by
  cases v with
  | integer i => exact ⟨_, isText_variant (isText_int i.toInt)⟩
  | float x =>
    cases hx : x.isInfinite with
    | true =>
      refine ⟨_, isText_variant (v := .null) ?_⟩
      rw [Binary64.jsonText, hx]
      exact isText_literal.1
    | false =>
      obtain ⟨n, hn, htext, -⟩ := Binary64.exists_jsonText hx
      refine ⟨_, isText_variant (v := .number n) ?_⟩
      rw [htext]
      exact isText_number hn

/-- **An integer is read back.** -/
theorem reread?_integer (i : Int64) : reread? (integer i) = some (integer i) := by
  rw [reread?, toJson, (isText_variant (isText_int i.toInt)).ofText?_eq, Option.bind_some,
    ofJson?, JsonValue.variant?_single]
  show (Numeral.signed? _).map integer = _
  rw [Numeral.signed?_ofInt]
  rfl

/-- **Infinity is not read back**, since it has no JSON text of its own. -/
theorem reread?_infinite {x : Binary64} (hx : x.isInfinite = true) : reread? (float x) = none := by
  have htext : x.jsonText = "null" := by
    rw [Binary64.jsonText, hx]
    rfl
  rw [reread?, toJson, htext, (isText_variant isText_literal.1).ofText?_eq, Option.bind_some,
    ofJson?, JsonValue.variant?_single]
  rfl

/-- **A finite number is read back as its shortest decimal is**, step by step. -/
theorem reread?_float {x : Binary64} (hx : x.isInfinite = false) :
    ∃ n : Numeral, n.isNegative = x.negative
      ∧ n.decimal.value = (FloatFormat.json.written x).value
      ∧ reread? (float x) = n.stepwiseFloat?.map float := by
  obtain ⟨n, hn, htext, hnegative, hvalue⟩ := Binary64.exists_jsonText hx
  refine ⟨n, hnegative, hvalue, ?_⟩
  rw [reread?, toJson, htext, (isText_variant (isText_number hn)).ofText?_eq, Option.bind_some,
    ofJson?, JsonValue.variant?_single]
  rfl

end NumericValue

/-! ## Kinds -/

/-- A kind whose text is its name is read back if its name is. -/
theorem TokenKind.exists_json_of_name {kind : TokenKind}
    (htext : kind.toJson = JsonValue.stringText kind.name) (hname : ofName? kind.name = some kind) :
    ∃ v, IsText kind.toJson v ∧ ofJson? v = some kind := by
  refine ⟨_, htext ▸ isText_string kind.name, ?_⟩
  rw [ofJson?, JsonChar.text?_chars]
  show ofName? (String.ofList kind.name.toList) = some kind
  rw [String.ofList_toList, hname]

/-- **A kind is read back from its text**, be it a name or a delimiter. -/
theorem TokenKind.exists_json (kind : TokenKind) :
    ∃ v, IsText kind.toJson v ∧ ofJson? v = some kind := by
  cases kind with
  | delim c =>
    refine ⟨_, isText_variant (isText_string (String.singleton c)), ?_⟩
    show (JsonValue.variant? _).bind _ = _
    rw [JsonValue.variant?_single, Option.bind_some]
    show (JsonChar.text? _).bind _ = _
    rw [JsonChar.text?_chars, String.toList_singleton]
    rfl
  | _ => exact exists_json_of_name rfl (by decide)

/-! ## Tokens -/

namespace Token

variable {t : Token}

/-- What the number of a token is read back as, if it is read at all. -/
def rereadNumeric? (t : Token) : Option (Option NumericValue) :=
  match t.numeric with
  | none => some none
  | some v => v.reread?.map some

theorem exists_json_numeric (t : Token) :
    ∃ v, IsText ((t.numeric.map NumericValue.toJson).getD "null") v
      ∧ v.optional? NumericValue.ofJson? = t.rereadNumeric? := by
  unfold rereadNumeric?
  cases t.numeric with
  | none => exact ⟨_, isText_literal.1, rfl⟩
  | some v =>
    obtain ⟨members, hv⟩ := v.exists_isText
    refine ⟨_, hv, ?_⟩
    show _ = (NumericValue.reread? v).map some
    rw [NumericValue.reread?, hv.ofText?_eq]
    rfl

theorem exists_json_unit (t : Token) :
    ∃ v, IsText ((t.unit.map JsonValue.stringText).getD "null") v
      ∧ v.optional? JsonValue.text? = some (t.unit.map String.toList) := by
  cases t.unit with
  | none => exact ⟨_, isText_literal.1, rfl⟩
  | some unit =>
    refine ⟨_, isText_string unit, ?_⟩
    show (JsonChar.text? _).map some = _
    rw [JsonChar.text?_chars]
    rfl

/--
**A token is read back from its JSON text**, whatever it is made of, up to its number. That comes
back as it does by itself, and where it does not, the token does not. The line and the position must
fit into 64 bits.
-/
theorem ofJson?_toJson (hline : t.line < UInt64.size) (hposition : t.position < UInt64.size) :
    ofJson? t.toJson = t.rereadNumeric?.map fun numeric => { t with numeric } := by
  obtain ⟨kind, hkind, hkind'⟩ := t.kind.exists_json
  obtain ⟨numeric, hnumeric, hnumeric'⟩ := t.exists_json_numeric
  obtain ⟨unit, hunit, hunit'⟩ := t.exists_json_unit
  have hread : (JsonValue.ofText? t.toJson).bind (JsonValue.fields? jsonNames) =
      some [some kind, some (.string (t.value.toList.map .char)), some numeric, some unit,
        some (.number (.ofInt t.line)), some (.number (.ofInt t.position))] :=
    fields?_objectText [⟨"kind", _, kind, hkind⟩, ⟨"value", _, _, isText_string t.value⟩,
      ⟨"numeric_value", _, numeric, hnumeric⟩, ⟨"unit", _, unit, hunit⟩,
      ⟨"line_number", _, _, isText_int t.line⟩, ⟨"position", _, _, isText_int t.position⟩]
      (show jsonNames.Nodup by decide)
  obtain ⟨v, hv, hfields⟩ := Option.bind_eq_some_iff.mp hread
  have hvalue : JsonValue.text? (.string (t.value.toList.map .char)) = some t.value.toList :=
    JsonChar.text?_chars _
  have hline' : JsonValue.unsigned? (.number (.ofInt t.line)) = some t.line :=
    Numeral.unsigned?_ofInt hline
  have hposition' : JsonValue.unsigned? (.number (.ofInt t.position)) = some t.position :=
    Numeral.unsigned?_ofInt hposition
  have hunit'' : (t.unit.map String.toList).map String.ofList = t.unit := by
    cases t.unit with
    | none => rfl
    | some unit => exact congrArg some String.ofList_toList
  simp only [ofJson?, hv, hfields, Option.getD_some, hkind', hvalue, hnumeric', hunit', hline',
    hposition', Option.bind_eq_bind, Option.bind_some, String.ofList_toList, hunit'']
  cases t.rereadNumeric? <;> rfl

/-- **A token without a floating-point number is read back as it is.** -/
theorem ofJson?_toJson_of_integer (hnumeric : ∀ v ∈ t.numeric, ∃ i, v = .integer i)
    (hline : t.line < UInt64.size) (hposition : t.position < UInt64.size) :
    ofJson? t.toJson = some t := by
  have hreread : t.rereadNumeric? = some t.numeric := by
    unfold rereadNumeric?
    cases hn : t.numeric with
    | none => rfl
    | some v =>
      obtain ⟨i, rfl⟩ := hnumeric v hn
      show (NumericValue.reread? (.integer i)).map some = _
      rw [NumericValue.reread?_integer]
      rfl
  rw [ofJson?_toJson hline hposition, hreread]
  rfl

end Token

/-! ## Options -/

/-- **Options are read back from their JSON text.** -/
theorem Options.ofJson?_toJson (options : Options) : ofJson? options.toJson = some options := by
  have hskip : IsText (if options.skipComments then "true" else "false")
      (.bool options.skipComments) := by
    cases options.skipComments with
    | true => exact isText_literal.2.1
    | false => exact isText_literal.2.2
  have hread : (JsonValue.ofText? options.toJson).bind (JsonValue.fields? ["skip_comments"]) =
      some [some (.bool options.skipComments)] :=
    fields?_objectText [⟨"skip_comments", _, _, hskip⟩] (List.nodup_singleton _)
  obtain ⟨v, hv, hfields⟩ := Option.bind_eq_some_iff.mp hread
  simp only [ofJson?, hv, hfields, Option.bind_eq_bind, Option.bind_some]
  rfl

end CssTokens
