import CssTokens.Proofs.Json.Mark

/-!
# JSON values read back

A text is that of a value if its marks take the machine from where it waits for a value to where it
has this one, whatever has been opened before and whatever follows. The texts of strings and
numerals are such, and so are those of objects if the texts of their members are.

Main statements: a text of a value is read as this value (`JsonValue.IsText.ofText?_eq`), and a
record is read back field by field (`JsonValue.fields?_objectText`).
-/

namespace CssTokens.JsonValue

open JsonMark (EndsNumeral)

/-! ## Texts and marks -/

/-- The text is read as these marks, unless what follows goes on with a numeral. -/
def HasMarks (text : List Char) (marks : List JsonMark) : Prop :=
  ∀ rest, EndsNumeral rest →
    JsonMark.ofText? (text ++ rest) = (JsonMark.ofText? rest).map (marks ++ ·)

/-- The text is that of the value. -/
def IsText (text : String) (v : JsonValue) : Prop :=
  ∃ marks, HasMarks text.toList marks
    ∧ ∀ frames, marks.foldlM step (.value, frames) = some (.done v, frames)

variable {text : String} {cs ds : List Char} {marks marks' : List JsonMark} {v : JsonValue}

theorem endsNumeral_nil : EndsNumeral [] := by
  rintro c ⟨⟩

theorem HasMarks.append (h : HasMarks cs marks) (h' : HasMarks ds marks')
    (hends : ∀ rest, EndsNumeral (ds ++ rest)) : HasMarks (cs ++ ds) (marks ++ marks') := by
  intro rest hrest
  rw [List.append_assoc, h _ (hends rest), h' rest hrest, Option.map_map]
  exact congrArg (Option.map · _) (funext fun ms => (List.append_assoc marks marks' ms).symm)

/-- A mark of one character comes first. -/
theorem HasMarks.cons {c : Char} {mark : JsonMark} (hblank : JsonMark.isJsonBlank c = false)
    (hstart : ∀ ds, JsonMark.startingWith? c ds = some (mark, ds)) (h : HasMarks cs marks) :
    HasMarks (c :: cs) (mark :: marks) := by
  intro rest hrest
  rw [List.cons_append, JsonMark.ofText?_cons hblank (hstart _), h rest hrest, Option.map_map]
  rfl

/-- A string comes first. -/
theorem HasMarks.string (name : String) (h : HasMarks cs marks) :
    HasMarks ((stringText name).toList ++ cs) (.string (name.toList.map .char) :: marks) := by
  intro rest hrest
  rw [List.append_assoc, JsonMark.ofText?_string, h rest hrest, Option.map_map]
  rfl

theorem hasMarks_nil : HasMarks [] [] := by
  intro rest _
  exact Option.map_id'.symm

/-- **The text of a value is read as this value.** -/
theorem IsText.ofText?_eq (h : IsText text v) : ofText? text = some v := by
  obtain ⟨marks, hmarks, hmakes⟩ := h
  have hread : JsonMark.ofText? text.toList = some marks := by
    have hnil := hmarks [] endsNumeral_nil
    rw [List.append_nil, JsonMark.ofText?] at hnil
    simpa using hnil
  rw [ofText?, hread, Option.bind_eq_bind, Option.bind_some, hmakes []]
  rfl

theorem isText_string (text : String) :
    IsText (stringText text) (.string (text.toList.map .char)) := by
  have h := hasMarks_nil.string text
  rw [List.append_nil] at h
  exact ⟨_, h, fun _ => rfl⟩

theorem isText_number {n : Numeral} (hn : n.InJson) :
    IsText (String.ofList n.text) (.number n) := by
  refine ⟨[.number n], fun rest hrest => ?_, fun _ => rfl⟩
  rw [String.toList_ofList, JsonMark.ofText?_numeral hn hrest]
  rfl

/-- The literals are values. -/
theorem isText_literal :
    IsText "null" .null ∧ IsText "true" (.bool true) ∧ IsText "false" (.bool false) := by
  refine ⟨⟨[.null], fun rest _ => ?_, fun _ => rfl⟩, ⟨[.bool true], fun rest _ => ?_, fun _ => rfl⟩,
    ⟨[.bool false], fun rest _ => ?_, fun _ => rfl⟩⟩
  · exact JsonMark.ofText?_cons rfl rfl
  · exact JsonMark.ofText?_cons rfl rfl
  · exact JsonMark.ofText?_cons rfl rfl

/-! ## Objects -/

/-- A member of an object: its name, its text and its value. -/
structure Member where
  name : String
  text : String
  value : JsonValue
  isText : IsText text value

namespace Member

/-- What is written of the member. -/
def written (m : Member) : String × String :=
  (m.name, m.text)

/-- What is read of the member. -/
def key (m : Member) : List JsonChar :=
  m.name.toList.map .char

def read (m : Member) : List JsonChar × JsonValue :=
  (m.key, m.value)

/-- The text of the member. -/
def chars (m : Member) : List Char :=
  (stringText m.name).toList ++ ':' :: m.text.toList

/-- The text of an object after one of its members. -/
def tailText : List Member → List Char
  | [] => ['\x7d']
  | m :: ms => ',' :: (m.chars ++ tailText ms)

theorem tailText_endsNumeral (ms : List Member) (rest : List Char) :
    EndsNumeral (tailText ms ++ rest) := by
  cases ms with
  | nil =>
    rintro c ⟨⟩
    decide
  | cons m ms =>
    rintro c ⟨⟩
    decide

/-- The text of an object is an opening brace, its first member and the others. -/
theorem objectText_cons (m : Member) (ms : List Member) :
    (objectText ((m :: ms).map written)).toList = '\x7b' :: (m.chars ++ tailText ms) := by
  have hone : ∀ m : Member, (stringText m.name ++ ":" ++ m.text).toList = m.chars := by
    intro m
    rw [String.toList_append, String.toList_append, List.append_assoc]
    rfl
  have hall : (",".intercalate (((m :: ms).map written).map fun w =>
      stringText w.1 ++ ":" ++ w.2)).toList ++ ['\x7d'] = m.chars ++ tailText ms := by
    induction ms generalizing m with
    | nil => exact congrArg (· ++ ['\x7d']) (hone m)
    | cons m' ms ih =>
      rw [List.map_cons, List.map_cons, List.map_cons, List.map_cons, String.intercalate_cons_cons,
        String.toList_append, String.toList_append, List.append_assoc, List.append_assoc]
      exact congr (congrArg (· ++ ·) (hone m)) (congrArg (',' :: ·) (ih m'))
  rw [objectText, String.toList_append, String.toList_append, List.append_assoc]
  exact congrArg ('\x7b' :: ·) hall

/-- The marks of a member take the machine from its key to its value. -/
theorem exists_marks (m : Member) {marks' : List JsonMark} (h : HasMarks cs marks')
    (hends : ∀ rest, EndsNumeral (cs ++ rest)) :
    ∃ marks, HasMarks (m.chars ++ cs) (.string m.key :: .colon :: (marks ++ marks'))
      ∧ ∀ frames, marks.foldlM step (.value, frames) = some (.done m.value, frames) := by
  obtain ⟨marks, hmarks, hmakes⟩ := m.isText
  refine ⟨marks, ?_, hmakes⟩
  rw [chars, List.append_assoc, List.cons_append]
  exact .string m.name (.cons rfl (fun _ => rfl) (hmarks.append h hends))

/-- **The machine takes what is left of an object**, and adds its members to those that it has. -/
theorem exists_tail_marks (ms : List Member) :
    ∃ marks, HasMarks (tailText ms) marks ∧ ∀ key v members frames,
      marks.foldlM step (.done v, .object key members :: frames) =
        some (.done (.object (((key, v) :: members).reverse ++ ms.map read)), frames) := by
  induction ms with
  | nil =>
    refine ⟨[.closeObject], .cons rfl (fun _ => rfl) hasMarks_nil, fun key v members frames => ?_⟩
    rw [List.map_nil, List.append_nil]
    rfl
  | cons m ms ih =>
    obtain ⟨marks', htail, hmembers⟩ := ih
    obtain ⟨marks, hmarks, hmakes⟩ := m.exists_marks htail (tailText_endsNumeral ms)
    refine ⟨_, .cons rfl (fun _ => rfl) hmarks, fun key v members frames => ?_⟩
    show (marks ++ marks').foldlM step (.value, .object m.key ((key, v) :: members) :: frames) = _
    rw [List.foldlM_append, hmakes, Option.bind_eq_bind, Option.bind_some, hmembers,
      List.reverse_cons, List.append_assoc]
    rfl

/-- **The text of an object is that of its members in their order.** -/
theorem isText_object (ms : List Member) :
    IsText (objectText (ms.map written)) (.object (ms.map read)) := by
  cases ms with
  | nil => exact ⟨[.openObject, .closeObject], .cons rfl (fun _ => rfl) (.cons rfl (fun _ => rfl)
      hasMarks_nil), fun _ => rfl⟩
  | cons m ms =>
    obtain ⟨marks', htail, hmembers⟩ := exists_tail_marks ms
    obtain ⟨marks, hmarks, hmakes⟩ := m.exists_marks htail (tailText_endsNumeral ms)
    refine ⟨.openObject :: .string m.key :: .colon :: (marks ++ marks'), ?_, fun frames => ?_⟩
    · rw [objectText_cons]
      exact .cons rfl (fun _ => rfl) hmarks
    · show (marks ++ marks').foldlM step (.value, .object m.key [] :: frames) = _
      rw [List.foldlM_append, hmakes, Option.bind_eq_bind, Option.bind_some, hmembers]
      rfl

/-! ## Records -/

theorem named?_read (ms : List Member) :
    named? (ms.map read) = some (ms.map fun m => (m.name, m.value)) := by
  induction ms with
  | nil => rfl
  | cons m ms ih =>
    unfold named? at ih ⊢
    rw [List.map_cons, List.mapM_cons, ih]
    show (((JsonChar.text? (m.name.toList.map .char)).map _).bind _) = _
    rw [JsonChar.text?_chars, Option.map_some, String.ofList_toList]
    rfl

/-- Among members of different names, each has its name for itself. -/
theorem member?_of_mem {members : List (String × JsonValue)} (hn : (members.map Prod.fst).Nodup)
    {m : String × JsonValue} (hm : m ∈ members) : member? members m.1 = some (some m.2) := by
  have hfilter : members.filter (·.1 == m.1) = [m] := by
    induction members with
    | nil => cases hm
    | cons a members ih =>
      rw [List.map_cons, List.nodup_cons, List.mem_map] at hn
      rcases List.mem_cons.mp hm with rfl | hm
      · have hrest : members.filter (·.1 == m.1) = [] := by
          refine List.filter_eq_nil_iff.mpr fun b hb => ?_
          rw [beq_iff_eq]
          exact fun heq => hn.1 ⟨b, hb, heq⟩
        rw [List.filter_cons, if_pos (beq_self_eq_true m.1), hrest]
      · have hne : ¬(a.1 == m.1) = true := by
          rw [beq_iff_eq]
          exact fun heq => hn.1 ⟨m, hm, heq.symm⟩
        rw [List.filter_cons, if_neg hne, ih hn.2 hm]
  rw [member?, hfilter]

end Member

/-- **A record is read back field by field**, if no two fields have the same name. -/
theorem fields?_objectText (ms : List Member) (hn : (ms.map Member.name).Nodup) :
    (ofText? (objectText (ms.map Member.written))).bind (fields? (ms.map Member.name)) =
      some (ms.map fun m => some m.value) := by
  have hmember : ∀ m ∈ ms, member? (ms.map fun m => (m.name, m.value)) m.name =
      some (some m.value) := by
    intro m hm
    refine Member.member?_of_mem (m := (m.name, m.value)) ?_ (List.mem_map_of_mem hm)
    rwa [List.map_map]
  rw [(Member.isText_object ms).ofText?_eq, Option.bind_some, fields?, Member.named?_read,
    Option.bind_eq_bind, Option.bind_some]
  generalize (ms.map fun m => (m.name, m.value)) = members at hmember
  clear hn
  induction ms with
  | nil => rfl
  | cons m ms ih =>
    obtain ⟨hfirst, hothers⟩ := List.forall_mem_cons.mp hmember
    rw [List.map_cons, List.mapM_cons, hfirst, ih hothers]
    rfl

/-! ## Variants -/

/-- The text of a variant with a value is that of an object. -/
theorem isText_variant {name text : String} {v : JsonValue} (h : IsText text v) :
    IsText (objectText [(name, text)]) (.object [(name.toList.map .char, v)]) :=
  Member.isText_object [⟨name, text, v, h⟩]

end CssTokens.JsonValue
