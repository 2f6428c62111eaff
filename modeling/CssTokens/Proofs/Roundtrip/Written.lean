import CssTokens.Serialize.Name

/-!
# What is written, as a text

Writing character by character comes to the same as writing one text. Here each writer of names,
units and strings is given the text that it writes, so that the text can be read back.
-/

namespace CssTokens

namespace WriteM

theorem char_eq (c : Char) : char c = chars [c] :=
  (bind_pure_unit (x := char c)).symm

theorem chars_append (cs ds : List Char) :
    chars (cs ++ ds) = (do chars cs; chars ds) := by
  induction cs with
  | nil => rw [chars, pure_bind, List.nil_append]
  | cons c cs ih => rw [List.cons_append, chars, ih, chars, bind_assoc]

theorem chars_cons (c : Char) (cs : List Char) : chars (c :: cs) = (do char c; chars cs) := rfl

theorem chars_unlimited (cs : List Char) (s : String) :
    chars cs { text := s } = .ok () { text := s ++ String.ofList cs } := by
  induction cs generalizing s with
  | nil =>
    rw [String.ofList_nil, String.append_empty]
    rfl
  | cons c cs ih =>
    show chars cs { text := s.push c } = _
    rw [ih, String.push_eq_append, String.append_assoc, ← String.ofList_cons]

/-- **Where there is room for everything, the text is written.** -/
theorem written_chars (cs : List Char) : written (chars cs) = String.ofList cs := by
  rw [written, chars_unlimited]
  exact String.empty_append

end WriteM

open WriteM

/-! ## Names -/

/-- An escape by code point. -/
def hexEscapeText (c : Char) : List Char :=
  '\\' :: hexDigits c.toNat ++ [' ']

/-- A character of a name in escaped form. -/
def escapedText (c : Char) : List Char :=
  if isNameControl c then hexEscapeText c else ['\\', c]

/-- A character inside a name. -/
def nameCharText (c : Char) : List Char :=
  if isNameChar c then [c] else escapedText c

/-- The characters of a name. -/
def nameText (cs : List Char) : List Char :=
  cs.flatMap nameCharText

/-- The first character of an identifier after its hyphen. -/
def nameStartText (c : Char) : List Char :=
  if isNameStart c then [c] else if c.isDigit then hexEscapeText c else escapedText c

/-- An identifier. -/
def identifierText : List Char → List Char
  | [] => []
  | ['-'] => ['\\', '-']
  | '-' :: c :: cs => '-' :: nameStartText c ++ nameText cs
  | c :: cs => nameStartText c ++ nameText cs

theorem writeEscaped_eq (c : Char) : writeEscaped c = chars (escapedText c) := by
  unfold writeEscaped escapedText
  split <;> rfl

theorem writeNameChar_eq (c : Char) : writeNameChar c = chars (nameCharText c) := by
  unfold writeNameChar nameCharText
  split
  · exact char_eq c
  · exact writeEscaped_eq c

theorem writeName_eq (cs : List Char) : writeName cs = chars (nameText cs) := by
  induction cs with
  | nil => rfl
  | cons c cs ih =>
    show _ = chars (nameCharText c ++ nameText cs)
    rw [writeName, ih, writeNameChar_eq, chars_append]

theorem writeNameStart_eq (c : Char) : writeNameStart c = chars (nameStartText c) := by
  unfold writeNameStart nameStartText
  split
  · exact char_eq c
  · split
    · rfl
    · exact writeEscaped_eq c

theorem identifierText_of_ne {c : Char} (h : c ≠ '-') (cs : List Char) :
    identifierText (c :: cs) = nameStartText c ++ nameText cs := by
  rw [identifierText]
  · intro hc
    exact absurd hc h
  · intro d ds hc
    exact absurd hc h

theorem writeIdentifier_eq (cs : List Char) :
    writeIdentifier cs = chars (identifierText cs) := by
  have hbody : ∀ c cs,
      (do writeNameStart c; writeName cs) = chars (nameStartText c ++ nameText cs) := by
    intro c cs
    rw [writeNameStart_eq, writeName_eq, chars_append]
  cases cs with
  | nil => rfl
  | cons c cs =>
    by_cases hc : c = '-'
    · subst hc
      cases cs with
      | nil => rfl
      | cons c cs =>
        show (do char '-'; writeNameStart c; writeName cs) = _
        rw [hbody]
        rfl
    · have hhead : ¬(c :: cs).head? = some '-' := fun h => hc (Option.some.inj h)
      have hne : ¬c :: cs = ['-'] := fun h => hc (List.cons.inj h).1
      rw [identifierText_of_ne hc, ← hbody, writeIdentifier]
      simp only [hhead, hne, if_false]

/-! ## Units -/

/-- Whether the first character of a unit is escaped although it is a letter. -/
def likeExponent : List Char → Bool
  | [] => false
  | c :: cs => (c == 'e' || c == 'E') &&
    match cs.head? with
    | none => true
    | some d => d == '-' || d.isDigit

/-- A unit. -/
def unitText (cs : List Char) : List Char :=
  match cs with
  | [] => []
  | c :: rest => if likeExponent cs then hexEscapeText c ++ nameText rest else identifierText cs

theorem writeUnit_eq (cs : List Char) : writeUnit cs = chars (unitText cs) := by
  cases cs with
  | nil => exact writeIdentifier_eq []
  | cons c rest =>
    show (if likeExponent (c :: rest) then (do writeHexEscape c; writeName rest)
      else writeIdentifier (c :: rest)) = chars (unitText (c :: rest))
    rw [unitText]
    split
    · rw [writeName_eq, chars_append]
      rfl
    · exact writeIdentifier_eq _

/-! ## Strings -/

/-- A character inside a string. -/
def stringCharText (c : Char) : List Char :=
  if c == '"' || c == '\\' then ['\\', c]
  else if c.toNat ≤ 0x1F || c.toNat == 0x7F then hexEscapeText c
  else [c]

/-- The characters of a string. -/
def stringText (cs : List Char) : List Char :=
  cs.flatMap stringCharText

theorem writeStringChar_eq (c : Char) : writeStringChar c = chars (stringCharText c) := by
  unfold writeStringChar stringCharText
  split
  · rfl
  · split
    · rfl
    · exact char_eq c

theorem writeStringPiece_eq (cs : List Char) : writeStringPiece cs = chars (stringText cs) := by
  induction cs with
  | nil => rfl
  | cons c cs ih =>
    show _ = chars (stringCharText c ++ stringText cs)
    rw [writeStringPiece, ih, writeStringChar_eq, chars_append]

/-- **Strings may be written in pieces.** -/
theorem writeStringPieces_eq (pieces : List String) :
    (pieces.forM fun piece => writeStringPiece piece.toList) =
      chars (stringText (String.join pieces).toList) := by
  rw [String.toList_join]
  induction pieces with
  | nil => rfl
  | cons piece pieces ih =>
    rw [List.flatMap_cons, stringText, List.flatMap_append, chars_append]
    show (do writeStringPiece piece.toList; pieces.forM _) = _
    rw [ih, writeStringPiece_eq]
    rfl

theorem writeString_eq (cs : List Char) :
    writeString cs = chars ('"' :: (stringText cs ++ ['"'])) := by
  rw [writeString, writeStringPiece_eq, char_eq '"', ← chars_append, ← chars_append]
  rfl

end CssTokens
