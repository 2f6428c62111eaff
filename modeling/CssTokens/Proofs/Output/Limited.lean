import CssTokens.Proofs.Roundtrip.Written
import CssTokens.Serialize.Token

/-!
# Writing to a limited output

A writer may consist of many others, one inside the other, and the output may be full in the middle
of any of them. Nothing is written after that: what an output holds is the beginning of the text, as
far as there was room for it.

Writing comes down to single characters, so that this is an induction over the text. Each writer
writes one text, and what is made of such writers one after the other does so too.

Main statement: tokens, numbers, names and strings are written in this way
(`WriteM.output_stopsWhenFull`).
-/

namespace CssTokens

namespace WriteM

/-- What comes of writing on any output. With too little room, the writing fails, and the output is
full with the beginning of the text. -/
structure StopsWhenFull (m : WriteM Unit) : Prop where
  unlimited : ∀ s, m { text := s } = .ok () { text := s ++ m.written }
  fits : ∀ s n, m.written.length ≤ n → m { text := s, room := some n } =
    .ok () { text := s ++ m.written, room := some (n - m.written.length) }
  overflows : ∀ s n, n < m.written.length → m { text := s, room := some n } =
    .error {} { text := s ++ String.ofList (m.written.toList.take n), room := some 0 }
  within : ∀ n, m.writtenWithin n =
    (String.ofList (m.written.toList.take n), decide (m.written.length ≤ n))

/-! ## Characters -/

section
variable {cs : List Char} {n : Nat}

theorem chars_fits (h : cs.length ≤ n) (s : String) :
    chars cs { text := s, room := some n } =
      .ok () { text := s ++ String.ofList cs, room := some (n - cs.length) } := by
  induction cs generalizing n s with
  | nil =>
    rw [String.ofList_nil, String.append_empty]
    rfl
  | cons c cs ih =>
    obtain ⟨k, rfl⟩ := Nat.exists_eq_add_of_lt (Nat.lt_of_lt_of_le (Nat.succ_pos cs.length) h)
    rw [Nat.zero_add] at h ⊢
    show chars cs { text := s.push c, room := some k } = _
    rw [ih (Nat.le_of_succ_le_succ h), String.push_eq_append, String.append_assoc,
      ← String.ofList_cons, List.length_cons, Nat.succ_sub_succ]

/-- **Where there is too little room, the writing fails** at the first character that has none. -/
theorem chars_overflows (h : n < cs.length) (s : String) :
    chars cs { text := s, room := some n } =
      .error {} { text := s ++ String.ofList (cs.take n), room := some 0 } := by
  induction cs generalizing n s with
  | nil => exact absurd h (Nat.not_lt_zero n)
  | cons c cs ih =>
    cases n with
    | zero =>
      rw [List.take_zero, String.ofList_nil, String.append_empty]
      rfl
    | succ n =>
      show chars cs { text := s.push c, room := some n } = _
      rw [ih (Nat.lt_of_succ_lt_succ h), String.push_eq_append, String.append_assoc,
        ← String.ofList_cons, List.take_succ_cons]

end

theorem chars_stopsWhenFull (cs : List Char) : (chars cs).StopsWhenFull := by
  have hlength : (chars cs).written.length = cs.length := by
    rw [written_chars, String.length_ofList]
  constructor
  case unlimited =>
    intro s
    rw [written_chars, chars_unlimited]
  case fits =>
    intro s n h
    rw [hlength] at h ⊢
    rw [chars_fits h, written_chars]
  case overflows =>
    intro s n h
    rw [hlength] at h
    rw [chars_overflows h, written_chars, String.toList_ofList]
  case within =>
    intro n
    rw [hlength, written_chars, String.toList_ofList, writtenWithin]
    by_cases h : cs.length ≤ n
    · rw [chars_fits h, List.take_of_length_le h, decide_eq_true h]
      exact congrArg (·, true) String.empty_append
    · rw [chars_overflows (Nat.lt_of_not_le h), decide_eq_false h]
      exact congrArg (·, false) String.empty_append

/-! ## Writers of one text -/

/-- A computation that writes one text and nothing else. -/
def IsText (m : WriteM Unit) : Prop :=
  ∃ cs, m = chars cs

namespace IsText

variable {m m' : WriteM Unit}

theorem chars (cs : List Char) : IsText (chars cs) :=
  ⟨cs, rfl⟩

theorem char (c : Char) : IsText (char c) :=
  ⟨[c], char_eq c⟩

theorem text (s : String) : IsText (text s) :=
  ⟨s.toList, rfl⟩

theorem nothing : IsText (return ()) :=
  ⟨[], rfl⟩

/-- **What is written by one writer after the other, is written at once.** -/
theorem bind (h : IsText m) (h' : IsText m') : IsText (do m; m') := by
  obtain ⟨cs, rfl⟩ := h
  obtain ⟨ds, rfl⟩ := h'
  exact ⟨cs ++ ds, (chars_append cs ds).symm⟩

theorem stopsWhenFull (h : IsText m) : m.StopsWhenFull := by
  obtain ⟨cs, rfl⟩ := h
  exact chars_stopsWhenFull cs

end IsText

/-! ## Names, strings and numbers -/

theorem name_isText (cs : List Char) : IsText (writeName cs) :=
  ⟨_, writeName_eq cs⟩

theorem identifier_isText (cs : List Char) : IsText (writeIdentifier cs) :=
  ⟨_, writeIdentifier_eq cs⟩

theorem unit_isText (cs : List Char) : IsText (writeUnit cs) :=
  ⟨_, writeUnit_eq cs⟩

theorem stringPiece_isText (cs : List Char) : IsText (writeStringPiece cs) :=
  ⟨_, writeStringPiece_eq cs⟩

theorem string_isText (cs : List Char) : IsText (writeString cs) :=
  ⟨_, writeString_eq cs⟩

theorem stringOrIdent_isText (cs : List Char) : IsText (writeStringOrIdent cs) := by
  unfold writeStringOrIdent
  split
  · exact .chars cs
  · exact string_isText cs

theorem number_isText (plus : Bool) (v : NumericValue) : IsText (v.write plus) := by
  unfold NumericValue.write
  split
  · exact .bind (.char '+') (.chars _)
  · exact .chars _

/-! ## Tokens -/

theorem tokenNumber_isText (t : Token) : IsText t.writeNumber := by
  unfold Token.writeNumber
  split
  · exact number_isText _ _
  · exact .nothing

/-- **A token is written as one text**, whatever it is made of. -/
theorem token_isText (t : Token) : IsText t.toCss := by
  unfold Token.toCss
  cases t.kind with
  | eof => exact .nothing
  | whiteSpace =>
    dsimp only
    split
    · exact .char ' '
    · exact .chars _
  | ident => exact identifier_isText _
  | atKeyword => exact .bind (.char '@') (identifier_isText _)
  | hash => exact .bind (.char '#') (name_isText _)
  | quotedString => exact string_isText _
  | badString => exact .bind (.char '"') (.bind (stringPiece_isText _) (.char '\n'))
  | number => exact tokenNumber_isText t
  | percentage => exact .bind (tokenNumber_isText t) (.char '%')
  | dimension =>
    refine .bind (tokenNumber_isText t) ?_
    split
    · exact unit_isText _
    · exact .nothing
  | url => exact .bind (.text "url(") (.bind (string_isText _) (.char ')'))
  | badUrl => exact .bind (.text "url(") (.bind (.chars _) (.char ' '))
  | unicodeRange => exact .chars _
  | comment => exact .bind (.text "/*") (.bind (.chars _) (.text "*/"))
  | badComment => exact .bind (.text "/*") (.chars _)
  | function => exact .bind (identifier_isText _) (.char '(')
  | delim c => exact .char c
  | _ => exact .text _

/--
**An output that is full holds the beginning of the text, as far as there was room**, and the
writing has failed exactly if there was more to write. It does not matter what is written: any
token, even one whose parts do not go together, a number, a name or a string, in how many pieces
soever. The numbers are those of `Binary64`, so a NaN is left out.
-/
theorem output_stopsWhenFull (t : Token) (v : NumericValue) (cs : List Char)
    (pieces : List String) :
    t.toCss.StopsWhenFull ∧ v.toCss.StopsWhenFull ∧ (writeIdentifier cs).StopsWhenFull
      ∧ (writeName cs).StopsWhenFull ∧ (writeString cs).StopsWhenFull
      ∧ (writeStringOrIdent cs).StopsWhenFull
      ∧ StopsWhenFull (pieces.forM fun piece => writeStringPiece piece.toList) := by
  have hpieces : IsText (pieces.forM fun piece => writeStringPiece piece.toList) :=
    ⟨_, writeStringPieces_eq pieces⟩
  exact ⟨(token_isText t).stopsWhenFull, (number_isText false v).stopsWhenFull,
    (identifier_isText cs).stopsWhenFull, (name_isText cs).stopsWhenFull,
    (string_isText cs).stopsWhenFull, (stringOrIdent_isText cs).stopsWhenFull,
    hpieces.stopsWhenFull⟩

/-- The output may be full in the middle of an escape. -/
example : (writeString ['a', '"']).writtenWithin 3 = ("\"a\\", false) := by decide

end WriteM

end CssTokens
