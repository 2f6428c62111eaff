import CssTokens.Proofs.Grammar.Name
import CssTokens.Proofs.Refinement.Tokenizer

/-!
# The grammar of strings

A string is a run of items after its opening quote. The run ends at the quote that closes the string
or where no item can be read, and there is little that is no item: the end of the text, a line break
and a backslash that is the last character.

Main statement: a string is read by these rules (`Tokenizer.next_quoted`).
-/

namespace CssTokens

namespace Grammar

/-- The characters that stand for themselves between quotes. -/
def PlainIn (quote c : Char) : Prop :=
  c ≠ quote ∧ c ≠ '\n' ∧ c ≠ '\\'

/-- An item of a string. -/
inductive StringItem (quote : Char) : Rule Char
  | spelled {c : Char} {cs rest : List Char} : Spelled (PlainIn quote) cs c rest →
    StringItem quote cs c rest
  /-- A line break after a backslash stands for itself. -/
  | lineBreak {rest : List Char} : StringItem quote ('\\' :: '\n' :: rest) '\n' rest

/-- **Where no item begins**, the string is closed or cut off. -/
theorem of_not_begins_stringItem {quote : Char} {rest : List Char}
    (h : ¬Begins (StringItem quote) rest) :
    rest.head? = some quote ∨ rest = [] ∨ rest.head? = some '\n' ∨ rest = ['\\'] := by
  cases rest with
  | nil => exact .inr (.inl rfl)
  | cons c rest =>
    by_cases hquote : c = quote
    · exact .inl (congrArg some hquote)
    by_cases hbreak : c = '\n'
    · exact .inr (.inr (.inl (congrArg some hbreak)))
    by_cases hback : c = '\\'
    · -- After a backslash there is an escape or a line break, if there is anything.
      subst hback
      cases rest with
      | nil => exact .inr (.inr (.inr rfl))
      | cons d rest =>
        by_cases hd : d = '\n'
        · subst hd
          exact absurd ⟨'\n', rest, .lineBreak⟩ h
        · have hbegins : Begins Escape (d :: rest) :=
            Split.begins_escape_iff.mpr ⟨List.cons_ne_nil d rest, by simpa using hd⟩
          obtain ⟨c, after, he⟩ := hbegins
          exact absurd ⟨c, after, .spelled (.escape he)⟩ h
    · exact absurd ⟨c, rest, .spelled (.plain ⟨hquote, hbreak, hback⟩)⟩ h

end Grammar

namespace Split

open Grammar

variable {quote c : Char} {cs rest text : List Char}

theorem isPlainIn_iff : isPlainIn quote c = true ↔ PlainIn quote c := by
  simp [isPlainIn, PlainIn, and_assoc]

/-- **The items of strings are read by the rules.** -/
theorem quotedChar_iff : quotedChar quote cs = (some c, rest) ↔ StringItem quote cs c rest := by
  have hspelled : ∀ {c rest}, charOrEscape (isPlainIn quote) cs = (some c, rest) ↔
      Spelled (PlainIn quote) cs c rest :=
    charOrEscape_iff isPlainIn_iff (by simp [PlainIn])
  constructor
  · intro h
    cases hc : (charOrEscape (isPlainIn quote) cs).1 with
    | some d =>
      rw [quotedChar_some (eq_of_fst hc)] at h
      cases h
      exact .spelled (hspelled.mp (eq_of_fst hc))
    | none =>
      rw [quotedChar_none hc] at h
      cases hbreak : (nextText ['\\', '\n'] cs).1 with
      | false =>
        rw [hbreak] at h
        cases h
      | true =>
        obtain ⟨after, rfl⟩ := nextText_prefix hbreak
        rw [hbreak] at h
        cases h
        exact .lineBreak
  · intro h
    cases h with
    | spelled hs => exact quotedChar_some (hspelled.mpr hs)
    | lineBreak =>
      have hnone : (charOrEscape (isPlainIn quote) ('\\' :: '\n' :: rest)).1 = none := by
        rw [charOrEscape_neg (by simp [isPlainIn]), escaped_none rfl]
      rw [quotedChar_none hnone]
      rfl

theorem quotedChars_iff :
    (Item.quotedChar quote).many cs = (text, rest) ↔ Run (StringItem quote) cs text rest :=
  Item.many_iff quotedChar_iff

/-- What is read as a string is a run of items, and the quote after it. -/
theorem quoted_of_run (h : Run (StringItem quote) cs text rest) :
    quoted quote cs = ({ text, closed := (nextIs quote rest).1 }, (nextIs quote rest).2) := by
  rw [quoted, bind_apply, quotedChars_iff.mpr h]
  rfl

theorem lexeme_quoted (hquote : isQuote quote = true) (h : Run (StringItem quote) cs text rest) :
    lexeme (quote :: cs) =
      ({ kind := if (nextIs quote rest).1 then .quotedString else .badString, text },
        (nextIs quote rest).2) := by
  have hmarked : marked quote = some (enclosed .quotedString .badString (quoted quote)) := by
    rw [isQuote, Bool.or_eq_true, beq_iff_eq, beq_iff_eq] at hquote
    rcases hquote with rfl | rfl <;> rfl
  rw [lexeme_marked hmarked, enclosed, bind_apply, quoted_of_run h]
  rfl

end Split

/-! ## Reading a string -/

open Grammar

/--
**A string is read item by item.** If the items end at the quote, the string is closed, and what
follows the quote is left. Otherwise the string is cut off, and what is left begins with a line
break, or it is a backslash or nothing.
-/
theorem Tokenizer.next_quoted {t : Tokenizer} {quote : Char} {cs : List Char}
    (hs : t.scanner.Settled) (hp : t.pushedBack = false) (hquote : isQuote quote = true)
    (hcs : t.remaining = quote :: cs) :
    (∃ text rest, Run (StringItem quote) cs text rest)
      ∧ ∀ text rest, Run (StringItem quote) cs text rest →
        (∀ after, rest = quote :: after → ∃ t', next t = .ok .quotedString t'
          ∧ t'.token.unplaced = { kind := .quotedString, value := String.ofList text }
          ∧ t'.remaining = after)
        ∧ (rest.head? ≠ some quote → (rest = [] ∨ rest.head? = some '\n' ∨ rest = ['\\'])
          ∧ ∃ t', next t = .ok .badString t'
            ∧ t'.token.unplaced = { kind := .badString, value := String.ofList text }
            ∧ t'.remaining = rest) := by
  refine ⟨⟨_, _, Split.quotedChars_iff.mp rfl⟩, fun text rest hrun => ?_⟩
  have hlexeme := Split.lexeme_quoted hquote hrun
  have hdelivered : Split.delivered t.options.skipComments t.remaining =
      Split.lexeme (quote :: cs) := by
    rw [hcs]
    refine Split.delivered_keep ?_
    rw [hlexeme]
    cases (Split.nextIs quote rest).1 <;> simp [TokenKind.isComment]
  obtain ⟨t', hnext, hstep⟩ := next_step hs hp
  rw [hdelivered, hlexeme] at hnext hstep
  constructor
  · rintro after rfl
    rw [Split.nextIs_pos] at hnext hstep
    exact ⟨t', hnext, hstep.token, hstep.remaining⟩
  · intro hne
    have hread : Split.nextIs quote rest = (false, rest) := by
      cases rest with
      | nil => rfl
      | cons c rest => exact Split.nextIs_neg (by simpa using hne)
    rw [hread] at hnext hstep
    exact ⟨(of_not_begins_stringItem hrun.stops).resolve_left hne, t', hnext, hstep.token,
      hstep.remaining⟩

/-- The digits of an escape end at the quote. -/
theorem Tokenizer.next_quoted_digits :
    ∃ t', next (ofString "'\\41'x") = .ok .quotedString t'
      ∧ t'.token.unplaced = { kind := .quotedString, value := "A" } ∧ t'.remaining = ['x'] := by
  have hs : (ofString "'\\41'x").scanner.Settled :=
    Scanner.settled_ofSource (Source.infallible_ofString _)
  have hcs : (ofString "'\\41'x").remaining = ['\'', '\\', '4', '1', '\'', 'x'] := by
    decide +kernel
  have hrun : Run (StringItem '\'') ['\\', '4', '1', '\'', 'x'] ['A'] ['\'', 'x'] :=
    Split.quotedChars_iff.mp (by decide +kernel)
  exact ((next_quoted hs rfl rfl hcs).2 _ _ hrun).1 ['x'] rfl

end CssTokens
