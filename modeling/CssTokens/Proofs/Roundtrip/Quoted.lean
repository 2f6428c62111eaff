import CssTokens.Proofs.Roundtrip.Name
import CssTokens.Proofs.Run.Determinism
import CssTokens.Proofs.Split.Kind
import CssTokens.Serialize.Token

/-!
# Strings and URLs read back

What is written for a character of a string is read as this character, whatever follows, and so a
string is read back up to its closing quote. It does not matter in how many pieces it was written.
In a URL the string stands between parentheses, and a malformed string is cut off by a line break,
which is left for the next token.

Main statement: `string_reads`.
-/

namespace CssTokens

namespace Split

/-! ## Characters -/

/-- **A character of a string is read back.** -/
theorem charOrEscape_stringCharText (c : Char) (rest : List Char) :
    charOrEscape (isPlainIn '"') (stringCharText c ++ rest) = (some c, rest) := by
  unfold stringCharText
  split
  · next hc =>
    -- Neither of the two is a hexadecimal digit, so the backslash stands for the character.
    have hescape : escape (c :: rest) = (some c, rest) := by
      simp only [Bool.or_eq_true, beq_iff_eq] at hc
      rcases hc with rfl | rfl <;> rfl
    show charOrEscape _ ('\\' :: c :: rest) = _
    rw [charOrEscape_neg rfl]
    exact escaped_some hescape
  · next hquote =>
    split
    · next hc =>
      simp only [Bool.or_eq_true, beq_iff_eq, decide_eq_true_eq] at hc
      exact charOrEscape_hexEscapeText rfl (by omega) rest
    · next hc =>
      refine charOrEscape_pos ?_
      have hn : c ≠ '\n' := by
        rintro rfl
        exact hc rfl
      simp only [Bool.or_eq_true, beq_iff_eq, not_or] at hquote
      simp [isPlainIn, hquote, hn]

theorem quotedChar_stringCharText (c : Char) (rest : List Char) :
    quotedChar '"' (stringCharText c ++ rest) = (some c, rest) :=
  quotedChar_some (charOrEscape_stringCharText c rest)

/-! ## Strings -/

/-- **A string is read back up to where none can go on.** -/
theorem quoted_stringText {rest : List Char} (h : (quotedChar '"' rest).1 = none)
    (cs : List Char) :
    quoted '"' (stringText cs ++ rest) =
      ({ text := cs, closed := (nextIs '"' rest).1 }, (nextIs '"' rest).2) := by
  have hmany : (Item.quotedChar '"').many (stringText cs ++ rest) = (cs, rest) := by
    rw [stringText, Item.many_flatMap quotedChar_stringCharText, Item.many_nil h, List.append_nil]
  rw [quoted, bind_apply, hmany]
  rfl

/-- A string cannot go on at its quote or at a line break. -/
theorem quotedChar_end {quote c : Char} (hp : isPlainIn quote c = false) (hc : c ≠ '\\')
    (rest : List Char) : (quotedChar quote (c :: rest)).1 = none := by
  have hnone : (charOrEscape (isPlainIn quote) (c :: rest)).1 = none := by
    rw [charOrEscape_neg hp, escaped_of_ne hc]
  rw [quotedChar_none hnone, nextText_cons_ne hc]
  rfl

theorem quoted_closed (cs rest : List Char) :
    quoted '"' (stringText cs ++ '"' :: rest) = ({ text := cs, closed := true }, rest) := by
  rw [quoted_stringText (quotedChar_end rfl (by decide) rest), nextIs_pos]

theorem quoted_cutOff (cs rest : List Char) :
    quoted '"' (stringText cs ++ '\n' :: rest) =
      ({ text := cs, closed := false }, '\n' :: rest) := by
  rw [quoted_stringText (quotedChar_end rfl (by decide) rest), nextIs_neg (by decide)]

/-! ## Lexemes -/

theorem lexeme_string (cs rest : List Char) :
    lexeme ('"' :: (stringText cs ++ '"' :: rest)) =
      ({ kind := .quotedString, text := cs }, rest) := by
  show enclosed .quotedString .badString (quoted '"') (stringText cs ++ '"' :: rest) = _
  rw [enclosed, bind_apply, quoted_closed]
  rfl

/-- A line break cuts a string off and is the next lexeme. -/
theorem lexeme_badString (cs rest : List Char) :
    lexeme ('"' :: (stringText cs ++ '\n' :: rest)) =
      ({ kind := .badString, text := cs }, '\n' :: rest) := by
  show enclosed .quotedString .badString (quoted '"') (stringText cs ++ '\n' :: rest) = _
  rw [enclosed, bind_apply, quoted_cutOff]
  rfl

/-- A string between the marks of a URL. -/
theorem url_string (cs rest : List Char) :
    url ('"' :: (stringText cs ++ '"' :: ')' :: rest)) =
      ({ text := cs, closed := true }, rest) := by
  have hblank : takeWhile isBlank ('"' :: (stringText cs ++ '"' :: ')' :: rest)) =
      ([], '"' :: (stringText cs ++ '"' :: ')' :: rest)) := rfl
  have hquote : nextIf isQuote ('"' :: (stringText cs ++ '"' :: ')' :: rest)) =
      (some '"', stringText cs ++ '"' :: ')' :: rest) := nextIf_pos rfl
  rw [url, bind_apply, hblank, bind_apply, hquote]
  dsimp only
  rw [bind_apply, quoted_closed]
  rfl

theorem lexeme_url (cs rest : List Char) :
    lexeme (['u', 'r', 'l', '('] ++ '"' :: (stringText cs ++ '"' :: ')' :: rest)) =
      ({ kind := .url, text := cs }, rest) := by
  have hident : ident (['u', 'r', 'l', '('] ++ '"' :: (stringText cs ++ '"' :: ')' :: rest)) =
      (some ['u', 'r', 'l'], '(' :: '"' :: (stringText cs ++ '"' :: ')' :: rest)) :=
    @ident_identifierText ['u', 'r', 'l'] _ rfl (by decide)
  rw [lexeme_url_of_ident ⟨'u', rfl, .inl rfl⟩ hident (by decide), enclosed, bind_apply, url_string]
  rfl

end Split

/-! ## No control characters -/

theorem stringCharText_noControls (c : Char) : NoControls (stringCharText c) := by
  unfold stringCharText
  split
  · next hc =>
    refine .cons (by decide) (.cons ?_ .nil)
    simp only [Bool.or_eq_true, beq_iff_eq] at hc
    rcases hc with rfl | rfl <;> decide
  · split
    · exact hexEscapeText_noControls c
    · next hc =>
      simp only [Bool.or_eq_true, decide_eq_true_eq, not_or] at hc
      exact .cons (by omega) .nil

theorem stringText_noControls (cs : List Char) : NoControls (stringText cs) := by
  induction cs with
  | nil => exact .nil
  | cons c cs ih => exact (stringCharText_noControls c).append ih

/-! ## Tokens -/

namespace Tokenizer

open Split WriteM

section
variable (cs : List Char) (options : Options)

theorem readsAs_string :
    ReadsAs (String.ofList ('"' :: (stringText cs ++ ['"']))) options
      [{ kind := .quotedString, value := String.ofList cs }] := by
  have htext : NoControls ('"' :: (stringText cs ++ ['"'])) :=
    .cons (by decide) ((stringText_noControls cs).append (.cons (by decide) .nil))
  exact readsAs_of_lexeme (fun _ => htext.isNormal) (lexeme_string cs []) (by simp)
    (Bool.and_false _)

theorem readsAs_url :
    ReadsAs (String.ofList (['u', 'r', 'l', '('] ++ '"' :: (stringText cs ++ ['"', ')'])))
      options [{ kind := .url, value := String.ofList cs }] := by
  have hmark : NoControls ['u', 'r', 'l', '('] := by decide
  have htext : NoControls ('"' :: (stringText cs ++ ['"', ')'])) :=
    .cons (by decide) ((stringText_noControls cs).append (by decide))
  exact readsAs_of_lexeme (fun _ => (hmark.append htext).isNormal) (lexeme_url cs []) (by simp)
    (Bool.and_false _)

theorem readsAs_badString :
    ReadsAs (String.ofList ('"' :: (stringText cs ++ ['\n']))) options
      [{ kind := .badString, value := String.ofList cs },
        { kind := .whiteSpace, value := "\n" }] := by
  have hnormal : ∀ c ∈ '"' :: (stringText cs ++ ['\n']), CssTokens.isNormal c = true := by
    intro c hc
    rw [← List.cons_append] at hc
    rcases List.mem_append.mp hc with hc | hc
    · exact (NoControls.cons (by decide) (stringText_noControls cs)).isNormal hc
    · rw [List.mem_singleton.mp hc]
      rfl
  have hbreak : lexeme ['\n'] = ({ kind := .whiteSpace, text := ['\n'] }, []) := rfl
  refine readsAs_of_lexemes [{ kind := .badString, text := cs },
    { kind := .whiteSpace, text := ['\n'] }] hnormal ?_
  rw [lexemes_of_lexeme (lexeme_badString cs []) (by simp) (Bool.and_false _),
    lexemes_single hbreak (by simp) (Bool.and_false _)]
  rfl

end

/-- **Strings with any text are written so that they are read back**, in quotes, in how many pieces
soever, and in a URL; and a malformed string is cut off in the same place again. -/
theorem string_reads (pieces : List String) (value : String) (t : Token) (options : Options) :
    ReadsAs
        (written do
          char '"'
          pieces.forM fun piece => writeStringPiece piece.toList
          char '"')
        options [{ kind := .quotedString, value := String.join pieces }]
      ∧ ReadsAs (writeString value.toList).written options [{ kind := .quotedString, value }]
      ∧ ReadsAs ({ t with kind := .url, value } : Token).css options [{ kind := .url, value }]
      ∧ ReadsAs ({ t with kind := .badString, value } : Token).css options
        [{ kind := .badString, value }, { kind := .whiteSpace, value := "\n" }] := by
  have hpieces : (do
      char '"'
      pieces.forM fun piece => writeStringPiece piece.toList
      char '"') = writeString (String.join pieces).toList := by
    rw [writeString, writeStringPiece_eq, ← writeStringPieces_eq]
  have hstring : ∀ v : String, ReadsAs (writeString v.toList).written options
      [{ kind := .quotedString, value := v }] := by
    intro v
    have hreads := readsAs_string v.toList options
    rwa [String.ofList_toList, ← written_chars, ← writeString_eq] at hreads
  have hurl : ({ t with kind := .url, value } : Token).css =
      String.ofList (['u', 'r', 'l', '('] ++ '"' :: (stringText value.toList ++ ['"', ')'])) := by
    show (do chars ['u', 'r', 'l', '(']; writeString value.toList; char ')').written = _
    rw [writeString_eq, char_eq, ← chars_append, ← chars_append, written_chars]
    simp only [List.cons_append, List.append_assoc, List.nil_append]
  have hbad : ({ t with kind := .badString, value } : Token).css =
      String.ofList ('"' :: (stringText value.toList ++ ['\n'])) := by
    show (do char '"'; writeStringPiece value.toList; char '\n').written = _
    rw [writeStringPiece_eq, char_eq '\n', ← chars_append, ← chars_cons, written_chars]
  refine ⟨?_, hstring value, ?_, ?_⟩
  · rw [hpieces]
    exact hstring _
  · have hreads := readsAs_url value.toList options
    rwa [String.ofList_toList, ← hurl] at hreads
  · have hreads := readsAs_badString value.toList options
    rwa [String.ofList_toList, ← hbad] at hreads

end Tokenizer

end CssTokens
