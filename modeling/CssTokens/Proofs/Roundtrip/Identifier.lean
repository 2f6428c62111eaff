import CssTokens.Proofs.Roundtrip.Name
import CssTokens.Proofs.Run.Determinism
import CssTokens.Serialize.Token

/-!
# Identifiers, keywords and hashes read back

Where an identifier begins, no other lexeme can begin: not a number, even after a hyphen, and not
the mark `-->`. So what is written for an identifier is read as an identifier, and with an `@` or a
`#` before it as a keyword or a hash.

Main statement: `identifier_reads`.
-/

namespace CssTokens

namespace Split

/-- The characters that are marks. -/
def marks : List Char :=
  [' ', '\t', '\n', '~', '^', '$', '*', '|', '@', '#', '"', '\'', '/', '<']

theorem marked_of_not_mem {c : Char} (h : c ∉ marks) : marked c = none := by
  simp only [marks, List.mem_cons, not_or] at h
  simp [marked, isBlank, Lexeme.isPairStart, isQuote, h]

/-- A character of a class without marks is none. -/
theorem marked_of_all {p : Char → Bool} (hmarks : marks.all p = true) {c : Char}
    (h : p c = false) : marked c = none := by
  refine marked_of_not_mem fun hc => ?_
  rw [List.all_eq_true.mp hmarks c hc] at h
  cases h

/-- The mark `-->` has two hyphens. -/
theorem cdc_hyphen {d : Char} (h : d ≠ '-') (ds : List Char) :
    cdc ('-' :: d :: ds) = (none, '-' :: d :: ds) := by
  refine cdc_keeps ?_
  rw [cdc, bind_apply, nextText_cons_self, nextText_cons_ne h]
  rfl

/-! ## Where an identifier begins -/

section
variable {d : Char} (h : isNameStart d = true ∨ d = '\\')
include h

theorem isDigit_of_nameStart : d.isDigit = false := by
  rcases h with h | rfl
  · exact isDigit_of_isNameStart h
  · decide

/-- No mark begins an identifier. -/
theorem marked_of_nameStart : marked d = none := by
  refine marked_of_all (p := fun c => !isNameStart c && c != '\\') (by decide) ?_
  rcases h with h | rfl
  · rw [h]
    rfl
  · rfl

theorem productions_of_nameStart :
    productions d = [identLike (d = 'u' || d = 'U')] := by
  have hhyphen : d ≠ '-' := ne_of_nameStart h rfl (by decide)
  have hpoint : d ≠ '.' := ne_of_nameStart h rfl (by decide)
  have hplus : d ≠ '+' := ne_of_nameStart h rfl (by decide)
  simp [productions, isDigit_of_nameStart h, hhyphen, hpoint, hplus]

/-- After a hyphen there is neither `-->` nor a number. -/
theorem firstOf_hyphen (ds : List Char) :
    firstOf (productions '-') ('-' :: d :: ds) = firstOf [identLike false] ('-' :: d :: ds) := by
  have hhyphen : d ≠ '-' := ne_of_nameStart h rfl (by decide)
  have hpoint : d ≠ '.' := ne_of_nameStart h rfl (by decide)
  -- A number would need a second character that does not start a name.
  have hnumeral : (numeral ('-' :: d :: ds)).1 = none := by
    rw [← Option.not_isSome_iff_eq_none, numeral_isSome, nextIf_pos rfl]
    unfold startsFraction
    split
    · next heq => exact absurd (List.cons.inj heq).1 hpoint
    · rw [startsDigits, isDigit_of_nameStart h]
      decide
  have hnumber : (numberLike ('-' :: d :: ds)).1 = none := by
    rw [numberLike, bind_apply, hnumeral]
    rfl
  show firstOf [cdc, numberLike, identLike false] _ = _
  rw [firstOf_none (cdc_hyphen hhyphen ds), firstOf_none (numberLike_keeps hnumber)]

end

/-- Where an identifier begins, one of the productions for identifiers is tried. -/
theorem lexeme_identifierText_eq {cs : List Char} (hne : cs ≠ []) (rest : List Char) :
    ∃ allowUrl, lexeme (identifierText cs ++ rest) =
      firstOf [identLike allowUrl] (identifierText cs ++ rest) := by
  obtain ⟨c, cs, rfl⟩ := List.exists_cons_of_ne_nil hne
  by_cases hc : c = '-'
  · -- A hyphen alone is written as an escape, and any other stands for itself.
    refine ⟨false, ?_⟩
    subst hc
    cases cs with
    | nil =>
      show lexeme ('\\' :: '-' :: rest) = _
      rw [lexeme_unmarked (marked_of_nameStart (.inr rfl)), productions_of_nameStart (.inr rfl)]
      rfl
    | cons c cs =>
      obtain ⟨d, ds, hds, hd⟩ := nameStartText_cons c
      have htext : identifierText ('-' :: c :: cs) ++ rest =
          '-' :: d :: (ds ++ nameText cs ++ rest) := by
        show '-' :: (nameStartText c ++ nameText cs ++ rest) = _
        rw [hds]
        rfl
      rw [htext, lexeme_unmarked rfl, firstOf_hyphen hd]
  · obtain ⟨d, ds, hds, hd⟩ := nameStartText_cons c
    refine ⟨d = 'u' || d = 'U', ?_⟩
    rw [identifierText_of_ne hc, hds, List.cons_append, List.cons_append,
      lexeme_unmarked (marked_of_nameStart hd), productions_of_nameStart hd]

section
variable {cs rest : List Char} (hrest : (charOrEscape isNameChar rest).1 = none) (hne : cs ≠ [])
include hrest hne

/-- **An identifier is read back up to where no name can go on**, unless a parenthesis opens. -/
theorem lexeme_identifierText (hparen : nextIs '(' rest = (false, rest)) :
    lexeme (identifierText cs ++ rest) = ({ kind := .ident, text := cs }, rest) := by
  obtain ⟨allowUrl, h⟩ := lexeme_identifierText_eq hne rest
  rw [h]
  refine firstOf_some ?_
  rw [identLike, bind_apply, ident_identifierText hrest hne]
  dsimp only
  rw [bind_apply, hparen]
  rfl

theorem lexeme_atKeyword :
    lexeme ('@' :: (identifierText cs ++ rest)) = ({ kind := .atKeyword, text := cs }, rest) := by
  show namedOrDelim '@' .atKeyword ident (identifierText cs ++ rest) = _
  rw [namedOrDelim, bind_apply, ident_identifierText hrest hne]
  rfl

theorem lexeme_hash :
    lexeme ('#' :: (nameText cs ++ rest)) = ({ kind := .hash, text := cs }, rest) := by
  show namedOrDelim '#' .hash name (nameText cs ++ rest) = _
  rw [namedOrDelim, bind_apply, name_nameText hrest hne]
  rfl

end

end Split

/-! ## Tokens -/

namespace Tokenizer

open Split WriteM

section
variable {cs : List Char} (h : cs ≠ []) (options : Options)
include h

theorem readsAs_identifierText :
    ReadsAs (String.ofList (identifierText cs)) options
      [{ kind := .ident, value := String.ofList cs }] := by
  have hend : (charOrEscape isNameChar []).1 = none := rfl
  have hlexeme := lexeme_identifierText hend h rfl
  rw [List.append_nil] at hlexeme
  exact readsAs_of_lexeme (fun _ => (identifierText_noControls cs).isNormal) hlexeme (by simp)
    (Bool.and_false _)

theorem readsAs_atKeyword :
    ReadsAs (String.ofList ('@' :: identifierText cs)) options
      [{ kind := .atKeyword, value := String.ofList cs }] := by
  have hend : (charOrEscape isNameChar []).1 = none := rfl
  have hlexeme := lexeme_atKeyword hend h
  have htext : NoControls ('@' :: identifierText cs) :=
    .cons (by decide) (identifierText_noControls cs)
  rw [List.append_nil] at hlexeme
  exact readsAs_of_lexeme (fun _ => htext.isNormal) hlexeme (by simp) (Bool.and_false _)

theorem readsAs_hash :
    ReadsAs (String.ofList ('#' :: nameText cs)) options
      [{ kind := .hash, value := String.ofList cs }] := by
  have hend : (charOrEscape isNameChar []).1 = none := rfl
  have hlexeme := lexeme_hash hend h
  have htext : NoControls ('#' :: nameText cs) := .cons (by decide) (nameText_noControls cs)
  rw [List.append_nil] at hlexeme
  exact readsAs_of_lexeme (fun _ => htext.isNormal) hlexeme (by simp) (Bool.and_false _)

end

/-- **Identifiers, keywords and hashes with any text are written so that they are read back.** -/
theorem identifier_reads {value : String} (h : value ≠ "") (t : Token) (options : Options) :
    ReadsAs (writeIdentifier value.toList).written options [{ kind := .ident, value }]
      ∧ ReadsAs ({ t with kind := .atKeyword, value } : Token).css options
        [{ kind := .atKeyword, value }]
      ∧ ReadsAs ({ t with kind := .hash, value } : Token).css options
        [{ kind := .hash, value }] := by
  have hne : value.toList ≠ [] := fun hnil => h (String.toList_eq_nil_iff.mp hnil)
  have hident : (writeIdentifier value.toList).written =
      String.ofList (identifierText value.toList) := by
    rw [writeIdentifier_eq, written_chars]
  have hkeyword : ({ t with kind := .atKeyword, value } : Token).css =
      String.ofList ('@' :: identifierText value.toList) := by
    show (do char '@'; writeIdentifier value.toList).written = _
    rw [writeIdentifier_eq, ← chars_cons, written_chars]
  have hhash : ({ t with kind := .hash, value } : Token).css =
      String.ofList ('#' :: nameText value.toList) := by
    show (do char '#'; writeName value.toList).written = _
    rw [writeName_eq, ← chars_cons, written_chars]
  refine ⟨?_, ?_, ?_⟩
  · have hreads := readsAs_identifierText hne options
    rwa [String.ofList_toList, ← hident] at hreads
  · have hreads := readsAs_atKeyword hne options
    rwa [String.ofList_toList, ← hkeyword] at hreads
  · have hreads := readsAs_hash hne options
    rwa [String.ofList_toList, ← hhash] at hreads

/-- A digit after the hyphen, a CR and a NUL are escaped by their code points. -/
theorem identifier_reads_controls :
    (writeIdentifier "-9\r\x00".toList).written = "-\\39 \\d \\0 "
      ∧ ReadsAs "-\\39 \\d \\0 " {} [{ kind := .ident, value := "-9\r\x00" }] := by
  have hwritten : (writeIdentifier "-9\r\x00".toList).written = "-\\39 \\d \\0 " := by decide
  have hreads := (identifier_reads (by decide : "-9\r\x00" ≠ "") { kind := .eof } {}).1
  rw [hwritten] at hreads
  exact ⟨hwritten, hreads⟩

end Tokenizer

end CssTokens
