import CssTokens.Proofs.Roundtrip.Identifier
import CssTokens.Proofs.Run.WellFormed
import CssTokens.Proofs.Split.Kind

/-!
# Functions read back

A function is written as its name and an opening parenthesis. That is read back as a function unless
the name is `url`, in any case. Such a function comes from a name whose first letter is an escape,
but a name is written without the escapes that it does not need, and then a URL begins there.

Main statement: a function that has been read is read back from its text if it is not named `url`,
and otherwise what is read is a URL that is cut off (`function_reads`).
-/

namespace CssTokens

open Lexeme (isUrlName isUrlName_iff)

namespace Split

section
variable {cs : List Char} (hne : cs ≠ []) (rest : List Char)
include hne

/-- A parenthesis ends a name. -/
theorem ident_identifierText_paren :
    ident (identifierText cs ++ '(' :: rest) = (some cs, '(' :: rest) := by
  refine ident_identifierText ?_ hne
  rw [charOrEscape_neg (by decide), escaped_of_ne (by decide)]

theorem lexeme_function (hu : isUrlName cs = false) :
    lexeme (identifierText cs ++ '(' :: rest) = ({ kind := .function, text := cs }, rest) := by
  obtain ⟨allowUrl, h⟩ := lexeme_identifierText_eq hne ('(' :: rest)
  rw [h]
  refine firstOf_some ?_
  rw [identLike, bind_apply, ident_identifierText_paren hne]
  dsimp only
  rw [bind_apply, nextIs_pos, if_pos rfl, hu, Bool.and_false]
  rfl

end

/-- Where the text ends there is nothing of a URL. -/
theorem url_nil : url [] = ({ text := [], closed := false }, []) := by
  have hmany : (Item.orEscape isUrlChar).many [] = ([], []) := Item.many_nil rfl
  show (do urlEnd (← (Item.orEscape isUrlChar).many) : Split Enclosed) [] = _
  rw [bind_apply, hmany]
  rfl

/-- After the name of a URL and a parenthesis there is a URL. -/
theorem lexeme_urlName {cs : List Char} (hu : isUrlName cs = true) (rest : List Char) :
    lexeme (identifierText cs ++ '(' :: rest) = enclosed .url .badUrl url rest := by
  obtain ⟨c, r, l, rfl, hc, -⟩ := isUrlName_iff.mp hu
  refine lexeme_url_of_ident ?_ (ident_identifierText_paren (List.cons_ne_nil c [r, l]) rest) hu
  -- The first letter stands for itself, so that a URL may begin.
  rcases hc with rfl | rfl
  · exact ⟨'u', rfl, .inl rfl⟩
  · exact ⟨'U', rfl, .inr rfl⟩

end Split

/-! ## Tokens -/

namespace Tokenizer

open Split WriteM

/-- A name and an opening parenthesis. -/
theorem noControls_function (cs : List Char) : NoControls (identifierText cs ++ ['(']) :=
  (identifierText_noControls cs).append (.cons (by decide) .nil)

theorem readsAs_function {cs : List Char} (hne : cs ≠ []) (hu : isUrlName cs = false)
    (options : Options) :
    ReadsAs (String.ofList (identifierText cs ++ ['('])) options
      [{ kind := .function, value := String.ofList cs }] :=
  readsAs_of_lexeme (fun _ => (noControls_function cs).isNormal) (lexeme_function hne [] hu)
    (by simp) (Bool.and_false _)

/-- Nothing is left for the URL. -/
theorem readsAs_urlName {cs : List Char} (hu : isUrlName cs = true) (options : Options) :
    ReadsAs (String.ofList (identifierText cs ++ ['('])) options [{ kind := .badUrl }] := by
  have hlexeme : lexeme (identifierText cs ++ ['(']) = ({ kind := .badUrl, text := [] }, []) := by
    rw [lexeme_urlName hu [], enclosed, bind_apply, url_nil]
    rfl
  exact readsAs_of_lexeme (fun _ => (noControls_function cs).isNormal) hlexeme (by simp)
    (Bool.and_false _)

/-- The text of a function. -/
theorem css_function (t : Token) (value : String) :
    ({ t with kind := .function, value } : Token).css =
      String.ofList (identifierText value.toList ++ ['(']) := by
  show (do writeIdentifier value.toList; char '(').written = _
  rw [writeIdentifier_eq, char_eq, ← chars_append, written_chars]

/-- **A function that has been read is read back from its text, unless it is named `url`.** Then
what is read is a URL that is cut off. -/
theorem function_reads {source : Source} {options : Options} {t t' : Tokenizer}
    (h : Reachable source options t) (hp : t.pushedBack = false)
    (hn : t.next = .ok .function t') (options' : Options) :
    t'.token.unplaced = { kind := .function, value := t'.token.value } ∧ t'.token.value ≠ ""
      ∧ (isUrlName t'.token.value.toList = false →
        ReadsAs t'.token.css options' [t'.token.unplaced])
      ∧ (isUrlName t'.token.value.toList = true →
        ReadsAs t'.token.css options' [{ kind := .badUrl }]) := by
  obtain ⟨hkind, hwell⟩ := h.token_wellFormed hp hn
  have hvalue : t'.token.value ≠ "" := hwell.named (by simp [hkind])
  have hne : t'.token.value.toList ≠ [] := fun hnil => hvalue (String.toList_eq_nil_iff.mp hnil)
  -- A function has no part but its name.
  have hunplaced : t'.token.unplaced = { kind := .function, value := t'.token.value } := by
    rw [hwell.unplaced_eq (by simp [hkind]), hkind]
  have hcss : t'.token.css = String.ofList (identifierText t'.token.value.toList ++ ['(']) := by
    rw [← css_function t'.token, ← hkind]
  refine ⟨hunplaced, hvalue, fun hu => ?_, fun hu => ?_⟩
  · rw [hcss, hunplaced]
    have hreads := readsAs_function hne hu options'
    rwa [String.ofList_toList] at hreads
  · rw [hcss]
    exact readsAs_urlName hu options'

/-- A name that begins with a digit and holds a parenthesis is written with escapes. -/
theorem function_reads_escaped :
    ∃ t', (ofString "\\31 a\\28(").next = .ok .function t' ∧ t'.token.css = "\\31 a\\(("
      ∧ ReadsAs "\\31 a\\((" {} [{ kind := .function, value := "1a(" }] := by
  have hr : (resultOf (ofString "\\31 a\\28(").next).toOption.map
      (fun r => (r.1, r.2.value, r.2.css)) = some (.function, "1a(", "\\31 a\\((") := by
    decide +kernel
  obtain ⟨kind, t', hn, heq⟩ := exists_next hr
  obtain ⟨rfl, hparts⟩ := Prod.mk.inj heq
  obtain ⟨hvalue, hcss⟩ := Prod.mk.inj hparts
  obtain ⟨hunplaced, -, hreads, -⟩ := function_reads .start rfl hn {}
  rw [hunplaced, hvalue, hcss] at hreads
  exact ⟨t', hn, hcss, hreads (by decide)⟩

/-- The escape of the first letter makes this a function. Without the escape it is the beginning of
a URL. -/
theorem css_function_url :
    (ofString "\\75rl(").tokensToEnd.1.map (fun token => (token.kind, token.value, token.css)) =
        [(.function, "url", "url("), (.eof, "", "")]
      ∧ ReadsAs "url(" {} [{ kind := .badUrl }] := by
  constructor
  · decide +kernel
  · exact readsAs_urlName (by decide : isUrlName ['u', 'r', 'l'] = true) {}

end Tokenizer

end CssTokens
