import CssTokens.Proofs.Grammar.Enclosed
import CssTokens.Proofs.Grammar.Quoted
import CssTokens.Proofs.Split.Kind

/-!
# The grammar of URLs

A URL begins with its name and a parenthesis. The contents are a string where a quote comes first,
and otherwise a run of characters and escapes, which may be empty. Blanks may stand before and after
them. What is none of this cuts the URL off and is left.

Main statement: URLs are read by these rules and begin nowhere else (`Tokenizer.read_url`).
-/

namespace CssTokens

open Lexeme (isUrlName isUrlName_iff)

namespace Grammar

/-- The characters that stand for themselves in a URL without quotes: no blanks, no control
characters, no quotes, no parentheses and no backslash. -/
def GoesInUrl (c : Char) : Prop :=
  0x20 < c.toNat ∧ ¬(0x7F ≤ c.toNat ∧ c.toNat ≤ 0x9F)
    ∧ c ≠ '"' ∧ c ≠ '\'' ∧ c ≠ '(' ∧ c ≠ ')' ∧ c ≠ '\\'

theorem isUrlChar_iff {c : Char} : isUrlChar c = true ↔ GoesInUrl c := by
  have heq : ∀ d : Char, c = d ↔ c.toNat = d.toNat := fun d => Char.toNat_inj.symm
  simp only [isUrlChar, isNonAscii, GoesInUrl, Bool.or_eq_true, Bool.and_eq_true,
    decide_eq_true_eq, beq_iff_eq, ne_eq, heq]
  simp only [Char.reduceToNat]
  omega

/-- All the blanks at the front of a text, and what is left of it. -/
def Blanks (cs rest : List Char) : Prop :=
  ∃ blanks, cs = blanks ++ rest ∧ (∀ b ∈ blanks, isBlank b = true)
    ∧ ∀ c ∈ rest.head?, isBlank c = false

/-- What stands between the blanks of a URL. -/
inductive UrlContents : Rule (List Char)
  | quoted {quote : Char} {cs text rest : List Char} : isQuote quote = true →
    Run (StringItem quote) cs text (quote :: rest) → UrlContents (quote :: cs) text rest
  | unquoted {cs text rest : List Char} : (∀ c ∈ cs.head?, isQuote c = false) →
    Run (Spelled GoesInUrl) cs text rest → UrlContents cs text rest

/-- The contents of a URL, with the blanks before and after them. -/
def UrlBody : Rule (List Char) := fun cs text rest =>
  ∃ mid after, Blanks cs mid ∧ UrlContents mid text after ∧ Blanks after rest

/-- A URL up to its closing parenthesis. -/
def Url : Rule (List Char) := fun cs text rest =>
  UrlBody cs text (')' :: rest)

/-- A URL up to where it is cut off. -/
inductive CutOffUrl : Rule (List Char)
  /-- No parenthesis follows the contents. -/
  | body {cs text rest : List Char} : UrlBody cs text rest → rest.head? ≠ some ')' →
    CutOffUrl cs text rest
  /-- The contents are a string that is cut off. -/
  | string {quote : Char} {cs inner text rest : List Char} : isQuote quote = true →
    Blanks cs (quote :: inner) → Run (StringItem quote) inner text rest →
    rest.head? ≠ some quote → CutOffUrl cs text rest

/-- **A URL is cut off** by a character that can neither go on nor end it, by a line break in a
string, or by the end of the text. -/
theorem CutOffUrl.ends {cs text rest : List Char} (h : CutOffUrl cs text rest) :
    ∀ c ∈ rest.head?, c = '\n' ∨ isBlank c = false ∧ c ≠ ')' := by
  intro c hc
  cases h with
  | body hbody hne =>
    obtain ⟨mid, after, -, -, -, -, -, hblank⟩ := hbody
    refine .inr ⟨hblank c hc, ?_⟩
    rintro rfl
    exact hne hc
  | string _ _ hrun hne =>
    rcases of_not_begins_stringItem hrun.stops with hquote | rfl | hbreak | rfl
    · exact absurd hquote hne
    · cases hc
    · exact .inl (Option.some.inj (hc.symm.trans hbreak))
    · cases hc
      exact .inr (by decide)

/-- The name of a URL, which is the letters `url` in either case each, and a parenthesis. The first
letter is written as it is, the others may be escapes. -/
def UrlMark (cs rest : List Char) : Prop :=
  (∃ c ∈ cs.head?, c = 'u' ∨ c = 'U')
    ∧ ∃ u r l, Identifier cs [u, r, l] ('(' :: rest)
      ∧ (u = 'u' ∨ u = 'U') ∧ (r = 'r' ∨ r = 'R') ∧ (l = 'l' ∨ l = 'L')

end Grammar

open Grammar

namespace Split

variable {quote : Char} {cs mid inner after text rest : List Char}

/-! ## Blanks -/

theorem blanks_iff : Blanks cs rest ↔ cs.dropWhile isBlank = rest := by
  constructor
  · rintro ⟨blanks, rfl, hall, hend⟩
    rw [List.dropWhile_append_of_pos hall]
    cases rest with
    | nil => rfl
    | cons c rest => exact List.dropWhile_cons_of_neg (by simp [hend c rfl])
  · rintro rfl
    refine ⟨cs.takeWhile isBlank, List.takeWhile_append_dropWhile.symm, takeWhile_yields isBlank cs,
      fun c hc => ?_⟩
    have hnot := List.head?_dropWhile_not isBlank cs
    rwa [Option.mem_def.mp hc] at hnot

theorem takeWhile_of_blanks (h : Blanks cs rest) :
    takeWhile isBlank cs = (cs.takeWhile isBlank, rest) :=
  Prod.ext rfl (blanks_iff.mp h)

/-! ## URLs -/

theorem urlChars_iff :
    (Item.orEscape isUrlChar).many cs = (text, rest) ↔ Run (Spelled GoesInUrl) cs text rest :=
  Item.many_iff (charOrEscape_iff isUrlChar_iff (by simp [GoesInUrl]))

theorem urlEnd_of_blanks (h : Blanks after rest) (text : List Char) :
    urlEnd text after = ({ text, closed := (nextIs ')' rest).1 }, (nextIs ')' rest).2) := by
  rw [urlEnd, bind_apply, takeWhile_of_blanks h]
  rfl

/-- A URL with a quote at the front is read as a string. -/
theorem url_of_quote (hquote : isQuote quote = true) (h : Blanks cs (quote :: inner)) :
    url cs = (if (quoted quote inner).1.closed
      then urlEnd (quoted quote inner).1.text (quoted quote inner).2
      else quoted quote inner) := by
  rw [url, bind_apply, takeWhile_of_blanks h, bind_apply, nextIf_pos hquote]
  dsimp only
  rw [bind_apply]
  split <;> rfl

/-- Otherwise its characters are read one by one. -/
theorem url_of_not_quote (h : Blanks cs mid) (hquote : ∀ c ∈ mid.head?, isQuote c = false) :
    url cs = urlEnd ((Item.orEscape isUrlChar).many mid).1
      ((Item.orEscape isUrlChar).many mid).2 := by
  have hnone : nextIf isQuote mid = (none, mid) := by
    cases mid with
    | nil => rfl
    | cons c mid => exact nextIf_neg (hquote c rfl)
  rw [url, bind_apply, takeWhile_of_blanks h, bind_apply, hnone]
  rfl

/-- After the contents and the blanks there is a parenthesis or not. -/
theorem url_of_body (h : UrlBody cs text rest) :
    url cs = ({ text, closed := (nextIs ')' rest).1 }, (nextIs ')' rest).2) := by
  obtain ⟨mid, after, hbefore, hcontents, hafter⟩ := h
  cases hcontents with
  | quoted hquote hrun =>
    rw [url_of_quote hquote hbefore, quoted_of_run hrun, nextIs_pos, if_pos rfl,
      urlEnd_of_blanks hafter]
  | unquoted hquote hrun =>
    rw [url_of_not_quote hbefore hquote, urlChars_iff.mpr hrun, urlEnd_of_blanks hafter]

theorem url_of_url (h : Url cs text rest) : url cs = ({ text, closed := true }, rest) := by
  rw [url_of_body h, nextIs_pos]

theorem url_of_cutOff (h : CutOffUrl cs text rest) :
    url cs = ({ text, closed := false }, rest) := by
  cases h with
  | body hbody hne =>
    rw [url_of_body hbody, nextIs_of_ne hne]
  | string hquote hbefore hrun hne =>
    rw [url_of_quote hquote hbefore, quoted_of_run hrun, nextIs_of_ne hne,
      if_neg Bool.false_ne_true]

theorem begins_url_of_contents (hbefore : Blanks cs mid) (hcontents : UrlContents mid text after) :
    Begins Url cs ∨ Begins CutOffUrl cs := by
  have hbody : UrlBody cs text (after.dropWhile isBlank) :=
    ⟨mid, after, hbefore, hcontents, blanks_iff.mpr rfl⟩
  rcases nextIs_cases ')' (after.dropWhile isBlank) with ⟨rest, hrest, -⟩ | ⟨hne, -⟩
  · rw [hrest] at hbody
    exact .inl ⟨text, rest, hbody⟩
  · exact .inr ⟨text, _, .body hbody hne⟩

/-- **One of the rules applies to each text.** -/
theorem begins_url_or_cutOff (cs : List Char) : Begins Url cs ∨ Begins CutOffUrl cs := by
  have hbefore : Blanks cs (cs.dropWhile isBlank) := blanks_iff.mpr rfl
  generalize cs.dropWhile isBlank = mid at hbefore
  have hunquoted : (∀ c ∈ mid.head?, isQuote c = false) →
      UrlContents mid ((Item.orEscape isUrlChar).many mid).1
        ((Item.orEscape isUrlChar).many mid).2 :=
    fun hquote => .unquoted hquote (urlChars_iff.mp rfl)
  cases mid with
  | nil => exact begins_url_of_contents hbefore (hunquoted fun c hc => by cases hc)
  | cons quote inner =>
    cases hquote : isQuote quote with
    | false =>
      refine begins_url_of_contents hbefore (hunquoted ?_)
      rintro c ⟨⟩
      exact hquote
    | true =>
      obtain ⟨text, rest, hrun⟩ : ∃ text rest, Run (StringItem quote) inner text rest :=
        ⟨_, _, quotedChars_iff.mp rfl⟩
      rcases nextIs_cases quote rest with ⟨after, rfl, -⟩ | ⟨hne, -⟩
      · exact begins_url_of_contents hbefore (.quoted hquote hrun)
      · exact .inr ⟨text, rest, .string hquote hbefore hrun hne⟩

/-- **A URL that is closed is one by the rules.** -/
theorem url_closed_iff : url cs = ({ text, closed := true }, rest) ↔ Url cs text rest := by
  constructor
  · intro h
    rcases begins_url_or_cutOff cs with ⟨text', rest', hurl⟩ | ⟨text', rest', hcut⟩
    · rw [url_of_url hurl] at h
      cases h
      exact hurl
    · rw [url_of_cutOff hcut] at h
      cases h
  · exact url_of_url

/-- **A URL that is cut off is one that is cut off by the rules.** -/
theorem url_cutOff_iff : url cs = ({ text, closed := false }, rest) ↔ CutOffUrl cs text rest := by
  constructor
  · intro h
    rcases begins_url_or_cutOff cs with ⟨text', rest', hurl⟩ | ⟨text', rest', hcut⟩
    · rw [url_of_url hurl] at h
      cases h
    · rw [url_of_cutOff hcut] at h
      cases h
      exact hcut
  · exact url_of_cutOff

/-! ## Where a URL begins -/

theorem lexeme_of_urlMark (h : UrlMark cs rest) : lexeme cs = enclosed .url .badUrl url rest := by
  obtain ⟨hfirst, u, r, l, hident, hletters⟩ := h
  exact lexeme_url_of_ident hfirst (ident_iff.mpr hident)
    (isUrlName_iff.mpr ⟨u, r, l, rfl, hletters⟩)

theorem urlMark_of_lexeme (hk : (lexeme cs).1.kind = .url ∨ (lexeme cs).1.kind = .badUrl) :
    ∃ rest, UrlMark cs rest := by
  obtain ⟨hfirst, name, rest, hident, hname⟩ := lexeme_of_url hk
  obtain ⟨u, r, l, rfl, hletters⟩ := isUrlName_iff.mp hname
  exact ⟨rest, hfirst, u, r, l, ident_iff.mp hident, hletters⟩

end Split

/-! ## Reading a URL -/

namespace Tokenizer

theorem readsEnclosed_url {t : Tokenizer} {cs : List Char} (hs : t.scanner.Sound)
    (hmark : UrlMark t.remaining cs) : t.ReadsEnclosed .url .badUrl Url CutOffUrl cs :=
  readsEnclosed hs (by decide) (Split.lexeme_of_urlMark hmark) (fun _ _ => Split.url_closed_iff)
    fun _ _ => Split.url_cutOff_iff

/--
**A URL is read by the rules, and there is one only after its name.** If the contents are followed
by a parenthesis, the URL is closed. Otherwise it is cut off by the end of the text, by a line break
in a string, or by a character that is neither a blank nor the parenthesis, and this is left.
-/
theorem read_url {t : Tokenizer} (hs : t.scanner.Sound) :
    (∀ cs, UrlMark t.remaining cs → t.ReadsEnclosed .url .badUrl Url CutOffUrl cs
        ∧ ∀ text rest, CutOffUrl cs text rest →
          ∀ c ∈ rest.head?, c = '\n' ∨ isBlank c = false ∧ c ≠ ')')
      ∧ (∀ kind t', t.read = .ok kind t' → kind = .url ∨ kind = .badUrl →
        ∃ cs, UrlMark t.remaining cs)
      -- Comments may be left out before a URL that is delivered.
      ∧ ∀ kind t', t.pushedBack = false → t.next = .ok kind t' → kind = .url ∨ kind = .badUrl →
        ∃ later cs, later <:+ t.remaining ∧ UrlMark later cs := by
  refine ⟨fun cs hmark => ⟨readsEnclosed_url hs hmark, fun _ _ hcut => hcut.ends⟩, ?_, ?_⟩
  · intro kind t' h hk
    rw [← (read_of_sound hs h).1] at hk
    exact Split.urlMark_of_lexeme hk
  · intro kind t' hp h hk
    obtain ⟨later, hlater, heq⟩ := Split.delivered_eq t.options.skipComments t.remaining
    rw [← (next_of_sound hs hp h).1, heq] at hk
    obtain ⟨cs, hmark⟩ := Split.urlMark_of_lexeme hk
    exact ⟨later, cs, hlater, hmark⟩

/-- A letter of the name may be an escape, and an escaped parenthesis does not end the URL. -/
theorem read_url_escapes :
    ∃ t', (ofString "u\\72l(\ta\\29 )x").read = .ok .url t'
      ∧ t'.token.unplaced = { kind := .url, value := "a)" } ∧ t'.remaining = ['x'] := by
  have hs : (ofString "u\\72l(\ta\\29 )x").scanner.Sound := Scanner.sound_of_pushed_nil rfl
  have hremaining : (ofString "u\\72l(\ta\\29 )x").remaining =
      ['u', '\\', '7', '2', 'l', '(', '\t', 'a', '\\', '2', '9', ' ', ')', 'x'] := by
    decide +kernel
  have hmark : UrlMark (ofString "u\\72l(\ta\\29 )x").remaining
      ['\t', 'a', '\\', '2', '9', ' ', ')', 'x'] := by
    rw [hremaining]
    exact ⟨⟨'u', rfl, .inl rfl⟩, 'u', 'r', 'l', Split.ident_iff.mp (by decide +kernel), by decide⟩
  have hurl : Url ['\t', 'a', '\\', '2', '9', ' ', ')', 'x'] ['a', ')'] ['x'] :=
    Split.url_closed_iff.mp (by decide +kernel)
  obtain ⟨hreads, -⟩ := (read_url hs).1 _ hmark
  obtain ⟨kind, t', h⟩ := hreads.returns (Source.infallible_ofString _)
  obtain rfl := (hreads.closed_iff h).mpr ⟨_, _, hurl⟩
  exact ⟨t', h, hreads.closed h _ _ hurl⟩

end Tokenizer

end CssTokens
