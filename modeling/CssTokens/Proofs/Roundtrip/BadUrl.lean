import CssTokens.Proofs.Grammar.Name
import CssTokens.Proofs.Roundtrip.Function
import CssTokens.Proofs.Text.Prefix

/-!
# Malformed URLs read back

A malformed URL is written as its text after the mark of a URL, and a blank takes the place of the
closing parenthesis. The text is what was read, quotes and escapes taken away, and it is written as
it is. So it is read back if it may stand in a URL without quotes and escapes. Otherwise a URL
begins there, too, but it may be a well-formed one, and its text is never the same: if a character
is not taken for itself, then less is made of the text than there is in it.

Main statement: a malformed URL that has been read is read back from its text if and only if all
characters of the text may stand in a URL (`badUrl_reads`).
-/

namespace CssTokens

open Lexeme (isUrlName)

namespace Split

/-! ## Fewer characters than there were -/

/-- Each item costs a character at least. -/
theorem Item.many_length {α : Type} (item : Item α) (cs : List Char) :
    (item.many cs).1.length + (item.many cs).2.length ≤ cs.length := by
  fun_induction Item.many item cs with
  | case1 cs a rest h ih =>
    have hshorter := item.shorter h
    simp only [List.length_cons]
    omega
  | case2 cs rest h =>
    rw [item.keeps (congrArg Prod.fst h)] at h
    rw [← (Prod.mk.inj h).2]
    simp

/-- An escape costs its backslash and another character at least. -/
theorem escaped_length {cs rest : List Char} {d : Char}
    (h : escaped ('\\' :: cs) = (some d, rest)) : rest.length < cs.length := by
  cases he : escape cs with
  | mk e more =>
    cases e with
    | none =>
      rw [escaped_none (congrArg Prod.fst he)] at h
      cases h
    | some e =>
      rw [escaped_some he] at h
      obtain ⟨-, rfl⟩ := Prod.mk.inj h
      exact (escape_iff.mp he).shorter

theorem charOrEscape_length {p : Char → Bool} {c d : Char} {cs rest : List Char} (hc : p c = false)
    (h : charOrEscape p (c :: cs) = (some d, rest)) : c = '\\' ∧ rest.length < cs.length := by
  rw [charOrEscape_neg hc] at h
  by_cases hslash : c = '\\'
  · subst hslash
    exact ⟨rfl, escaped_length h⟩
  · rw [escaped_of_ne hslash] at h
    cases h

/-! ## Without quotes -/

/-- A blank at the end of a text does not belong to a URL, unless it is part of an escape. -/
theorem urlChars_length (cs : List Char) :
    ((Item.orEscape isUrlChar).many (cs ++ [' '])).1.length ≤ cs.length := by
  generalize htext : cs ++ [' '] = text
  fun_induction Item.many (Item.orEscape isUrlChar) text generalizing cs with
  | case1 text a rest h ih =>
    subst htext
    have hshorter := (Item.orEscape isUrlChar).shorter h
    have hsuffix : rest <:+ cs ++ [' '] := by
      have hs := (charOrEscape_local isUrlChar).suffix (cs ++ [' '])
      rwa [show charOrEscape isUrlChar (cs ++ [' ']) = _ from h] at hs
    rw [List.length_append, List.length_singleton] at hshorter
    rcases List.suffix_concat_iff.mp hsuffix with rfl | ⟨ds, rfl, -⟩
    · cases cs with
      | nil => cases h
      | cons c cs =>
        have hnil : (Item.orEscape isUrlChar).many [] = ([], []) := Item.many_nil rfl
        simp [hnil]
    · have hrest := ih ds rfl
      rw [List.length_append, List.length_singleton] at hshorter
      simp only [List.length_cons]
      omega
  | case2 text rest h => exact Nat.zero_le _

/-- Characters that may stand in a URL are read as they are. -/
theorem urlChars_of_all {cs : List Char} (h : ∀ c ∈ cs, isUrlChar c = true) :
    (Item.orEscape isUrlChar).many (cs ++ [' ']) = (cs, [' ']) := by
  induction cs with
  | nil => exact Item.many_nil rfl
  | cons c cs ih =>
    rw [List.forall_mem_cons] at h
    have hc : (Item.orEscape isUrlChar).split (c :: (cs ++ [' '])) = (some c, cs ++ [' ']) :=
      charOrEscape_pos h.1
    rw [List.cons_append, Item.many_cons hc, ih h.2]

/-- Behind an escape fewer characters are read than stand there. Only the blank at the end may be
escaped without that. -/
theorem urlChars_escape_length {c d : Char} {cs rest : List Char} (hc : isUrlChar c = false)
    (h : charOrEscape isUrlChar (c :: (cs ++ [' '])) = (some d, rest)) :
    c = '\\' ∧ (d = ' ' ∨ ((Item.orEscape isUrlChar).many rest).1.length < cs.length) := by
  obtain ⟨rfl, hlength⟩ := charOrEscape_length hc h
  refine ⟨rfl, ?_⟩
  have hsuffix : rest <:+ ('\\' :: cs) ++ [' '] := by
    have hs := (charOrEscape_local isUrlChar).suffix ('\\' :: (cs ++ [' ']))
    rwa [h] at hs
  rw [List.length_append, List.length_singleton] at hlength
  rcases List.suffix_concat_iff.mp hsuffix with rfl | ⟨ds, rfl, -⟩
  · cases cs with
    | nil =>
      cases h
      exact .inl rfl
    | cons c cs =>
      right
      rw [Item.many_nil rfl]
      exact Nat.succ_pos _
  · have hds := urlChars_length ds
    rw [List.length_append, List.length_singleton] at hlength
    right
    omega

/-- **What is read as it is written may stand in a URL.** -/
theorem all_of_urlChars {cs : List Char}
    (h : ((Item.orEscape isUrlChar).many (normalize cs ++ [' '])).1 = cs) :
    ∀ c ∈ cs, isUrlChar c = true := by
  induction cs with
  | nil => exact fun c hc => absurd hc List.not_mem_nil
  | cons c cs ih =>
    rw [normalize_cons, List.cons_append] at h
    generalize hrest : normalize (if c == '\r' then dropLf cs else cs) = rest at h
    have hlength : rest.length ≤ cs.length := by
      rw [← hrest]
      refine Nat.le_trans (normalize_length_le _) ?_
      split
      · exact dropLf_length_le cs
      · exact Nat.le_refl _
    cases hsplit : charOrEscape isUrlChar (normalizeChar c :: (rest ++ [' '])) with
    | mk d left =>
      cases d with
      | none =>
        rw [Item.many_nil (congrArg Prod.fst hsplit)] at h
        cases h
      | some d =>
        rw [@Item.many_cons _ (Item.orEscape isUrlChar) _ left d hsplit] at h
        obtain ⟨rfl, hmany⟩ := List.cons.inj h
        by_cases hurl : isUrlChar (normalizeChar d) = true
        · -- The character is read as it is, so it has not been changed.
          rw [charOrEscape_pos hurl] at hsplit
          obtain ⟨hd, rfl⟩ := Prod.mk.inj hsplit
          rw [Option.some.inj hd] at hurl
          have hcr : (d == '\r') = false := by
            rw [beq_eq_false_iff_ne]
            rintro rfl
            cases hurl
          rw [hcr, if_neg (by decide)] at hrest
          rw [← hrest] at hmany
          exact List.forall_mem_cons.mpr ⟨hurl, ih hmany⟩
        · -- An escape leaves too little for the other characters.
          exfalso
          obtain ⟨hslash, rfl | hcount⟩ := urlChars_escape_length (by simpa using hurl) hsplit
          · cases hslash
          · rw [hmany] at hcount
            omega

/-! ## With quotes -/

/-- A quote in a string is escaped. -/
theorem quotedChar_quote_length {quote : Char} {cs rest : List Char} (hq : quote ≠ '\n')
    (h : quotedChar quote cs = (some quote, rest)) : rest.length + 2 ≤ cs.length := by
  cases cs with
  | nil => cases h
  | cons c cs =>
    cases hc : charOrEscape (isPlainIn quote) (c :: cs) with
    | mk d left =>
      cases d with
      | some d =>
        rw [quotedChar_some hc] at h
        obtain ⟨hd, rfl⟩ := Prod.mk.inj h
        cases hplain : isPlainIn quote c with
        | true =>
          rw [charOrEscape_pos hplain] at hc
          have hquote : c = quote := Option.some.inj ((Prod.mk.inj hc).1.trans hd)
          rw [hquote, isPlainIn, bne_self_eq_false] at hplain
          cases hplain
        | false =>
          obtain ⟨-, hlength⟩ := charOrEscape_length hplain hc
          rw [List.length_cons]
          omega
      | none =>
        rw [quotedChar_none (congrArg Prod.fst hc)] at h
        split at h
        · exact absurd (Option.some.inj (Prod.mk.inj h).1).symm hq
        · cases h

/-! ## URLs -/

/-- The text of a URL, after the blanks before it. -/
theorem url_text (cs : List Char) : (url cs).1.text =
    match nextIf isQuote (cs.dropWhile isBlank) with
    | (some quote, rest) => ((Item.quotedChar quote).many rest).1
    | (none, rest) => ((Item.orEscape isUrlChar).many rest).1 := by
  rw [url, bind_apply, bind_apply]
  show _ = match nextIf isQuote (takeWhile isBlank cs).2 with
    | (some quote, rest) => ((Item.quotedChar quote).many rest).1
    | (none, rest) => ((Item.orEscape isUrlChar).many rest).1
  cases hq : nextIf isQuote (takeWhile isBlank cs).2 with
  | mk quote rest =>
    cases quote with
    | none => rfl
    | some quote =>
      dsimp only
      rw [bind_apply]
      split <;> rfl

/-- A quote is a quote before it is normalized. -/
theorem eq_of_isQuote_normalizeChar {c : Char} (h : isQuote (normalizeChar c) = true) :
    normalizeChar c = c := by
  unfold normalizeChar at h ⊢
  split
  · next hbreak =>
    rw [if_pos hbreak] at h
    cases h
  · next hbreak =>
    rw [if_neg hbreak] at h
    split
    · next hnul =>
      rw [if_pos hnul] at h
      cases h
    · rfl

/-- A string that begins with its quote is read from more characters than it has. -/
theorem quotedChars_length {quote : Char} (hq : isQuote quote = true) {cs ds : List Char}
    (h : ((Item.quotedChar quote).many cs).1 = quote :: ds) : ds.length + 2 ≤ cs.length := by
  have hne : quote ≠ '\n' := by
    rintro rfl
    cases hq
  cases hsplit : quotedChar quote cs with
  | mk d rest =>
    cases d with
    | none =>
      rw [Item.many_nil (congrArg Prod.fst hsplit)] at h
      cases h
    | some d =>
      rw [@Item.many_cons _ (Item.quotedChar quote) _ rest d hsplit] at h
      obtain ⟨rfl, hmany⟩ := List.cons.inj h
      have hlength := quotedChar_quote_length hne hsplit
      have hrest := (Item.quotedChar d).many_length rest
      rw [hmany] at hrest
      omega

/-- An end of the text that is as long as what was written is all of it. -/
theorem normalize_eq_of_suffix {cs ds : List Char} (h : ds <:+ normalize cs)
    (hle : cs.length ≤ ds.length) : normalize cs = ds := by
  have hlength := h.length_le
  have hnormalize := normalize_length_le cs
  exact (h.eq_of_length (by omega)).symm

/-- **What is read in quotes is not as it is written**: the quotes are missing. -/
theorem quotedChars_ne {quote : Char} (hq : isQuote quote = true) {cs ds : List Char}
    (hsuffix : quote :: ds <:+ normalize cs) :
    ((Item.quotedChar quote).many (ds ++ [' '])).1 ≠ cs := by
  intro h
  have hlength := (Item.quotedChar quote).many_length (ds ++ [' '])
  rw [h, List.length_append, List.length_singleton] at hlength
  have hcs := normalize_eq_of_suffix hsuffix (by rw [List.length_cons]; omega)
  cases cs with
  | nil => cases hcs
  | cons c cs =>
    have hnormalize := normalize_length_le (c :: cs)
    rw [hcs, List.length_cons, List.length_cons] at hnormalize
    rw [normalize_cons] at hcs
    obtain ⟨rfl, -⟩ := List.cons.inj hcs
    rw [eq_of_isQuote_normalizeChar hq] at h hq
    have hquoted := quotedChars_length hq h
    rw [List.length_append, List.length_singleton] at hquoted
    omega

/-- **A URL whose text is read as it is written has no need of quotes and escapes.** -/
theorem all_of_url {cs : List Char} (h : (url (normalize cs ++ [' '])).1.text = cs) :
    ∀ c ∈ cs, isUrlChar c = true := by
  rw [url_text] at h
  have hsuffix : (normalize cs ++ [' ']).dropWhile isBlank <:+ normalize cs ++ [' '] :=
    List.dropWhile_suffix _
  rcases List.suffix_concat_iff.mp hsuffix with hds | ⟨ds, hds, hsuffix⟩
  · -- There are only blanks.
    rw [hds] at h
    have hcs : cs = [] := h.symm.trans (congrArg Prod.fst (Item.many_nil rfl))
    simp [hcs]
  rw [hds] at h
  cases ds with
  | nil =>
    have hcs : cs = [] := h.symm.trans (congrArg Prod.fst (Item.many_nil rfl))
    simp [hcs]
  | cons d ds =>
    rw [List.cons_append] at h
    cases hd : isQuote d with
    | true =>
      rw [nextIf_pos hd] at h
      exact absurd h (quotedChars_ne hd hsuffix)
    | false =>
      rw [nextIf_neg hd] at h
      dsimp only at h
      rw [← List.cons_append] at h
      -- The text is as long as what is left after the blanks, so there are no blanks.
      have hlength := urlChars_length (d :: ds)
      rw [h] at hlength
      rw [← normalize_eq_of_suffix hsuffix hlength] at h
      exact all_of_urlChars h

theorem not_blank_of_isUrlChar {c : Char} (h : isUrlChar c = true) :
    isBlank c = false ∧ isQuote c = false := by
  constructor
  · refine Bool.eq_false_iff.mpr fun hblank => ?_
    simp only [isBlank, Bool.or_eq_true, beq_iff_eq] at hblank
    rcases hblank with (rfl | rfl) | rfl <;> cases h
  · refine Bool.eq_false_iff.mpr fun hquote => ?_
    simp only [isQuote, Bool.or_eq_true, beq_iff_eq] at hquote
    rcases hquote with rfl | rfl <;> cases h

theorem isNormal_of_isUrlChar {c : Char} (h : isUrlChar c = true) : isNormal c = true := by
  simp only [isNormal, Bool.and_eq_true, bne_iff_ne]
  refine ⟨⟨?_, ?_⟩, ?_⟩ <;> rintro rfl <;> cases h

/-- There is no closing parenthesis behind the blank. -/
theorem url_of_all {cs : List Char} (h : ∀ c ∈ cs, isUrlChar c = true) :
    url (cs ++ [' ']) = ({ text := cs, closed := false }, []) := by
  cases cs with
  | nil => exact url_nil
  | cons c cs =>
    obtain ⟨hblank, hquote⟩ := not_blank_of_isUrlChar (h c List.mem_cons_self)
    have hblanks : takeWhile isBlank (c :: (cs ++ [' '])) = ([], c :: (cs ++ [' '])) := by
      rw [takeWhile, List.takeWhile_cons_of_neg (by simp [hblank]),
        List.dropWhile_cons_of_neg (by simp [hblank])]
    rw [List.cons_append, url, bind_apply, hblanks, bind_apply, nextIf_neg hquote]
    dsimp only
    rw [bind_apply, ← List.cons_append, urlChars_of_all h]
    rfl

/-- The mark of a URL begins one. -/
theorem lexeme_urlMark (rest : List Char) :
    lexeme (['u', 'r', 'l', '('] ++ rest) = enclosed .url .badUrl url rest :=
  lexeme_urlName (by decide : isUrlName ['u', 'r', 'l'] = true) rest

end Split

/-! ## Tokens -/

namespace Tokenizer

open Split WriteM

/-- The text of a malformed URL. -/
theorem css_badUrl (t : Token) (value : String) :
    ({ t with kind := .badUrl, value } : Token).css =
      String.ofList (['u', 'r', 'l', '('] ++ (value.toList ++ [' '])) := by
  show (do chars ['u', 'r', 'l', '(']; chars value.toList; char ' ').written = _
  rw [char_eq, ← chars_append, ← chars_append, written_chars]

/-- What is read of the text of a malformed URL. -/
theorem normalize_badUrl (cs : List Char) :
    normalize (['u', 'r', 'l', '('] ++ (cs ++ [' '])) =
      ['u', 'r', 'l', '('] ++ (normalize cs ++ [' ']) := by
  have hblank : normalize (cs ++ [' ']) = normalize cs ++ [' '] :=
    normalize_concat fun h => absurd h.2 (by decide)
  rw [normalize_append, ← hblank]
  rfl

theorem readsAs_badUrl {cs : List Char} (h : ∀ c ∈ cs, isUrlChar c = true) (options : Options) :
    ReadsAs (String.ofList (['u', 'r', 'l', '('] ++ (cs ++ [' ']))) options
      [{ kind := .badUrl, value := String.ofList cs }] := by
  have hlexeme : lexeme (['u', 'r', 'l', '('] ++ (cs ++ [' '])) =
      ({ kind := .badUrl, text := cs }, []) := by
    rw [lexeme_urlMark, enclosed, bind_apply, url_of_all h]
    rfl
  have hmark : ∀ c ∈ ['u', 'r', 'l', '('], CssTokens.isNormal c = true :=
    List.all_eq_true.mp (by decide)
  have hnormal : ∀ c ∈ ['u', 'r', 'l', '('] ++ (cs ++ [' ']), CssTokens.isNormal c = true := by
    intro c hc
    rcases List.mem_append.mp hc with hc | hc
    · exact hmark c hc
    · rcases List.mem_append.mp hc with hc | hc
      · exact isNormal_of_isUrlChar (h c hc)
      · rw [List.mem_singleton.mp hc]
        rfl
  exact readsAs_of_lexeme hnormal hlexeme (by simp) (Bool.and_false _)

/-- The first token of the text of a malformed URL. -/
theorem next_badUrl (value : String) (options : Options) :
    ∃ kind t,
      (ofString (String.ofList (['u', 'r', 'l', '('] ++ (value.toList ++ [' ']))) options).next =
        .ok kind t
      ∧ kind = (if (url (normalize value.toList ++ [' '])).1.closed then .url else .badUrl)
      ∧ t.token.value = String.ofList (url (normalize value.toList ++ [' '])).1.text := by
  generalize htext : String.ofList (['u', 'r', 'l', '('] ++ (value.toList ++ [' '])) = text
  obtain ⟨t, hn, hstep⟩ := next_step (follows_ofString text options).settled rfl
  have hlexeme : Split.lexeme (ofString text options).remaining =
      enclosed .url .badUrl url (normalize value.toList ++ [' ']) := by
    rw [remaining_ofString, ← htext, String.toList_ofList, normalize_badUrl, lexeme_urlMark]
  have hcomment : (Split.lexeme (ofString text options).remaining).1.kind.isComment = false := by
    rw [hlexeme]
    show (if _ then TokenKind.url else TokenKind.badUrl).isComment = false
    split <;> rfl
  rw [Split.delivered_keep (by simp [hcomment]), hlexeme] at hn hstep
  exact ⟨_, t, hn, rfl, congrArg Token.value hstep.token⟩

/-- **A malformed URL that has been read is read back from its text if and only if all characters of
its text may stand in a URL without quotes and escapes.** Otherwise the first token is a URL, well
formed or not, with another text. -/
theorem badUrl_reads {source : Source} {options : Options} {t t' : Tokenizer}
    (h : Reachable source options t) (hp : t.pushedBack = false)
    (hn : t.next = .ok .badUrl t') (options' : Options) :
    t'.token.unplaced = { kind := .badUrl, value := t'.token.value }
      ∧ ((∀ c ∈ t'.token.value.toList, isUrlChar c = true) →
        ReadsAs t'.token.css options' [t'.token.unplaced])
      ∧ ∃ kind t'', (ofString t'.token.css options').next = .ok kind t''
        ∧ (kind = .url ∨ kind = .badUrl)
        ∧ (kind = .badUrl ∧ t''.token.value = t'.token.value ↔
          ∀ c ∈ t'.token.value.toList, isUrlChar c = true) := by
  obtain ⟨hkind, hwell⟩ := h.token_wellFormed hp hn
  -- A URL has no part but its text.
  have hunplaced : t'.token.unplaced = { kind := .badUrl, value := t'.token.value } := by
    rw [hwell.unplaced_eq (by simp [hkind]), hkind]
  have hcss : t'.token.css =
      String.ofList (['u', 'r', 'l', '('] ++ (t'.token.value.toList ++ [' '])) := by
    rw [← css_badUrl t'.token, ← hkind]
  refine ⟨hunplaced, fun hall => ?_, ?_⟩
  · rw [hcss, hunplaced]
    have hreads := readsAs_badUrl hall options'
    rwa [String.ofList_toList] at hreads
  · rw [hcss]
    obtain ⟨kind, t'', hn'', hk, hvalue⟩ := next_badUrl t'.token.value options'
    refine ⟨kind, t'', hn'', ?_, ?_⟩
    · rw [hk]
      split
      · exact .inl rfl
      · exact .inr rfl
    · constructor
      · rintro ⟨-, heq⟩
        have htext := congrArg String.toList (hvalue.symm.trans heq)
        rw [String.toList_ofList] at htext
        exact all_of_url htext
      · intro hall
        have hnormal := normalize_of_isNormal fun c hc => isNormal_of_isUrlChar (hall c hc)
        rw [hnormal, url_of_all hall] at hk hvalue
        exact ⟨hk, hvalue.trans String.ofList_toList⟩

/-- What stands in quotes is read back if it has no need of them. -/
theorem badUrl_reads_quoted :
    ∃ t', (ofString "url( 'a\\62' b)").next = .ok .badUrl t' ∧ t'.token.css = "url(ab "
      ∧ ReadsAs "url(ab " {} [{ kind := .badUrl, value := "ab" }] := by
  have hr : (resultOf (ofString "url( 'a\\62' b)").next).toOption.map
      (fun r => (r.1, r.2.value, r.2.css)) = some (.badUrl, "ab", "url(ab ") := by
    decide +kernel
  obtain ⟨kind, t', hn, heq⟩ := exists_next hr
  obtain ⟨rfl, hparts⟩ := Prod.mk.inj heq
  obtain ⟨hvalue, hcss⟩ := Prod.mk.inj hparts
  obtain ⟨hunplaced, hreads, -⟩ := badUrl_reads .start rfl hn {}
  rw [hunplaced, hvalue, hcss] at hreads
  exact ⟨t', hn, hcss, hreads (List.all_eq_true.mp (by decide))⟩

/-- A parenthesis that stands in quotes ends the URL when it is written without them. -/
theorem css_badUrl_url :
    (ofString "url(\"a)\"").tokensToEnd.1.map (fun token => (token.kind, token.value, token.css)) =
        [(.badUrl, "a)", "url(a) "), (.eof, "", "")]
      ∧ ReadsAs "url(a) " {}
        [{ kind := .url, value := "a" }, { kind := .whiteSpace, value := " " }] := by
  constructor
  · decide +kernel
  · unfold ReadsAs
    decide +kernel

end Tokenizer

end CssTokens
