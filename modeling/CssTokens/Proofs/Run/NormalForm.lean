import CssTokens.Proofs.Refinement.Agreement

/-!
# A text and its normal form

A scanner counts what it normalizes: CR LF is two characters of the source and one line break. So a
text and its normal form lead to scanners with different positions. But a line break is counted when
it is read, be it written as CR LF, CR, FF or LF, and the LF of a CR LF is passed over later without
a trace. Two scanners with the same text left, the same results pushed back and the same number of
lines stay so, whatever is read and pushed back.

Main statement: the tokens of a text and those of its normal form are the same, the lines in which
they stand included (`tokensToEnd_normalize`).
-/

namespace CssTokens

theorem normalize_normalize (cs : List Char) : normalize (normalize cs) = normalize cs :=
  normalize_of_isNormal fun _ => isNormal_of_mem_normalize

/-- A token without its position. -/
def Token.unpositioned (t : Token) : Token :=
  { t with position := 0 }

/-! ## Lines -/

namespace Scanner

/-- The line breaks that a result of a read counts for. -/
def lineBreaks (c : Option Char) : Nat :=
  if c = some '\n' then 1 else 0

variable {s s' : Scanner} {raw c : Option Char}

theorem readSource_line (h : readSource s = .ok c s') : s'.line = s.line := by
  unfold readSource at h
  split at h <;> cases h <;> rfl

theorem accept_line (h : accept raw s = .ok c s') : s'.line = s.line + lineBreaks c := by
  cases raw with
  | none =>
    cases h
    rfl
  | some d =>
    unfold accept at h
    dsimp only at h
    split at h
    · cases h
      rfl
    · split at h
      · cases h
        rfl
      · next hbreak =>
        split at h
        · cases h
          rfl
        · cases h
          have hd : d ≠ '\n' := by
            rintro rfl
            exact hbreak rfl
          simp [lineBreaks, hd]

/-- **A line is counted when its line break is delivered**, however it is written. -/
theorem readFresh_line (h : readFresh s = .ok c s') : s'.line = s.line + lineBreaks c := by
  unfold readFresh at h
  split at h
  · cases h
  · next raw s₁ h1 =>
    rw [← readSource_line h1]
    split at h
    · -- The LF of a CR LF: the character behind it is what counts.
      split at h
      · cases h
      · next raw₂ s₂ h2 =>
        have hline := readSource_line h2
        rw [accept_line h, hline]
    · rw [accept_line h]

/-! ## Scanners with the same text left -/

/-- The same text is left to both scanners, and they have counted the same number of lines. What
their sources are made of and how many characters they have taken from them may differ. -/
structure SameText (s s' : Scanner) : Prop where
  infallible : s.source.Infallible
  infallible' : s'.source.Infallible
  pushed : s.pushed = s'.pushed
  unread : s.unread = s'.unread
  line : s.line = s'.line

namespace SameText

theorem readFresh (h : SameText s s') :
    Alike SameText (fun _ _ => False) (readFresh s) (readFresh s') := by
  obtain ⟨s₁, h1, hi, hp, hu⟩ := delivers_readFresh h.infallible
  obtain ⟨s₁', h1', hi', hp', hu'⟩ := delivers_readFresh h.infallible'
  have hl := readFresh_line h1
  have hl' := readFresh_line h1'
  rw [h1, h1', ← h.unread]
  refine .ok ⟨hi, hi', ?_, ?_, ?_⟩
  · rw [hp, hp', h.pushed]
  · rw [hu, hu', h.unread]
  · rw [hl, hl', h.line, h.unread]

/-- **Reading and pushing back keep the same text left.** -/
theorem agreement : Agreement SameText (fun _ _ => False) where
  next s s' h := by
    have hp := h.pushed
    unfold next
    cases hs : s.pushed with
    | nil =>
      rw [hs] at hp
      rw [← hp]
      exact h.readFresh
    | cons c rest =>
      rw [hs] at hp
      rw [← hp]
      exact .ok { h with pushed := rfl }
  pushBack c s s' h := .ok { h with pushed := congrArg (c :: ·) h.pushed }

end SameText

end Scanner

/-! ## Tokenizers with the same text left -/

namespace Tokenizer

theorem sameText_agreement :
    Agreement Scanner.SameText (fun _ _ => False) Token.unpositioned where
  toAgreement := Scanner.SameText.agreement
  token l h := by simp only [tokenOf, Token.unpositioned, h.line]
  malformed h := { h with }
  malformed_error h := h

section
variable {t t' : Tokenizer} {kind : TokenKind} {before : List Token}

theorem tokensToEnd_eof (h : next t = .ok .eof t') :
    tokensToEnd t before = ((t'.token :: before).reverse, none) := by
  fun_cases tokensToEnd t before with
  | case1 e t₁ h1 => cases h1.symm.trans h
  | case2 t₁ h1 =>
    cases h1.symm.trans h
    rfl
  | case3 kind t₁ h1 hk =>
    cases h1.symm.trans h
    exact absurd rfl hk

theorem tokensToEnd_cons (h : next t = .ok kind t') (hk : kind ≠ .eof) :
    tokensToEnd t before = tokensToEnd t' (t'.token :: before) := by
  fun_cases tokensToEnd t before with
  | case1 e t₁ h1 => cases h1.symm.trans h
  | case2 t₁ h1 =>
    cases h1.symm.trans h
    exact absurd rfl hk
  | case3 kind t₁ h1 =>
    cases h1.symm.trans h
    rfl

end

/-- A call delivers a token, and so does the one on a tokenizer with the same text left. The tokens
are alike up to their positions. -/
theorem next_sameText {t t' : Tokenizer} (h : Related Scanner.SameText t t') :
    ∃ kind t₁ t₁', t.next = .ok kind t₁ ∧ t'.next = .ok kind t₁'
      ∧ t₁.token.unpositioned = t₁'.token.unpositioned ∧ Related Scanner.SameText t₁ t₁' := by
  have hnext := h.next sameText_agreement
  generalize t.next = r at hnext
  generalize t'.next = r' at hnext
  cases hnext with
  | @ok kind t₁ t₁' htoken hsame => exact ⟨kind, t₁, t₁', rfl, rfl, htoken, hsame⟩
  | error hfalse => exact hfalse.scanner.elim

/-- The tokens up to the end of the input are alike up to their positions. -/
theorem tokensToEnd_sameText {t t' : Tokenizer} (h : Related Scanner.SameText t t')
    {before before' : List Token}
    (hbefore : before.map Token.unpositioned = before'.map Token.unpositioned) :
    (tokensToEnd t before).1.map Token.unpositioned
        = (tokensToEnd t' before').1.map Token.unpositioned
      ∧ (tokensToEnd t before).2 = none ∧ (tokensToEnd t' before').2 = none := by
  fun_induction Tokenizer.tokensToEnd t before generalizing t' before' with
  | case1 t before e t₁ he =>
    obtain ⟨_, _, _, h1, -⟩ := next_sameText h
    cases he.symm.trans h1
  | case2 t before t₁ h1 =>
    obtain ⟨_, _, t₁', h2, h2', htoken, -⟩ := next_sameText h
    cases h1.symm.trans h2
    rw [tokensToEnd_eof h2']
    refine ⟨?_, rfl, rfl⟩
    rw [List.map_reverse, List.map_reverse, List.map_cons, List.map_cons, htoken, hbefore]
  | case3 t before kind t₁ h1 hk ih =>
    obtain ⟨_, _, t₁', h2, h2', htoken, hsame⟩ := next_sameText h
    cases h1.symm.trans h2
    rw [tokensToEnd_cons h2' hk]
    exact ih hsame (by rw [List.map_cons, List.map_cons, htoken, hbefore])

/-- Sources with the same normal form. -/
theorem sameText_ofSource {source source' : Source} (h : source.Infallible)
    (h' : source'.Infallible) (hchars : normalize source.chars = normalize source'.chars)
    (options : Options) :
    Related Scanner.SameText (ofSource source options) (ofSource source' options) where
  scanner := ⟨h, h', rfl, hchars, rfl⟩
  options := rfl
  notPushedBack := rfl
  notPushedBack' := rfl

/-- **The tokens of a text are those of its normal form**, up to and including the end of the input.
They have the same kinds, texts, numbers, units and lines. -/
theorem tokensToEnd_normalize (text : String) (options : Options) :
    (ofString text options).tokensToEnd.1.map Token.unpositioned
        = (ofString (String.ofList (normalize text.toList)) options).tokensToEnd.1.map
          Token.unpositioned
      ∧ (ofString text options).tokensToEnd.2 = none
      ∧ (ofString (String.ofList (normalize text.toList)) options).tokensToEnd.2 = none := by
  have hchars : normalize (Source.ofString text).chars =
      normalize (Source.ofString (String.ofList (normalize text.toList))).chars := by
    rw [Source.chars_ofString, Source.chars_ofString, String.toList_ofList, normalize_normalize]
  have hsame := sameText_ofSource (Source.infallible_ofString _) (Source.infallible_ofString _)
    hchars options
  exact tokensToEnd_sameText hsame rfl

/-- Their positions are not the same: CR LF is two characters of the source. -/
example :
    ((ofString "\r\na").tokensToEnd.1.map Token.position,
      (ofString "\na").tokensToEnd.1.map Token.position) = ([0, 3, 3], [0, 2, 2]) := by
  decide +kernel

end Tokenizer

end CssTokens
