import CssTokens.Proofs.Run.Reachable

/-!
# What decides the tokens to come

A tokenizer has more of a state than its text: what was pushed back and what is yet in the source,
the CR before a LF, counters and the last token. Nothing of it has a say in the tokens to come. They
are the lexemes of the text that is left, no matter how the tokenizer got there.

Main statement: two tokenizers with the same text left deliver the same token and have the same text
left after it, and so does a tokenizer that is made of this text (`next_determined`).
-/

namespace CssTokens

namespace Tokenizer

/-- The tokens up to the end of the input, without their places. -/
def unplacedToEnd (t : Tokenizer) : List Token × Option ScanError :=
  ((tokensToEnd t).1.map Token.unplaced, (tokensToEnd t).2)

/-- The text reads as the given tokens and then the end of the input. -/
def ReadsAs (text : String) (options : Options) (tokens : List Token) : Prop :=
  (ofString text options).unplacedToEnd = (tokens ++ [{ kind := .eof }], none)

variable {source : Source} {options : Options} {t : Tokenizer}

theorem Follows.unplacedToEnd (h : Follows source options t) (hp : t.pushedBack = false) :
    t.unplacedToEnd =
      ((Split.lexemes options.skipComments t.remaining).map Lexeme.token, none) := by
  obtain ⟨h1, h2⟩ := tokensToEnd_lexemes h.settled hp []
  rw [Tokenizer.unplacedToEnd, h1, h2, h.options]
  rfl

/-- What is left of the text of a source is in normal form. -/
theorem Follows.isNormal (h : Follows source options t) {c : Char} (hc : c ∈ t.remaining) :
    isNormal c = true :=
  isNormal_of_mem_normalize (h.suffix.subset hc)

/-! ## Tokenizers of a text -/

theorem follows_ofString (text : String) (options : Options) :
    Follows (Source.ofString text) options (ofString text options) :=
  Reachable.start.follows (Source.infallible_ofString text)

theorem remaining_ofString (text : String) (options : Options) :
    (ofString text options).remaining = normalize text.toList := by
  show normalize (Source.ofString text).chars = _
  rw [Source.chars_ofString]

/-- A text in normal form is what its tokenizer begins with. -/
theorem remaining_ofList {cs : List Char} (h : ∀ c ∈ cs, CssTokens.isNormal c = true)
    (options : Options) : (ofString (String.ofList cs) options).remaining = cs := by
  rw [remaining_ofString, String.toList_ofList, normalize_of_isNormal h]

theorem readsAs_iff {text : String} {tokens : List Token} :
    ReadsAs text options tokens ↔
      (Split.lexemes options.skipComments (normalize text.toList)).map Lexeme.token =
        tokens ++ [{ kind := .eof }] := by
  rw [ReadsAs, (follows_ofString text options).unplacedToEnd rfl, remaining_ofString, Prod.mk.injEq]
  exact and_iff_left rfl

/-- A text in normal form reads as the tokens of its lexemes. -/
theorem readsAs_of_lexemes {cs : List Char} (ls : List Lexeme)
    (hn : ∀ c ∈ cs, CssTokens.isNormal c = true)
    (h : Split.lexemes options.skipComments cs = ls ++ [Lexeme.atEnd]) :
    ReadsAs (String.ofList cs) options (ls.map Lexeme.token) := by
  rw [readsAs_iff, String.toList_ofList, normalize_of_isNormal hn, h, List.map_append]
  rfl

/-- A text in normal form that is one lexeme reads as the token of it. -/
theorem readsAs_of_lexeme {cs : List Char} {l : Lexeme}
    (hn : ∀ c ∈ cs, CssTokens.isNormal c = true) (h : Split.lexeme cs = (l, []))
    (hk : l.kind ≠ .eof) (hc : (options.skipComments && l.kind.isComment) = false) :
    ReadsAs (String.ofList cs) options [l.token] :=
  readsAs_of_lexemes [l] hn (Split.lexemes_single h hk hc)

/-! ## The same text -/

/-- **The text that is left decides the tokens to come.** -/
theorem next_determined {source₁ source₂ : Source} {options : Options} {t₁ t₂ : Tokenizer}
    (hs₁ : source₁.Infallible) (hs₂ : source₂.Infallible) (h₁ : Reachable source₁ options t₁)
    (h₂ : Reachable source₂ options t₂) (hp₁ : t₁.pushedBack = false)
    (hp₂ : t₂.pushedBack = false) (hr : t₁.remaining = t₂.remaining) :
    (∃ kind t₁' t₂', t₁.next = .ok kind t₁' ∧ t₂.next = .ok kind t₂'
        ∧ t₁'.token.unplaced = t₂'.token.unplaced ∧ t₁'.token.kind = kind
        ∧ t₁'.remaining = t₂'.remaining
        -- Both are what the lexer of plain text says.
        ∧ Lexeme.token (Split.delivered options.skipComments t₁.remaining).1 = t₁'.token.unplaced
        ∧ (Split.delivered options.skipComments t₁.remaining).2 = t₁'.remaining)
      ∧ t₁.unplacedToEnd = t₂.unplacedToEnd
      ∧ (ofString (String.ofList t₁.remaining) options).unplacedToEnd = t₁.unplacedToEnd
      ∧ t₁.unplacedToEnd.2 = none := by
  have hf₁ := h₁.follows hs₁
  have hf₂ := h₂.follows hs₂
  refine ⟨?_, ?_, ?_, ?_⟩
  · obtain ⟨t₁', hn₁, hstep₁⟩ := next_step hf₁.settled hp₁
    obtain ⟨t₂', hn₂, hstep₂⟩ := next_step hf₂.settled hp₂
    rw [hf₁.options] at hn₁ hstep₁
    rw [hf₂.options, ← hr] at hn₂ hstep₂
    refine ⟨_, t₁', t₂', hn₁, hn₂, ?_, hstep₁.kind, ?_, hstep₁.token.symm, hstep₁.remaining.symm⟩
    · rw [hstep₁.token, hstep₂.token]
    · rw [hstep₁.remaining, hstep₂.remaining]
  · rw [hf₁.unplacedToEnd hp₁, hf₂.unplacedToEnd hp₂, hr]
  · rw [hf₁.unplacedToEnd hp₁, (follows_ofString _ options).unplacedToEnd rfl,
      remaining_ofList fun _ hc => hf₁.isNormal hc]
  · rw [hf₁.unplacedToEnd hp₁]

/-- After the hyphen the point and the plus are on the stack of one tokenizer and in the source of
the other. -/
theorem next_determined_hyphen :
    (stateOf (ofString "-.+").next).remaining = ['.', '+']
      ∧ (stateOf (ofString "-.+").next).unplacedToEnd = (ofString ".+").unplacedToEnd := by
  have hstep := (next_stateOf (t := ofString "-.+") (follows_ofString _ _).settled rfl).2
  have hlexeme : Split.delivered true ['-', '.', '+'] = (Lexeme.delim '-', ['.', '+']) := by
    rw [Split.delivered_keep (by decide)]
    decide
  have hr : (stateOf (ofString "-.+").next).remaining = ['.', '+'] := by
    rw [hstep.remaining]
    exact congrArg Prod.snd hlexeme
  refine ⟨hr, ?_⟩
  exact (next_determined (Source.infallible_ofString "-.+") (Source.infallible_ofString ".+")
    (.next .start) .start hstep.pushedBack rfl hr).2.1

end Tokenizer

end CssTokens
