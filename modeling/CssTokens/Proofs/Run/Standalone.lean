import CssTokens.Proofs.Run.Determinism

/-!
# Tokens on their own

What follows a token in the text decides where the token ends, but not what it is. So the piece that
a token takes of the text reads as the same token if it is all there is.

Main statement: `token_standalone`.
-/

namespace CssTokens

namespace Split

variable {cs rest : List Char} {l : Lexeme}

/-- The first piece of a text begins with the first lexeme of it, and nothing is left. -/
theorem lexeme_piece (h : cs ≠ []) : lexeme (piece cs) = ((lexeme cs).1, []) := by
  have happ : lexeme (piece cs ++ (lexeme cs).2) = ((lexeme cs).1, [] ++ (lexeme cs).2) := by
    rw [piece_append, List.nil_append]
  exact lexeme_cut (piece_ne_nil h) happ

end Split

namespace Tokenizer

/-- **What a token takes of the text reads as this token on its own.** -/
theorem token_standalone {source : Source} {t t' : Tokenizer} {kind : TokenKind}
    (hs : source.Infallible) (h : Reachable source { skipComments := false } t)
    (hp : t.pushedBack = false) (hn : t.next = .ok kind t') (hk : kind ≠ .eof) :
    ∃ w, t.remaining = w ++ t'.remaining ∧ t'.token.kind = kind
      ∧ ReadsAs (String.ofList w) { skipComments := false } [t'.token.unplaced] := by
  have hf := h.follows hs
  obtain ⟨rfl, hstep⟩ := next_of_ok hf.settled hp hn
  -- With comments, what is delivered is the first lexeme of the text that is left.
  rw [hf.options, Split.delivered_false] at hk hstep
  have hne : t.remaining ≠ [] := fun hnil => hk ((Split.lexeme_kind _).mpr hnil)
  have hnormal : ∀ c ∈ Split.piece t.remaining, isNormal c = true :=
    fun c hc => hf.isNormal (List.mem_of_mem_take hc)
  refine ⟨Split.piece t.remaining, ?_, ?_, ?_⟩
  · rw [hstep.remaining, Split.piece_append]
  · rw [hf.options, Split.delivered_false]
    exact hstep.kind
  · rw [hstep.token]
    exact readsAs_of_lexeme hnormal (Split.lexeme_piece hne) hk rfl

/-- A point that is not followed by a digit does not belong to the number before it, with the rest
of the text or without. -/
theorem token_standalone_point :
    ∃ t' : Tokenizer, t'.remaining = ['.', 'x']
      ∧ ReadsAs "1" { skipComments := false } [t'.token.unplaced] := by
  obtain ⟨hn, hstep⟩ := next_stateOf (t := ofString "1.x" { skipComments := false })
    (follows_ofString _ _).settled rfl
  have hlexeme : Split.delivered false ['1', '.', 'x'] = Split.lexeme ['1', '.', 'x'] :=
    Split.delivered_false _
  have hk : (Split.delivered false ['1', '.', 'x']).1.kind ≠ .eof := by
    rw [hlexeme]
    exact fun hk => absurd ((Split.lexeme_kind _).mp hk) (by decide)
  have hr : (stateOf (ofString "1.x" { skipComments := false }).next).remaining = ['.', 'x'] := by
    rw [hstep.remaining]
    show (Split.delivered false ['1', '.', 'x']).2 = _
    rw [hlexeme]
    decide
  obtain ⟨w, hw, -, hreads⟩ :=
    token_standalone (Source.infallible_ofString "1.x") .start rfl hn hk
  rw [hr] at hw
  have hone : ['1'] = w := List.append_cancel_right (hw : ['1'] ++ ['.', 'x'] = w ++ ['.', 'x'])
  rw [← hone] at hreads
  exact ⟨_, hr, hreads⟩

end Tokenizer

end CssTokens
