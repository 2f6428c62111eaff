import CssTokens.Proofs.Refinement.Tokenizer

/-!
# Leaving comments out

A tokenizer that leaves comments out reads them all the same, and goes on where they end. So two
tokenizers of one source, of which one delivers the comments and the other does not, go through the
same states: where the first returns a comment, the second is between two reads of one call. That
holds for every source, wherever it fails.

Main statement: a run without comments comes to what is left of a run with comments when the
comments are filtered out (`results_skipComments`).
-/

namespace CssTokens

namespace Tokenizer

/-! ## Results -/

/-- What the first `n` calls of `next` come to. -/
def results (t : Tokenizer) : Nat → List (Except ScanError (TokenKind × Token))
  | 0 => []
  | n + 1 => resultOf t.next :: (stateOf t.next).results n

/-- Whether a call returned a comment, be it cut off or not. -/
def isCommentResult : Except ScanError (TokenKind × Token) → Bool
  | .ok (kind, _) => kind == .comment || kind == .badComment
  | .error _ => false

/-- These are the tokens that are left out. -/
theorem isCommentResult_ok (kind : TokenKind) (token : Token) :
    isCommentResult (.ok (kind, token)) = kind.isComment := by
  cases kind <;> rfl

/-- The next call decides all the results. -/
theorem results_congr {t t' : Tokenizer} (h : t.next = t'.next) : ∀ n, t.results n = t'.results n
  | 0 => rfl
  | n + 1 => by rw [results, results, h]

/-! ## Two tokenizers side by side -/

/-- `t` leaves comments out and `u` delivers them; apart from that and the logs they are alike. -/
structure Alongside (t u : Tokenizer) : Prop where
  scanner : t.scanner = u.scanner
  token : t.token = u.token
  skips : t.options.skipComments = true
  keeps : u.options.skipComments = false
  notPushedBack : t.pushedBack = false
  notPushedBack' : u.pushedBack = false

namespace Alongside

variable {t u : Tokenizer}

theorem ofSource (source : Source) :
    Alongside (ofSource source { skipComments := true })
      (ofSource source { skipComments := false }) :=
  ⟨rfl, rfl, rfl, rfl, rfl, rfl⟩

/-- The logs do not matter. -/
theorem note (h : Alongside t u) (entry entry' : LogEntry) :
    Alongside (t.note entry) (u.note entry') :=
  { h with }

theorem note_right (h : Alongside t u) (entry : LogEntry) : Alongside t (u.note entry) :=
  { h with }

/-- Both read the same token, or both fail in the same way. -/
theorem read (h : Alongside t u) :
    (∃ kind t' u', read t = .ok kind t' ∧ Tokenizer.read u = .ok kind u' ∧ Alongside t' u')
      ∨ ∃ e t' u', Tokenizer.read t = .error e t' ∧ Tokenizer.read u = .error e u'
        ∧ Alongside t' u' := by
  obtain ⟨hs, ht, hskip, hkeep, hpt, hpu⟩ := h
  unfold Tokenizer.read
  rw [hs, ht]
  cases Lexeme.read u.scanner with
  | error e s => exact .inr ⟨e, _, _, rfl, rfl, rfl, rfl, hskip, hkeep, hpt, hpu⟩
  | ok l s =>
    refine .inl ⟨_, _, _, rfl, rfl, ?_⟩
    split
    · exact ⟨rfl, rfl, hskip, hkeep, hpt, hpu⟩
    · exact ⟨rfl, rfl, hskip, hkeep, hpt, hpu⟩

theorem next_left (h : Alongside t u) : t.next = readDelivered t :=
  next_eq_readDelivered h.notPushedBack

theorem next_right (h : Alongside t u) : u.next = readDelivered u :=
  next_eq_readDelivered h.notPushedBack'

/-- **A call of `next` on the tokenizer that delivers comments.** Either it returns a comment, which
the other one reads and leaves out in its next call, or the next calls of both come to the same. -/
theorem next (h : Alongside t u) :
    (isCommentResult (resultOf u.next) = true
        ∧ ∃ t', Alongside t' (stateOf u.next) ∧ t.next = t'.next
          ∧ t'.scanner.budget < t.scanner.budget)
      ∨ (isCommentResult (resultOf u.next) = false ∧ resultOf t.next = resultOf u.next
        ∧ Alongside (stateOf t.next) (stateOf u.next)) := by
  rcases h.read with ⟨kind, t', u', ht, hu, h'⟩ | ⟨e, t', u', ht, hu, h'⟩
  · have hun : u.next = .ok kind (u'.note (.returned u'.token)) := by
      rw [h.next_right, readDelivered_keep hu (by rw [h.keeps, Bool.false_and])]
    rw [hun]
    cases hk : kind.isComment with
    | true =>
      refine .inl ⟨(isCommentResult_ok kind _).trans hk, t', h'.note_right _, ?_, ?_⟩
      · rw [h.next_left, h'.next_left, readDelivered_skip ht (by rw [h.skips, hk]; rfl)]
      · have hb := read_budget ht
        have hne : kind ≠ .eof := by
          rintro rfl
          cases hk
        rw [if_neg hne] at hb
        exact hb
    | false =>
      have htn : t.next = .ok kind (t'.note (.returned t'.token)) := by
        rw [h.next_left, readDelivered_keep ht (by rw [hk, Bool.and_false])]
      rw [htn]
      refine .inr ⟨(isCommentResult_ok kind _).trans hk, ?_, h'.note _ _⟩
      show Except.ok (kind, t'.token) = Except.ok (kind, u'.token)
      rw [h'.token]
  · rw [h.next_left, h.next_right, readDelivered_error ht, readDelivered_error hu]
    exact .inr ⟨rfl, rfl, h'⟩

/-! ## Runs side by side -/

/-- After any number of calls on the tokenizer that delivers comments, the other one may have come
to the same results without the comments. -/
theorem filter_results (h : Alongside t u) (m : Nat) :
    ∃ n, (u.results m).filter (!isCommentResult ·) = t.results n := by
  induction m generalizing t u with
  | zero => exact ⟨0, rfl⟩
  | succ m ih =>
    rw [results, List.filter_cons]
    rcases h.next with ⟨hc, t', h', hnext, -⟩ | ⟨hc, hr, h'⟩
    · obtain ⟨n, hn⟩ := ih h'
      refine ⟨n, ?_⟩
      rw [hc, results_congr hnext, ← hn]
      rfl
    · obtain ⟨n, hn⟩ := ih h'
      refine ⟨n + 1, ?_⟩
      rw [hc, results, hr, ← hn]
      rfl

/-- And the other way round: each call on the tokenizer that leaves comments out comes to an end,
and there are calls on the other one that get as far. -/
theorem results_filter : ∀ (n : Nat) {t u : Tokenizer}, Alongside t u →
    ∃ m, (u.results m).filter (!isCommentResult ·) = t.results n
  | 0, _, _, _ => ⟨0, rfl⟩
  | n + 1, t, u, h => by
    rcases h.next with ⟨hc, t', h', hnext, hb⟩ | ⟨hc, hr, h'⟩
    · -- The same call is still to come, but there is less to read.
      obtain ⟨m, hm⟩ := results_filter (n + 1) h'
      refine ⟨m + 1, ?_⟩
      rw [results, List.filter_cons, hc, results_congr hnext, ← hm]
      rfl
    · obtain ⟨m, hm⟩ := results_filter n h'
      refine ⟨m + 1, ?_⟩
      rw [results, List.filter_cons, hc, hm, results, hr]
      rfl
termination_by n t => (n, t.scanner.budget)

end Alongside

/-- **Leaving comments out is to filter them out of the results**, whether the source fails or not.
What a run with comments has come to is, without the comments, what a run that leaves them out comes
to, and all that the latter comes to is of this form. -/
theorem results_skipComments (source : Source) :
    (∀ m, ∃ n, ((ofSource source { skipComments := false }).results m).filter
        (!isCommentResult ·) = (ofSource source { skipComments := true }).results n)
      ∧ ∀ n, ∃ m, ((ofSource source { skipComments := false }).results m).filter
        (!isCommentResult ·) = (ofSource source { skipComments := true }).results n := by
  have h := Alongside.ofSource source
  constructor
  · exact h.filter_results
  · exact h.results_filter

end Tokenizer

end CssTokens
