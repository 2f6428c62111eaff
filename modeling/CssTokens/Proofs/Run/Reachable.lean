import CssTokens.Proofs.Refinement.Tokenizer

/-!
# Reachable states of a tokenizer

A tokenizer is used by reading tokens and pushing them back, in any order. Skipping spacing and
iterating over the tokens are made of the same two steps.

Main statement: if the source does not fail, a tokenizer has an end of the text of its source left
in each state that can be reached (`Tokenizer.Reachable.follows`).
-/

namespace CssTokens

namespace Tokenizer

/-- The states of the tokenizer of a source between the calls of its operations. -/
inductive Reachable (source : Source) (options : Options) : Tokenizer → Prop
  | start : Reachable source options (ofSource source options)
  | next {t : Tokenizer} : Reachable source options t → Reachable source options (stateOf t.next)
  | pushBack {t t' : Tokenizer} : Reachable source options t → t.pushBack = .ok t' →
    Reachable source options t'

/-- The state after `n` tokens. -/
def after (t : Tokenizer) : Nat → Tokenizer
  | 0 => t
  | n + 1 => stateOf (t.after n).next

/-- What holds of a tokenizer for a source. -/
structure Follows (source : Source) (options : Options) (t : Tokenizer) : Prop where
  settled : t.scanner.Settled
  suffix : t.remaining <:+ normalize source.chars
  options : t.options = options

section
variable {source : Source} {options : Options} {t t' : Tokenizer}

theorem Step.follows {l : Lexeme} {rest : List Char} (h : Step t l rest t')
    (hrest : rest <:+ t.remaining) (ht : Follows source options t) : Follows source options t' where
  settled := h.settled
  suffix := by
    rw [h.remaining]
    exact hrest.trans ht.suffix
  options := h.options.trans ht.options

theorem Follows.next (ht : Follows source options t) :
    Follows source options (stateOf t.next) := by
  cases hp : t.pushedBack with
  | true =>
    rw [next_pushedBack hp]
    exact ⟨ht.settled, ht.suffix, ht.options⟩
  | false => exact (next_stateOf ht.settled hp).2.follows (Split.delivered_suffix _ _) ht

theorem Follows.pushBack (ht : Follows source options t) (h : t.pushBack = .ok t') :
    Follows source options t' := by
  rw [pushBack_of_ok h]
  exact ⟨ht.settled, ht.suffix, ht.options⟩

/-- **In each state an end of the text of the source is left.** -/
theorem Reachable.follows (hsource : source.Infallible) (h : Reachable source options t) :
    Follows source options t := by
  induction h with
  | start => exact ⟨Scanner.settled_ofSource hsource, List.suffix_refl _, rfl⟩
  | next _ ih => exact ih.next
  | pushBack _ h ih => exact ih.pushBack h

/-! ## Other operations -/

theorem Reachable.after (h : Reachable source options t) :
    ∀ n, Reachable source options (t.after n)
  | 0 => h
  | n + 1 => (h.after n).next

theorem Reachable.skipWhitespace (h : Reachable source options t) :
    Reachable source options (stateOf t.skipWhitespace) := by
  fun_induction Tokenizer.skipWhitespace t with
  | case1 t e t' he =>
    have := h.next
    rwa [he] at this
  | case2 t kind t' h1 _ ih =>
    have := h.next
    rw [h1] at this
    exact ih this
  | case3 t kind t' h1 _ t'' h2 =>
    have := h.next
    rw [h1] at this
    exact this.pushBack h2
  | case4 t kind t' h1 =>
    have := h.next
    rwa [h1] at this

theorem Reachable.tokens_next {i : Tokens} (h : Reachable source options i.tokenizer) :
    Reachable source options i.next.2.tokenizer := by
  have hnext := h.next
  unfold Tokens.next
  split
  · exact h
  · split
    · next h1 =>
      rw [h1] at hnext
      split <;> exact hnext
    · next h1 =>
      rw [h1] at hnext
      exact hnext

end

end Tokenizer

end CssTokens
