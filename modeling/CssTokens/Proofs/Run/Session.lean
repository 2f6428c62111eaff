import CssTokens.Proofs.Run.Comments
import CssTokens.Proofs.Run.Reachable

/-!
# Sessions

A session is a tokenizer and any sequence of calls of its operations. Here it is followed for what
the calls return, over sources that may fail.

A tokenizer that leaves comments out returns none by itself. But a comment that is left out is the
current token until the next one is read, and if the source fails there, it can be pushed back.

Main statements: a session returns no comment unless a token is pushed back after a failure behind
a comment (`returned_noComment`), and then it does (`comment_returned`).
-/

namespace CssTokens

namespace Tokenizer

/-! ## Calls -/

/-- The operations of a tokenizer, and of the iterator over its tokens. -/
inductive Call where
  | next
  | pushBack
  | skipWhitespace
  /-- Make a new iterator. -/
  | tokens
  /-- Ask the iterator for its next token. -/
  | tokensNext
  deriving DecidableEq, Repr

/-- A tokenizer in use. -/
structure Session where
  tokenizer : Tokenizer
  /-- Whether the iterator has ended. Before one is made there is nothing to ask. -/
  done : Bool := true
  /-- Whether the last call that read from the source failed. -/
  failed : Bool := false
  /-- The kinds of the tokens that were returned, the last one first. -/
  returned : List TokenKind := []

namespace Session

/-- The session after a call. A push-back that is not possible changes nothing. -/
def call (s : Session) : Call → Session
  | .next =>
    match s.tokenizer.next with
    | .ok kind tokenizer =>
      { s with tokenizer, failed := false, returned := kind :: s.returned }
    | .error _ tokenizer => { s with tokenizer, failed := true }
  | .pushBack =>
    match s.tokenizer.pushBack with
    | .ok tokenizer => { s with tokenizer }
    | .error _ => s
  | .skipWhitespace =>
    match s.tokenizer.skipWhitespace with
    | .ok _ tokenizer | .error (.misuse _) tokenizer => { s with tokenizer, failed := false }
    | .error (.scan _) tokenizer => { s with tokenizer, failed := true }
  | .tokens => { s with done := false }
  | .tokensNext =>
    match Tokens.next { tokenizer := s.tokenizer, done := s.done } with
    | (some (.ok token), i) =>
      { tokenizer := i.tokenizer, done := i.done, failed := false,
        returned := token.kind :: s.returned }
    | (some (.error _), i) => { s with tokenizer := i.tokenizer, done := i.done, failed := true }
    | (none, i) =>
      -- An iterator that has ended does not read.
      { s with tokenizer := i.tokenizer, done := i.done, failed := s.failed && s.done }

/-- The session after some calls. -/
def run (s : Session) (calls : List Call) : Session :=
  calls.foldl call s

/-- The session that begins with a tokenizer of a source. -/
def start (source : Source) (options : Options := {}) : Session :=
  { tokenizer := ofSource source options }

end Session

/-! ## What a tokenizer returns

The calls below are of a tokenizer that leaves comments out.
-/

/-- Comments are left out, and none was pushed back. -/
structure HoldsNoComment (t : Tokenizer) : Prop where
  skips : t.options.skipComments = true
  pushedBack : t.pushedBack = true → t.token.kind.isComment = false

section
variable {t t' : Tokenizer} {kind : TokenKind}

theorem readDelivered_noComment (hs : t.options.skipComments = true)
    (h : readDelivered t = .ok kind t') : kind.isComment = false ∧ t'.token.kind = kind := by
  fun_induction readDelivered t with
  | case1 => cases h
  | case2 t kind' t1 h1 _ ih =>
    have hkeeps := (read_keeps t).1
    rw [h1] at hkeeps
    exact ih (by rw [← hs]; exact congrArg _ hkeeps) h
  | case3 t kind' t1 h1 hk =>
    obtain ⟨rfl, rfl⟩ := EStateM.Result.ok.inj h
    rw [hs, Bool.true_and, Bool.not_eq_true] at hk
    have ht := read_kind h1
    exact ⟨hk, ht⟩

namespace HoldsNoComment

/-- **The next token is no comment.** It is read if none was pushed back. -/
theorem next_ok (h : HoldsNoComment t) (hn : t.next = .ok kind t') :
    kind.isComment = false ∧ t'.token.kind = kind ∧ HoldsNoComment t' := by
  cases hp : t.pushedBack with
  | true =>
    rw [next_pushedBack hp] at hn
    obtain ⟨rfl, rfl⟩ := EStateM.Result.ok.inj hn
    exact ⟨h.pushedBack hp, rfl, h.skips, fun hp' => absurd hp' Bool.false_ne_true⟩
  | false =>
    rw [next_eq_readDelivered hp] at hn
    obtain ⟨hk, ht⟩ := readDelivered_noComment h.skips hn
    have hkeeps := readDelivered_keeps t
    rw [hn] at hkeeps
    refine ⟨hk, ht, ?_, fun hp' => ?_⟩
    · rw [← h.skips]
      exact congrArg _ hkeeps.1
    · rw [ht]
      exact hk

theorem next_error (h : HoldsNoComment t) {e : ScanError} (hn : t.next = .error e t') :
    HoldsNoComment t' := by
  cases hp : t.pushedBack with
  | true =>
    rw [next_pushedBack hp] at hn
    cases hn
  | false =>
    rw [next_eq_readDelivered hp] at hn
    have hkeeps := readDelivered_keeps t
    rw [hn, hp] at hkeeps
    obtain ⟨ho, hp'⟩ := hkeeps
    refine ⟨?_, fun hback => absurd (hp'.symm.trans hback) Bool.false_ne_true⟩
    rw [← h.skips]
    exact congrArg _ ho

/-- The current token may be pushed back if it is no comment. -/
theorem pushBack (h : HoldsNoComment t) (hk : t.token.kind.isComment = false)
    (hb : t.pushBack = .ok t') : HoldsNoComment t' ∧ t'.token = t.token := by
  rw [pushBack_of_ok hb]
  exact ⟨⟨h.skips, fun _ => hk⟩, rfl⟩

/-- **After spacing was skipped, no comment is the current token**, unless reading has failed. -/
theorem skipWhitespace (h : HoldsNoComment t) :
    HoldsNoComment (stateOf t.skipWhitespace)
      ∧ ((∃ e t', t.skipWhitespace = .error (.scan e) t')
        ∨ (stateOf t.skipWhitespace).token.kind.isComment = false) := by
  fun_induction Tokenizer.skipWhitespace t with
  | case1 t e t1 h1 => exact ⟨h.next_error h1, .inl ⟨e, t1, rfl⟩⟩
  | case2 t kind t1 h1 _ ih => exact ih (h.next_ok h1).2.2
  | case3 t kind t1 h1 _ t2 h2 =>
    obtain ⟨hk, ht, h1'⟩ := h.next_ok h1
    rw [← ht] at hk
    obtain ⟨h2', ht2⟩ := h1'.pushBack hk h2
    exact ⟨h2', .inr (by rw [stateOf, ht2]; exact hk)⟩
  | case4 t kind t1 h1 =>
    obtain ⟨hk, ht, h1'⟩ := h.next_ok h1
    exact ⟨h1', .inr (by rw [stateOf, ht]; exact hk)⟩

end HoldsNoComment

end

/-! ## Sources that do not fail -/

namespace Follows

variable {source : Source} {options : Options} {t : Tokenizer}

theorem next_ok (h : Follows source options t) :
    ∃ kind t', t.next = .ok kind t' ∧ Follows source options t' := by
  have hf := h.next
  cases hp : t.pushedBack with
  | true =>
    rw [next_pushedBack hp] at hf
    exact ⟨_, _, next_pushedBack hp, hf⟩
  | false =>
    obtain ⟨hn, -⟩ := next_stateOf h.settled hp
    exact ⟨_, _, hn, hf⟩

theorem skipWhitespace (h : Follows source options t) :
    Follows source options (stateOf t.skipWhitespace)
      ∧ ∀ e t', t.skipWhitespace ≠ .error (.scan e) t' := by
  fun_induction Tokenizer.skipWhitespace t with
  | case1 t e t1 h1 =>
    obtain ⟨_, _, hn, -⟩ := h.next_ok
    cases h1.symm.trans hn
  | case2 t kind t1 h1 _ ih =>
    obtain ⟨_, _, hn, h1'⟩ := h.next_ok
    cases h1.symm.trans hn
    exact ih h1'
  | case3 t kind t1 h1 _ t2 h2 =>
    obtain ⟨_, _, hn, h1'⟩ := h.next_ok
    cases h1.symm.trans hn
    exact ⟨h1'.pushBack h2, fun _ _ he => (by cases he)⟩
  | case4 t kind t1 h1 =>
    obtain ⟨_, _, hn, h1'⟩ := h.next_ok
    cases h1.symm.trans hn
    exact ⟨h1', fun _ _ he => (by cases he)⟩

end Follows

/-- An iterator has ended, or ends, or delivers a token, or fails. -/
theorem Tokens.next_cases (i : Tokens) :
    (i.done = true ∧ i.next = (none, i))
      ∨ (∃ t, i.tokenizer.next = .ok .eof t ∧ i.next = (none, { tokenizer := t, done := true }))
      ∨ (∃ kind t, i.tokenizer.next = .ok kind t
        ∧ i.next = (some (.ok t.token), { i with tokenizer := t }))
      ∨ ∃ e t, i.tokenizer.next = .error e t
        ∧ i.next = (some (.error e), { tokenizer := t, done := true }) := by
  unfold Tokens.next
  split
  · next hd => exact .inl ⟨hd, rfl⟩
  · split
    · next kind t hn =>
      split
      · next hk =>
        subst hk
        exact .inr (.inl ⟨t, hn, rfl⟩)
      · exact .inr (.inr (.inl ⟨kind, t, hn, rfl⟩))
    · next e t hn => exact .inr (.inr (.inr ⟨e, t, hn, rfl⟩))

/-! ## What a session returns -/

namespace Session

/-- The last call failed behind a comment that it had left out. -/
def failedAtComment (s : Session) : Bool :=
  s.failed && s.tokenizer.token.kind.isComment

/-- No token is pushed back where a call has failed behind a comment. -/
def Careful (s : Session) : List Call → Prop
  | [] => True
  | c :: calls => (c = .pushBack → s.failedAtComment = false) ∧ (s.call c).Careful calls

/-- No comment was returned, and none can be returned by the next call. -/
structure NoComment (s : Session) : Prop where
  holds : HoldsNoComment s.tokenizer
  /-- Only a failure leaves a comment as the current token. -/
  current : s.failed = false → s.tokenizer.token.kind.isComment = false
  returned : ∀ kind ∈ s.returned, kind.isComment = false

namespace NoComment

variable {s : Session}

theorem start (source : Source) : NoComment (start source { skipComments := true }) where
  holds := ⟨rfl, fun h => absurd h Bool.false_ne_true⟩
  current _ := rfl
  returned _ h := absurd h List.not_mem_nil

/-- A push-back is harmless unless a call has failed behind a comment. -/
theorem isComment_of_failedAtComment (h : NoComment s) (hc : s.failedAtComment = false) :
    s.tokenizer.token.kind.isComment = false := by
  rw [failedAtComment, Bool.and_eq_false_iff] at hc
  rcases hc with hf | hk
  · exact h.current hf
  · exact hk

/-- **What one call preserves.** -/
theorem call (h : NoComment s) {c : Call} (hc : c = .pushBack → s.failedAtComment = false) :
    NoComment (s.call c) := by
  cases c with
  | next =>
    unfold Session.call
    dsimp only
    split
    · next kind t hn =>
      obtain ⟨hk, ht, h'⟩ := h.holds.next_ok hn
      refine ⟨h', fun _ => by rw [ht]; exact hk, ?_⟩
      exact List.forall_mem_cons.mpr ⟨hk, h.returned⟩
    · next e t hn =>
      exact ⟨h.holds.next_error hn, fun hf => (by cases hf), h.returned⟩
  | pushBack =>
    unfold Session.call
    dsimp only
    split
    · next t hb =>
      have hk := h.isComment_of_failedAtComment (hc rfl)
      obtain ⟨h', ht⟩ := h.holds.pushBack hk hb
      exact ⟨h', fun _ => by rw [ht]; exact hk, h.returned⟩
    · exact h
  | skipWhitespace =>
    obtain ⟨h', ht⟩ := h.holds.skipWhitespace
    unfold Session.call
    dsimp only
    split
    · next r t hw =>
      rw [hw] at h' ht
      refine ⟨h', fun _ => ht.resolve_left ?_, h.returned⟩
      rintro ⟨_, _, ⟨⟩⟩
    · next m t hw =>
      rw [hw] at h' ht
      refine ⟨h', fun _ => ht.resolve_left ?_, h.returned⟩
      rintro ⟨_, _, ⟨⟩⟩
    · next e t hw =>
      rw [hw] at h'
      exact ⟨h', fun hf => (by cases hf), h.returned⟩
  | tokens => exact ⟨h.holds, h.current, h.returned⟩
  | tokensNext =>
    unfold Session.call
    dsimp only
    rcases Tokens.next_cases { tokenizer := s.tokenizer, done := s.done } with
      ⟨hd, hi⟩ | ⟨t, hn, hi⟩ | ⟨kind, t, hn, hi⟩ | ⟨e, t, hn, hi⟩
    · rw [hi]
      refine ⟨h.holds, fun hf => h.current ?_, h.returned⟩
      rw [show s.done = true from hd, Bool.and_true] at hf
      exact hf
    · rw [hi]
      obtain ⟨hk, ht, h'⟩ := h.holds.next_ok hn
      exact ⟨h', fun _ => by rw [ht]; exact hk, h.returned⟩
    · rw [hi]
      obtain ⟨hk, ht, h'⟩ := h.holds.next_ok hn
      rw [← ht] at hk
      exact ⟨h', fun _ => hk, List.forall_mem_cons.mpr ⟨hk, h.returned⟩⟩
    · rw [hi]
      exact ⟨h.holds.next_error hn, fun hf => (by cases hf), h.returned⟩

/-- What any calls preserve. -/
theorem run (h : NoComment s) {calls : List Call} (hc : s.Careful calls) :
    NoComment (s.run calls) := by
  induction calls generalizing s with
  | nil => exact h
  | cons c calls ih => exact ih (h.call hc.1) hc.2

end NoComment

/-! ## Sources that do not fail -/

/-- No call has failed, and none will. -/
structure Unfailing (source : Source) (options : Options) (s : Session) : Prop where
  follows : Follows source options s.tokenizer
  failed : s.failed = false

namespace Unfailing

variable {source : Source} {options : Options} {s : Session}

theorem call (h : Unfailing source options s) (c : Call) :
    Unfailing source options (s.call c) := by
  cases c with
  | next =>
    obtain ⟨kind, t, hn, hf⟩ := h.follows.next_ok
    unfold Session.call
    dsimp only
    rw [hn]
    exact ⟨hf, rfl⟩
  | pushBack =>
    unfold Session.call
    dsimp only
    split
    · next t hb => exact ⟨h.follows.pushBack hb, h.failed⟩
    · exact h
  | skipWhitespace =>
    obtain ⟨hf, hs⟩ := h.follows.skipWhitespace
    unfold Session.call
    dsimp only
    split
    · next r t hw =>
      rw [hw] at hf
      exact ⟨hf, rfl⟩
    · next m t hw =>
      rw [hw] at hf
      exact ⟨hf, rfl⟩
    · next e t hw => exact absurd hw (hs e t)
  | tokens => exact ⟨h.follows, h.failed⟩
  | tokensNext =>
    obtain ⟨kind, t, hn, hf⟩ := h.follows.next_ok
    unfold Session.call
    dsimp only
    rcases Tokens.next_cases { tokenizer := s.tokenizer, done := s.done } with
      ⟨_, hi⟩ | ⟨t', hn', hi⟩ | ⟨kind', t', hn', hi⟩ | ⟨e, t', hn', hi⟩
    · rw [hi]
      exact ⟨h.follows, by rw [h.failed, Bool.false_and]⟩
    · rw [hi]
      cases hn.symm.trans hn'
      exact ⟨hf, by rw [h.failed, Bool.false_and]⟩
    · rw [hi]
      cases hn.symm.trans hn'
      exact ⟨hf, rfl⟩
    · cases hn.symm.trans hn'

/-- Where nothing fails, any token may be pushed back. -/
theorem careful (h : Unfailing source options s) (calls : List Call) : s.Careful calls := by
  induction calls generalizing s with
  | nil => exact trivial
  | cons c calls ih =>
    exact ⟨fun _ => by rw [failedAtComment, h.failed, Bool.false_and], ih (h.call c)⟩

end Unfailing

instance decidableCareful : ∀ (s : Session) (calls : List Call), Decidable (s.Careful calls)
  | _, [] => inferInstanceAs (Decidable True)
  | s, c :: calls =>
    have := decidableCareful (s.call c) calls
    inferInstanceAs (Decidable (_ ∧ _))

/-- **With comments left out, no call returns one**, if the source does not fail, or else if no
token is pushed back where a call has failed behind a comment. -/
theorem returned_noComment {source : Source} {calls : List Call}
    (h : source.Infallible ∨ (start source { skipComments := true }).Careful calls) :
    ∀ kind ∈ ((start source { skipComments := true }).run calls).returned,
      kind.isComment = false := by
  have hc : (start source { skipComments := true }).Careful calls := by
    rcases h with hs | hc
    · exact Unfailing.careful ⟨Reachable.start.follows hs, rfl⟩ calls
    · exact hc
  exact ((NoComment.start source).run hc).returned

/-- A failure behind a comment does no harm if the next token is read before one is pushed back. -/
theorem returned_noComment_failure :
    ((start [.char '/', .char '*', .char '*', .char '/', .fail ⟨.other, "x"⟩, .char 'a']
        { skipComments := true }).run [.next, .next, .pushBack, .next]).returned = [.ident, .ident]
      ∧ ∀ kind ∈ [TokenKind.ident, .ident], kind.isComment = false := by
  have hr : ((start [.char '/', .char '*', .char '*', .char '/', .fail ⟨.other, "x"⟩, .char 'a']
      { skipComments := true }).run [.next, .next, .pushBack, .next]).returned
        = [.ident, .ident] := by decide +kernel
  refine ⟨hr, ?_⟩
  rw [← hr]
  exact returned_noComment (.inr (by decide +kernel))

/-- But a comment is returned if it is pushed back after a failure behind it. -/
theorem comment_returned :
    ((start [.char '/', .char '*', .char '*', .char '/', .fail ⟨.other, "x"⟩]
      { skipComments := true }).run [.next, .pushBack, .next]).returned = [.comment] := by
  decide +kernel

end Session

end Tokenizer

end CssTokens
