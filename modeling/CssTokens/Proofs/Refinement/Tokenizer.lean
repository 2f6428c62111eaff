import CssTokens.Proofs.Run.Text
import CssTokens.Tokenizer.Basic

/-!
# The tokenizer refines the lexer of plain text

The tokens of a tokenizer are the lexemes of the text of its scanner. Where the tokens stand depends
on more than this text, so that it is left out of the comparison (`Token.unplaced`).

Main statement: unless a token was pushed back, the next token is the first delivered lexeme of the
text, and the rest of the text is what is left (`Tokenizer.next_step`).
-/

namespace CssTokens

/-- A token without its place. -/
def Token.unplaced (t : Token) : Token :=
  { t with line := 0, position := 0 }

/-- The token of a lexeme, without a place. -/
def Lexeme.token (l : Lexeme) : Token where
  kind := l.kind
  value := String.ofList l.text
  numeric := l.numeric
  unit := l.unit.map String.ofList

namespace Tokenizer

/-- The text that is still to be taken apart into tokens. -/
def remaining (t : Tokenizer) : List Char :=
  t.scanner.remaining

/-- The state in which a tokenizer has read the lexeme `l` and has `rest` left. -/
structure Step (t : Tokenizer) (l : Lexeme) (rest : List Char) (t' : Tokenizer) : Prop where
  settled : t'.scanner.Settled
  remaining : t'.remaining = rest
  token : t'.token.unplaced = l.token
  options : t'.options = t.options
  pushedBack : t'.pushedBack = t.pushedBack

namespace Step

variable {t t' : Tokenizer} {l : Lexeme} {rest : List Char}

theorem kind (h : Step t l rest t') : t'.token.kind = l.kind :=
  congrArg Token.kind h.token

/-- The log does not matter. -/
theorem note (h : Step t l rest t') (entry : LogEntry) : Step t l rest (t'.note entry) :=
  { h with }

theorem noteMalformed (h : Step t l rest t') : Step t l rest t'.noteMalformed :=
  { h with settled := ⟨h.settled.infallible, h.settled.pushed⟩ }

/-- Only the options and the push-back of the earlier state count. -/
theorem trans {t₀ : Tokenizer} (h : Step t l rest t') (ho : t.options = t₀.options)
    (hp : t.pushedBack = t₀.pushedBack) : Step t₀ l rest t' :=
  { h with
    options := h.options.trans ho
    pushedBack := h.pushedBack.trans hp }

end Step

variable {t : Tokenizer}

theorem read_step (h : t.scanner.Settled) :
    ∃ t', read t = .ok (Split.lexeme t.remaining).1.kind t'
      ∧ Step t (Split.lexeme t.remaining).1 (Split.lexeme t.remaining).2 t' := by
  obtain ⟨scanner, h1, hs, hr⟩ := Lexeme.read_reads t.scanner h
  have hstep : Step t (Split.lexeme t.remaining).1 (Split.lexeme t.remaining).2
      { t with
        scanner
        token := tokenOf (Split.lexeme t.remaining).1 t.scanner
        started := true }.noteMalformed :=
    Step.noteMalformed ⟨hs, hr, rfl, rfl, rfl⟩
  unfold read
  rw [h1]
  refine ⟨_, rfl, ?_⟩
  -- A malformed token is noted in the log, which changes nothing that counts here.
  split
  · exact hstep.note _
  · exact hstep

theorem read_of_ok {t' : Tokenizer} {kind : TokenKind} (h : t.scanner.Settled)
    (h1 : read t = .ok kind t') :
    (Split.lexeme t.remaining).1.kind = kind
      ∧ Step t (Split.lexeme t.remaining).1 (Split.lexeme t.remaining).2 t' := by
  obtain ⟨t₁, h2, hstep⟩ := read_step h
  rw [h1] at h2
  obtain ⟨rfl, rfl⟩ := EStateM.Result.ok.inj h2
  exact ⟨rfl, hstep⟩

theorem readDelivered_step (h : t.scanner.Settled) :
    ∃ t', readDelivered t = .ok (Split.delivered t.options.skipComments t.remaining).1.kind t'
      ∧ Step t (Split.delivered t.options.skipComments t.remaining).1
        (Split.delivered t.options.skipComments t.remaining).2 t' := by
  fun_induction readDelivered t with
  | case1 t e t' he =>
    obtain ⟨t₁, h1, -⟩ := read_step h
    rw [h1] at he
    cases he
  | case2 t kind t₁ h1 hk ih =>
    -- A comment is left out, and the next lexeme is in what is left.
    obtain ⟨rfl, hstep⟩ := read_of_ok h h1
    obtain ⟨t', h2, hstep'⟩ := ih hstep.settled
    rw [hstep.options, hstep.remaining, ← Split.delivered_skip hk] at h2 hstep'
    exact ⟨t', h2, hstep'.trans hstep.options hstep.pushedBack⟩
  | case3 t kind t₁ h1 hk =>
    obtain ⟨rfl, hstep⟩ := read_of_ok h h1
    rw [Split.delivered_keep hk]
    exact ⟨_, rfl, hstep.note _⟩

/-- A token that was pushed back is delivered again. -/
theorem next_pushedBack (hp : t.pushedBack = true) :
    next t = .ok t.token.kind { t with pushedBack := false } := by
  rw [next, hp, if_pos rfl]

theorem next_eq_readDelivered (hp : t.pushedBack = false) : next t = readDelivered t := by
  rw [next, hp, if_neg (by decide)]

/-- A push-back that is possible changes nothing else. -/
theorem pushBack_of_ok {t' : Tokenizer} (h : t.pushBack = .ok t') :
    t' = { t with pushedBack := true } := by
  unfold pushBack at h
  split at h
  · cases h
  · split at h
    · cases h
    · exact (Except.ok.inj h).symm

/-- **The next token is the first delivered lexeme of the text.** -/
theorem next_step (h : t.scanner.Settled) (hp : t.pushedBack = false) :
    ∃ t', next t = .ok (Split.delivered t.options.skipComments t.remaining).1.kind t'
      ∧ Step t (Split.delivered t.options.skipComments t.remaining).1
        (Split.delivered t.options.skipComments t.remaining).2 t' := by
  obtain ⟨t', h1, hstep⟩ := readDelivered_step h
  exact ⟨t', (next_eq_readDelivered hp).trans h1, hstep⟩

/-- The tokenizer that a computation leaves, whether it failed or not. -/
def stateOf {ε α : Type} : EStateM.Result ε Tokenizer α → Tokenizer
  | .ok _ t => t
  | .error _ t => t

/-- What a call of `next` comes to: the kind that it returns and the token, or a failure. -/
def resultOf : EStateM.Result ScanError Tokenizer TokenKind → Except ScanError (TokenKind × Token)
  | .ok kind t => .ok (kind, t.token)
  | .error e _ => .error e

/-- A call whose result is known returns. -/
theorem exists_next {t : Tokenizer} {α : Type} {f : TokenKind × Token → α} {a : α}
    (h : (resultOf t.next).toOption.map f = some a) :
    ∃ kind t', t.next = .ok kind t' ∧ f (kind, t'.token) = a := by
  cases hn : t.next with
  | ok kind t' =>
    rw [hn] at h
    exact ⟨kind, t', rfl, Option.some.inj h⟩
  | error e t' =>
    rw [hn] at h
    cases h

/-- The same for the state that is left. -/
theorem next_stateOf (h : t.scanner.Settled) (hp : t.pushedBack = false) :
    next t = .ok (Split.delivered t.options.skipComments t.remaining).1.kind (stateOf t.next)
      ∧ Step t (Split.delivered t.options.skipComments t.remaining).1
        (Split.delivered t.options.skipComments t.remaining).2 (stateOf t.next) := by
  obtain ⟨t', h1, hstep⟩ := next_step h hp
  rw [h1]
  exact ⟨rfl, hstep⟩

theorem next_of_ok {t' : Tokenizer} {kind : TokenKind} (h : t.scanner.Settled)
    (hp : t.pushedBack = false) (hn : next t = .ok kind t') :
    (Split.delivered t.options.skipComments t.remaining).1.kind = kind
      ∧ Step t (Split.delivered t.options.skipComments t.remaining).1
        (Split.delivered t.options.skipComments t.remaining).2 t' := by
  obtain ⟨h1, hstep⟩ := next_stateOf h hp
  rw [hn] at h1 hstep
  exact ⟨(EStateM.Result.ok.inj h1).1.symm, hstep⟩

/-- The tokens up to the end of the input are the delivered lexemes of the text. -/
theorem tokensToEnd_lexemes (h : t.scanner.Settled) (hp : t.pushedBack = false)
    (before : List Token) :
    (tokensToEnd t before).1.map Token.unplaced = before.reverse.map Token.unplaced
        ++ (Split.lexemes t.options.skipComments t.remaining).map Lexeme.token
      ∧ (tokensToEnd t before).2 = none := by
  fun_induction tokensToEnd t before with
  | case1 t before e t' he =>
    obtain ⟨t₁, h1, -⟩ := next_step h hp
    rw [h1] at he
    cases he
  | case2 t before t' h1 =>
    obtain ⟨hkind, hstep⟩ := next_of_ok h hp h1
    have htoken := hstep.token
    rw [Split.delivered_eof hkind] at htoken
    rw [Split.lexemes_eof hkind, List.reverse_cons, List.map_append, List.map_singleton, htoken]
    exact ⟨rfl, rfl⟩
  | case3 t before kind t' h1 hk ih =>
    obtain ⟨rfl, hstep⟩ := next_of_ok h hp h1
    obtain ⟨h2, h3⟩ := ih hstep.settled (hstep.pushedBack.trans hp)
    refine ⟨?_, h3⟩
    rw [h2, hstep.options, hstep.remaining, Split.lexemes_cons hk, List.reverse_cons,
      List.map_append, List.map_singleton, hstep.token, List.append_assoc]
    rfl

/-! ## One read of a call -/

section
variable {t' : Tokenizer} {kind : TokenKind} {e : ScanError}

/-- All that a read does: the lexer has read a lexeme, and its token becomes the current one. -/
theorem lexeme_of_read (h : read t = .ok kind t') :
    ∃ l s, Lexeme.read t.scanner = .ok l s ∧ kind = l.kind ∧ t'.scanner = { s with malformed := [] }
      ∧ t'.token = tokenOf l t.scanner := by
  unfold read at h
  split at h
  · next l s hl =>
    obtain ⟨rfl, rfl⟩ := EStateM.Result.ok.inj h
    refine ⟨l, s, hl, rfl, ?_⟩
    split <;> exact ⟨rfl, rfl⟩
  · cases h

/-- A read fails where the lexer does. -/
theorem lexeme_of_read_error (h : read t = .error e t') :
    ∃ s, Lexeme.read t.scanner = .error e s ∧ t'.scanner = { s with malformed := [] } := by
  unfold read at h
  split at h
  · cases h
  · next s hl =>
    obtain ⟨rfl, rfl⟩ := EStateM.Result.error.inj h
    exact ⟨s, hl, rfl⟩

theorem read_keeps (t : Tokenizer) :
    (stateOf (read t)).options = t.options ∧ (stateOf (read t)).pushedBack = t.pushedBack := by
  unfold read
  split
  · dsimp only [stateOf]
    split <;> exact ⟨rfl, rfl⟩
  · exact ⟨rfl, rfl⟩

theorem read_kind (h : read t = .ok kind t') : t'.token.kind = kind := by
  obtain ⟨l, s, -, rfl, -, htoken⟩ := lexeme_of_read h
  rw [htoken]
  rfl

/-- Reading on to a token that is to be delivered does not change how the tokenizer is used. -/
theorem readDelivered_keeps (t : Tokenizer) :
    (stateOf (readDelivered t)).options = t.options
      ∧ (stateOf (readDelivered t)).pushedBack = t.pushedBack := by
  fun_induction readDelivered t with
  | case1 t e t' he =>
    have h := read_keeps t
    rwa [he] at h
  | case2 t kind t' h1 _ ih =>
    have h := read_keeps t
    rw [h1] at h
    exact ⟨ih.1.trans h.1, ih.2.trans h.2⟩
  | case3 t kind t' h1 =>
    have h := read_keeps t
    rwa [h1] at h

theorem readDelivered_error (h : read t = .error e t') :
    readDelivered t = .error e t' := by
  fun_cases readDelivered t with
  | case1 e₁ t₁ h1 =>
    cases h1.symm.trans h
    rfl
  | case2 kind t₁ h1 => cases h1.symm.trans h
  | case3 kind t₁ h1 => cases h1.symm.trans h

theorem readDelivered_skip (h : read t = .ok kind t')
    (hk : (t.options.skipComments && kind.isComment) = true) :
    readDelivered t = readDelivered t' := by
  fun_cases readDelivered t with
  | case1 e t₁ h1 => cases h1.symm.trans h
  | case2 kind₁ t₁ h1 =>
    cases h1.symm.trans h
    rfl
  | case3 kind₁ t₁ h1 hk₁ =>
    cases h1.symm.trans h
    exact absurd hk hk₁

theorem readDelivered_keep (h : read t = .ok kind t')
    (hk : (t.options.skipComments && kind.isComment) = false) :
    readDelivered t = .ok kind (t'.note (.returned t'.token)) := by
  fun_cases readDelivered t with
  | case1 e t₁ h1 => cases h1.symm.trans h
  | case2 kind₁ t₁ h1 hk₁ =>
    cases h1.symm.trans h
    rw [hk] at hk₁
    cases hk₁
  | case3 kind₁ t₁ h1 =>
    cases h1.symm.trans h
    rfl

end

end Tokenizer

end CssTokens
