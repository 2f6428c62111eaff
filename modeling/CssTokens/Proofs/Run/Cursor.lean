import CssTokens.Proofs.Run.Consumption
import CssTokens.Proofs.Run.Session
import Mathlib.Data.Nat.Find

/-!
# A cursor with one step back

A tokenizer has a scanner with a stack of its own, counters, a current token and a flag. If its
source does not fail, all that its operations show of this is a place in a fixed sequence of tokens,
those that `next` alone delivers, and whether the last step is to be made again.

The cursor is described on its own first, over any sequence (`Cursor.Moves`): for each call, what it
returns and where the cursor stands then. What it does is determined in each case
(`Cursor.Runs.unique`), and an iterator over it delivers the elements up to the first end of the
input (`Cursor.runs_iterator`).

Main statement: whatever is called, a session returns what the cursor returns, and the tokenizer is
in the state after as many calls of `next` as the cursor has taken elements, but for the flag
(`Session.run_cursor`).
-/

namespace CssTokens

namespace Tokenizer

/-! ## The cursor -/

/-- What a call returns. -/
inductive Reply where
  /-- There is nothing to return. -/
  | done
  /-- The kind of the next token. -/
  | kind (kind : TokenKind)
  /-- The next token of the iterator. -/
  | token (token : Token)
  /-- The iterator has ended. -/
  | ended
  | failed (e : ScanError)
  | misused (m : Misuse)
  deriving DecidableEq

/-- A place in a sequence of tokens. -/
structure Cursor where
  /-- The number of elements taken. The last of them is the current one. -/
  taken : Nat := 0
  /-- Whether the current element is to be delivered again. -/
  pushedBack : Bool := false
  /-- Whether the iterator has ended. Before one is made there is nothing to ask. -/
  ended : Bool := true
  deriving DecidableEq, Repr

namespace Cursor

/-- The index of the element to be delivered next: the current one again if it was pushed back, or
else the one behind it. -/
def upcoming (c : Cursor) : Nat :=
  if c.pushedBack then c.taken - 1 else c.taken

/-- The cursor after the upcoming element. -/
def forward (c : Cursor) : Cursor :=
  { c with taken := c.upcoming + 1, pushedBack := false }

section
variable (tokens : Nat → Token)

/-- The first element that is not spacing, from the upcoming one on, has the index `n`. -/
structure SkipsTo (c : Cursor) (n : Nat) : Prop where
  le : c.upcoming ≤ n
  spacing : ∀ m, c.upcoming ≤ m → m < n → (tokens m).kind.isSpacing = true
  stop : (tokens n).kind.isSpacing = false

/-- What a call does to the cursor, and what it returns. -/
inductive Moves : Cursor → Call → Reply → Cursor → Prop
  | next (c : Cursor) : Moves c .next (.kind (tokens c.upcoming).kind) c.forward
  /-- There is no current element yet. -/
  | pushBack_nothingRead {c : Cursor} : c.taken = 0 →
    Moves c .pushBack (.misused .nothingRead) c
  | pushBack_again {c : Cursor} : c.taken ≠ 0 → c.pushedBack = true →
    Moves c .pushBack (.misused .alreadyPushedBack) c
  | pushBack {c : Cursor} : c.taken ≠ 0 → c.pushedBack = false →
    Moves c .pushBack .done { c with pushedBack := true }
  | skipWhitespace {c : Cursor} {n : Nat} : c.SkipsTo tokens n →
    Moves c .skipWhitespace .done { c with taken := n + 1, pushedBack := true }
  | tokens (c : Cursor) : Moves c .tokens .done { c with ended := false }
  | tokensNext {c : Cursor} : c.ended = false → (tokens c.upcoming).kind ≠ .eof →
    Moves c .tokensNext (.token (tokens c.upcoming)) c.forward
  | tokensNext_eof {c : Cursor} : c.ended = false → (tokens c.upcoming).kind = .eof →
    Moves c .tokensNext .ended { c.forward with ended := true }
  | tokensNext_ended {c : Cursor} : c.ended = true → Moves c .tokensNext .ended c

/-- What any calls do, and what they return. -/
inductive Runs : Cursor → List Call → List Reply → Cursor → Prop
  | nil (c : Cursor) : Runs c [] [] c
  | cons {c c₁ c₂ : Cursor} {call : Call} {reply : Reply} {calls : List Call}
    {replies : List Reply} : Moves tokens c call reply c₁ → Runs c₁ calls replies c₂ →
    Runs c (call :: calls) (reply :: replies) c₂

end

/-! ### The first element that is not spacing -/

section
variable {tokens : Nat → Token} {c : Cursor}

/-- The upcoming element is the one, or else it is spacing. -/
theorem SkipsTo.upcoming (h : (tokens c.upcoming).kind.isSpacing = false) :
    c.SkipsTo tokens c.upcoming where
  le := Nat.le_refl _
  spacing _ hm hlt := absurd hm (Nat.not_le_of_lt hlt)
  stop := h

theorem SkipsTo.of_forward {n : Nat} (hk : (tokens c.upcoming).kind.isSpacing = true)
    (h : c.forward.SkipsTo tokens n) : c.SkipsTo tokens n where
  le := Nat.le_of_succ_le h.le
  spacing m hm hlt := by
    rcases Nat.eq_or_lt_of_le hm with heq | hgt
    · rw [← heq]
      exact hk
    · exact h.spacing m hgt hlt
  stop := h.stop

/-- There is one first element that is not spacing. -/
theorem SkipsTo.unique {n n' : Nat} (h : c.SkipsTo tokens n) (h' : c.SkipsTo tokens n') :
    n = n' := by
  rcases Nat.lt_trichotomy n n' with hlt | heq | hgt
  · have := h'.spacing n h.le hlt
    rw [h.stop] at this
    cases this
  · exact heq
  · have := h.spacing n' h'.le hgt
    rw [h'.stop] at this
    cases this

/-! ### What the cursor does is determined -/

theorem Moves.unique {call : Call} {reply reply' : Reply} {c₁ c₁' : Cursor}
    (h : Moves tokens c call reply c₁) (h' : Moves tokens c call reply' c₁') :
    reply = reply' ∧ c₁ = c₁' := by
  cases h with
  | next =>
    cases h'
    exact ⟨rfl, rfl⟩
  | pushBack_nothingRead h1 => cases h' <;> simp_all
  | pushBack_again h1 h2 => cases h' <;> simp_all
  | pushBack h1 h2 => cases h' <;> simp_all
  | skipWhitespace hs =>
    cases h' with
    | skipWhitespace hs' =>
      rw [hs.unique hs']
      exact ⟨rfl, rfl⟩
  | tokens =>
    cases h'
    exact ⟨rfl, rfl⟩
  | tokensNext h1 h2 => cases h' <;> simp_all
  | tokensNext_eof h1 h2 => cases h' <;> simp_all
  | tokensNext_ended h1 => cases h' <;> simp_all

theorem Runs.unique {calls : List Call} {replies replies' : List Reply} {c₁ c₁' : Cursor}
    (h : Runs tokens c calls replies c₁) (h' : Runs tokens c calls replies' c₁') :
    replies = replies' ∧ c₁ = c₁' := by
  induction h generalizing replies' with
  | nil =>
    cases h'
    exact ⟨rfl, rfl⟩
  | cons hm _ ih =>
    cases h' with
    | cons hm' hr' =>
      obtain ⟨rfl, rfl⟩ := hm.unique hm'
      obtain ⟨rfl, rfl⟩ := ih hr'
      exact ⟨rfl, rfl⟩

/-! ### What an iterator returns -/

/-- Nothing more is delivered by an iterator that has ended. -/
theorem runs_ended (h : c.ended = true) (k : Nat) :
    Runs tokens c (.replicate k .tokensNext) (.replicate k .ended) c := by
  induction k with
  | zero => exact .nil c
  | succ k ih => exact .cons (.tokensNext_ended h) ih

/-- **An iterator delivers the elements up to the first end of the input**, from the upcoming one
on, and then nothing. -/
theorem runs_iterator {n : Nat} (h : c.ended = false)
    (hn : ∀ m, c.upcoming ≤ m → m < c.upcoming + n → (tokens m).kind ≠ .eof)
    (heof : (tokens (c.upcoming + n)).kind = .eof) (k : Nat) :
    Runs tokens c (.replicate n .tokensNext ++ .replicate (k + 1) .tokensNext)
      ((List.range' c.upcoming n).map (fun m => .token (tokens m)) ++ .replicate (k + 1) .ended)
      { taken := c.upcoming + n + 1, pushedBack := false, ended := true } := by
  induction n generalizing c with
  | zero =>
    have hmeets : Moves tokens c .tokensNext .ended { c.forward with ended := true } :=
      .tokensNext_eof h heof
    exact .cons hmeets (runs_ended rfl k)
  | succ n ih =>
    have hmove : Moves tokens c .tokensNext (.token (tokens c.upcoming)) c.forward :=
      .tokensNext h (hn _ (Nat.le_refl _) (by omega))
    have hup : c.forward.upcoming = c.upcoming + 1 := rfl
    have hsum : c.upcoming + (n + 1) = c.forward.upcoming + n := by omega
    rw [hsum] at heof ⊢
    refine .cons hmove (ih h ?_ heof)
    intro m hle hlt
    exact hn m (by omega) (by omega)

end

end Cursor

/-! ## Tokens in a sequence -/

/-- The tokens that calls of `next` deliver one after the other. -/
def tokenAt (source : Source) (options : Options) (n : Nat) : Token :=
  ((ofSource source options).after (n + 1)).token

/-- Once a token was read, there is a current one. -/
theorem readDelivered_started {t t' : Tokenizer} {kind : TokenKind}
    (h : readDelivered t = .ok kind t') : t'.started = true := by
  fun_induction readDelivered t with
  | case1 => cases h
  | case2 t kind' t₁ h1 _ ih => exact ih h
  | case3 t kind' t₁ h1 =>
    obtain ⟨rfl, rfl⟩ := EStateM.Result.ok.inj h
    show t₁.started = true
    unfold read at h1
    split at h1
    · obtain ⟨rfl, rfl⟩ := EStateM.Result.ok.inj h1
      split <;> rfl
    · cases h1

section
variable {source : Source} (hsource : source.Infallible) (options : Options)
include hsource

theorem next_tokenAt (n : Nat) :
    next ((ofSource source options).after n) =
      .ok (tokenAt source options n).kind ((ofSource source options).after (n + 1)) := by
  have hn := ((ready_ofSource hsource options).after n).next
  have hkind : (tokenAt source options n).kind = ((ofSource source options).after n).nextKind :=
    hn.2.kind
  rw [hkind]
  exact hn.1

theorem started_after : ∀ n, ((ofSource source options).after n).started = decide (n ≠ 0)
  | 0 => rfl
  | n + 1 => by
    have hn := next_tokenAt hsource options n
    rw [next_eq_readDelivered ((ready_ofSource hsource options).after n).pushedBack] at hn
    rw [readDelivered_started hn, decide_eq_true (Nat.succ_ne_zero n)]

/-- The sequence is without an end of the input up to some index, and from there on there is
nothing else. -/
theorem tokenAt_eof : ∃ n, ∀ m, (tokenAt source options m).kind = .eof ↔ n ≤ m := by
  have huses := (ready_ofSource hsource options).usesUp
  have hnext : ∀ m, (tokenAt source options m).kind = .eof ↔
      next ((ofSource source options).after m) =
        .ok .eof ((ofSource source options).after (m + 1)) := by
    intro m
    rw [next_tokenAt hsource]
    constructor
    · intro h
      rw [h]
    · intro h
      exact (EStateM.Result.ok.inj h).1
  have hends : ∃ n, (tokenAt source options n).kind = .eof := by
    obtain ⟨n, -, hn⟩ := huses.ends
    exact ⟨n, (hnext n).mpr hn⟩
  refine ⟨Nat.find hends, fun m => ⟨fun hm => Nat.find_min' hends hm, fun hm => ?_⟩⟩
  rcases Nat.eq_or_lt_of_le hm with heq | hlt
  · rw [← heq]
    exact Nat.find_spec hends
  · have hfirst := (hnext _).mp (Nat.find_spec hends)
    exact (hnext m).mpr (huses.stays _ hfirst m hlt).2

end

/-! ## A tokenizer at a cursor -/

/-- The tokenizer of a source after as many calls of `next` as the cursor has taken elements, with
the flag of the cursor. -/
structure StandsAt (source : Source) (options : Options) (c : Cursor) (t : Tokenizer) : Prop where
  state : t = { (ofSource source options).after c.taken with pushedBack := c.pushedBack }
  /-- Only an element that was taken can be pushed back. -/
  taken : c.pushedBack = true → c.taken ≠ 0

namespace StandsAt

variable {source : Source} {options : Options} {c : Cursor} {t t' : Tokenizer}

theorem start : StandsAt source options {} (ofSource source options) :=
  ⟨rfl, fun h => absurd h Bool.false_ne_true⟩

theorem pushedBack (h : StandsAt source options c t) : t.pushedBack = c.pushedBack := by
  rw [h.state]

/-- The iterator is not part of the tokenizer. -/
theorem ended (h : StandsAt source options c t) (ended : Bool) :
    StandsAt source options { c with ended } t :=
  ⟨h.state, h.taken⟩

variable (hsource : source.Infallible)
include hsource

theorem started (h : StandsAt source options c t) : t.started = decide (c.taken ≠ 0) := by
  rw [h.state]
  exact started_after hsource options c.taken

/-- The state after `n` calls of `next`. -/
theorem after (n : Nat) (ended : Bool) :
    StandsAt source options { taken := n, pushedBack := false, ended }
      ((ofSource source options).after n) where
  state := by rw [← ((ready_ofSource hsource options).after n).pushedBack]
  taken hp := absurd hp Bool.false_ne_true

/-- **The upcoming element is delivered**, and it is the current one then. -/
theorem next (h : StandsAt source options c t) :
    ∃ t', t.next = .ok (tokenAt source options c.upcoming).kind t'
      ∧ StandsAt source options c.forward t' ∧ t'.token = tokenAt source options c.upcoming := by
  refine ⟨(ofSource source options).after (c.upcoming + 1), ?_, after hsource _ _, rfl⟩
  obtain ⟨n, flag, ended⟩ := c
  obtain ⟨rfl, hn⟩ := h
  cases flag with
  | false =>
    rw [← (after hsource n ended).state]
    exact next_tokenAt hsource options n
  | true =>
    cases n with
    | zero => exact absurd rfl (hn rfl)
    | succ n =>
      rw [next_pushedBack rfl]
      show EStateM.Result.ok (tokenAt source options n).kind _ = _
      rw [← (after hsource (n + 1) ended).state]
      rfl

theorem next_of_ok {kind : TokenKind} (h : StandsAt source options c t)
    (hn : t.next = .ok kind t') :
    (tokenAt source options c.upcoming).kind = kind ∧ StandsAt source options c.forward t'
      ∧ t'.token = tokenAt source options c.upcoming := by
  obtain ⟨t₁, h1, hat, htoken⟩ := h.next hsource
  cases h1.symm.trans hn
  exact ⟨rfl, hat, htoken⟩

theorem next_ne_error {e : ScanError} (h : StandsAt source options c t) :
    t.next ≠ .error e t' := by
  intro hn
  obtain ⟨_, h1, -⟩ := h.next hsource
  cases h1.symm.trans hn

/-- A push-back is possible if there is a current element that was not pushed back. -/
theorem pushBack (h : StandsAt source options c t) (hc : c.taken ≠ 0) (hp : c.pushedBack = false) :
    ∃ t', t.pushBack = .ok t' ∧ StandsAt source options { c with pushedBack := true } t' := by
  refine ⟨{ t with pushedBack := true }, ?_, ?_, fun _ => hc⟩
  · unfold Tokenizer.pushBack
    rw [h.started hsource, h.pushedBack, hp, decide_eq_true hc]
    rfl
  · rw [h.state]

theorem forward_pushBack (h : StandsAt source options c.forward t) :
    ∃ t', t.pushBack = .ok t'
      ∧ StandsAt source options { c with taken := c.upcoming + 1, pushedBack := true } t' :=
  h.pushBack hsource (Nat.succ_ne_zero _) rfl

/-- **Spacing is skipped up to the first element that is none**, which is pushed back. -/
theorem skipWhitespace (h : StandsAt source options c t) :
    ∃ n t', t.skipWhitespace = .ok () t' ∧ c.SkipsTo (tokenAt source options) n
      ∧ StandsAt source options { c with taken := n + 1, pushedBack := true } t' := by
  fun_induction Tokenizer.skipWhitespace t generalizing c with
  | case1 t e t₁ h1 => exact absurd h1 (h.next_ne_error hsource)
  | case2 t kind t₁ h1 hk ih =>
    obtain ⟨rfl, hat, -⟩ := h.next_of_ok hsource h1
    obtain ⟨n, t', h2, hskip, hat'⟩ := ih hat
    exact ⟨n, t', h2, hskip.of_forward hk, hat'⟩
  | case3 t kind t₁ h1 hk t₂ h2 =>
    obtain ⟨rfl, hat, -⟩ := h.next_of_ok hsource h1
    obtain ⟨t', h2', hat'⟩ := hat.forward_pushBack hsource
    cases h2.symm.trans h2'
    rw [Bool.not_eq_true] at hk
    exact ⟨_, _, rfl, .upcoming hk, hat'⟩
  | case4 t kind t₁ h1 hk m h2 =>
    obtain ⟨rfl, hat, -⟩ := h.next_of_ok hsource h1
    obtain ⟨t', h2', -⟩ := hat.forward_pushBack hsource
    cases h2.symm.trans h2'

end StandsAt

/-! ## A session at a cursor -/

namespace Session

/-- What a call returns. -/
def reply (s : Session) : Call → Reply
  | .next =>
    match s.tokenizer.next with
    | .ok kind _ => .kind kind
    | .error e _ => .failed e
  | .pushBack =>
    match s.tokenizer.pushBack with
    | .ok _ => .done
    | .error m => .misused m
  | .skipWhitespace =>
    match s.tokenizer.skipWhitespace with
    | .ok _ _ => .done
    | .error (.scan e) _ => .failed e
    | .error (.misuse m) _ => .misused m
  | .tokens => .done
  | .tokensNext =>
    match (Tokens.next { tokenizer := s.tokenizer, done := s.done }).1 with
    | some (.ok token) => .token token
    | some (.error e) => .failed e
    | none => .ended

/-- What some calls return. -/
def replies (s : Session) : List Call → List Reply
  | [] => []
  | c :: calls => s.reply c :: (s.call c).replies calls

/-- The tokenizer stands at the cursor, and the iterator has ended if that of the cursor has. -/
structure StandsAt (source : Source) (options : Options) (c : Cursor) (s : Session) : Prop where
  tokenizer : Tokenizer.StandsAt source options c s.tokenizer
  done : s.done = c.ended

namespace StandsAt

variable {source : Source} {options : Options} {c : Cursor} {s : Session}

theorem start : StandsAt source options {} (start source options) :=
  ⟨.start, rfl⟩

variable (hsource : source.Infallible)
include hsource

theorem next (h : StandsAt source options c s) :
    ∃ c', c.Moves (tokenAt source options) .next (s.reply .next) c'
      ∧ StandsAt source options c' (s.call .next) := by
  obtain ⟨t', hn, hat, -⟩ := h.tokenizer.next hsource
  unfold reply Session.call
  dsimp only
  rw [hn]
  exact ⟨c.forward, .next c, hat, h.done⟩

theorem pushBack (h : StandsAt source options c s) :
    ∃ c', c.Moves (tokenAt source options) .pushBack (s.reply .pushBack) c'
      ∧ StandsAt source options c' (s.call .pushBack) := by
  have hstarted := h.tokenizer.started hsource
  have hflag := h.tokenizer.pushedBack
  unfold reply Session.call
  dsimp only
  by_cases hc : c.taken = 0
  · have hb : s.tokenizer.pushBack = .error .nothingRead := by
      unfold Tokenizer.pushBack
      rw [hstarted, hc]
      rfl
    rw [hb]
    exact ⟨c, .pushBack_nothingRead hc, h⟩
  · cases hp : c.pushedBack with
    | true =>
      have hb : s.tokenizer.pushBack = .error .alreadyPushedBack := by
        unfold Tokenizer.pushBack
        rw [hstarted, hflag, hp, decide_eq_true hc]
        rfl
      rw [hb]
      exact ⟨c, .pushBack_again hc hp, h⟩
    | false =>
      obtain ⟨t', hb, hat⟩ := h.tokenizer.pushBack hsource hc hp
      rw [hb]
      exact ⟨_, .pushBack hc hp, hat, h.done⟩

theorem skipWhitespace (h : StandsAt source options c s) :
    ∃ c', c.Moves (tokenAt source options) .skipWhitespace (s.reply .skipWhitespace) c'
      ∧ StandsAt source options c' (s.call .skipWhitespace) := by
  obtain ⟨n, t', hs, hskip, hat⟩ := h.tokenizer.skipWhitespace hsource
  unfold reply Session.call
  dsimp only
  rw [hs]
  exact ⟨_, .skipWhitespace hskip, hat, h.done⟩

theorem tokensNext (h : StandsAt source options c s) :
    ∃ c', c.Moves (tokenAt source options) .tokensNext (s.reply .tokensNext) c'
      ∧ StandsAt source options c' (s.call .tokensNext) := by
  have hdone := h.done
  unfold reply Session.call Tokens.next
  cases hd : s.done with
  | true =>
    rw [hd] at hdone
    exact ⟨c, .tokensNext_ended hdone.symm, ⟨h.tokenizer, hdone⟩⟩
  | false =>
    rw [hd] at hdone
    obtain ⟨t', hn, hat, htoken⟩ := h.tokenizer.next hsource
    dsimp only
    rw [if_neg Bool.false_ne_true, hn]
    dsimp only
    by_cases hk : (tokenAt source options c.upcoming).kind = .eof
    · rw [if_pos hk]
      exact ⟨_, .tokensNext_eof hdone.symm hk, hat.ended true, rfl⟩
    · rw [if_neg hk, htoken]
      exact ⟨_, .tokensNext hdone.symm hk, hat, hdone⟩

/-- **What one call does.** -/
theorem call (h : StandsAt source options c s) (call : Call) :
    ∃ c', c.Moves (tokenAt source options) call (s.reply call) c'
      ∧ StandsAt source options c' (s.call call) := by
  cases call with
  | next => exact h.next hsource
  | pushBack => exact h.pushBack hsource
  | skipWhitespace => exact h.skipWhitespace hsource
  | tokens => exact ⟨_, .tokens c, h.tokenizer.ended _, rfl⟩
  | tokensNext => exact h.tokensNext hsource

/-- What any calls do. -/
theorem run (h : StandsAt source options c s) (calls : List Call) :
    ∃ c', c.Runs (tokenAt source options) calls (s.replies calls) c'
      ∧ StandsAt source options c' (s.run calls) := by
  induction calls generalizing c s with
  | nil => exact ⟨c, .nil c, h⟩
  | cons call calls ih =>
    obtain ⟨c₁, hmove, h₁⟩ := h.call hsource call
    obtain ⟨c', hruns, h'⟩ := ih h₁
    exact ⟨c', .cons hmove hruns, h'⟩

end StandsAt

/-- **A session is a cursor with one step back.** If the source does not fail, any calls return what
they return on a cursor in the sequence of the tokens that `next` alone delivers. The tokenizer is
left in the state of this sequence where the cursor stands, with the current token of it. The
sequence ends in nothing but the end of the input. -/
theorem run_cursor {source : Source} (hsource : source.Infallible) (options : Options)
    (calls : List Call) :
    (∃ c, Cursor.Runs (tokenAt source options) {} calls
          ((start source options).replies calls) c
        -- The cursor leaves no choice.
        ∧ (∀ replies c', Cursor.Runs (tokenAt source options) {} calls replies c' →
          replies = (start source options).replies calls ∧ c' = c)
        ∧ ((start source options).run calls).tokenizer =
          { (ofSource source options).after c.taken with pushedBack := c.pushedBack }
        ∧ (∀ n, c.taken = n + 1 →
          ((start source options).run calls).tokenizer.token = tokenAt source options n)
        ∧ ((start source options).run calls).done = c.ended)
      ∧ (∀ n, Tokenizer.next ((ofSource source options).after n) =
        .ok (tokenAt source options n).kind ((ofSource source options).after (n + 1)))
      ∧ ∃ n, ∀ m, (tokenAt source options m).kind = .eof ↔ n ≤ m := by
  refine ⟨?_, next_tokenAt hsource options, tokenAt_eof hsource options⟩
  have hstart : StandsAt source options {} (start source options) := .start
  obtain ⟨c, hruns, hat⟩ := hstart.run hsource calls
  refine ⟨c, hruns, fun _ _ hruns' => hruns'.unique hruns, hat.tokenizer.state, ?_, hat.done⟩
  intro n hn
  rw [hat.tokenizer.state, hn]
  rfl

/-- Spacing is skipped, the token behind it stays pushed back, and an iterator begins with it. -/
theorem run_cursor_skipping :
    ∃ c, Cursor.Runs (tokenAt (Source.ofString "a <!-- b") {}) {}
      [.next, .skipWhitespace, .pushBack, .tokens, .tokensNext, .tokensNext]
      [.kind .ident, .done, .misused .alreadyPushedBack, .done,
        .token { kind := .ident, value := "b", position := 8 }, .ended] c := by
  obtain ⟨⟨c, hruns, -⟩, -⟩ := run_cursor (Source.infallible_ofString "a <!-- b") {}
    [.next, .skipWhitespace, .pushBack, .tokens, .tokensNext, .tokensNext]
  have hr : (start (Source.ofString "a <!-- b") {}).replies
        [.next, .skipWhitespace, .pushBack, .tokens, .tokensNext, .tokensNext] =
      [.kind .ident, .done, .misused .alreadyPushedBack, .done,
        .token { kind := .ident, value := "b", position := 8 }, .ended] := by decide +kernel
  rw [hr] at hruns
  exact ⟨c, hruns⟩

end Session

end Tokenizer

end CssTokens
