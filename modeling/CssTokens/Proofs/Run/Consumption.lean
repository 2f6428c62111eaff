import CssTokens.Proofs.Run.Reachable

/-!
# How a run of tokens uses up its text

A call of `next` delivers a token, which takes a piece of the text from its front, or the end of the
input, which takes nothing. So a run loses nothing of the text, reads nothing twice and comes to an
end, in which it stays.

Main statement: any run uses up the text of a source that does not fail, and a run with comments
takes it apart into one piece for each token (`run_usesUp`).
-/

namespace CssTokens

namespace Tokenizer

/-- How a run of `next` from `t` uses up the text. -/
structure UsesUp (t : Tokenizer) (text : List Char) : Prop where
  /-- Each call delivers a token. -/
  delivers : ∀ n, ∃ kind, next (t.after n) = .ok kind (t.after (n + 1))
  /-- Between the calls an end of the text is left. -/
  suffix : ∀ n, (t.after n).remaining <:+ text
  /-- A token takes something of what is left. -/
  shorter : ∀ n kind, next (t.after n) = .ok kind (t.after (n + 1)) → kind ≠ .eof →
    (t.after (n + 1)).remaining.length < (t.after n).remaining.length
  /-- After the end of the input nothing is left, and the end is delivered again and again. -/
  stays : ∀ n, next (t.after n) = .ok .eof (t.after (n + 1)) → ∀ m, n < m →
    (t.after m).remaining = [] ∧ next (t.after m) = .ok .eof (t.after (m + 1))
  /-- There are not more tokens than characters before the end of the input. -/
  ends : ∃ n, n ≤ text.length ∧ next (t.after n) = .ok .eof (t.after (n + 1))

/-- A run of `next` from `t` takes the text apart into pieces, one for each token. -/
structure TakesApart (t : Tokenizer) (text : List Char) (pieces : List (List Char)) : Prop where
  nonempty : ∀ p ∈ pieces, p ≠ []
  flatten : pieces.flatten = text
  length_le : pieces.length ≤ text.length
  /-- The tokens have taken the first pieces, and the others are left. -/
  remaining : ∀ n, (t.after n).remaining = (pieces.drop n).flatten
  /-- The end of the input is delivered if there are no more pieces. -/
  eof : ∀ n, next (t.after n) = .ok .eof (t.after (n + 1)) ↔ pieces.length ≤ n
  /-- It is delivered if nothing is left. -/
  eof_iff : ∀ n, next (t.after n) = .ok .eof (t.after (n + 1)) ↔ (t.after n).remaining = []

/-! ## One call after the other -/

/-- Nothing was pushed back, and the text is that of a scanner that does not fail. -/
structure Ready (t : Tokenizer) : Prop where
  settled : t.scanner.Settled
  pushedBack : t.pushedBack = false

theorem ready_ofSource {source : Source} (h : source.Infallible) (options : Options) :
    (ofSource source options).Ready :=
  ⟨Scanner.settled_ofSource h, rfl⟩

variable {t : Tokenizer}

/-- The kind of the token that is delivered next. -/
def nextKind (t : Tokenizer) : TokenKind :=
  (Split.delivered t.options.skipComments t.remaining).1.kind

theorem Ready.next (h : t.Ready) :
    t.next = .ok t.nextKind (stateOf t.next)
      ∧ Step t (Split.delivered t.options.skipComments t.remaining).1
        (Split.delivered t.options.skipComments t.remaining).2 (stateOf t.next) :=
  next_stateOf h.settled h.pushedBack

theorem Ready.after (h : t.Ready) : ∀ n, (t.after n).Ready
  | 0 => h
  | n + 1 => by
    have hn := h.after n
    have hstep := hn.next.2
    exact ⟨hstep.settled, hstep.pushedBack.trans hn.pushedBack⟩

theorem Ready.options_after (h : t.Ready) : ∀ n, (t.after n).options = t.options
  | 0 => rfl
  | n + 1 => ((h.after n).next.2.options).trans (h.options_after n)

/-- The call after `n` tokens. -/
theorem Ready.next_after (h : t.Ready) (n : Nat) :
    Tokenizer.next (t.after n) = .ok (t.after n).nextKind (t.after (n + 1)) :=
  (h.after n).next.1

theorem Ready.remaining_after (h : t.Ready) (n : Nat) :
    (t.after (n + 1)).remaining =
      (Split.delivered t.options.skipComments (t.after n).remaining).2 := by
  rw [← h.options_after n]
  exact (h.after n).next.2.remaining

theorem Ready.next_after_iff (h : t.Ready) (n : Nat) (kind : TokenKind) :
    Tokenizer.next (t.after n) = .ok kind (t.after (n + 1)) ↔ (t.after n).nextKind = kind := by
  rw [h.next_after]
  constructor
  · intro heq
    exact (EStateM.Result.ok.inj heq).1
  · rintro rfl
    rfl

theorem nextKind_of_nil (h : t.remaining = []) : t.nextKind = .eof := by
  rw [nextKind, h, Split.delivered_nil]
  rfl

/-! ## Any run -/

theorem Ready.suffix (h : t.Ready) : ∀ n, (t.after n).remaining <:+ t.remaining
  | 0 => List.suffix_refl _
  | n + 1 => by
    rw [h.remaining_after]
    exact (Split.delivered_suffix _ _).trans (h.suffix n)

theorem Ready.shorter (h : t.Ready) {n : Nat} (hk : (t.after n).nextKind ≠ .eof) :
    (t.after (n + 1)).remaining.length < (t.after n).remaining.length := by
  rw [h.remaining_after]
  rw [nextKind, h.options_after] at hk
  exact Split.delivered_shorter hk

theorem Ready.remaining_of_eof (h : t.Ready) {n : Nat} (hk : (t.after n).nextKind = .eof) :
    (t.after (n + 1)).remaining = [] := by
  rw [h.remaining_after]
  rw [nextKind, h.options_after] at hk
  rw [Split.delivered_eof hk]

theorem Ready.stays (h : t.Ready) {n m : Nat} (hk : (t.after n).nextKind = .eof) (hm : n < m) :
    (t.after m).remaining = [] := by
  -- After the end nothing is left, and where nothing is left the end comes next.
  induction hm with
  | refl => exact h.remaining_of_eof hk
  | step _ ih => exact h.remaining_of_eof (nextKind_of_nil ih)

/-- Each token before the end has cost a character. -/
theorem Ready.ends (h : t.Ready) (n : Nat) :
    (∃ m, m ≤ n ∧ (t.after m).nextKind = .eof)
      ∨ (t.after (n + 1)).remaining.length + (n + 1) ≤ t.remaining.length := by
  induction n with
  | zero =>
    by_cases hk : (t.after 0).nextKind = .eof
    · exact .inl ⟨0, Nat.le_refl 0, hk⟩
    · exact .inr (h.shorter hk)
  | succ n ih =>
    -- The end was delivered before, or it is delivered now, or one more character is gone.
    rcases ih with ⟨m, hm, hk⟩ | hlen
    · exact .inl ⟨m, Nat.le_succ_of_le hm, hk⟩
    · by_cases hk : (t.after (n + 1)).nextKind = .eof
      · exact .inl ⟨n + 1, Nat.le_refl _, hk⟩
      · have := h.shorter hk
        exact .inr (by omega)

theorem Ready.usesUp (h : t.Ready) : UsesUp t t.remaining where
  delivers n := ⟨_, h.next_after n⟩
  suffix := h.suffix
  shorter n kind hn hk := h.shorter (by rwa [(h.next_after_iff n kind).mp hn])
  stays n hn m hm := by
    have hnil := h.stays ((h.next_after_iff n .eof).mp hn) hm
    exact ⟨hnil, (h.next_after_iff m .eof).mpr (nextKind_of_nil hnil)⟩
  ends := by
    rcases h.ends t.remaining.length with ⟨n, hn, hk⟩ | hlen
    · exact ⟨n, hn, (h.next_after_iff n .eof).mpr hk⟩
    · omega

/-! ## Runs with comments -/

theorem Ready.nextKind_eof (h : t.Ready) (hc : t.options.skipComments = false) (n : Nat) :
    (t.after n).nextKind = .eof ↔ (t.after n).remaining = [] := by
  rw [nextKind, h.options_after, hc, Split.delivered_false]
  exact Split.lexeme_kind _

/-- The pieces that are left are those of what is left. -/
theorem Ready.pieces_after (h : t.Ready) (hc : t.options.skipComments = false) (n : Nat) :
    Split.pieces (t.after n).remaining = (Split.pieces t.remaining).drop n := by
  induction n with
  | zero => rfl
  | succ n ih =>
    rw [h.remaining_after, hc, Split.delivered_false, Split.pieces_lexeme, ih, List.tail_drop]

theorem Ready.takesApart (h : t.Ready) (hc : t.options.skipComments = false) :
    TakesApart t t.remaining (Split.pieces t.remaining) where
  nonempty := Split.pieces_ne_nil _
  flatten := Split.pieces_flatten _
  length_le := Split.pieces_length_le _
  remaining n := by rw [← h.pieces_after hc, Split.pieces_flatten]
  eof n := by
    rw [h.next_after_iff, h.nextKind_eof hc, ← Split.pieces_eq_nil, h.pieces_after hc,
      List.drop_eq_nil_iff]
  eof_iff n := by rw [h.next_after_iff, h.nextKind_eof hc]

/-! ## Runs over a source -/

/-- **Any run over a source that does not fail uses up its text. With comments, it takes the text
apart into pieces.** -/
theorem run_usesUp {source : Source} (h : source.Infallible) (options : Options) :
    UsesUp (ofSource source options) (normalize source.chars)
      ∧ (options.skipComments = false → ∃ pieces,
        TakesApart (ofSource source options) (normalize source.chars) pieces) :=
  have hready := ready_ofSource h options
  ⟨hready.usesUp, fun hc => ⟨_, hready.takesApart hc⟩⟩

/-- A text with a comment and CR LF is taken apart. -/
theorem ofString_comment_takesApart :
    UsesUp (ofString "a/**/\r\n1." { skipComments := false })
        ['a', '/', '*', '*', '/', '\n', '1', '.']
      ∧ ∃ pieces, TakesApart (ofString "a/**/\r\n1." { skipComments := false })
        ['a', '/', '*', '*', '/', '\n', '1', '.'] pieces := by
  have h := run_usesUp (Source.infallible_ofString "a/**/\r\n1.") { skipComments := false }
  exact ⟨h.1, h.2 rfl⟩

end Tokenizer

end CssTokens
