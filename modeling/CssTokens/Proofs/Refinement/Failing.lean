import CssTokens.Proofs.Refinement.Frame
import CssTokens.Proofs.Refinement.Tokenizer

/-!
# Sources that fail

Where a source does not fail, a tokenizer refines the lexer of plain text. If the source fails, that
still holds of each call that returns a token: the call comes to what it would have come to over the
characters of the source alone, since what is behind the events that it takes has no say in it. The
same goes for each production by itself (`ScanM.ComesTo`). After a failure nothing is pushed back,
so that the next call begins with the rest of the source.

Main statements: what a call returns is the first delivered lexeme of the text that is left, whether
the source fails elsewhere or not (`next_of_sound`), and it takes the events of the source one after
the other (`next_passes`, `next_stops`).
-/

namespace CssTokens

/-! ## The characters of a source -/

namespace Source

/-- The events of a source that are no failures. -/
def withoutFailures (source : Source) : Source :=
  source.filter (·.char?.isSome)

variable (source : Source)

theorem infallible_withoutFailures : source.withoutFailures.Infallible :=
  fun _ he => (List.mem_filter.mp he).2

theorem chars_withoutFailures : source.withoutFailures.chars = source.chars := by
  induction source with
  | nil => rfl
  | cons e source ih =>
    cases e with
    | char c m => exact congrArg (c :: ·) ih
    | fail f => exact ih

end Source

namespace Scanner

/-- What holds of a scanner between two calls: the end of the input is on the stack only where it
is, and the text that is left is in normal form. -/
structure Sound (s : Scanner) : Prop where
  ends : none ∈ s.pushed → s.Settled
  normal : ∀ c ∈ s.remaining, isNormal c = true

variable {s s' : Scanner}

/-- Where nothing is pushed back, as after a failure. -/
theorem sound_of_pushed_nil (h : s.pushed = []) : s.Sound where
  ends hnone := by
    rw [h] at hnone
    cases hnone
  normal c hc := by
    rw [remaining_of_pushed_nil h] at hc
    exact isNormal_of_mem_normalize hc

/-- A stack without the end of the input holds characters. -/
theorem exists_of_none_notMem {results : List (Option Char)} (h : none ∉ results) :
    ∃ cs : List Char, results = cs.map some := by
  induction results with
  | nil => exact ⟨[], rfl⟩
  | cons c results ih =>
    rw [List.mem_cons, not_or] at h
    obtain ⟨cs, rfl⟩ := ih h.2
    cases c with
    | none => exact absurd rfl h.1
    | some c => exact ⟨c :: cs, rfl⟩

/-- Such a scanner is settled over any source that does not fail. -/
theorem settled_of_none_notMem (h : none ∉ s.pushed) {source : Source} (hi : source.Infallible) :
    ({ s with source } : Scanner).Settled := by
  obtain ⟨cs, hcs⟩ := exists_of_none_notMem h
  exact ⟨hi, cs, .inl hcs⟩

/-- The text is that of the characters of the source. -/
theorem remaining_congr {source : Source} (h : source.chars = s.source.chars) :
    ({ s with source } : Scanner).remaining = s.remaining := by
  unfold remaining unread
  rw [h]

/-- After what was taken, the source may as well go on without its failures. -/
theorem Passes.chars_withoutFailures {taken : Source} (h : Passes s taken s') :
    (taken ++ s'.source.withoutFailures).chars = s.source.chars := by
  rw [h.source, Source.chars_append, Source.chars_append, Source.chars_withoutFailures]

/-- A character to come is left in the text, unless it is a LF. -/
theorem unread_letter (s : Scanner) :
    ({ s with source := [.char 'a'] } : Scanner).unread = ['a'] := by
  unfold unread
  cases s.afterCr <;> rfl

end Scanner

open Scanner

/-! ## Computations -/

/-- A computation succeeds with `a` and leaves the text `rest` unless the source fails before, and
it fails only where the source does. -/
structure ScanM.ComesTo {α : Type} (m : ScanM α) (s : Scanner) (a : α) (rest : List Char) :
    Prop where
  total : s.source.Infallible → ∃ s', m s = .ok a s'
  ok : ∀ b s', m s = .ok b s' → b = a ∧ s'.remaining = rest ∧ (none ∈ s'.pushed → s'.Settled)
  error : ∀ e s', m s = .error e s' → ∃ taken, Stops s taken e s'

namespace ScanM.Reads

variable {α : Type} {m : ScanM α} {f : Split α} {s s' : Scanner} {a : α} (hm : Reads m f)
  (hframed : m.Framed)
include hm hframed

/-- What a computation comes to does not depend on what the source goes on with, so that it may be
taken to go on with something that does not fail. -/
theorem of_taken (h : none ∉ s.pushed) (hr : m s = .ok a s') :
    ∃ taken, Passes s taken s' ∧ ∀ rest : Source, rest.Infallible → (s'.source = [] → rest = []) →
      (f ({ s with source := taken ++ rest } : Scanner).remaining).1 = a
        ∧ ({ s' with source := rest } : Scanner).Settled
        ∧ ({ s' with source := rest } : Scanner).remaining =
          (f ({ s with source := taken ++ rest } : Scanner).remaining).2 := by
  obtain ⟨taken, hpass, hframe⟩ := hframed.ok hr
  refine ⟨taken, hpass, fun rest hi hrest => ?_⟩
  have hs := settled_of_none_notMem h (Source.infallible_append.mpr ⟨hpass.infallible, hi⟩)
  exact hm.of_ok hs (hframe rest hrest)

/-- Before the end of the source, the end of the input is not pushed back. -/
theorem none_notMem_pushed (h : none ∉ s.pushed) (hr : m s = .ok a s') (hne : s'.source ≠ []) :
    none ∉ s'.pushed := by
  obtain ⟨taken, -, hover⟩ := hm.of_taken hframed h hr
  -- The source may as well go on with a letter, which is left.
  obtain ⟨-, hs, -⟩ := hover [.char 'a'] (Source.infallible_singleton _ _) fun hnil =>
    absurd hnil hne
  intro hend
  obtain ⟨cs, hcs | ⟨-, hunread⟩⟩ := hs.pushed
  · rw [hcs] at hend
    simp at hend
  · rw [unread_letter] at hunread
    cases hunread

section
variable (hs : none ∈ s.pushed → s.Settled)
include hs

/-- **A computation that succeeds does to the text what it does without failures.** -/
theorem of_ends (hr : m s = .ok a s') :
    (f s.remaining).1 = a ∧ s'.remaining = (f s.remaining).2
      ∧ (none ∈ s'.pushed → s'.Settled) := by
  by_cases hnone : none ∈ s.pushed
  · obtain ⟨ha, hs', hrem⟩ := hm.of_ok (hs hnone) hr
    exact ⟨ha, hrem, fun _ => hs'⟩
  · obtain ⟨taken, hpass, hover⟩ := hm.of_taken hframed hnone hr
    obtain ⟨ha, -, hrem⟩ := hover s'.source.withoutFailures (Source.infallible_withoutFailures _)
      fun hnil => by rw [hnil]; rfl
    rw [remaining_congr hpass.chars_withoutFailures] at ha hrem
    rw [remaining_congr (Source.chars_withoutFailures _)] at hrem
    refine ⟨ha, hrem, fun hend => ?_⟩
    by_cases hnil : s'.source = []
    · obtain ⟨-, hs', -⟩ := hover [] Source.infallible_nil fun _ => rfl
      rwa [← hnil] at hs'
    · exact absurd hend (hm.none_notMem_pushed hframed hnone hr hnil)

theorem comesTo : m.ComesTo s (f s.remaining).1 (f s.remaining).2 where
  total hi := by
    obtain ⟨a, s', h⟩ := hframed.exists_ok hi
    obtain ⟨rfl, -⟩ := hm.of_ends hframed hs h
    exact ⟨s', h⟩
  ok b s' h := by
    obtain ⟨ha, hrem, hends⟩ := hm.of_ends hframed hs h
    exact ⟨ha.symm, hrem, hends⟩
  error _ _ h := hframed.error h

end

end ScanM.Reads

/-! ## Lexemes -/

namespace Lexeme

variable {s s' : Scanner} {l : Lexeme}

/-- Before the end of the source, the end of the input is not read. -/
theorem kind_before_end (h : none ∉ s.pushed) (hr : read s = .ok l s') (hne : s'.source ≠ []) :
    l.kind ≠ .eof := by
  obtain ⟨taken, -, hover⟩ := read_reads.of_taken read_framed h hr
  -- Again a letter is left.
  obtain ⟨hl, -, hrem⟩ := hover [.char 'a'] (Source.infallible_singleton _ _) fun hnil =>
    absurd hnil hne
  intro hk
  rw [← hl] at hk
  rw [(Split.lexeme_kind _).mp hk, remaining, unread_letter] at hrem
  exact List.append_ne_nil_of_right_ne_nil _ (List.cons_ne_nil _ _) hrem

/-- **A lexeme that is read is the first one of the text, whether the source fails behind it or
not.** If it is the end of the input, no failure is to come. -/
theorem read_of_sound (h : s.Sound) (hr : read s = .ok l s') :
    (Split.lexeme s.remaining).1 = l ∧ s'.remaining = (Split.lexeme s.remaining).2 ∧ s'.Sound
      ∧ (l.kind = .eof → s'.source.Infallible) := by
  obtain ⟨hl, hrem, hends⟩ := read_reads.of_ends read_framed h.ends hr
  refine ⟨hl, hrem, ⟨hends, fun c hc => ?_⟩, fun hk => ?_⟩
  · -- The text only gets shorter, so it stays in normal form.
    rw [hrem] at hc
    exact h.normal c ((Split.lexeme_suffix _).subset hc)
  · by_cases hnone : none ∈ s.pushed
    · exact (read_reads.of_ok (h.ends hnone) hr).2.1.infallible
    · by_cases hnil : s'.source = []
      · rw [hnil]
        exact Source.infallible_nil
      · exact absurd hk (kind_before_end hnone hr hnil)

end Lexeme

namespace Tokenizer

variable {t t' : Tokenizer} {kind : TokenKind} {e : ScanError}

/-! ## Events -/

/-- Reading a token takes some events of the source, none of which is a failure. -/
theorem read_passes (h : read t = .ok kind t') : ∃ taken, Passes t.scanner taken t'.scanner := by
  obtain ⟨l, s, hl, -, hs, -⟩ := lexeme_of_read h
  obtain ⟨taken, hpass, -⟩ := Lexeme.read_framed.ok hl
  rw [hs]
  exact ⟨taken, hpass.source, hpass.infallible, hpass.afterCr⟩

theorem read_stops (h : read t = .error e t') : ∃ taken, Stops t.scanner taken e t'.scanner := by
  obtain ⟨s, hl, hs⟩ := lexeme_of_read_error h
  obtain ⟨taken, hstop⟩ := Lexeme.read_framed.error hl
  rw [hs]
  exact ⟨taken, hstop.source, hstop.infallible, hstop.pushed, hstop.afterCr⟩

theorem readDelivered_passes (h : readDelivered t = .ok kind t') :
    ∃ taken, Passes t.scanner taken t'.scanner := by
  fun_induction readDelivered t with
  | case1 => cases h
  | case2 t kind₁ t₁ h1 _ ih =>
    obtain ⟨taken, hpass⟩ := read_passes h1
    obtain ⟨taken', hpass'⟩ := ih h
    exact ⟨taken ++ taken', hpass.trans hpass'⟩
  | case3 t kind₁ t₁ h1 =>
    obtain ⟨taken, hpass⟩ := read_passes h1
    cases h
    exact ⟨taken, hpass⟩

theorem readDelivered_stops (h : readDelivered t = .error e t') :
    ∃ taken, Stops t.scanner taken e t'.scanner := by
  fun_induction readDelivered t with
  | case1 t e₁ t₁ h1 =>
    cases h
    exact read_stops h1
  | case2 t kind₁ t₁ h1 _ ih =>
    -- A comment is left out before the failure.
    obtain ⟨taken, hpass⟩ := read_passes h1
    obtain ⟨taken', hstop⟩ := ih h
    exact ⟨taken ++ taken', hpass.stops hstop⟩
  | case3 => cases h

/-- **A call that returns a token takes some events of the source, none of which is a failure.** -/
theorem next_passes (h : t.next = .ok kind t') : ∃ taken, Passes t.scanner taken t'.scanner := by
  cases hp : t.pushedBack with
  | true =>
    rw [next_pushedBack hp] at h
    cases h
    exact ⟨[], .of_eq rfl rfl⟩
  | false =>
    rw [next_eq_readDelivered hp] at h
    exact readDelivered_passes h

/-- **A call that fails takes the events of the source up to its first failure, which it reports.**
Nothing is pushed back then. -/
theorem next_stops (h : t.next = .error e t') : ∃ taken, Stops t.scanner taken e t'.scanner := by
  cases hp : t.pushedBack with
  | true =>
    rw [next_pushedBack hp] at h
    cases h
  | false =>
    rw [next_eq_readDelivered hp] at h
    exact readDelivered_stops h

/-! ## Tokens -/

/-- The state in which a tokenizer has read the lexeme `l` and has `rest` left, when its source may
fail. -/
structure FailingStep (t : Tokenizer) (l : Lexeme) (rest : List Char) (t' : Tokenizer) : Prop where
  sound : t'.scanner.Sound
  remaining : t'.remaining = rest
  token : t'.token.unplaced = l.token
  options : t'.options = t.options
  /-- No failure comes after the end of the input. -/
  infallible : l.kind = .eof → t'.scanner.source.Infallible

theorem read_of_sound (hs : t.scanner.Sound) (h : read t = .ok kind t') :
    (Split.lexeme t.remaining).1.kind = kind
      ∧ FailingStep t (Split.lexeme t.remaining).1 (Split.lexeme t.remaining).2 t' := by
  obtain ⟨l, s, hl, rfl, hs', htoken⟩ := lexeme_of_read h
  obtain ⟨hfirst, hrem, hsound, hend⟩ := Lexeme.read_of_sound hs hl
  have hkeeps := read_keeps t
  rw [h] at hkeeps
  have hl' : (Split.lexeme t.remaining).1 = l := hfirst
  rw [hl']
  refine ⟨rfl, ?_, ?_, ?_, hkeeps.1, ?_⟩
  · rw [hs']
    exact ⟨fun hnone => ⟨(hsound.ends hnone).infallible, (hsound.ends hnone).pushed⟩, hsound.normal⟩
  · rw [Tokenizer.remaining, hs']
    exact hrem
  · rw [htoken]
    rfl
  · rw [hs']
    exact hend

/-- Unless the source fails, a token is read. -/
theorem exists_read (hi : t.scanner.source.Infallible) : ∃ kind t', read t = .ok kind t' := by
  cases h : read t with
  | ok kind t' => exact ⟨kind, t', rfl⟩
  | error e t' =>
    obtain ⟨taken, hstop⟩ := read_stops h
    have hfail : Event.fail e.cause ∈ t.scanner.source := by
      rw [hstop.source]
      exact List.mem_append_cons_self
    cases hi _ hfail

theorem readDelivered_of_sound (hs : t.scanner.Sound) (h : readDelivered t = .ok kind t') :
    (Split.delivered t.options.skipComments t.remaining).1.kind = kind
      ∧ FailingStep t (Split.delivered t.options.skipComments t.remaining).1
        (Split.delivered t.options.skipComments t.remaining).2 t' := by
  fun_induction readDelivered t with
  | case1 => cases h
  | case2 t kind₁ t₁ h1 hk ih =>
    -- A comment is left out, and the next lexeme is in what is left.
    obtain ⟨rfl, hstep⟩ := read_of_sound hs h1
    obtain ⟨hkind, hstep'⟩ := ih hstep.sound h
    rw [hstep.options, hstep.remaining, ← Split.delivered_skip hk] at hkind hstep'
    exact ⟨hkind, { hstep' with options := hstep'.options.trans hstep.options }⟩
  | case3 t kind₁ t₁ h1 hk =>
    obtain ⟨rfl, hstep⟩ := read_of_sound hs h1
    cases h
    rw [Split.delivered_keep hk]
    exact ⟨rfl, { hstep with }⟩

/-- **What a call returns is the first delivered lexeme of the text**, unless a token was pushed
back. -/
theorem next_of_sound (hs : t.scanner.Sound) (hp : t.pushedBack = false)
    (h : t.next = .ok kind t') :
    (Split.delivered t.options.skipComments t.remaining).1.kind = kind
      ∧ FailingStep t (Split.delivered t.options.skipComments t.remaining).1
        (Split.delivered t.options.skipComments t.remaining).2 t' := by
  rw [next_eq_readDelivered hp] at h
  exact readDelivered_of_sound hs h

/-- Between two calls a scanner is sound, whatever they have come to. -/
theorem next_sound (hs : t.scanner.Sound) : (stateOf t.next).scanner.Sound := by
  cases hp : t.pushedBack with
  | true =>
    rw [next_pushedBack hp]
    exact hs
  | false =>
    cases h : t.next with
    | ok kind t' => exact (next_of_sound hs hp h).2.sound
    | error e t' =>
      obtain ⟨taken, hstop⟩ := next_stops h
      exact sound_of_pushed_nil hstop.pushed

end Tokenizer

end CssTokens
