import CssTokens.Proofs.Reading.Draining
import CssTokens.Proofs.Refinement.Failing
import CssTokens.Proofs.Run.Lookahead

/-!
# One read of a scanner

A read replays what was pushed back last, or it takes events of the source: a character, or the LF
of a CR LF and the character behind it. It may come to a failure instead, perhaps behind such a LF.

Main statement: a read from the source takes its result from the text or reports a failure, and what
it takes of the source it counts, be there a failure or not (`readFresh_ok_took`,
`readFresh_error_took`).
-/

namespace CssTokens

namespace Scanner

variable {s s' s'' : Scanner} {raw c : Option Char} {e : ScanError}

theorem next_of_pushed_nil (h : s.pushed = []) : next s = readFresh s := by
  rw [next, h]

theorem next_of_pushed_cons {rest : List (Option Char)} (h : s.pushed = c :: rest) :
    next s = .ok c { s with pushed := rest, current := c } := by
  rw [next, h]

/-! ## The last result -/

theorem accept_current (h : accept raw s = .ok c s') : s'.current = c := by
  unfold accept at h
  repeat' split at h
  all_goals cases h; rfl

theorem readFresh_current (h : readFresh s = .ok c s') : s'.current = c := by
  unfold readFresh at h
  split at h
  · cases h
  · split at h
    · split at h
      · cases h
      · exact accept_current h
    · exact accept_current h

theorem next_current (h : next s = .ok c s') : s'.current = c := by
  cases hp : s.pushed with
  | nil =>
    rw [next_of_pushed_nil hp] at h
    exact readFresh_current h
  | cons d rest =>
    rw [next_of_pushed_cons hp] at h
    cases h
    rfl

/-! ## The text and the counters -/

/-- The text does not depend on the failures among the events. -/
theorem unread_congr {source : Source} (h : source.chars = s.source.chars) :
    ({ s with source } : Scanner).unread = s.unread := by
  unfold unread
  rw [h]

/-- A read from the source delivers the first character of the text, whether the source fails
later or not. -/
theorem readFresh_unread (h : readFresh s = .ok c s') :
    s.unread.head? = c ∧ s'.unread = s.unread.tail := by
  obtain ⟨taken, hpass, hframe⟩ := readFresh_ok h
  have hi : (taken ++ s'.source.withoutFailures).Infallible :=
    Source.infallible_append.mpr ⟨hpass.infallible, Source.infallible_withoutFailures _⟩
  have hr := hframe s'.source.withoutFailures fun hnil => by rw [hnil]; rfl
  obtain ⟨s₁, h1, -, -, hu⟩ :=
    delivers_readFresh (s := { s with source := taken ++ s'.source.withoutFailures }) hi
  obtain ⟨hc, rfl⟩ := EStateM.Result.ok.inj (hr.symm.trans h1)
  rw [unread_congr hpass.chars_withoutFailures] at hc hu
  rw [unread_congr (Source.chars_withoutFailures _)] at hu
  exact ⟨hc.symm, hu⟩

/-- From `s` to `s'` a scanner has taken the text `cs` and met the failures `es`, and it has counted
what it took. -/
structure Took (s : Scanner) (cs : List Char) (es : List ScanError) (s' : Scanner) : Prop where
  pushed : s'.pushed = s.pushed
  text : s.unread = cs ++ s'.unread
  errors : s.source.errors = es ++ s'.source.errors
  position : s'.position + s'.source.chars.length = s.position + s.source.chars.length
  line : s'.line = s.line + cs.count '\n'

theorem Took.trans {cs cs' : List Char} {es es' : List ScanError} (h : Took s cs es s')
    (h' : Took s' cs' es' s'') : Took s (cs ++ cs') (es ++ es') s'' where
  pushed := h'.pushed.trans h.pushed
  text := by rw [h.text, h'.text, List.append_assoc]
  errors := by rw [h.errors, h'.errors, List.append_assoc]
  position := h'.position.trans h.position
  line := by
    rw [h'.line, h.line, List.count_append]
    omega

/-- What is read from the source is counted. -/
theorem readFresh_position (h : readFresh s = .ok c s') :
    s'.position + s'.source.chars.length = s.position + s.source.chars.length := by
  obtain ⟨taken, hpass, hpos⟩ : ∃ taken, Passes s taken s'
      ∧ s'.position = s.position + taken.length := by
    rcases readFresh_cases h with ⟨-, -, hpass, hpos⟩ | ⟨before, d, m, -, hpass, hpos, -⟩
    · exact ⟨_, hpass, hpos⟩
    · exact ⟨_, hpass, hpos⟩
  rw [hpos, hpass.source, Source.chars_append, List.length_append, hpass.infallible.length_chars]
  omega

/-- **A read from the source takes its result from the text.** -/
theorem readFresh_ok_took (h : readFresh s = .ok c s') : Took s c.toList [] s' := by
  obtain ⟨taken, hpass, -⟩ := readFresh_ok h
  obtain ⟨hhead, htail⟩ := readFresh_unread h
  refine ⟨readFresh_pushed h, ?_, ?_, readFresh_position h, ?_⟩
  · rw [htail, ← hhead]
    cases s.unread <;> rfl
  · rw [hpass.source, Source.errors_append, hpass.infallible.errors]
  · rw [readFresh_line h]
    cases c with
    | none => rfl
    | some d => simp [lineBreaks, List.count_singleton]

/-- **A failing read leaves all as it was** but for the failure, which it reports, and a LF that
belongs to the last character, which it takes. -/
theorem readFresh_error_took (h : readFresh s = .error e s') :
    Took s [] [e] s' ∧ s'.current = s.current := by
  rcases readFresh_error_cases h with ⟨hs, hs'⟩ | ⟨m, hcr, hs, hs'⟩
  · rw [hs']
    refine ⟨⟨rfl, ?_, ?_, ?_, rfl⟩, rfl⟩
    · exact (unread_congr (by rw [hs]; rfl)).symm
    · rw [hs]
      rfl
    · rw [hs]
      rfl
  · rw [hs']
    refine ⟨⟨rfl, ?_, ?_, ?_, rfl⟩, rfl⟩
    · rw [unread, hcr, hs]
      rfl
    · rw [hs]
      rfl
    · rw [hs]
      simp only [Source.chars, Event.char?, List.filterMap_cons, List.length_cons]
      omega

/-- A failing read is a read from the source, since what was pushed back does not fail. -/
theorem pushed_of_next_error (h : next s = .error e s') : s.pushed = [] := by
  cases hp : s.pushed with
  | nil => rfl
  | cons c rest => cases (next_of_pushed_cons hp).symm.trans h

theorem next_error_took (h : next s = .error e s') :
    Took s [] [e] s' ∧ s'.current = s.current := by
  rw [next_of_pushed_nil (pushed_of_next_error h)] at h
  exact readFresh_error_took h

/-! ## Calls -/

/-- The operations of a scanner. -/
inductive Call where
  | next
  | pushBack (c : Option Char)
  deriving DecidableEq, Repr

/-- What a call returns, if it is a read, and the scanner after it. -/
def call (s : Scanner) : Call → List (Except ScanError (Option Char)) × Scanner
  | .next =>
    match next s with
    | .ok c s' => ([.ok c], s')
    | .error e s' => ([.error e], s')
  | .pushBack c =>
    match pushBack c s with
    | .ok _ s' | .error _ s' => ([], s')

theorem call_next_ok {c : Option Char} (h : next s = .ok c s') :
    s.call .next = ([.ok c], s') := by
  rw [call, h]

theorem call_next_error {e : ScanError} (h : next s = .error e s') :
    s.call .next = ([.error e], s') := by
  rw [call, h]

theorem call_pushBack (c : Option Char) :
    s.call (.pushBack c) = ([], { s with pushed := c :: s.pushed }) :=
  rfl

/-- The current character is the last result, whatever fails. -/
theorem runCalls_current (s : Scanner) (calls : List Call) :
    (runCalls call s calls).2.current =
      (itemsOf (runCalls call s calls).1).getLast?.getD s.current := by
  induction calls generalizing s with
  | nil => rfl
  | cons c calls ih =>
    rw [runCalls]
    dsimp only
    rw [ih, itemsOf_append, List.getLast?_append]
    cases c with
    | pushBack c =>
      rw [call_pushBack]
      cases (itemsOf (runCalls call { s with pushed := c :: s.pushed } calls).1).getLast? <;> rfl
    | next =>
      cases hn : next s with
      | ok c s' =>
        rw [call_next_ok hn, next_current hn]
        cases (itemsOf (runCalls call s' calls).1).getLast? <;> rfl
      | error e s' =>
        rw [call_next_error hn, (next_error_took hn).2]
        cases (itemsOf (runCalls call s' calls).1).getLast? <;> rfl

end Scanner

end CssTokens
