import CssTokens.Proofs.Split.PushBack
import CssTokens.Proofs.Text.Normal

/-!
# A scanner as a text

What a scanner still has to deliver is a text: the characters that were pushed back, then the rest
of its source in normal form. A computation over scanners refines a `Split` if it does to this text
what the `Split` does (`ScanM.Reads`), no matter how much of the text was pushed back. The end of
the input may have been pushed back too, but only when there is nothing behind it
(`Scanner.Settled`).
-/

namespace CssTokens

namespace Scanner

/-- The text that the source still delivers, in normal form. -/
def unread (s : Scanner) : List Char :=
  normalize (if s.afterCr then dropLf s.source.chars else s.source.chars)

/-- The text that the scanner still delivers. -/
def remaining (s : Scanner) : List Char :=
  s.pushed.filterMap id ++ s.unread

/-- The source does not fail, and the end of the input was pushed back where it is. -/
structure Settled (s : Scanner) : Prop where
  infallible : s.source.Infallible
  pushed : ∃ cs : List Char,
    s.pushed = cs.map some ∨ (s.pushed = cs.map some ++ [none] ∧ s.unread = [])

theorem remaining_of_pushed_nil {s : Scanner} (h : s.pushed = []) : s.remaining = s.unread := by
  rw [remaining, h]
  rfl

/-- The scanner of a source is settled, and its text is that of the source. -/
theorem settled_ofSource {source : Source} (h : source.Infallible) :
    ({ source } : Scanner).Settled :=
  ⟨h, [], .inl rfl⟩

/-- The text is not longer than what the scanner may deliver at most. -/
theorem remaining_length_le (s : Scanner) : s.remaining.length ≤ s.budget := by
  have hpushed : (s.pushed.filterMap id).length = s.pushed.countP Option.isSome := by
    rw [List.length_filterMap_eq_countP]
    rfl
  have hsource : s.source.chars.length ≤ s.source.length := List.length_filterMap_le _ _
  have hunread : s.unread.length ≤ s.source.chars.length := by
    unfold unread
    split
    · exact Nat.le_trans (normalize_length_le _) (dropLf_length_le _)
    · exact normalize_length_le _
  rw [remaining, List.length_append, hpushed, budget]
  omega

/-! ## Reading from the source -/

/-- The result of a read that delivers the first character of `cs`, or the end if there is none. -/
def Delivers (cs : List Char) (pushed : List (Option Char))
    (result : EStateM.Result ScanError Scanner (Option Char)) : Prop :=
  ∃ s', result = .ok cs.head? s' ∧ s'.source.Infallible ∧ s'.pushed = pushed ∧ s'.unread = cs.tail

theorem delivers_accept_none {s : Scanner} (h : s.source = []) (hcr : s.afterCr = false) :
    Delivers [] s.pushed (accept none s) := by
  refine ⟨{ s with current := none }, rfl, ?_, rfl, ?_⟩
  · rw [h]
    intro e he
    cases he
  · rw [unread, h, hcr]
    rfl

theorem delivers_accept_some (c : Char) {s : Scanner} (h : s.source.Infallible)
    (hcr : s.afterCr = false) :
    Delivers (normalize (c :: s.source.chars)) s.pushed (accept (some c) s) := by
  rw [normalize_cons]
  unfold accept normalizeChar
  -- Only a CR is remembered; for any other character the rest of the source is the text left.
  by_cases h1 : c = '\r'
  · subst h1
    exact ⟨_, rfl, h, rfl, rfl⟩
  have hu : s.unread = normalize (if c == '\r' then dropLf s.source.chars else s.source.chars) := by
    have hc : ¬(c == '\r') = true := by simpa using h1
    rw [unread, hcr, if_neg hc]
    rfl
  by_cases h2 : c = '\n'
  · subst h2
    exact ⟨_, rfl, h, rfl, hu⟩
  by_cases h3 : c = '\x0C'
  · subst h3
    exact ⟨_, rfl, h, rfl, hu⟩
  by_cases h4 : c = '\x00'
  · subst h4
    exact ⟨_, rfl, h, rfl, hu⟩
  · simp only [h1, h2, h3, h4, beq_iff_eq, Bool.or_eq_true, or_self, if_false] at hu ⊢
    exact ⟨_, rfl, h, rfl, hu⟩

/-- The source delivers its text character by character, and then the end. -/
theorem delivers_readFresh {s : Scanner} (h : s.source.Infallible) :
    Delivers s.unread s.pushed (readFresh s) := by
  obtain ⟨source, pushed, position, line, current, afterCr, malformed⟩ := s
  cases source with
  | nil => cases afterCr <;> exact delivers_accept_none rfl rfl
  | cons e source =>
    cases e with
    | fail f =>
      have := h _ List.mem_cons_self
      cases this
    | char c m =>
      have hs : Source.Infallible source := h.tail
      cases afterCr with
      | false => exact delivers_accept_some c hs rfl
      | true =>
        by_cases hc : c = '\n'
        · -- The LF belongs to the CR, and the character after it is the next one.
          subst hc
          cases source with
          | nil => exact delivers_accept_none rfl rfl
          | cons e source =>
            cases e with
            | fail f =>
              have := hs _ List.mem_cons_self
              cases this
            | char d m' => exact delivers_accept_some d hs.tail rfl
        · have hu : dropLf (c :: Source.chars source) = c :: Source.chars source := dropLf_of_ne hc
          show Delivers (normalize (dropLf (c :: Source.chars source))) pushed _
          rw [hu, readFresh, readSource]
          simp only [Bool.true_and, beq_iff_eq, Option.some.injEq, hc, if_false]
          exact delivers_accept_some c hs rfl

/-! ## Reading and pushing back -/

/-- The scanner delivers its text character by character. At the end nothing is left on its stack,
so that the end of the input may be pushed back. -/
theorem next_remaining {s : Scanner} (h : s.Settled) :
    ∃ s', next s = .ok s.remaining.head? s' ∧ s'.Settled ∧ s'.remaining = s.remaining.tail
      ∧ (s.remaining = [] → s'.pushed = []) := by
  obtain ⟨hi, cs, hp⟩ := h
  -- Something was pushed back, or nothing, or nothing but the end of the input.
  cases cs with
  | cons c cs =>
    have hc : s.pushed = some c :: s.pushed.tail := by
      rcases hp with hp | ⟨hp, -⟩ <;> rw [hp] <;> rfl
    have hr : s.remaining = c :: ({ s with pushed := s.pushed.tail } : Scanner).remaining := by
      rw [remaining, hc]
      rfl
    rw [hr]
    refine ⟨{ s with pushed := s.pushed.tail, current := some c }, by rw [next, hc]; rfl, ?_, rfl,
      fun h => absurd h (List.cons_ne_nil _ _)⟩
    refine ⟨hi, cs, ?_⟩
    rcases hp with hp | ⟨hp, hu⟩
    · exact .inl (by rw [hp]; rfl)
    · exact .inr ⟨by rw [hp]; rfl, hu⟩
  | nil =>
    rcases hp with hp | ⟨hp, hu⟩
    · obtain ⟨s', h1, h2, h3, h4⟩ := delivers_readFresh hi
      have hs' : s'.pushed = [] := h3.trans hp
      rw [remaining_of_pushed_nil hp]
      refine ⟨s', by rw [next, hp, ← h1]; rfl, ⟨h2, [], .inl hs'⟩, ?_, fun _ => hs'⟩
      rw [remaining_of_pushed_nil hs', h4]
    · have hr : s.remaining = [] := by
        rw [remaining, hp, hu]
        rfl
      rw [hr]
      refine ⟨{ s with pushed := [], current := none }, by rw [next, hp]; rfl,
        ⟨hi, [], .inl rfl⟩, hu, fun _ => rfl⟩

theorem pushBack_remaining (c : Char) {s : Scanner} (h : s.Settled) :
    ∃ s', pushBack (some c) s = .ok () s' ∧ s'.Settled ∧ s'.remaining = c :: s.remaining := by
  refine ⟨{ s with pushed := some c :: s.pushed }, rfl, ⟨h.infallible, ?_⟩, rfl⟩
  obtain ⟨cs, hp⟩ := h.pushed
  refine ⟨c :: cs, ?_⟩
  rcases hp with hp | ⟨hp, hu⟩
  · exact .inl (by rw [hp]; rfl)
  · exact .inr ⟨by rw [hp]; rfl, hu⟩

theorem pushBack_none_remaining {s : Scanner} (h : s.Settled) (hp : s.pushed = [])
    (hr : s.remaining = []) :
    ∃ s', pushBack none s = .ok () s' ∧ s'.Settled ∧ s'.remaining = [] := by
  have hu : s.unread = [] := by rwa [remaining_of_pushed_nil hp] at hr
  refine ⟨{ s with pushed := none :: s.pushed }, rfl, ⟨h.infallible, [], ?_⟩, ?_⟩
  · exact .inr ⟨by rw [hp]; rfl, hu⟩
  · rw [remaining, hp]
    exact hu

end Scanner

/-! ## Refinement -/

/-- The computation does to the text of a scanner what `f` does to texts, and it does not fail. -/
def ScanM.Reads {α : Type} (m : ScanM α) (f : Split α) : Prop :=
  ∀ s : Scanner, s.Settled →
    ∃ s', m s = .ok (f s.remaining).1 s' ∧ s'.Settled ∧ s'.remaining = (f s.remaining).2

namespace ScanM.Reads

variable {α β : Type} {m : ScanM α} {f : Split α}

theorem pure (a : α) : Reads (Pure.pure a) (Pure.pure a) :=
  fun s hs => ⟨s, rfl, hs, rfl⟩

theorem bind {k : α → ScanM β} {g : α → Split β} (hm : Reads m f) (hk : ∀ a, Reads (k a) (g a)) :
    Reads (m >>= k) (f >>= g) := by
  intro s hs
  obtain ⟨s₁, h1, hs₁, hr₁⟩ := hm s hs
  obtain ⟨s₂, h2, hs₂, hr₂⟩ := hk (f s.remaining).1 s₁ hs₁
  rw [hr₁] at h2 hr₂
  refine ⟨s₂, ?_, hs₂, hr₂⟩
  show EStateM.bind m k s = _
  rw [EStateM.bind, h1]
  exact h2

theorem congr {g : Split α} (hm : Reads m f) (h : ∀ cs, f cs = g cs) : Reads m g := by
  intro s hs
  rw [← h]
  exact hm s hs

section
variable {s s' : Scanner} (hm : Reads m f) (hs : s.Settled)
include hm hs

/-- What is known of a result. -/
theorem of_ok {a : α} (h : m s = .ok a s') :
    (f s.remaining).1 = a ∧ s'.Settled ∧ s'.remaining = (f s.remaining).2 := by
  obtain ⟨s₁, h1, hs₁, hr₁⟩ := hm s hs
  rw [h] at h1
  obtain ⟨rfl, rfl⟩ := EStateM.Result.ok.inj h1
  exact ⟨rfl, hs₁, hr₁⟩

theorem ne_error {e : ScanError} : m s ≠ .error e s' := by
  intro h
  obtain ⟨s₁, h1, -⟩ := hm s hs
  rw [h] at h1
  cases h1

end

end ScanM.Reads

/--
What a computation comes to that may read nothing. It reads something exactly if `begins`, which
satisfies `reads` together with the text that is left, and otherwise it leaves the text as it is.
-/
structure ScanM.Outcome {α : Type} (m : ScanM (Option α)) (s : Scanner) (begins : Prop)
    (reads : α → List Char → Prop) : Prop where
  succeeds : (∃ a s', m s = .ok (some a) s') ↔ begins
  reads : ∀ a s', m s = .ok (some a) s' → reads a s'.remaining ∧ s'.Settled
  keeps : ¬begins → ∃ s', m s = .ok none s' ∧ s'.remaining = s.remaining ∧ s'.Settled

/-- The outcome of reading is that of reading from the text. -/
theorem ScanM.Reads.outcome {α : Type} {m : ScanM (Option α)} {f : Split (Option α)} {s : Scanner}
    {begins : Prop} {reads : α → List Char → Prop} (hm : Reads m f) (hs : s.Settled)
    (hkeeps : Split.Keeps f) (hbegins : (f s.remaining).1.isSome = true ↔ begins)
    (hreads : ∀ a rest, f s.remaining = (some a, rest) → reads a rest) :
    Outcome m s begins reads := by
  obtain ⟨s₁, h1, hs₁, hr₁⟩ := hm s hs
  refine ⟨?_, fun a s' h => ?_, fun hnone => ?_⟩
  · rw [← hbegins, h1, Option.isSome_iff_exists]
    constructor
    · rintro ⟨a, s', h⟩
      exact ⟨a, (EStateM.Result.ok.inj h).1⟩
    · rintro ⟨a, ha⟩
      exact ⟨a, s₁, by rw [ha]⟩
  · obtain ⟨ha, hs', hrest⟩ := hm.of_ok hs h
    refine ⟨hreads a _ ?_, hs'⟩
    rw [hrest]
    exact Split.eq_of_fst ha
  · rw [← hbegins, Option.not_isSome_iff_eq_none] at hnone
    rw [hnone] at h1
    rw [hkeeps hnone] at hr₁
    exact ⟨s₁, h1, hr₁, hs₁⟩

namespace Scanner

open ScanM (Reads)

theorem pushBack_reads (c : Char) : Reads (pushBack (some c)) (Split.pushBack c) :=
  fun _ hs => pushBack_remaining c hs

theorem next_reads : Reads next (Split.nextIf fun _ => true) := by
  intro s hs
  obtain ⟨s', h, hs', hr, -⟩ := next_remaining hs
  cases hc : s.remaining <;> rw [hc] at h hr <;> exact ⟨s', h, hs', hr⟩

theorem nextIf_reads (p : Char → Bool) : Reads (nextIf p) (Split.nextIf p) := by
  intro s hs
  obtain ⟨s₁, h1, hs₁, hr₁, hp₁⟩ := next_remaining hs
  cases hr : s.remaining with
  | nil =>
    rw [hr] at h1 hr₁
    obtain ⟨s₂, h2, hs₂, hr₂⟩ := pushBack_none_remaining hs₁ (hp₁ hr) hr₁
    refine ⟨s₂, ?_, hs₂, hr₂⟩
    show EStateM.bind next _ s = _
    rw [EStateM.bind, h1]
    show EStateM.bind (pushBack none) _ s₁ = _
    rw [EStateM.bind, h2]
    rfl
  | cons c cs =>
    rw [hr] at h1 hr₁
    by_cases hc : p c = true
    · rw [Split.nextIf_pos hc]
      refine ⟨s₁, ?_, hs₁, hr₁⟩
      show EStateM.bind next _ s = _
      rw [EStateM.bind, h1]
      dsimp only [List.head?_cons]
      rw [if_pos hc]
      rfl
    · obtain ⟨s₂, h2, hs₂, hr₂⟩ := pushBack_remaining c hs₁
      rw [hr₁] at hr₂
      rw [Split.nextIf_neg (by simpa using hc)]
      refine ⟨s₂, ?_, hs₂, hr₂⟩
      show EStateM.bind next _ s = _
      rw [EStateM.bind, h1]
      dsimp only [List.head?_cons]
      rw [if_neg hc]
      show EStateM.bind (pushBack (some c)) _ s₁ = _
      rw [EStateM.bind, h2]
      rfl

theorem nextIs_reads (c : Char) : Reads (nextIs c) (Split.nextIs c) :=
  (nextIf_reads _).bind fun _ => .pure _

theorem nextText_reads (mark : List Char) : Reads (nextText mark) (Split.nextText mark) := by
  refine ScanM.Reads.congr ?_ (Split.Stepwise.nextText_eq mark)
  induction mark with
  | nil => exact .pure true
  | cons c mark ih =>
    refine (nextIs_reads c).bind fun found => ?_
    cases found with
    | false => exact .pure false
    | true =>
      refine ih.bind fun found => ?_
      cases found with
      | true => exact .pure true
      | false => exact (pushBack_reads c).bind fun _ => .pure false

end Scanner

end CssTokens
