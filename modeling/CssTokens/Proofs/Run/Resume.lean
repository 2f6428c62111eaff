import CssTokens.Proofs.Refinement.Agreement
import CssTokens.Proofs.Refinement.Failing
import CssTokens.Proofs.Run.Comments
import CssTokens.Proofs.Run.Reachable

/-!
# Going on after a failure

A failure of a source may hit a tokenizer at any read, while it holds a sign or a part of a number.
What it holds is lost then: the next call begins with the event behind the failure. Only one thing
is remembered, that the last character was a CR, so that a LF behind the failure belongs to it.

What a scanner has to deliver is the stack and the events that are pending, which are those of its
source without the LF of a CR. Two scanners with the same of both go on alike, through any number of
failures.

Main statement: a run reports each failure of its source once and in order, and after each of them
it goes on like a new tokenizer of the events that are left (`recovers`).
-/

namespace CssTokens

namespace Source

/-- The events after a CR, without the LF that belongs to it. A failure may come before it. -/
def dropLf : Source → Source
  | .char c malformed :: source => if c == '\n' then source else .char c malformed :: source
  | .fail f :: source => .fail f :: dropLf source
  | [] => []

/-- What a read delivers of the events that are pending, and those that are left. -/
def deliver : Source → Except ScanError (Option Char) × Source
  | [] => (.ok none, [])
  | .char c _ :: source =>
    (.ok (some (normalizeChar c)), if c == '\r' then dropLf source else source)
  | .fail f :: source => (.error ⟨f⟩, source)

end Source

/-! ## Pending events -/

namespace Scanner

/-- The events that the source still delivers. -/
def pending (s : Scanner) : Source :=
  if s.afterCr then Source.dropLf s.source else s.source

/-- All of a result that counts for what comes next: what it is, what is pushed back and which
events are pending. -/
def view (r : EStateM.Result ScanError Scanner (Option Char)) :
    Except ScanError (Option Char) × List (Option Char) × Source :=
  match r with
  | .ok c s => (.ok c, s.pushed, s.pending)
  | .error e s => (.error e, s.pushed, s.pending)

theorem view_accept (c : Char) (malformed : Option Encoding) {s : Scanner}
    (hcr : s.afterCr = false) :
    view (accept (some c) s) = ((Source.deliver (.char c malformed :: s.source)).1, s.pushed,
      (Source.deliver (.char c malformed :: s.source)).2) := by
  have hp : s.pending = s.source := by rw [pending, hcr]; rfl
  unfold accept Source.deliver normalizeChar
  by_cases h1 : c = '\r'
  · subst h1
    rfl
  by_cases h2 : c = '\n'
  · subst h2
    exact congrArg (fun source => (_, _, source)) hp
  by_cases h3 : c = '\x0C'
  · subst h3
    exact congrArg (fun source => (_, _, source)) hp
  by_cases h4 : c = '\x00'
  · subst h4
    exact congrArg (fun source => (_, _, source)) hp
  · simp only [h1, h2, h3, h4, beq_iff_eq, Bool.or_eq_true, or_self, if_false]
    exact congrArg (fun source => (_, _, source)) hp

/-- **The source delivers its pending events one by one.** -/
theorem view_readFresh (s : Scanner) :
    view (readFresh s) =
      ((Source.deliver s.pending).1, s.pushed, (Source.deliver s.pending).2) := by
  obtain ⟨source, pushed, position, line, current, afterCr, malformed⟩ := s
  cases source with
  | nil => cases afterCr <;> rfl
  | cons e source =>
    cases e with
    | fail f => cases afterCr <;> rfl
    | char c m =>
      cases afterCr with
      | false => exact view_accept c m rfl
      | true =>
        by_cases hc : c = '\n'
        · -- The LF belongs to the CR, and the event after it is the next one.
          subst hc
          cases source with
          | nil => rfl
          | cons e source =>
            cases e with
            | fail f => rfl
            | char d m' => exact view_accept d m' rfl
        · have hp : Source.dropLf (.char c m :: source) = .char c m :: source := by
            rw [Source.dropLf, if_neg (by simpa using hc)]
          show view (readFresh _) =
            ((Source.deliver (Source.dropLf (.char c m :: source))).1, pushed,
              (Source.deliver (Source.dropLf (.char c m :: source))).2)
          rw [hp, readFresh, readSource]
          simp only [Bool.true_and, beq_iff_eq, Option.some.injEq, hc, if_false]
          exact view_accept c m rfl

/-- The same results were pushed back, and the same events are pending. -/
structure SamePending (s s' : Scanner) : Prop where
  pushed : s.pushed = s'.pushed
  pending : s.pending = s'.pending

namespace SamePending

theorem alike_of_view {r r' : EStateM.Result ScanError Scanner (Option Char)}
    (h : view r = view r') : Alike SamePending SamePending r r' := by
  cases r <;> cases r' <;> simp only [view, Prod.mk.injEq] at h
  · obtain ⟨hc, hpushed, hpending⟩ := h
    cases hc
    exact .ok ⟨hpushed, hpending⟩
  · cases h.1
  · cases h.1
  · obtain ⟨he, hpushed, hpending⟩ := h
    cases he
    exact .error ⟨hpushed, hpending⟩

/-- **Reading and pushing back keep the same events pending**, and so does a failure. -/
theorem agreement : Agreement SamePending SamePending where
  next s s' h := by
    have hp := h.pushed
    unfold next
    cases hs : s.pushed with
    | nil =>
      rw [hs] at hp
      rw [← hp]
      refine alike_of_view ?_
      rw [view_readFresh, view_readFresh, h.pushed, h.pending]
    | cons c rest =>
      rw [hs] at hp
      rw [← hp]
      exact .ok ⟨rfl, h.pending⟩
  pushBack c s s' h := .ok ⟨congrArg (c :: ·) h.pushed, h.pending⟩

end SamePending

end Scanner

namespace Tokenizer

/-! ## Tokenizers that go on alike -/

theorem samePending_agreement :
    Agreement Scanner.SamePending Scanner.SamePending Token.unplaced where
  toAgreement := Scanner.SamePending.agreement
  token _ _ := rfl
  malformed h := ⟨h.pushed, h.pending⟩
  malformed_error h := ⟨h.pushed, h.pending⟩

/-- What a call of `next` comes to, without the place of the token. -/
def unplacedResult (r : Except ScanError (TokenKind × Token)) :
    Except ScanError (TokenKind × Token) :=
  r.map fun (kind, token) => (kind, token.unplaced)

/-- **Tokenizers with the same events pending go on alike**, whatever failures come. -/
theorem results_samePending {t t' : Tokenizer} (h : Related Scanner.SamePending t t') (n : Nat) :
    (t.results n).map unplacedResult = (t'.results n).map unplacedResult := by
  induction n generalizing t t' with
  | zero => rfl
  | succ n ih =>
    rw [results, results, List.map_cons, List.map_cons]
    have hnext := h.next samePending_agreement
    generalize t.next = r at hnext
    generalize t'.next = r' at hnext
    cases hnext with
    | @ok kind t₁ t₁' htoken hsame =>
      show Except.ok (kind, t₁.token.unplaced) :: _ = Except.ok (kind, t₁'.token.unplaced) :: _
      rw [htoken]
      exact congrArg _ (ih hsame)
    | error hsame => exact congrArg _ (ih hsame)

/-- **Where nothing is pushed back, a tokenizer goes on like a new one of the events that are
pending.** -/
theorem results_pending {t : Tokenizer} (hp : t.pushedBack = false) (hs : t.scanner.pushed = [])
    (n : Nat) : (t.results n).map unplacedResult =
      ((ofSource t.scanner.pending t.options).results n).map unplacedResult := by
  have hsame : Related Scanner.SamePending t (ofSource t.scanner.pending t.options) :=
    ⟨⟨hs, rfl⟩, rfl, hp, rfl⟩
  exact results_samePending hsame n

/-! ## One call after the other -/

variable {source : Source} {t : Tokenizer}

/-- The failures that calls have reported. -/
def failures (results : List (Except ScanError (TokenKind × Token))) : List ScanError :=
  results.filterMap fun
    | .ok _ => none
    | .error e => some e

theorem failures_cons (r : Except ScanError (TokenKind × Token))
    (rs : List (Except ScanError (TokenKind × Token))) :
    failures (r :: rs) = failures [r] ++ failures rs := by
  cases r <;> rfl

theorem after_succ (t : Tokenizer) (n : Nat) : (stateOf t.next).after n = t.after (n + 1) := by
  induction n with
  | zero => rfl
  | succ n ih =>
    rw [after, ih]
    rfl

/-- The last call reports its failure after those of the others. -/
theorem failures_succ (t : Tokenizer) (n : Nat) :
    failures (t.results (n + 1)) =
      failures (t.results n) ++ failures [resultOf (t.after n).next] := by
  induction n generalizing t with
  | zero => rfl
  | succ n ih =>
    rw [results, failures_cons, ih, after_succ, ← List.append_assoc, ← failures_cons]
    rfl

/-- No token is pushed back in a run, and the options stay. -/
theorem after_keeps (hp : t.pushedBack = false) (n : Nat) :
    (t.after n).options = t.options ∧ (t.after n).pushedBack = false := by
  induction n with
  | zero => exact ⟨rfl, hp⟩
  | succ n ih =>
    have hkeeps := readDelivered_keeps (t.after n)
    rw [← next_eq_readDelivered ih.2] at hkeeps
    exact ⟨hkeeps.1.trans ih.1, hkeeps.2.trans ih.2⟩

theorem after_sound (hs : t.scanner.Sound) (n : Nat) : (t.after n).scanner.Sound := by
  induction n with
  | zero => exact hs
  | succ n ih => exact next_sound ih

/-- The tokenizer has taken the events `taken` of the source. -/
structure HasTaken (source taken : Source) (t : Tokenizer) : Prop where
  source : source = taken ++ t.scanner.source
  /-- After the end of the source it does not matter. -/
  afterCr : t.scanner.source ≠ [] → t.scanner.afterCr = taken.endsInCr false

namespace HasTaken

variable {taken more : Source} {t' : Tokenizer}

theorem passes (h : HasTaken source taken t) (hpass : t.scanner.Passes more t'.scanner) :
    HasTaken source (taken ++ more) t' where
  source := by rw [h.source, hpass.source, List.append_assoc]
  afterCr hne := by
    have hne' : t.scanner.source ≠ [] := by
      rw [hpass.source]
      exact List.append_ne_nil_of_right_ne_nil _ hne
    rw [hpass.afterCr hne, h.afterCr hne', Source.endsInCr_append]

theorem stops {e : ScanError} (h : HasTaken source taken t)
    (hstop : t.scanner.Stops more e t'.scanner) :
    source = taken ++ more ++ .fail e.cause :: t'.scanner.source
      ∧ t'.scanner.afterCr = (taken ++ more).endsInCr false := by
  have hne : t.scanner.source ≠ [] := by
    rw [hstop.source]
    exact List.append_ne_nil_of_right_ne_nil _ (List.cons_ne_nil _ _)
  constructor
  · rw [h.source, hstop.source, List.append_assoc]
  · rw [hstop.afterCr, h.afterCr hne, Source.endsInCr_append]

/-- **Each call takes some events of the source, and the failure among them is what it reports.** -/
theorem after (h : HasTaken source taken t) (n : Nat) :
    ∃ more, HasTaken source (taken ++ more) (t.after n)
      ∧ failures (t.results n) = more.errors := by
  induction n with
  | zero => exact ⟨[], by rwa [List.append_nil], rfl⟩
  | succ n ih =>
    obtain ⟨more, hmore, hfailures⟩ := ih
    rw [failures_succ, hfailures, Tokenizer.after]
    cases hn : (t.after n).next with
    | ok kind t' =>
      obtain ⟨last, hpass⟩ := next_passes hn
      refine ⟨more ++ last, ?_, ?_⟩
      · rw [← List.append_assoc]
        exact hmore.passes hpass
      · rw [Source.errors_append, hpass.infallible.errors]
        rfl
    | error e t' =>
      obtain ⟨last, hstop⟩ := next_stops hn
      obtain ⟨hsource, hcr⟩ := hmore.stops hstop
      refine ⟨more ++ last ++ [.fail e.cause], ⟨?_, fun _ => ?_⟩, ?_⟩
      · rw [hsource]
        simp [stateOf]
      · rw [← List.append_assoc, Source.endsInCr_append, ← List.append_assoc]
        exact hcr
      · rw [Source.errors_append, Source.errors_append, hstop.infallible.errors, List.append_nil]
        rfl

/-- The failures that are reported and those that are left are those of the source. -/
theorem reported (h : HasTaken source [] t) (n : Nat) :
    failures (t.results n) ++ (t.after n).scanner.source.errors = source.errors := by
  obtain ⟨taken, htaken, hfailures⟩ := h.after n
  rw [hfailures, ← Source.errors_append]
  exact congrArg _ htaken.source.symm

/-- None is left at the end of the input. -/
theorem complete (h : HasTaken source [] t) (hs : t.scanner.Sound) (hp : t.pushedBack = false)
    {n : Nat} (hn : next (t.after n) = .ok .eof (t.after (n + 1))) :
    failures (t.results n) = source.errors := by
  obtain ⟨hkind, hstep⟩ := next_of_sound (after_sound hs n) (after_keeps hp n).2 hn
  have hreported := h.reported (n + 1)
  rw [(hstep.infallible hkind).errors, failures_succ, hn] at hreported
  rw [← hreported]
  simp [resultOf, failures]

end HasTaken

/-! ## The end of the input -/

/-- A call that does not deliver the end of the input costs an event. -/
theorem next_costs (hp : t.pushedBack = false) (hk : ∀ t', t.next ≠ .ok .eof t') :
    (stateOf t.next).scanner.budget < t.scanner.budget := by
  cases hn : t.next with
  | ok kind t' =>
    have hne : kind ≠ .eof := by
      rintro rfl
      exact hk t' hn
    rw [next_eq_readDelivered hp] at hn
    have hb := readDelivered_budget hn
    rw [if_neg hne] at hb
    exact hb
  | error e t' =>
    obtain ⟨taken, hstop⟩ := next_stops hn
    have hlen := congrArg List.length hstop.source
    rw [List.length_append, List.length_cons] at hlen
    show t'.scanner.budget < t.scanner.budget
    rw [Scanner.budget, Scanner.budget, hstop.pushed, List.countP_nil]
    omega

/-- Before the end of the input, each call has cost an event. -/
theorem ends_or_costs (hp : t.pushedBack = false) (n : Nat) :
    (∃ m, m ≤ n ∧ next (t.after m) = .ok .eof (t.after (m + 1)))
      ∨ (t.after (n + 1)).scanner.budget + (n + 1) ≤ t.scanner.budget := by
  have hcost : ∀ n, next (t.after n) = .ok .eof (t.after (n + 1))
      ∨ (t.after (n + 1)).scanner.budget < (t.after n).scanner.budget := by
    intro n
    by_cases hk : ∃ t', next (t.after n) = .ok .eof t'
    · obtain ⟨t', hn⟩ := hk
      rw [after, hn]
      exact .inl rfl
    · exact .inr (next_costs (after_keeps hp n).2 fun t' hn => hk ⟨t', hn⟩)
  induction n with
  | zero =>
    rcases hcost 0 with hend | hlt
    · exact .inl ⟨0, Nat.le_refl 0, hend⟩
    · exact .inr hlt
  | succ n ih =>
    -- The end was delivered before, or it is delivered now, or one more event is gone.
    rcases ih with ⟨m, hm, hend⟩ | hle
    · exact .inl ⟨m, Nat.le_succ_of_le hm, hend⟩
    · rcases hcost (n + 1) with hend | hlt
      · exact .inl ⟨n + 1, Nat.le_refl _, hend⟩
      · exact .inr (by omega)

/-! ## Any run -/

/-- How a run of calls on `t`, the tokenizer of a source, deals with the failures of the source. -/
structure Recovers (source : Source) (t : Tokenizer) : Prop where
  /-- The failures that were reported and those that are still to come are those of the source, in
  order. -/
  reported : ∀ n, failures (t.results n) ++ (t.after n).scanner.source.errors = source.errors
  /-- The end of the input is delivered after at most as many calls as there are events. -/
  ends : ∃ n, n ≤ source.length ∧ next (t.after n) = .ok .eof (t.after (n + 1))
  /-- When it is delivered, all failures have been reported. -/
  complete : ∀ n, next (t.after n) = .ok .eof (t.after (n + 1)) →
    failures (t.results n) = source.errors
  /-- A call that fails reports the next failure. Nothing is pushed back then, the events behind the
  failure are left, and the calls to come are those on a new tokenizer of these events. But if the
  last character before the failure was a CR, the LF that belongs to it is gone. -/
  resumes : ∀ n e, next (t.after n) = .error e (t.after (n + 1)) →
    ∃ (before : Source) (f : Failure) (later : Source), source = before ++ .fail f :: later
      ∧ e = ⟨f⟩ ∧ failures (t.results n) = before.errors
      ∧ (t.after (n + 1)).scanner.pushed = [] ∧ (t.after (n + 1)).scanner.source = later
      ∧ ∀ m, ((t.after (n + 1)).results m).map unplacedResult =
        ((ofSource (if before.endsInCr false then later.dropLf else later) t.options).results m).map
          unplacedResult

/-- **A run reports each failure of its source once and in order, and goes on behind it as if it
began there.** -/
theorem recovers (source : Source) (options : Options) :
    Recovers source (ofSource source options) := by
  generalize ht : ofSource source options = t
  have hp : t.pushedBack = false := by rw [← ht]; rfl
  have hsound : t.scanner.Sound := Scanner.sound_of_pushed_nil (by rw [← ht]; rfl)
  have hstart : HasTaken source [] t := by
    rw [← ht]
    exact ⟨rfl, fun _ => rfl⟩
  refine ⟨hstart.reported, ?_, fun _ hn => hstart.complete hsound hp hn, fun n e hn => ?_⟩
  · have hbudget : t.scanner.budget = source.length := by
      rw [← ht]
      exact Nat.zero_add _
    rcases ends_or_costs hp source.length with hend | hle
    · exact hend
    · omega
  · obtain ⟨taken, htaken, hfailures⟩ := hstart.after n
    obtain ⟨more, hstop⟩ := next_stops hn
    obtain ⟨hsource, hcr⟩ := htaken.stops hstop
    refine ⟨taken ++ more, e.cause, _, hsource, rfl, ?_, hstop.pushed, rfl, fun m => ?_⟩
    · rw [hfailures, Source.errors_append, hstop.infallible.errors, List.append_nil]
    · obtain ⟨hoptions, hback⟩ := after_keeps hp (n + 1)
      rw [results_pending hback hstop.pushed, hoptions, Scanner.pending, hcr]
      rfl

/-- A sign that is held when the source fails is lost, and the number behind it is read without. -/
example : ((ofSource [.char '+', .fail ⟨.other, "x"⟩, .char '1']).results 3).map
    (fun r => r.toOption.map fun r => (r.1, r.2.value)) =
      [none, some (.number, "1"), some (.eof, "")] := by
  decide +kernel

end Tokenizer

end CssTokens
