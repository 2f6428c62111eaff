import CssTokens.Proofs.Reading.Next

/-!
# Scanners over sources that fail

A scanner reports each failure of its source once, and it does not matter for anything else. Whoever
reads on after the failure gets what would have come without it, also where it lies between the CR
and the LF of a line break, or behind such a LF that was taken already.

Main statement: failures are reported one by one and all that is delivered is the text of the
characters (`Scanner.failures_transparent`).
-/

namespace CssTokens

namespace Scanner

variable {s s' : Scanner} {c : Option Char} {e : ScanError}

/-! ## Calls -/

/-- **Each failure that calls have come to was reported by one of them**, in order. -/
theorem runCalls_reports (s : Scanner) (calls : List Call) :
    ∃ taken, s.source = taken ++ (runCalls call s calls).2.source
      ∧ failuresOf (runCalls call s calls).1 = taken.errors := by
  induction calls generalizing s with
  | nil => exact ⟨[], rfl, rfl⟩
  | cons c calls ih =>
    rw [runCalls, failuresOf_append]
    cases c with
    | pushBack c => exact ih { s with pushed := c :: s.pushed }
    | next =>
      cases hn : next s with
      | ok c s' =>
        rw [call_next_ok hn]
        obtain ⟨taken, hpass, -⟩ := next_framed.ok hn
        obtain ⟨more, hsource, hreported⟩ := ih s'
        refine ⟨taken ++ more, ?_, ?_⟩
        · rw [hpass.source, hsource, List.append_assoc]
        · rw [hreported, Source.errors_append, hpass.infallible.errors]
          rfl
      | error e s' =>
        rw [call_next_error hn]
        obtain ⟨taken, hstop⟩ := next_framed.error hn
        obtain ⟨more, hsource, hreported⟩ := ih s'
        refine ⟨taken ++ .fail e.cause :: more, ?_, ?_⟩
        · rw [hstop.source, hsource, List.append_assoc, List.cons_append]
        · rw [hreported, Source.errors_append, hstop.infallible.errors]
          rfl

/-! ## Draining -/

/-- What is taken of a source up to its end. -/
theorem Took.to_end {cs : List Char} {es : List ScanError} (h : Took s cs es s')
    (hend : s'.source = []) :
    cs = s.unread ∧ es = s.source.errors ∧ s'.position = s.position + s.source.chars.length := by
  have htext := h.text
  have herrors := h.errors
  have hposition := h.position
  have hunread : s'.unread = [] := by
    rw [unread, hend]
    cases s'.afterCr <;> rfl
  rw [hunread, List.append_nil] at htext
  rw [hend] at herrors hposition
  refine ⟨htext.symm, ?_, hposition⟩
  rw [herrors]
  exact (List.append_nil _).symm

/-- **Draining a source takes all of it.** -/
theorem drains_source (h : s.pushed = []) :
    ∃ results s', Drains next s results s' ∧ Took s (itemsOf results) (failuresOf results) s'
      ∧ s'.source = [] := by
  induction hn : s.source.length using Nat.strongRecOn generalizing s with
  | ind n ih =>
    cases hr : readFresh s with
    | error e s₁ =>
      obtain ⟨htook, -⟩ := readFresh_error_took hr
      have hlt : s₁.source.length < n := by
        rcases readFresh_error_cases hr with ⟨hs, -⟩ | ⟨m, -, hs, -⟩
        · rw [← hn, hs, List.length_cons]
          omega
        · rw [← hn, hs, List.length_cons, List.length_cons]
          omega
      obtain ⟨results, s', hdrains, htook', hend⟩ := ih _ hlt (htook.pushed.trans h) rfl
      rw [← next_of_pushed_nil h] at hr
      exact ⟨.error e :: results, s', .failure hr hdrains, htook.trans htook', hend⟩
    | ok c s₁ =>
      have htook := readFresh_ok_took hr
      rcases readFresh_cases hr with ⟨rfl, hend, -⟩ | ⟨before, d, m, hc, hpass, -⟩
      · rw [← next_of_pushed_nil h] at hr
        exact ⟨[], s₁, .ended hr, htook, hend⟩
      · obtain ⟨d, rfl⟩ := Option.ne_none_iff_exists'.mp hc
        have hlt : s₁.source.length < n := by
          rw [← hn, hpass.source]
          simp only [List.length_append, List.length_singleton]
          omega
        obtain ⟨results, s', hdrains, htook', hend⟩ := ih _ hlt (htook.pushed.trans h) rfl
        rw [← next_of_pushed_nil h] at hr
        exact ⟨.ok d :: results, s', .item hr hdrains, htook.trans htook', hend⟩

/-- A source without failures drains to characters alone. -/
theorem drains_infallible (h : s.pushed = []) (hsource : s.source.Infallible) :
    ∃ s', Drains next s (s.unread.map .ok) s'
      ∧ s'.position = s.position + s.source.chars.length
      ∧ s'.line = s.line + s.unread.count '\n' := by
  obtain ⟨results, s', hdrains, htook, hend⟩ := drains_source h
  obtain ⟨hitems, hfailures, hposition⟩ := htook.to_end hend
  rw [hsource.errors] at hfailures
  refine ⟨s', ?_, hposition, ?_⟩
  · rwa [← hitems, ← eq_map_ok_of_failuresOf hfailures]
  · rw [htook.line, hitems]

/-- **Without the failures of its source a scanner drains to the same.** -/
theorem drains_withoutFailures (s : Scanner) :
    ∃ results s' t', Drains next s results s'
      ∧ Drains next { s with source := s.source.withoutFailures } ((itemsOf results).map .ok) t'
      ∧ t'.position = s'.position ∧ t'.line = s'.line := by
  obtain ⟨source, pushed, position, line, current, afterCr, malformed⟩ := s
  induction pushed generalizing current with
  | nil =>
    obtain ⟨results, s', hs, htook, hend⟩ :=
      drains_source (s := ⟨source, [], position, line, current, afterCr, malformed⟩) rfl
    obtain ⟨hitems, -, hposition⟩ := htook.to_end hend
    obtain ⟨t', ht, hposition', hline'⟩ := drains_infallible
      (s := ⟨source.withoutFailures, [], position, line, current, afterCr, malformed⟩) rfl
      (Source.infallible_withoutFailures source)
    -- Both have the same characters to come.
    have hchars := Source.chars_withoutFailures source
    have hunread := unread_congr (s := ⟨source, [], position, line, current, afterCr, malformed⟩)
      hchars
    rw [hunread, ← hitems] at ht hline'
    refine ⟨results, s', t', hs, ht, ?_, hline'.trans htook.line.symm⟩
    rw [hposition', hposition, hchars]
  | cons c rest ih =>
    cases c with
    | none => exact ⟨[], _, _, .ended rfl, .ended rfl, rfl, rfl⟩
    | some d =>
      obtain ⟨results, s', t', hs, ht, hcounters⟩ := ih (some d)
      exact ⟨.ok d :: results, s', t', .item rfl hs, .item rfl ht, hcounters⟩

/--
**Failures of the source are reported and change nothing else.** The calls on the scanner of a
source have reported each failure that they have come to, once and in order. A read that fails
leaves what is on the stack, the line and the current character. After the calls, reading on to the
end delivers the same items and ends with the same counters as it does without the failures that the
source still has.
-/
theorem failures_transparent (source : Source) (calls : List Call) :
    ∃ results s, runCalls call { source } calls = (results, s)
      ∧ (∃ taken, source = taken ++ s.source ∧ failuresOf results = taken.errors)
      ∧ (∀ e s', next s = .error e s' →
        s'.pushed = s.pushed ∧ s'.line = s.line ∧ s'.current = s.current)
      ∧ ∃ drained s' t', Drains next s drained s'
        ∧ Drains next { s with source := s.source.withoutFailures } ((itemsOf drained).map .ok) t'
        ∧ t'.position = s'.position ∧ t'.line = s'.line := by
  refine ⟨_, _, rfl, runCalls_reports { source } calls, fun e s' h => ?_, drains_withoutFailures _⟩
  obtain ⟨htook, hcurrent⟩ := next_error_took h
  exact ⟨htook.pushed, htook.line, hcurrent⟩

/-- A failure between the CR and the LF, and one behind the LF. -/
theorem failures_transparent_crlf : ∃ s drained s' t',
    runCalls call
        { source :=
            [.char '\r', .fail ⟨.other, "a"⟩, .char '\n', .fail ⟨.timedOut, "b"⟩, .char 'x'] }
        [.next, .next, .pushBack (some 'y'), .next] =
      ([.ok (some '\n'), .error ⟨⟨.other, "a"⟩⟩, .ok (some 'y')], s)
    ∧ (∃ t, next s = .error ⟨⟨.timedOut, "b"⟩⟩ t ∧ t.line = s.line ∧ t.current = some 'y')
    ∧ Drains next s drained s' ∧ drained = [.error ⟨⟨.timedOut, "b"⟩⟩, .ok 'x']
    ∧ Drains next { s with source := [.char '\n', .char 'x'] } [.ok 'x'] t'
    ∧ t'.position = s'.position := by
  obtain ⟨results, s, hrun, -, hfailing, drained, s', t', hs, ht, hposition, -⟩ :=
    failures_transparent
      [.char '\r', .fail ⟨.other, "a"⟩, .char '\n', .fail ⟨.timedOut, "b"⟩, .char 'x']
      [.next, .next, .pushBack (some 'y'), .next]
  obtain ⟨rfl, rfl⟩ := Prod.mk.inj hrun
  obtain ⟨-, hline, hcurrent⟩ := hfailing ⟨⟨.timedOut, "b"⟩⟩ _ rfl
  obtain ⟨rfl, -⟩ := hs.unique (.failure rfl (.item rfl (.ended rfl)))
  exact ⟨_, _, s', t', rfl, ⟨_, rfl, hline, hcurrent⟩, hs, rfl, ht, hposition⟩

end Scanner

end CssTokens
