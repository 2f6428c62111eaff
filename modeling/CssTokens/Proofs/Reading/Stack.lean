import CssTokens.Proofs.Reading.Next

/-!
# The scanner as a stack over a text

All that a scanner shows of its work is a stack of results over the text of its source in normal
form. How the text is normalized on the way is not to be seen in the results: the LF of a CR LF is
passed over by the next read from the source, however many results are pushed back and replayed
before that.

The counters show a little more. They count what was taken of the source, which is no more than the
results that were delivered need: a scanner that has delivered the line break of a CR LF has taken
the CR alone.

Main statement: any calls on the scanner of a source return what they return on a stack over the
normal form, and the counters are those of the shortest beginning of the source that has the normal
form that was delivered (`Scanner.run_textStack`).
-/

namespace CssTokens

/-! ## What is taken of a text -/

/-- The text `taken` is what has to be taken of the beginning of `text` to deliver `n` characters of
its normal form, or to find its end if it has less than `n`. -/
structure TakenFor (text : List Char) (n : Nat) (taken : List Char) : Prop where
  front : taken <+: text
  normal : normalize taken = (normalize text).take n
  /-- Nothing is taken that is not needed, such as the LF of a CR LF with nothing behind it. -/
  shortest : n ≤ (normalize text).length →
    ∀ other, other <+: text → normalize other = (normalize text).take n →
      taken.length ≤ other.length
  /-- The end is behind all of the text. -/
  ended : (normalize text).length < n → taken = text

theorem normalize_length_le_of_front {cs ds : List Char} (h : cs <+: ds) :
    (normalize cs).length ≤ (normalize ds).length := by
  obtain ⟨rest, rfl⟩ := h
  rw [normalize_append, List.length_append]
  exact Nat.le_add_right _ _

/-- A text whose last character counts for itself is the shortest with its normal form. -/
theorem EndsPlainly.length_le {taken other text : List Char} (h : EndsPlainly taken)
    (htaken : taken <+: text) (hother : other <+: text)
    (heq : normalize other = normalize taken) : taken.length ≤ other.length := by
  obtain ⟨before, d, rfl, hd⟩ := h
  by_contra hlt
  have hle : other.length ≤ before.length := by
    rw [List.length_append, List.length_singleton] at hlt
    omega
  have hbefore : before <+: text := (List.prefix_append before [d]).trans htaken
  have hlen := normalize_length_le_of_front (List.prefix_of_prefix_length_le hother hbefore hle)
  rw [heq, hd, List.length_append, List.length_singleton] at hlen
  omega

namespace TakenFor

variable {text taken taken' : List Char} {n : Nat}

/-- It is determined what is taken. -/
theorem unique (h : TakenFor text n taken) (h' : TakenFor text n taken') : taken = taken' := by
  rcases Nat.lt_or_ge (normalize text).length n with hn | hn
  · rw [h.ended hn, h'.ended hn]
  · have hle := h.shortest hn taken' h'.front h'.normal
    have hge := h'.shortest hn taken h.front h.normal
    exact (List.prefix_of_prefix_length_le h.front h'.front hle).eq_of_length_le hge

theorem nothing (text : List Char) : TakenFor text 0 [] where
  front := List.nil_prefix
  normal := rfl
  shortest _ _ _ _ := Nat.zero_le _
  ended h := absurd h (Nat.not_lt_zero _)

theorem all (h : (normalize text).length < n) : TakenFor text n text where
  front := List.prefix_rfl
  normal := (List.take_of_length_le (Nat.le_of_lt h)).symm
  shortest hle := absurd h (Nat.not_lt_of_le hle)
  ended _ := rfl

theorem of_endsPlainly (h : EndsPlainly taken) (hfront : taken <+: text)
    (hnormal : normalize taken = (normalize text).take n) (hn : n ≤ (normalize text).length) :
    TakenFor text n taken where
  front := hfront
  normal := hnormal
  shortest _ _ hother heq := h.length_le hfront hother (heq.trans hnormal.symm)
  ended hlt := absurd hlt (Nat.not_lt_of_le hn)

end TakenFor

/-! ## A stack over a text -/

open Scanner (Call)

/-- A stack of results over a text. -/
structure TextStack where
  /-- The results that were pushed back and not replayed since, the last one first. -/
  pushed : List (Option Char) := []
  /-- How many results were taken from the text. -/
  reads : Nat := 0
  deriving DecidableEq, Repr

/-- A read takes the first result of the stack, or else the next character of the text. At the end
of the text there is none. -/
def TextStack.call (text : List Char) (k : TextStack) : Call → List (Option Char) × TextStack
  | .next =>
    match k.pushed with
    | c :: rest => ([c], { k with pushed := rest })
    | [] => ([text[k.reads]?], { k with reads := k.reads + 1 })
  | .pushBack c => ([], { k with pushed := c :: k.pushed })

theorem TextStack.call_next_nil {k : TextStack} {text : List Char} (h : k.pushed = []) :
    k.call text .next = ([text[k.reads]?], { k with reads := k.reads + 1 }) := by
  rw [call, h]

theorem TextStack.call_next_cons {k : TextStack} {text : List Char} {c : Option Char}
    {rest : List (Option Char)} (h : k.pushed = c :: rest) :
    k.call text .next = ([c], { k with pushed := rest }) := by
  rw [call, h]

namespace Scanner

/-- The scanner has on its stack what the stack over the text has, and it has taken what is needed
for as many reads. -/
structure Shows (source : Source) (k : TextStack) (s : Scanner) : Prop where
  pushed : s.pushed = k.pushed
  unread : s.unread = (normalize source.chars).drop k.reads
  line : s.line = ((normalize source.chars).take k.reads).count '\n'
  taken : ∃ taken, Traces source taken { s with pushed := [] }
    ∧ TakenFor source.chars k.reads taken.chars

theorem shows_ofSource (source : Source) : Shows source {} { source } where
  pushed := rfl
  unread := rfl
  line := rfl
  taken := ⟨[], ⟨.of_eq rfl rfl, rfl, by simp, by simp⟩, .nothing _⟩

namespace Shows

variable {source : Source} {k : TextStack} {s s' : Scanner} {c : Option Char}

/-- Another stack on both. -/
theorem withPushed (h : Shows source k s) (pushed : List (Option Char)) (current : Option Char) :
    Shows source { k with pushed } { s with pushed, current } where
  pushed := rfl
  unread := h.unread
  line := h.line
  taken := by
    obtain ⟨taken, htraces, htaken⟩ := h.taken
    exact ⟨taken, htraces.withPushed current (by simp) (by simp), htaken⟩

/-- **A read from the source delivers the next character of the text**, and takes what it needs. -/
theorem readFresh (h : Shows source k s) (hp : s.pushed = []) (hr : readFresh s = .ok c s') :
    c = (normalize source.chars)[k.reads]?
      ∧ Shows source { k with reads := k.reads + 1 } s' := by
  obtain ⟨taken, htraces, htaken⟩ := h.taken
  obtain ⟨hhead, htail⟩ := readFresh_unread hr
  have hp' : s'.pushed = [] := (readFresh_pushed hr).trans hp
  have hs : { s with pushed := [] } = s := by rw [← hp]
  have hs' : { s' with pushed := [] } = s' := by rw [← hp']
  rw [hs] at htraces
  have hc : c = (normalize source.chars)[k.reads]? := by
    rw [← hhead, h.unread, List.head?_drop]
  have hunread : s'.unread = (normalize source.chars).drop (k.reads + 1) := by
    rw [htail, h.unread, List.tail_drop]
  obtain ⟨taken', htraces', hend, hplain⟩ := htraces.readFresh hp hr
  have hsource : source = taken' ++ s'.source := htraces'.passes.source
  refine ⟨hc, ⟨hp'.trans (hp.symm.trans h.pushed), hunread, ?_, taken', by rwa [hs'], ?_⟩⟩
  · rw [readFresh_line hr, h.line, List.take_add_one, List.count_append, ← hc]
    cases c with
    | none => rfl
    | some d => simp [lineBreaks, List.count_singleton]
  · cases c with
    | none =>
      -- The end was found, and all of the source was taken.
      have hall : taken' = source := by
        rw [hsource, hend rfl, List.append_nil]
      rw [hall]
      exact .all (Nat.lt_succ_of_le (List.getElem?_eq_none_iff.mp hc.symm))
    | some d =>
      obtain ⟨hlt, -⟩ := List.getElem?_eq_some_iff.mp hc.symm
      have hfront : taken'.chars <+: source.chars := by
        conv => rhs; rw [hsource]
        rw [Source.chars_append]
        exact List.prefix_append _ _
      have hnormal : normalize taken'.chars = (normalize source.chars).take (k.reads + 1) := by
        have heq := htraces'.normalize_eq
        rw [hunread] at heq
        conv at heq => lhs; rw [← List.take_append_drop (k.reads + 1) (normalize source.chars)]
        exact (List.append_cancel_right heq).symm
      exact .of_endsPlainly (hplain (by simp)) hfront hnormal hlt

/-- **Each call returns what it returns on the stack over the text.** -/
theorem call (h : Shows source k s) (hsource : source.Infallible) (c : Call) :
    (s.call c).1 = (k.call (normalize source.chars) c).1.map .ok
      ∧ Shows source (k.call (normalize source.chars) c).2 (s.call c).2 := by
  cases c with
  | pushBack c =>
    rw [call_pushBack, TextStack.call, ← h.pushed]
    exact ⟨rfl, h.withPushed _ s.current⟩
  | next =>
    have hpushed := h.pushed
    cases hp : s.pushed with
    | cons c rest =>
      rw [hp] at hpushed
      rw [call_next_ok (next_of_pushed_cons hp), TextStack.call_next_cons hpushed.symm]
      exact ⟨rfl, h.withPushed rest c⟩
    | nil =>
      rw [hp] at hpushed
      have hinfallible : s.source.Infallible := by
        obtain ⟨taken, htraces, -⟩ := h.taken
        have hsplit : source = taken ++ s.source := htraces.passes.source
        rw [hsplit] at hsource
        exact (Source.infallible_append.mp hsource).2
      obtain ⟨s', hr, -⟩ := delivers_readFresh hinfallible
      obtain ⟨hc, hshows⟩ := h.readFresh hp hr
      rw [call_next_ok ((next_of_pushed_nil hp).trans hr), TextStack.call_next_nil hpushed.symm, hc]
      exact ⟨rfl, hshows⟩

theorem run (h : Shows source k s) (hsource : source.Infallible) (calls : List Call) :
    (runCalls Scanner.call s calls).1 =
        (runCalls (TextStack.call (normalize source.chars)) k calls).1.map .ok
      ∧ Shows source (runCalls (TextStack.call (normalize source.chars)) k calls).2
        (runCalls Scanner.call s calls).2 := by
  induction calls generalizing k s with
  | nil => exact ⟨rfl, h⟩
  | cons c calls ih =>
    obtain ⟨hresult, hshows⟩ := h.call hsource c
    obtain ⟨hresults, hshows'⟩ := ih hshows
    refine ⟨?_, hshows'⟩
    rw [runCalls, runCalls, List.map_append, hresult, hresults]

end Shows

/--
**The scanner is a stack over the text in normal form.** Any calls on the scanner of a source that
does not fail return what they return on a stack over the normal form of its text. The current
character is the last of the results. The counters are those of what was taken of the source
(`taken`), and that depends on the number of reads alone that found the stack empty.
-/
theorem run_textStack {source : Source} (hsource : source.Infallible) (calls : List Call) :
    ∃ results k s, ∃ taken : Source,
      runCalls (TextStack.call (normalize source.chars)) {} calls = (results, k)
        ∧ runCalls call { source } calls = (results.map .ok, s)
        ∧ s.pushed = k.pushed
        ∧ s.current = results.getLast?.join
        ∧ source = taken ++ s.source
        ∧ TakenFor source.chars k.reads taken.chars
        ∧ s.position = taken.chars.length
        ∧ s.line = ((normalize source.chars).take k.reads).count '\n'
        ∧ ((normalize source.chars).length < k.reads →
          s.position = source.chars.length ∧ s.line = (normalize source.chars).count '\n') := by
  obtain ⟨hresults, hshows⟩ := (shows_ofSource source).run hsource calls
  obtain ⟨taken, htraces, htaken⟩ := hshows.taken
  have hpos := htraces.position.trans htraces.passes.infallible.length_chars.symm
  have hcurrent := runCalls_current { source } calls
  rw [hresults, itemsOf_map_ok] at hcurrent
  refine ⟨_, _, _, taken, rfl, Prod.ext hresults rfl, hshows.pushed, ?_, htraces.passes.source,
    htaken, hpos, hshows.line, fun hend => ?_⟩
  · rw [hcurrent]
    cases List.getLast? _ <;> rfl
  · rw [hshows.line, List.take_of_length_le (Nat.le_of_lt hend)]
    rw [htaken.ended hend] at hpos
    exact ⟨hpos, rfl⟩

/-- The line break of a CR LF is replayed before the LF is taken. The end is pushed back and found
again. -/
theorem run_textStack_crlf : ∃ s,
    runCalls call { source := Source.ofString "\r\n\x00" }
        [.next, .pushBack (some '\n'), .next, .next, .pushBack none, .next, .next, .next] =
      ([.ok (some '\n'), .ok (some '\n'), .ok (some '\uFFFD'), .ok none, .ok none, .ok none], s)
    ∧ s.current = none ∧ s.position = 3 ∧ s.line = 1 := by
  obtain ⟨results, k, s, taken, hk, hs, -, hcurrent, -, -, -, -, hend⟩ :=
    run_textStack (Source.infallible_ofString "\r\n\x00")
      [.next, .pushBack (some '\n'), .next, .next, .pushBack none, .next, .next, .next]
  have hrun : runCalls (TextStack.call (normalize (Source.ofString "\r\n\x00").chars)) {}
        [.next, .pushBack (some '\n'), .next, .next, .pushBack none, .next, .next, .next] =
      ([some '\n', some '\n', some '\uFFFD', none, none, none], { reads := 4 }) := by
    decide +kernel
  obtain ⟨rfl, rfl⟩ := Prod.mk.inj (hk.symm.trans hrun)
  exact ⟨s, hs, hcurrent, hend (by decide +kernel)⟩

end Scanner

end CssTokens
