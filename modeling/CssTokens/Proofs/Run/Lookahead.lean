import CssTokens.Proofs.Refinement.Frame
import CssTokens.Proofs.Refinement.Lookahead
import CssTokens.Proofs.Run.Lines
import CssTokens.Proofs.Text.Prefix

/-!
# The lookahead between two tokens

Between two tokens the scanner has read more than it has made use of, and the rest lies on the
stack. It is a piece of the text: what is on the stack is what comes next, and behind it the source
goes on. It is a short piece, too, with at most one line break in it, at its end.

The counters of the scanner are ahead of the next token by this piece, character by character: a CR
LF does not lie on the stack as a whole, since its LF is not read before the next character is.

Main statements: a scanner stands at a place of the text with what it has read ahead
(`Scanner.Stands`) in each state of a tokenizer and where a token is begun
(`Tokenizer.lookahead_bounded`).
-/

namespace CssTokens

namespace Scanner

/--
The scanner has read the text `behind` and the text `ahead` of its source, and `ahead` lies on the
stack, to be read again.
-/
structure Stands (source : Source) (behind ahead : List Char) (s : Scanner) : Prop where
  chars : source.chars = behind ++ (ahead ++ s.source.chars)
  /-- The stack ends where the source goes on. -/
  text : normalize source.chars = normalize behind ++ (ahead.map normalizeChar ++ s.unread)
  /-- The end of the input is below it, if at all. -/
  pushed : s.pushed = ahead.map (some ∘ normalizeChar)
    ∨ s.pushed = ahead.map (some ∘ normalizeChar) ++ [none] ∧ s.source = []
  /-- A line break is at the bottom of the stack. -/
  lineBreak : some '\n' ∉ s.pushed.dropLast
  bounded : s.pushed.length ≤ 3
  /-- The position counts the characters that were read. -/
  position : s.position = behind.length + ahead.length
  /-- The line counts the line breaks that were read. -/
  line : s.line = (normalize behind).count '\n' + (ahead.map normalizeChar).count '\n'

/-! ## Reading from the source -/

variable {source taken : Source} {s s' : Scanner} {raw c : Option Char}

theorem accept_position (h : accept raw s = .ok c s') :
    s'.position = s.position + countOf raw ∧ (c = none ↔ raw = none) := by
  unfold accept at h
  repeat' split at h
  all_goals cases h; simp [countOf]

/-- A fresh read comes to the end of the source, or it takes a character that counts for itself, be
it behind the LF of a CR LF. -/
theorem readFresh_cases (h : readFresh s = .ok c s') :
    (c = none ∧ s'.source = [] ∧ Passes s s.source s'
        ∧ s'.position = s.position + s.source.length)
      ∨ ∃ before d m, c ≠ none ∧ Passes s (before ++ [.char d m]) s'
        ∧ s'.position = s.position + (before ++ [Event.char d m]).length
        ∧ ¬(Source.endsInCr before s.afterCr = true ∧ d = '\n') := by
  obtain ⟨source, pushed, position, line, current, afterCr, malformed⟩ := s
  cases source with
  | nil =>
    have hend : ∀ {s s' : Scanner}, accept none s = .ok c s' →
        c = none ∧ s'.source = s.source ∧ s'.position = s.position := by
      intro s s' h
      cases h
      exact ⟨rfl, rfl, rfl⟩
    left
    obtain ⟨hc, hs, hp⟩ : c = none ∧ s'.source = [] ∧ s'.position = position := by
      cases afterCr <;> exact hend h
    exact ⟨hc, hs, .to_end Source.infallible_nil hs, hp⟩
  | cons e source =>
    cases e with
    | fail f => cases h
    | char d m =>
      have hi := Source.infallible_singleton d m
      unfold readFresh readSource at h
      dsimp only at h
      by_cases hlf : (afterCr && some d == some '\n') = true
      · rw [if_pos hlf] at h
        obtain ⟨-, hd⟩ := Bool.and_eq_true_iff.mp hlf
        obtain rfl : d = '\n' := by simpa using hd
        cases source with
        | nil =>
          left
          cases h
          exact ⟨rfl, rfl, .to_end hi rfl, rfl⟩
        | cons e source =>
          cases e with
          | fail f => cases h
          | char e m' =>
            right
            obtain ⟨hs, hcr, -⟩ := accept_framed h
            obtain ⟨hp, hc⟩ := accept_position h
            refine ⟨[.char '\n' m], e, m', by simp [hc],
              ⟨by rw [hs]; rfl, ?_, fun _ => hcr⟩, hp, ?_⟩
            · exact Source.infallible_append.mpr ⟨hi, Source.infallible_singleton e m'⟩
            · rintro ⟨hends, -⟩
              cases hends
      · right
        rw [if_neg hlf] at h
        obtain ⟨hs, hcr, -⟩ := accept_framed h
        obtain ⟨hp, hc⟩ := accept_position h
        refine ⟨[], d, m, by simp [hc], ⟨by rw [hs]; rfl, hi, fun _ => hcr⟩, hp, ?_⟩
        rintro ⟨hends, rfl⟩
        have hcr : afterCr = true := hends
        exact hlf (by simp [hcr])

/-! ## What is known of a scanner -/

/-- The scanner has taken the events `taken` of its source. -/
structure Traces (source taken : Source) (s : Scanner) : Prop where
  passes : Passes { source } taken s
  position : s.position = taken.length
  /-- A line break on the stack was the last thing that was read. -/
  lineBreak : some '\n' ∈ s.pushed → EndsPlainly taken.chars
  atEnd : none ∈ s.pushed → s.source = []

theorem endsInCr_chars (taken : Source) : taken.endsInCr false = endsInCr taken.chars := by
  unfold Source.endsInCr endsInCr
  cases taken.chars.getLast? <;> rfl

namespace Traces

/-- What is not read yet is what is left of the text in normal form. -/
theorem normalize_eq (h : Traces source taken s) :
    normalize source.chars = normalize taken.chars ++ s.unread := by
  have hsource : source = taken ++ s.source := h.passes.source
  rw [hsource, Source.chars_append, normalize_append, unread]
  cases hs : s.source with
  | nil =>
    split <;> split <;> rfl
  | cons e rest =>
    have hcr : s.afterCr = taken.endsInCr false :=
      h.passes.afterCr (by simp [hs])
    rw [hcr, endsInCr_chars]

/-- Another stack on the same scanner. -/
theorem withPushed (h : Traces source taken s) {pushed : List (Option Char)} (current : Option Char)
    (hbreak : some '\n' ∈ pushed → EndsPlainly taken.chars)
    (hend : none ∈ pushed → s.source = []) : Traces source taken { s with pushed, current } where
  passes := { h.passes with }
  position := h.position
  lineBreak := hbreak
  atEnd := hend

theorem noteMalformed (h : Traces source taken s) :
    Traces source taken { s with malformed := [] } :=
  { h with passes := { h.passes with } }

/-- What is read from the source may be put back onto the stack. -/
theorem readFresh (h : Traces source taken s) (hp : s.pushed = [])
    (hr : readFresh s = .ok c s') : ∃ taken', Traces source taken' s'
      ∧ (c = none → s'.source = []) ∧ (c ≠ none → EndsPlainly taken'.chars) := by
  have hp' : s'.pushed = [] := (readFresh_pushed hr).trans hp
  rcases readFresh_cases hr with
    ⟨rfl, hs, hpass, hpos⟩ | ⟨before, d, m, hc, hpass, hpos, hplain⟩
  · refine ⟨taken ++ s.source, ⟨h.passes.trans hpass, ?_, ?_, ?_⟩, fun _ => hs,
      fun hc => absurd rfl hc⟩
    · rw [hpos, h.position, List.length_append]
    · simp [hp']
    · simp [hp']
  · refine ⟨taken ++ (before ++ [.char d m]), ⟨h.passes.trans hpass, ?_, ?_, ?_⟩,
      fun hnone => absurd hnone hc, fun _ => ?_⟩
    · rw [hpos, h.position, ← List.length_append]
    · simp [hp']
    · simp [hp']
    · have hne : s.source ≠ [] := by simp [hpass.source]
      have hcr : s.afterCr = taken.endsInCr false := h.passes.afterCr hne
      rw [hcr, ← Source.endsInCr_append, endsInCr_chars] at hplain
      rw [← List.append_assoc, Source.chars_append]
      exact .concat hplain

/-- Reading uncovers what is below on the stack, and what is read may be put back there. -/
theorem next (h : Traces source taken s) (hn : next s = .ok c s') :
    ∃ taken', Traces source taken' s'
      ∧ Traces source taken' { s' with pushed := c :: s'.pushed } := by
  unfold Scanner.next at hn
  split at hn
  · next d rest hp =>
    cases hn
    have hbreak := h.lineBreak
    have hend := h.atEnd
    rw [hp] at hbreak hend
    refine ⟨taken, ?_, ?_⟩
    · exact h.withPushed _ (fun hm => hbreak (List.mem_cons_of_mem _ hm))
        fun hm => hend (List.mem_cons_of_mem _ hm)
    · exact h.withPushed _ hbreak hend
  · next hp =>
    obtain ⟨taken', h', hend, hbreak⟩ := h.readFresh hp hn
    have hp' : s'.pushed = [] := (readFresh_pushed hn).trans hp
    refine ⟨taken', h', h'.withPushed s'.current (fun hm => ?_) fun hm => ?_⟩
    · rw [hp', List.mem_singleton] at hm
      exact hbreak (by simp [← hm])
    · rw [hp', List.mem_singleton] at hm
      exact hend hm.symm

/-- A character other than a line break may be put onto the stack. -/
theorem pushBack {d : Char} (h : Traces source taken s) (hd : d ≠ '\n') :
    Traces source taken { s with pushed := some d :: s.pushed } := by
  refine h.withPushed s.current (fun hm => h.lineBreak ?_) fun hm => h.atEnd ?_
  · rcases List.mem_cons.mp hm with heq | hm
    · exact absurd (Option.some.inj heq).symm hd
    · exact hm
  · rcases List.mem_cons.mp hm with heq | hm
    · cases heq
    · exact hm

/-- **The lexer keeps the trace of what it takes.** -/
theorem read {l : Lexeme} (h : Traces source taken s) (hr : Lexeme.read s = .ok l s') :
    ∃ taken', Traces source taken' s' := by
  have hinvariant := Lexeme.read_composed.invariant (I := fun s => ∃ taken, Traces source taken s)
  refine hinvariant ?_ ?_ ⟨taken, h⟩ hr
  · rintro s c s' ⟨taken, h⟩ hn
    obtain ⟨taken', h1, h2⟩ := h.next hn
    exact ⟨⟨taken', h1⟩, ⟨taken', h2⟩⟩
  · rintro c s hc ⟨taken, h⟩
    exact ⟨taken, h.pushBack hc⟩

end Traces

/-! ## Where a scanner stands -/

/-- What holds of the scanner of a source between two tokens. -/
structure Tracked (source : Source) (s : Scanner) : Prop where
  settled : s.Settled
  suffix : s.remaining <:+ normalize source.chars
  lines : s.CountsLines (normalize source.chars)
  traces : ∃ taken, Traces source taken s
  bounded : s.pushed.length ≤ 3

theorem tracked_ofSource (h : source.Infallible) : Tracked source { source } where
  settled := settled_ofSource h
  suffix := List.suffix_refl _
  lines := ⟨h, Nat.zero_add _, List.not_mem_nil⟩
  traces := ⟨[], .of_eq rfl rfl, rfl, by simp, by simp⟩
  bounded := Nat.zero_le _

namespace Tracked

theorem read {l : Lexeme} (h : Tracked source s) (hr : Lexeme.read s = .ok l s') :
    Tracked source s' ∧ Split.lexeme s.remaining = (l, s'.remaining) := by
  obtain ⟨hl, hs, hrem⟩ := Lexeme.read_reads.of_ok h.settled hr
  obtain ⟨taken, htraces⟩ := h.traces
  have hpeeks := Lexeme.read_peeks s l s' hr
  have hbounded := h.bounded
  refine ⟨⟨hs, ?_, h.lines.read hr, htraces.read hr, by omega⟩, Prod.ext hl hrem.symm⟩
  rw [hrem]
  exact (Split.lexeme_suffix _).trans h.suffix

/-- The malformed pieces of input do not matter. -/
theorem noteMalformed (h : Tracked source s) : Tracked source { s with malformed := [] } := by
  obtain ⟨taken, htraces⟩ := h.traces
  exact ⟨⟨h.settled.infallible, h.settled.pushed⟩, h.suffix, { h.lines with },
    ⟨taken, htraces.noteMalformed⟩, h.bounded⟩

/-- **The stack is a piece of the text that ends where the source goes on.** -/
theorem stands (h : Tracked source s) : ∃ behind ahead, s.Stands source behind ahead := by
  obtain ⟨taken, htraces⟩ := h.traces
  obtain ⟨cs, hcs⟩ := h.settled.pushed
  obtain ⟨before, hbefore⟩ := h.suffix
  have hbreak := h.lines.pushed
  have hfilter : s.pushed.filterMap id = cs := by
    rcases hcs with hp | ⟨hp, -⟩ <;> simp [hp, List.filterMap_map]
  have htaken : normalize taken.chars = before ++ cs := by
    rw [htraces.normalize_eq, remaining, hfilter, ← List.append_assoc] at hbefore
    exact (List.append_cancel_right hbefore).symm
  have hcs' : '\n' ∉ cs.dropLast := by
    intro hm
    apply hbreak
    rcases hcs with hp | ⟨hp, -⟩
    · rw [hp, ← List.map_dropLast]
      exact List.mem_map_of_mem hm
    · rw [hp, List.dropLast_concat]
      exact List.mem_map_of_mem (List.dropLast_subset cs hm)
  have hlast : '\n' ∈ cs → EndsPlainly taken.chars := by
    intro hm
    apply htraces.lineBreak
    rcases hcs with hp | ⟨hp, -⟩ <;> simp [hp, hm]
  obtain ⟨behind, ahead, heq, hbehind, hahead⟩ := exists_split_of_normalize htaken hcs' hlast
  have hmap : cs.map some = ahead.map (some ∘ normalizeChar) := by
    rw [← hahead, List.map_map]
  have hlength : behind.length + ahead.length = taken.length := by
    rw [← List.length_append, ← heq, htraces.passes.infallible.length_chars]
  have htext := htraces.normalize_eq
  refine ⟨behind, ahead, ?_, ?_, ?_, hbreak, h.bounded, htraces.position.trans hlength.symm, ?_⟩
  · have hsource : source = taken ++ s.source := htraces.passes.source
    rw [← List.append_assoc, ← heq, ← Source.chars_append, ← hsource]
  · rw [htext, htaken, hbehind, hahead, List.append_assoc]
  · rw [← hmap]
    rcases hcs with hp | ⟨hp, -⟩
    · exact .inl hp
    · exact .inr ⟨hp, htraces.atEnd (by simp [hp])⟩
  · have hline := h.lines.line
    rw [htext, htaken, List.count_append, List.count_append] at hline
    rw [hbehind, hahead]
    omega

end Tracked

namespace Stands

variable {behind ahead : List Char}

theorem ahead_length (h : Stands source behind ahead s) : ahead.length ≤ 3 := by
  have hbounded := h.bounded
  rcases h.pushed with hp | ⟨hp, -⟩
  · rw [hp, List.length_map] at hbounded
    exact hbounded
  · rw [hp, List.length_append, List.length_map] at hbounded
    omega

/-- The text that is left begins behind what the scanner has read for good. -/
theorem text_eq (h : Stands source behind ahead s) :
    normalize source.chars = normalize behind ++ s.remaining := by
  have hfilter : s.pushed.filterMap id = ahead.map normalizeChar := by
    rcases h.pushed with hp | ⟨hp, -⟩ <;> simp [hp, List.filterMap_map]
  rw [h.text, remaining, hfilter]

theorem ahead_lineBreaks (h : Stands source behind ahead s) :
    (ahead.map normalizeChar).count '\n' ≤ 1 := by
  have hcount := count_le_one h.lineBreak
  have hsome : (ahead.map normalizeChar).count '\n' ≤
      (ahead.map (some ∘ normalizeChar)).count (some '\n') := by
    rw [← List.map_map]
    exact List.count_le_count_map
  rcases h.pushed with hp | ⟨hp, -⟩
  · rw [hp] at hcount
    omega
  · rw [hp, List.count_append] at hcount
    omega

end Stands

end Scanner

namespace Tokenizer

variable {source : Source} {options : Options} {t t' : Tokenizer} {kind : TokenKind}

theorem read_tracked (h : t.scanner.Tracked source) (hr : Tokenizer.read t = .ok kind t') :
    t'.scanner.Tracked source ∧ t'.options = t.options ∧ ∃ l, l.kind = kind
      ∧ t'.token = tokenOf l t.scanner ∧ Split.lexeme t.remaining = (l, t'.remaining) := by
  obtain ⟨l, s, hl, hkind, hs, htoken⟩ := lexeme_of_read hr
  obtain ⟨htracked, hsplit⟩ := h.read hl
  have hoptions := (read_keeps t).1
  have hrem : t'.remaining = s.remaining := (congrArg Scanner.remaining hs).trans rfl
  rw [hr] at hoptions
  rw [hs, hrem]
  exact ⟨htracked.noteMalformed, hoptions, l, hkind.symm, htoken, hsplit⟩

/-- The token that is delivered is the first lexeme that a scanner has left, after the comments that
are left out. -/
theorem readDelivered_tracked (h : t.scanner.Tracked source) (hn : readDelivered t = .ok kind t') :
    t'.scanner.Tracked source ∧ ∃ l s, s.Tracked source ∧ t'.token = tokenOf l s
      ∧ Split.delivered t.options.skipComments t.remaining = (l, t'.remaining)
      ∧ Split.lexeme s.remaining = (l, t'.remaining)
      ∧ (t.options.skipComments = false → s = t.scanner) := by
  fun_induction readDelivered t with
  | case1 => cases hn
  | case2 t kind₁ t₁ h1 hk ih =>
    obtain ⟨h', hoptions, l₁, hkind, -, hsplit₁⟩ := read_tracked h h1
    obtain ⟨htracked, l, s, hs, htoken, hdelivered, hsplit, -⟩ := ih h' hn
    have hfst : (Split.lexeme t.remaining).1.kind = kind₁ := by rw [hsplit₁, hkind]
    refine ⟨htracked, l, s, hs, htoken, ?_, hsplit, fun hskip => ?_⟩
    · rw [Split.delivered_skip (by rwa [hfst]), hsplit₁, ← hoptions, hdelivered]
    · rw [hskip] at hk
      cases hk
  | case3 t kind₁ t₁ h1 hk =>
    obtain ⟨h', -, l, hkind, htoken, hsplit⟩ := read_tracked h h1
    have hfst : (Split.lexeme t.remaining).1.kind = kind₁ := by rw [hsplit, hkind]
    cases hn
    refine ⟨h', l, t.scanner, h, htoken, ?_, hsplit, fun _ => rfl⟩
    rw [Split.delivered_keep (by rwa [hfst]), hsplit]
    rfl

/-- In each state the scanner is tracked. -/
theorem Reachable.tracked (hs : source.Infallible) (h : Reachable source options t) :
    t.scanner.Tracked source := by
  induction h with
  | start => exact Scanner.tracked_ofSource hs
  | @next t ht ih =>
    cases hp : t.pushedBack with
    | true =>
      rw [next_pushedBack hp]
      exact ih
    | false =>
      obtain ⟨t', hn, -⟩ := next_step ih.settled hp
      rw [hn]
      rw [next_eq_readDelivered hp] at hn
      exact (readDelivered_tracked ih hn).1
  | pushBack _ hb ih =>
    rw [pushBack_of_ok hb]
    exact ih

/--
**What is read ahead is bounded, and the counters are exact.** Between two tokens the scanner stands
at a place of the text, with at most three results on the stack. So does it where the next token is
begun (`s`), and `behind` is the text before this token. The position and the line of the token are
those of the scanner: they count what is before the token and what is on the stack.
-/
theorem lookahead_bounded (hsource : source.Infallible) (h : Reachable source options t) :
    (∃ behind ahead, t.scanner.Stands source behind ahead)
      ∧ (t.pushedBack = false → ∃ kind t' l s, ∃ behind ahead : List Char, t.next = .ok kind t'
        ∧ Split.delivered options.skipComments t.remaining = (l, t'.remaining)
        ∧ Split.lexeme s.remaining = (l, t'.remaining)
        ∧ t'.token = tokenOf l s
        ∧ (options.skipComments = false → s = t.scanner)
        ∧ s.Stands source behind ahead
        ∧ normalize source.chars = normalize behind ++ s.remaining
        ∧ t'.token.position = behind.length + ahead.length ∧ ahead.length ≤ 3
        ∧ t'.token.line = (normalize behind).count '\n' + (ahead.map normalizeChar).count '\n'
        ∧ (ahead.map normalizeChar).count '\n' ≤ 1) := by
  have htracked := h.tracked hsource
  refine ⟨htracked.stands, fun hp => ?_⟩
  obtain ⟨t', hn, -⟩ := next_step htracked.settled hp
  have hr := hn
  rw [next_eq_readDelivered hp] at hr
  obtain ⟨-, l, s, hs, htoken, hdelivered, hsplit, hskip⟩ := readDelivered_tracked htracked hr
  rw [(h.follows hsource).options] at hdelivered hskip
  obtain ⟨behind, ahead, hstands⟩ := hs.stands
  refine ⟨_, t', l, s, behind, ahead, hn, hdelivered, hsplit, htoken, hskip, hstands,
    hstands.text_eq, ?_, hstands.ahead_length, ?_, hstands.ahead_lineBreaks⟩
  · rw [htoken]
    exact hstands.position
  · rw [htoken]
    exact hstands.line

/-- After the at sign, a hyphen, a backslash and a line break are on the stack. The LF of the CR LF
is not read yet. -/
theorem lookahead_bounded_hyphen :
    ∃ t' s, ∃ behind ahead : List Char, ((ofString "@-\\\r\n").after 1).next = .ok (.delim '-') t'
      ∧ Scanner.Stands (Source.ofString "@-\\\r\n") behind ahead s
      ∧ t'.token.position = 4 ∧ behind.length + ahead.length = 4 ∧ ahead.length ≤ 3
      ∧ t'.token.line = 1 ∧ (ahead.map normalizeChar).count '\n' ≤ 1 := by
  generalize ht : (ofString "@-\\\r\n").after 1 = t
  have hreach : Reachable (Source.ofString "@-\\\r\n") {} t := by
    rw [← ht]
    exact .next .start
  have hp : t.pushedBack = false := by
    rw [← ht]
    decide +kernel
  have hr : (resultOf t.next).toOption.map (fun r => (r.1, r.2.position, r.2.line)) =
      some (.delim '-', 4, 1) := by
    rw [← ht]
    decide +kernel
  obtain ⟨-, hnext⟩ := lookahead_bounded (Source.infallible_ofString _) hreach
  obtain ⟨kind, t', l, s, behind, ahead, hn, -, -, -, -, hstands, -, hpos, hahead, -, hbreaks⟩ :=
    hnext hp
  rw [hn] at hr
  obtain ⟨rfl, hplace⟩ := Prod.mk.inj (Option.some.inj hr)
  obtain ⟨hpos', hline⟩ := Prod.mk.inj hplace
  dsimp only at hpos' hline
  exact ⟨t', s, behind, ahead, hn, hstands, hpos', hpos.symm.trans hpos', hahead, hline, hbreaks⟩

end Tokenizer

end CssTokens
