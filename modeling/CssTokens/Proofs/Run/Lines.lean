import CssTokens.Proofs.Run.NormalForm
import CssTokens.Proofs.Run.Reachable

/-!
# The line of a token

A scanner counts a line break when it reads it from the source, and pushing the line break back
does not take the count back. So the line of a token counts the line breaks before the token, and
one more if the next line break was read ahead and is yet to come. There is at most one: what is
read ahead behind a line break is never pushed back.

Main statement: the line of a token is the number of line breaks before it, unless a line break is
on the stack when the token is begun. Then it is one more (`line_eq`).
-/

namespace CssTokens

namespace Scanner

/-- The line breaks that are counted are those of the text that the source does not have any more,
and a line break that was pushed back is at the bottom of the stack. -/
structure CountsLines (text : List Char) (s : Scanner) : Prop where
  infallible : s.source.Infallible
  line : s.line + s.unread.count '\n' = text.count '\n'
  pushed : some '\n' ∉ s.pushed.dropLast

namespace CountsLines

variable {text : List Char} {s s' : Scanner} {c : Option Char}

/-- A line break that is read is counted. -/
theorem readFresh (h : CountsLines text s) (hr : readFresh s = .ok c s') :
    s'.source.Infallible ∧ s'.line + s'.unread.count '\n' = text.count '\n'
      ∧ s'.pushed = s.pushed := by
  obtain ⟨s₁, h1, hi, hp, hu⟩ := delivers_readFresh h.infallible
  cases hr.symm.trans h1
  refine ⟨hi, ?_, hp⟩
  rw [readFresh_line hr, hu, ← h.line]
  cases s.unread with
  | nil => rfl
  | cons d ds =>
    by_cases hd : d = '\n'
    · subst hd
      simp only [lineBreaks, List.head?_cons, List.tail_cons, List.count_cons_self, if_true]
      omega
    · simp only [lineBreaks, List.head?_cons, List.tail_cons, List.count_cons_of_ne hd,
        Option.some.injEq, hd, if_false, Nat.add_zero]

/-- Reading uncovers what is below on the stack, and what is read may be put back there. -/
theorem next (h : CountsLines text s) (hn : next s = .ok c s') :
    CountsLines text s' ∧ CountsLines text { s' with pushed := c :: s'.pushed } := by
  unfold Scanner.next at hn
  split at hn
  · next d rest hp =>
    cases hn
    have hpushed := h.pushed
    rw [hp] at hpushed
    refine ⟨⟨h.infallible, h.line, fun hmem => hpushed ?_⟩, ⟨h.infallible, h.line, hpushed⟩⟩
    cases rest with
    | nil => cases hmem
    | cons e rest => exact List.mem_cons_of_mem _ hmem
  · next hp =>
    obtain ⟨hi, hline, hp'⟩ := h.readFresh hn
    rw [hp] at hp'
    refine ⟨⟨hi, hline, ?_⟩, ⟨hi, hline, ?_⟩⟩
    · rw [hp']
      exact List.not_mem_nil
    · rw [hp']
      exact List.not_mem_nil

/-- A character other than a line break may be put onto the stack. -/
theorem pushBack {d : Char} (h : CountsLines text s) (hd : d ≠ '\n') :
    CountsLines text { s with pushed := some d :: s.pushed } where
  infallible := h.infallible
  line := h.line
  pushed hmem := by
    cases hp : s.pushed with
    | nil =>
      rw [hp] at hmem
      cases hmem
    | cons e rest =>
      rw [hp, List.dropLast_cons_cons, List.mem_cons] at hmem
      rcases hmem with heq | hmem
      · exact hd (Option.some.inj heq).symm
      · exact h.pushed (by rwa [hp])

/-- **The lexer keeps count of the lines.** -/
theorem read {l : Lexeme} (h : CountsLines text s) (hr : Lexeme.read s = .ok l s') :
    CountsLines text s' :=
  Lexeme.read_composed.invariant (fun h hn => h.next hn) (fun hd h => h.pushBack hd) h hr

end CountsLines

/-! ## Line breaks on the stack -/

/-- The bottom of the stack holds one line break at most. -/
theorem count_le_one {results : List (Option Char)} {c : Option Char}
    (h : c ∉ results.dropLast) : results.count c ≤ 1 := by
  cases hr : results with
  | nil => exact Nat.zero_le 1
  | cons d rest =>
    rw [← hr]
    have hne : results ≠ [] := by rw [hr]; exact List.cons_ne_nil d rest
    have hlast : [results.getLast hne].count c ≤ 1 := List.count_le_length
    have hcount := congrArg (List.count c) (List.dropLast_concat_getLast hne)
    rw [List.count_append, List.count_eq_zero_of_not_mem h] at hcount
    omega

end Scanner

namespace Tokenizer

variable {source : Source} {options : Options} {t t' : Tokenizer} {kind : TokenKind}

theorem readDelivered_countsLines {text : List Char} (h : t.scanner.CountsLines text)
    (hn : readDelivered t = .ok kind t') : t'.scanner.CountsLines text := by
  have hread : ∀ {t t' kind}, t.scanner.CountsLines text → Tokenizer.read t = .ok kind t' →
      t'.scanner.CountsLines text := by
    intro t t' kind h h1
    obtain ⟨l, s, hl, -, hs, -⟩ := lexeme_of_read h1
    rw [hs]
    exact { h.read hl with }
  fun_induction readDelivered t with
  | case1 => cases hn
  | case2 t kind₁ t₁ h1 _ ih => exact ih (hread h h1) hn
  | case3 t kind₁ t₁ h1 =>
    have h' := hread h h1
    cases hn
    exact h'

/-- **In each state the lines are counted.** -/
theorem Reachable.countsLines (hs : source.Infallible) (h : Reachable source options t) :
    t.scanner.CountsLines (normalize source.chars) := by
  induction h with
  | start => exact ⟨hs, Nat.zero_add _, List.not_mem_nil⟩
  | @next t ht ih =>
    cases hp : t.pushedBack with
    | true =>
      rw [next_pushedBack hp]
      exact ih
    | false =>
      obtain ⟨t', hn, -⟩ := next_step (ht.follows hs).settled hp
      rw [hn]
      rw [next_eq_readDelivered hp] at hn
      exact readDelivered_countsLines ih hn
  | pushBack _ hb ih =>
    rw [pushBack_of_ok hb]
    exact ih

/-- The line of a token is the number of lines that are counted when it is begun. -/
theorem line_of_next (hc : t.options.skipComments = false) (hp : t.pushedBack = false)
    (hn : t.next = .ok kind t') : t'.token.line = t.scanner.line := by
  rw [next_eq_readDelivered hp] at hn
  cases h1 : read t with
  | error e t₁ => cases hn.symm.trans (readDelivered_error h1)
  | ok kind₁ t₁ =>
    obtain ⟨l, s, -, -, -, htoken⟩ := lexeme_of_read h1
    cases hn.symm.trans (readDelivered_keep h1 (by rw [hc, Bool.false_and]))
    show t₁.token.line = t.scanner.line
    rw [htoken]
    rfl

/-- **The line of a token is the number of line breaks before it, and one more if a line break is on
the stack when the token is begun.** There is at most one. -/
theorem line_eq (hs : source.Infallible) (h : Reachable source { skipComments := false } t)
    (hp : t.pushedBack = false) (hn : t.next = .ok kind t') :
    ∃ before piece, normalize source.chars = before ++ t.remaining
      ∧ t.remaining = piece ++ t'.remaining ∧ (kind ≠ .eof → piece ≠ [])
      ∧ t'.token.line = before.count '\n' + t.scanner.pushed.count (some '\n')
      ∧ t.scanner.pushed.count (some '\n') ≤ 1 := by
  have hf := h.follows hs
  have hlines := h.countsLines hs
  obtain ⟨before, hbefore⟩ := hf.suffix
  obtain ⟨hkind, hstep⟩ := next_of_ok hf.settled hp hn
  rw [hf.options, Split.delivered_false] at hkind hstep
  refine ⟨before, Split.piece t.remaining, hbefore.symm, ?_, fun hk => ?_, ?_,
    Scanner.count_le_one hlines.pushed⟩
  · rw [hstep.remaining, Split.piece_append]
  · refine Split.piece_ne_nil fun hnil => hk ?_
    rw [← hkind]
    exact (Split.lexeme_kind _).mpr hnil
  · have hcount := hlines.line
    have hstack : (t.scanner.pushed.filterMap id).count '\n' = t.scanner.pushed.count (some '\n') :=
      List.count_filterMap
    rw [← hbefore, Tokenizer.remaining, Scanner.remaining, List.count_append, List.count_append,
      hstack] at hcount
    rw [line_of_next (by rw [hf.options]) hp hn]
    omega

/-- The line break behind `<!-` is on the stack when the exclamation mark is begun. -/
theorem line_eq_mark : ∃ t', ((ofString "<!-\n" { skipComments := false }).after 1).next =
      .ok (.delim '!') t'
    ∧ t'.token.line = 1
    ∧ ∃ before piece, ['<', '!', '-', '\n'] = before ++ (piece ++ t'.remaining) ∧ piece ≠ []
      ∧ t'.token.line = before.count '\n' + 1 := by
  generalize ht : (ofString "<!-\n" { skipComments := false }).after 1 = t
  have hreach : Reachable (Source.ofString "<!-\n") { skipComments := false } t := by
    rw [← ht]
    exact .next .start
  have hstate : t.pushedBack = false ∧ t.scanner.pushed = [some '!', some '-', some '\n'] := by
    rw [← ht]
    decide +kernel
  have hr : (resultOf t.next).toOption.map (fun r => (r.1, r.2.line)) = some (.delim '!', 1) := by
    rw [← ht]
    decide +kernel
  obtain ⟨kind, t', hn, heq⟩ := exists_next hr
  obtain ⟨rfl, hline⟩ := Prod.mk.inj heq
  obtain ⟨before, piece, htext, hrest, hpiece, hcount, -⟩ :=
    line_eq (Source.infallible_ofString "<!-\n") hreach hstate.1 hn
  rw [hrest] at htext
  rw [hstate.2] at hcount
  exact ⟨t', hn, hline, before, piece, htext, hpiece (by decide), hcount⟩

/-- So a token may have the line of a line break that comes behind its first character, or that is
its first character itself: no line break comes before the white space here. -/
theorem line_readAhead : (ofString "a\n" { skipComments := false }).tokensToEnd =
    ([{ kind := .ident, value := "a" },
      { kind := .whiteSpace, value := "\n", line := 1, position := 2 },
      { kind := .eof, line := 1, position := 2 }], none) := by
  decide +kernel

end Tokenizer

end CssTokens
