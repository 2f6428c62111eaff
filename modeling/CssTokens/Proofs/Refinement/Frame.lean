import CssTokens.Proofs.Refinement.Composed
import CssTokens.Proofs.Text.Normal

/-!
# What a computation takes of a source

A source may fail at any of its reads. What a computation over a scanner comes to depends on the
events that it takes of the source and not on those that follow: it would take the same and come to
the same if the source went on in another way (`ScanM.Framed`). So it does not matter what a source
does after a failure that was not reached.

A failure that is reached ends the computation. Since the source is read only when nothing is left
of what was pushed back, nothing is pushed back then.

Main statement: the lexer is framed (`Lexeme.read_framed`).
-/

namespace CssTokens

/-- What a read reports, if it fails. -/
def Event.error? : Event → Option ScanError
  | .char _ _ => none
  | .fail f => some ⟨f⟩

namespace Source

/-- All that the reads of a source report, in order. -/
def errors (source : Source) : List ScanError :=
  source.filterMap Event.error?

/-- Whether the last character that a source delivers is a CR. If it delivers none, it is the one
that came before. -/
def endsInCr (source : Source) (before : Bool) : Bool :=
  match source.chars.getLast? with
  | some c => c == '\r'
  | none => before

variable {source source' : Source}

theorem chars_append (source source' : Source) :
    (source ++ source').chars = source.chars ++ source'.chars :=
  List.filterMap_append

theorem errors_append (source source' : Source) :
    (source ++ source').errors = source.errors ++ source'.errors :=
  List.filterMap_append

theorem infallible_nil : Infallible [] :=
  fun _ h => absurd h List.not_mem_nil

theorem infallible_append :
    Infallible (source ++ source') ↔ Infallible source ∧ Infallible source' :=
  List.forall_mem_append

theorem infallible_singleton (c : Char) (malformed : Option Encoding) :
    Infallible [.char c malformed] := by
  intro e he
  rw [List.mem_singleton.mp he]
  rfl

/-- A source that does not fail reports nothing. -/
theorem Infallible.errors (h : Infallible source) : source.errors = [] := by
  refine List.filterMap_eq_nil_iff.mpr fun e he => ?_
  cases e with
  | char c malformed => rfl
  | fail f => cases h _ he

/-- And it delivers a character with each read. -/
theorem Infallible.length_chars (h : source.Infallible) : source.chars.length = source.length := by
  rw [chars, List.length_filterMap_eq_countP]
  exact List.countP_eq_length.mpr h

theorem endsInCr_append (before : Bool) :
    (source ++ source').endsInCr before = source'.endsInCr (source.endsInCr before) := by
  unfold endsInCr
  rw [chars_append, List.getLast?_append]
  cases source'.chars.getLast? <;> rfl

end Source

namespace Scanner

/-- The scanner has come from `s` to `s'`, and has taken the events `taken` of its source. -/
structure Passes (s : Scanner) (taken : Source) (s' : Scanner) : Prop where
  source : s.source = taken ++ s'.source
  infallible : taken.Infallible
  /-- After the end of the source it does not matter. -/
  afterCr : s'.source ≠ [] → s'.afterCr = taken.endsInCr s.afterCr

/-- The scanner has come to a failure of its source, and has taken the events `taken` before. -/
structure Stops (s : Scanner) (taken : Source) (e : ScanError) (s' : Scanner) : Prop where
  source : s.source = taken ++ .fail e.cause :: s'.source
  infallible : taken.Infallible
  pushed : s'.pushed = []
  afterCr : s'.afterCr = taken.endsInCr s.afterCr

variable {s s' s'' : Scanner} {taken taken' : Source}

/-- Where all of the source is taken. -/
theorem Passes.to_end (h : s.source.Infallible) (hnil : s'.source = []) :
    Passes s s.source s' where
  source := by rw [hnil, List.append_nil]
  infallible := h
  afterCr hne := absurd hnil hne

/-- Where nothing is taken of the source. -/
theorem Passes.of_eq (h : s'.source = s.source) (hcr : s'.afterCr = s.afterCr) :
    Passes s [] s' where
  source := h.symm
  infallible := Source.infallible_nil
  afterCr _ := hcr

theorem Passes.trans (h : Passes s taken s') (h' : Passes s' taken' s'') :
    Passes s (taken ++ taken') s'' where
  source := by rw [h.source, h'.source, List.append_assoc]
  infallible := Source.infallible_append.mpr ⟨h.infallible, h'.infallible⟩
  afterCr hne := by
    have hne' : s'.source ≠ [] := by
      rw [h'.source]
      exact List.append_ne_nil_of_right_ne_nil _ hne
    rw [h'.afterCr hne, h.afterCr hne', Source.endsInCr_append]

/-- What goes on at the end only if nothing is left does so from the start. -/
theorem Passes.rest_eq_nil {rest : Source} (h : Passes s taken s')
    (hrest : s'.source = [] → rest = []) (hnil : s.source = []) : taken ++ rest = [] := by
  rw [h.source, List.append_eq_nil_iff] at hnil
  rw [hnil.1, hrest hnil.2, List.append_nil]

theorem Passes.stops {e : ScanError} (h : Passes s taken s') (h' : Stops s' taken' e s'') :
    Stops s (taken ++ taken') e s'' where
  source := by rw [h.source, h'.source, List.append_assoc]
  infallible := Source.infallible_append.mpr ⟨h.infallible, h'.infallible⟩
  pushed := h'.pushed
  afterCr := by
    have hne' : s'.source ≠ [] := by
      rw [h'.source]
      exact List.append_ne_nil_of_right_ne_nil _ (List.cons_ne_nil _ _)
    rw [h'.afterCr, h.afterCr hne', Source.endsInCr_append]

end Scanner

open Scanner

/-- What a computation comes to depends on what it takes of the source, and on the end if nothing is
left. -/
structure ScanM.Framed {α : Type} (m : ScanM α) : Prop where
  ok : ∀ {s a s'}, m s = .ok a s' → ∃ taken, Passes s taken s' ∧
    ∀ rest, (s'.source = [] → rest = []) →
      m { s with source := taken ++ rest } = .ok a { s' with source := rest }
  error : ∀ {s e s'}, m s = .error e s' → ∃ taken, Stops s taken e s'

open ScanM (Framed Composed)

variable {α β : Type}

/-- Over a source that does not fail, what is framed comes to a result. -/
theorem ScanM.Framed.exists_ok {m : ScanM α} (hm : Framed m) {s : Scanner}
    (hs : s.source.Infallible) : ∃ a s', m s = .ok a s' := by
  cases hr : m s with
  | ok a s' => exact ⟨a, s', rfl⟩
  | error e s' =>
    obtain ⟨taken, hstop⟩ := hm.error hr
    rw [hstop.source] at hs
    cases hs _ (List.mem_append_right taken List.mem_cons_self)

/-! ## Reading and pushing back -/

namespace Scanner

/-- Counting a character takes nothing of the source. -/
theorem accept_framed {raw c : Option Char} {s s' : Scanner} (h : accept raw s = .ok c s') :
    s'.source = s.source ∧ s'.afterCr = (s.afterCr || raw == some '\r')
      ∧ ∀ rest, accept raw { s with source := rest } = .ok c { s' with source := rest } := by
  cases raw with
  | none =>
    cases h
    exact ⟨rfl, (Bool.or_false _).symm, fun _ => rfl⟩
  | some d =>
    unfold accept at h ⊢
    dsimp only at h ⊢
    by_cases hcr : (d == '\r') = true
    · rw [if_pos hcr] at h
      simp only [if_pos hcr]
      cases h
      refine ⟨rfl, ?_, fun _ => rfl⟩
      rw [beq_iff_eq.mp hcr]
      exact (Bool.or_true _).symm
    · have hraw : (some d == some '\r') = false := by simpa using hcr
      rw [if_neg hcr] at h
      simp only [if_neg hcr, hraw, Bool.or_false]
      split at h
      · cases h
        simp [*]
      · split at h
        · cases h
          simp [*]
        · cases h
          simp [*]

theorem accept_ne_error {raw : Option Char} {s s' : Scanner} {e : ScanError} :
    accept raw s ≠ .error e s' := by
  intro h
  unfold accept at h
  repeat' split at h
  all_goals cases h

theorem accept_none_source {s s' : Scanner} {c : Option Char} (h : accept none s = .ok c s') :
    s'.source = s.source := by
  cases h
  rfl

/-- A fresh read takes an event of the source, or two if the first is the LF of a CR LF. -/
theorem readFresh_ok {s s' : Scanner} {c : Option Char} (h : readFresh s = .ok c s') :
    ∃ taken, Passes s taken s' ∧ ∀ rest, (s'.source = [] → rest = []) →
      readFresh { s with source := taken ++ rest } = .ok c { s' with source := rest } := by
  obtain ⟨source, pushed, position, line, current, afterCr, malformed⟩ := s
  cases source with
  | nil =>
    have hnil : s'.source = [] := by
      cases afterCr <;> exact accept_none_source h
    refine ⟨[], .to_end Source.infallible_nil hnil, fun rest hrest => ?_⟩
    rw [hrest hnil]
    cases afterCr <;> cases h <;> rfl
  | cons e source =>
    cases e with
    | fail f => cases h
    | char c m =>
      have hi := Source.infallible_singleton c m
      unfold readFresh readSource at h ⊢
      dsimp only [List.cons_append, List.nil_append] at h ⊢
      by_cases hlf : (afterCr && some c == some '\n') = true
      · rw [if_pos hlf] at h
        cases source with
        | nil =>
          have hnil := accept_none_source h
          refine ⟨[.char c m], .to_end hi hnil, fun rest hrest => ?_⟩
          rw [hrest hnil]
          cases h
          exact if_pos hlf
        | cons e source =>
          cases e with
          | fail f => cases h
          | char d m' =>
            obtain ⟨hs, hcr, hframe⟩ := accept_framed h
            refine ⟨[.char c m, .char d m'],
              ⟨by rw [hs]; rfl, ?_, fun _ => hcr⟩, fun rest _ => ?_⟩
            · exact Source.infallible_append.mpr ⟨hi, Source.infallible_singleton d m'⟩
            · exact (if_pos hlf).trans (hframe rest)
      · rw [if_neg hlf] at h
        obtain ⟨hs, hcr, hframe⟩ := accept_framed h
        refine ⟨[.char c m], ⟨by rw [hs]; rfl, hi, fun _ => hcr⟩, fun rest _ => ?_⟩
        exact (if_neg hlf).trans (hframe rest)

/-- All that a failing read may have done: it has met the failure as the first event, or behind the
LF of a CR LF, which is taken then. -/
theorem readFresh_error_cases {s s' : Scanner} {e : ScanError} (h : readFresh s = .error e s') :
    (s.source = .fail e.cause :: s'.source ∧ s' = { s with source := s'.source })
      ∨ ∃ m, s.afterCr = true ∧ s.source = .char '\n' m :: .fail e.cause :: s'.source
        ∧ s' = { s with
            source := s'.source
            afterCr := false
            position := s.position + 1
            malformed := m.toList ++ s.malformed } := by
  obtain ⟨source, pushed, position, line, current, afterCr, malformed⟩ := s
  cases source with
  | nil => cases afterCr <;> cases h
  | cons e₁ source =>
    cases e₁ with
    | fail f =>
      cases h
      exact .inl ⟨rfl, rfl⟩
    | char d m =>
      unfold readFresh readSource at h
      dsimp only at h
      split at h
      · next hlf =>
        rw [Bool.and_eq_true, beq_iff_eq] at hlf
        obtain ⟨hcr, hd⟩ := hlf
        cases hd
        cases source with
        | nil => cases h
        | cons e₂ source =>
          cases e₂ with
          | char d₂ m₂ => exact absurd h accept_ne_error
          | fail f =>
            cases h
            exact .inr ⟨m, hcr, rfl, rfl⟩
      · exact absurd h accept_ne_error

/-- A fresh read fails at the first event of the source, or at the second if the first is the LF of
a CR LF. -/
theorem readFresh_error {s s' : Scanner} {e : ScanError} (hp : s.pushed = [])
    (h : readFresh s = .error e s') : ∃ taken, Stops s taken e s' := by
  rcases readFresh_error_cases h with ⟨hs, hs'⟩ | ⟨m, -, hs, hs'⟩
  · refine ⟨[], hs, Source.infallible_nil, ?_, ?_⟩
    · rw [hs']
      exact hp
    · rw [hs']
      rfl
  · refine ⟨[.char '\n' m], hs, Source.infallible_singleton '\n' m, ?_, ?_⟩
    · rw [hs']
      exact hp
    · rw [hs']
      rfl

theorem next_framed : Framed next where
  ok {s a s'} h := by
    unfold next at h ⊢
    split at h
    · next hp =>
      cases h
      exact ⟨[], .of_eq rfl rfl, fun rest _ => by rw [hp]; rfl⟩
    · next hp =>
      obtain ⟨taken, hpass, hframe⟩ := readFresh_ok h
      exact ⟨taken, hpass, fun rest hrest => by rw [hp, ← hframe rest hrest, hp]⟩
  error {s e s'} h := by
    unfold next at h
    split at h
    · cases h
    · next hp => exact readFresh_error hp h

theorem pushBack_framed (c : Option Char) : Framed (pushBack c) where
  ok h := by
    cases h
    exact ⟨[], .of_eq rfl rfl, fun _ _ => rfl⟩
  error h := by cases h

end Scanner

/-! ## Composing -/

namespace ScanM.Framed

theorem pure (a : α) : Framed (Pure.pure a) where
  ok h := by
    cases h
    exact ⟨[], .of_eq rfl rfl, fun _ _ => rfl⟩
  error h := by cases h

theorem bind {m : ScanM α} {f : α → ScanM β} (hm : Framed m)
    (hf : ∀ a, m.MayReturn a → Framed (f a)) : Framed (m >>= f) where
  ok {s b s''} h := by
    simp only [Bind.bind, EStateM.bind] at h
    split at h
    · next a s' ha =>
      obtain ⟨taken, hpass, hframe⟩ := hm.ok ha
      obtain ⟨taken', hpass', hframe'⟩ := (hf a ⟨s, s', ha⟩).ok h
      refine ⟨taken ++ taken', hpass.trans hpass', fun rest hrest => ?_⟩
      show EStateM.bind m f _ = _
      rw [EStateM.bind, List.append_assoc, hframe _ (hpass'.rest_eq_nil hrest)]
      exact hframe' rest hrest
    · cases h
  error {s e s''} h := by
    simp only [Bind.bind, EStateM.bind] at h
    split at h
    · next a s' ha =>
      obtain ⟨taken, hpass, -⟩ := hm.ok ha
      obtain ⟨taken', hstop⟩ := (hf a ⟨s, s', ha⟩).error h
      exact ⟨taken ++ taken', hpass.stops hstop⟩
    · next he =>
      cases h
      exact hm.error he

theorem nextIf (p : Char → Bool) : Framed (Scanner.nextIf p) := by
  refine next_framed.bind fun c _ => ?_
  cases c with
  | none => exact (pushBack_framed none).bind fun _ _ => .pure none
  | some c =>
    dsimp only
    split
    · exact .pure (some c)
    · exact (pushBack_framed (some c)).bind fun _ _ => .pure none

theorem manyAfter {item : Item α} (hitem : Framed item.read) (items : List α) :
    Framed (item.manyAfter items) where
  ok {s as s''} h := by
    fun_induction Item.manyAfter item items s with
    | case1 items s a s' h1 ih =>
      obtain ⟨taken, hpass, hframe⟩ := hitem.ok h1
      obtain ⟨taken', hpass', hframe'⟩ := ih h
      refine ⟨taken ++ taken', hpass.trans hpass', fun rest hrest => ?_⟩
      rw [List.append_assoc, Item.manyAfter_item (hframe _ (hpass'.rest_eq_nil hrest))]
      exact hframe' rest hrest
    | case2 items s s' h1 =>
      cases h
      obtain ⟨taken, hpass, hframe⟩ := hitem.ok h1
      exact ⟨taken, hpass, fun rest hrest => Item.manyAfter_end (hframe rest hrest)⟩
    | case3 => cases h
  error {s e s''} h := by
    fun_induction Item.manyAfter item items s with
    | case1 items s a s' h1 ih =>
      obtain ⟨taken, hpass, -⟩ := hitem.ok h1
      obtain ⟨taken', hstop⟩ := ih h
      exact ⟨taken ++ taken', hpass.stops hstop⟩
    | case2 => cases h
    | case3 items s e s' h1 =>
      cases h
      exact hitem.error h1

end ScanM.Framed

/-- **Whatever only reads and pushes back is framed.** -/
theorem ScanM.Composed.framed {m : ScanM α} (hm : Composed m) : Framed m := by
  induction hm with
  | pure a => exact .pure a
  | bind _ _ ihm ihf => exact ihm.bind ihf
  | next => exact next_framed
  | nextIf p => exact .nextIf p
  | pushBack _ => exact pushBack_framed _
  | manyAfter items _ ih => exact ih.manyAfter items

/-- **What the lexer comes to depends on what it takes of the source.** -/
theorem Lexeme.read_framed : Framed Lexeme.read :=
  Lexeme.read_composed.framed

end CssTokens
