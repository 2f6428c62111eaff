import CssTokens.Lexer.Lexeme

/-!
# What the lexer is made of

All that the lexer does with a scanner is to read and to push back. Whatever these two keep, all of
the lexer keeps, so that a property of it is an induction over how its productions are composed and
does not look at a single one of them.

What is pushed back is a character that did not satisfy a condition, or a character of a mark or a
numeral. A line break is pushed back only where it has just been read and is not wanted.

Main statements: the lexer is composed in this way (`Lexeme.read_composed`), and an invariant of
reading and pushing back is one of everything composed of them (`ScanM.Composed.invariant`).
-/

namespace CssTokens

open Scanner Lexer

/-- The computation may succeed with this result. -/
def ScanM.MayReturn {α : Type} (m : ScanM α) (a : α) : Prop :=
  ∃ s s', m s = .ok a s'

/-- A computation that does nothing with a scanner but read and push back. -/
inductive ScanM.Composed : {α : Type} → ScanM α → Prop
  | pure {α : Type} (a : α) : Composed (Pure.pure a)
  | bind {α β : Type} {m : ScanM α} {f : α → ScanM β} :
    Composed m → (∀ a, m.MayReturn a → Composed (f a)) → Composed (m >>= f)
  | next : Composed Scanner.next
  | nextIf (p : Char → Bool) : Composed (Scanner.nextIf p)
  | pushBack {c : Char} : c ≠ '\n' → Composed (Scanner.pushBack (some c))
  | manyAfter {α : Type} {item : Item α} (items : List α) :
    Composed item.read → Composed (item.manyAfter items)

open ScanM (Composed)

variable {α β : Type}

/-! ## Results -/

/-- What two steps come to, the second comes to from where the first has. -/
theorem ScanM.bind_ok {m : ScanM α} {f : α → ScanM β} {s s'' : Scanner} {b : β}
    (h : (m >>= f) s = .ok b s'') : ∃ a s', m s = .ok a s' ∧ f a s' = .ok b s'' := by
  simp only [Bind.bind, EStateM.bind] at h
  split at h
  · next a s' ha => exact ⟨a, s', ha, h⟩
  · cases h

theorem ScanM.run'_of_ok {m : ScanM α} {s s' : Scanner} {a : α} (h : m s = .ok a s') :
    m.run' s = some a := by
  show EStateM.run' (fun _ => m s) s = some a
  rw [h]
  rfl

theorem ScanM.exists_of_run' {m : ScanM α} {s : Scanner} {a : α} (h : m.run' s = some a) :
    ∃ s', m s = .ok a s' := by
  unfold EStateM.run' at h
  split at h
  · next s' ha =>
    cases h
    exact ⟨s', ha⟩
  · cases h

/-! ## Reading up to a condition -/

namespace Scanner

/-- What is read on a condition satisfies it. -/
theorem of_nextIf_mayReturn {p : Char → Bool} {c : Char} (h : (nextIf p).MayReturn (some c)) :
    p c = true := by
  obtain ⟨s, s', h⟩ := h
  simp only [nextIf, Bind.bind, EStateM.bind] at h
  split at h
  · split at h
    · split at h
      · next hc =>
        cases h
        exact hc
      · cases h
    · cases h
  · cases h

theorem nextIs_composed (c : Char) : Composed (nextIs c) :=
  (Composed.nextIf _).bind fun _ _ => .pure _

theorem nextText_composed {mark : List Char} (h : '\n' ∉ mark.dropLast) :
    Composed (nextText mark) := by
  induction mark with
  | nil => exact .pure true
  | cons c mark ih =>
    cases mark with
    | nil =>
      -- After the last character there is nothing more to be missed.
      refine (nextIs_composed c).bind fun found _ => ?_
      cases found <;> exact .pure _
    | cons d mark =>
      rw [List.dropLast_cons_cons, List.mem_cons, not_or] at h
      refine (nextIs_composed c).bind fun found _ => ?_
      cases found with
      | false => exact .pure false
      | true =>
        refine (ih h.2).bind fun found _ => ?_
        cases found with
        | true => exact .pure true
        | false => exact (Composed.pushBack (Ne.symm h.1)).bind fun _ _ => .pure false

end Scanner

/-! ## Repeated items -/

namespace Item

theorem many_composed {item : Item α} (h : Composed item.read) : Composed item.many :=
  .manyAfter [] h

theorem upTo_composed {item : Item α} (h : Composed item.read) (n : Nat) :
    Composed (item.upTo n) := by
  induction n with
  | zero => exact .pure []
  | succ n ih =>
    refine h.bind fun a _ => ?_
    cases a with
    | none => exact .pure []
    | some a => exact ih.bind fun _ _ => .pure _

theorem satisfying_composed (p : Char → Bool) : Composed (satisfying p).read :=
  .nextIf p

end Item

/-! ## Escapes and names -/

namespace Lexer

theorem codePointEscape_composed (first : Char) : Composed (codePointEscape first) :=
  (Item.upTo_composed (Item.satisfying_composed isHexDigit) 5).bind fun _ _ =>
    (Composed.nextIf _).bind fun _ _ => .pure _

theorem escape_composed : Composed escape := by
  refine (Composed.nextIf isHexDigit).bind fun first _ => ?_
  cases first with
  | some first => exact (codePointEscape_composed first).bind fun _ _ => .pure _
  | none => exact .nextIf _

end Lexer

theorem Item.orEscape_composed (p : Char → Bool) : Composed (Item.orEscape p).read := by
  refine (Composed.nextIf p).bind fun c _ => ?_
  cases c with
  | some c => exact .pure _
  | none =>
    refine (nextIs_composed '\\').bind fun found _ => ?_
    cases found with
    | false => exact .pure none
    | true =>
      refine Lexer.escape_composed.bind fun c _ => ?_
      cases c with
      | some c => exact .pure _
      | none => exact (Composed.pushBack (by decide)).bind fun _ _ => .pure none

namespace Lexer

theorem nameChars_composed : Composed Item.nameChar.many :=
  Item.many_composed (Item.orEscape_composed isNameChar)

theorem name_composed : Composed name := by
  refine nameChars_composed.bind fun cs _ => ?_
  cases cs <;> exact .pure _

theorem ident_composed : Composed ident := by
  refine (Composed.nextIf _).bind fun hyphen hh => ?_
  refine (Item.orEscape_composed isNameStart).bind fun first _ => ?_
  cases first with
  | some first => exact nameChars_composed.bind fun _ _ => .pure _
  | none =>
    cases hyphen with
    | none => exact .pure none
    | some c =>
      have hc : c ≠ '\n' := by
        rintro rfl
        cases of_nextIf_mayReturn hh
      exact (Composed.pushBack hc).bind fun _ _ => .pure none

end Lexer

/-! ## Numerals -/

theorem Item.digits_composed : Composed Item.digit.many :=
  Item.many_composed (Item.satisfying_composed Char.isDigit)

theorem ne_lineBreak_of_isSign {c : Char} (h : isSign c = true) : c ≠ '\n' := by
  rintro rfl
  cases h

theorem Exponent.read_composed : Composed Exponent.read := by
  refine (Composed.nextIf isExponentLetter).bind fun letter hl => ?_
  cases letter with
  | none => exact .pure none
  | some letter =>
    refine (Composed.nextIf isSign).bind fun sign hs => Item.digits_composed.bind fun ds _ => ?_
    cases ds with
    | cons d ds => exact .pure _
    | nil =>
      have hletter : letter ≠ '\n' := by
        rintro rfl
        cases of_nextIf_mayReturn hl
      have hback := (Composed.pushBack hletter).bind fun _ _ => .pure (none : Option Exponent)
      cases sign with
      | some c =>
        have hc : c ≠ '\n' := ne_lineBreak_of_isSign (of_nextIf_mayReturn hs)
        exact (Composed.pushBack hc).bind fun _ _ => hback
      | none => exact hback

theorem Numeral.readFraction_composed : Composed Numeral.readFraction := by
  refine (nextIs_composed '.').bind fun found _ => ?_
  cases found with
  | false => exact .pure []
  | true =>
    refine Item.digits_composed.bind fun ds _ => ?_
    cases ds with
    | nil => exact (Composed.pushBack (by decide)).bind fun _ _ => .pure []
    | cons d ds => exact .pure (d :: ds)

theorem Numeral.read_composed : Composed Numeral.read := by
  refine (Composed.nextIf isSign).bind fun sign hs => Item.digits_composed.bind fun whole _ => ?_
  refine Numeral.readFraction_composed.bind fun fraction _ => ?_
  cases whole.isEmpty && fraction.isEmpty with
  | false => exact Exponent.read_composed.bind fun _ _ => .pure _
  | true =>
    cases sign with
    | some c =>
      have hc : c ≠ '\n' := ne_lineBreak_of_isSign (of_nextIf_mayReturn hs)
      exact (Composed.pushBack hc).bind fun _ _ => .pure none
    | none => exact .pure none

/-! ## Strings, URLs and comments -/

theorem Item.quotedChar_composed (quote : Char) : Composed (Item.quotedChar quote).read := by
  refine (Item.orEscape_composed _).bind fun c _ => ?_
  cases c with
  | some c => exact .pure _
  | none => exact (nextText_composed (by decide)).bind fun _ _ => .pure _

theorem Item.commentChar_composed : Composed Item.commentChar.read := by
  refine (nextText_composed (by decide)).bind fun found _ => ?_
  cases found with
  | true =>
    refine (Composed.pushBack (by decide)).bind fun _ _ => ?_
    exact (Composed.pushBack (by decide)).bind fun _ _ => .pure none
  | false => exact .nextIf _

namespace Lexer

theorem quoted_composed (quote : Char) : Composed (quoted quote) :=
  (Item.many_composed (Item.quotedChar_composed quote)).bind fun _ _ =>
    (nextIs_composed quote).bind fun _ _ => .pure _

theorem blanks_composed : Composed Item.blank.many :=
  Item.many_composed (Item.satisfying_composed isBlank)

theorem urlEnd_composed (text : List Char) : Composed (urlEnd text) :=
  blanks_composed.bind fun _ _ => (nextIs_composed ')').bind fun _ _ => .pure _

theorem url_composed : Composed url := by
  refine blanks_composed.bind fun _ _ => (Composed.nextIf isQuote).bind fun quote _ => ?_
  cases quote with
  | some quote =>
    refine (quoted_composed quote).bind fun contents _ => ?_
    cases contents.closed with
    | true => exact urlEnd_composed contents.text
    | false => exact .pure contents
  | none =>
    exact (Item.many_composed (Item.orEscape_composed isUrlChar)).bind fun _ _ => urlEnd_composed _

theorem comment_composed : Composed comment := by
  refine (Item.many_composed Item.commentChar_composed).bind fun text _ => ?_
  refine (nextText_composed (by decide)).bind fun found _ => ?_
  cases found with
  | true => exact .pure _
  | false => exact Composed.next.bind fun _ _ => .pure _

end Lexer

/-! ## Lexemes -/

namespace Lexeme

theorem pairOrDelim_composed (c : Char) : Composed (pairOrDelim c) := by
  refine (Composed.nextIf _).bind fun d _ => ?_
  cases d <;> exact .pure _

theorem namedOrDelim_composed (c : Char) (kind : TokenKind)
    {production : ScanM (Option (List Char))} (h : Composed production) :
    Composed (namedOrDelim c kind production) := by
  refine h.bind fun text _ => ?_
  cases text <;> exact .pure _

theorem enclosed_composed (kind cutOff : TokenKind) {production : ScanM Enclosed}
    (h : Composed production) : Composed (enclosed kind cutOff production) :=
  h.bind fun _ _ => .pure _

theorem cdc_composed : Composed cdc :=
  (nextText_composed (by decide)).bind fun _ _ => .pure _

theorem numberLike_composed : Composed numberLike := by
  refine Numeral.read_composed.bind fun n _ => ?_
  cases n with
  | none => exact .pure none
  | some n =>
    refine (nextIs_composed '%').bind fun found _ => ?_
    cases found with
    | true => exact .pure _
    | false =>
      refine Lexer.ident_composed.bind fun unit _ => ?_
      cases unit <;> exact .pure _

theorem identLike_composed (allowUrl : Bool) : Composed (identLike allowUrl) := by
  refine Lexer.ident_composed.bind fun text _ => ?_
  cases text with
  | none => exact .pure none
  | some text =>
    refine (nextIs_composed '(').bind fun found _ => ?_
    cases found with
    | false => exact .pure _
    | true =>
      simp only [if_true]
      split
      · exact (enclosed_composed .url .badUrl Lexer.url_composed).bind fun _ _ => .pure _
      · exact .pure _

theorem productions_composed (c : Char) : ∀ production ∈ productions c, Composed production := by
  unfold productions
  split
  · simp [cdc_composed, numberLike_composed, identLike_composed]
  · split
    · simp [numberLike_composed]
    · simp [identLike_composed]

theorem firstOf_composed {productions : List (ScanM (Option Lexeme))}
    (h : ∀ p ∈ productions, Composed p) : Composed (firstOf productions) := by
  induction productions with
  | nil =>
    refine Composed.next.bind fun c _ => ?_
    cases c <;> exact .pure _
  | cons p ps ih =>
    refine (h p List.mem_cons_self).bind fun l _ => ?_
    cases l with
    | some l => exact .pure l
    | none => exact ih fun q hq => h q (List.mem_cons_of_mem _ hq)

theorem readFrom_composed (c : Char) : Composed (readFrom c) := by
  unfold readFrom
  split
  · exact Lexer.blanks_composed.bind fun _ _ => .pure _
  next hblank =>
  split
  · exact pairOrDelim_composed c
  split
  · exact namedOrDelim_composed c _ Lexer.ident_composed
  split
  · exact namedOrDelim_composed c _ Lexer.name_composed
  split
  · exact enclosed_composed _ _ (Lexer.quoted_composed c)
  split
  · refine (nextIs_composed '*').bind fun found _ => ?_
    cases found with
    | true => exact enclosed_composed _ _ Lexer.comment_composed
    | false => exact .pure _
  split
  · refine (nextText_composed (by decide)).bind fun found _ => ?_
    cases found <;> exact .pure _
  · have hc : c ≠ '\n' := by
      rintro rfl
      exact hblank rfl
    exact (Composed.pushBack hc).bind fun _ _ => firstOf_composed (productions_composed c)

/-- **The lexer does nothing with a scanner but read and push back.** -/
theorem read_composed : Composed read := by
  refine Composed.next.bind fun c _ => ?_
  cases c with
  | some c => exact readFrom_composed c
  | none => exact .pure atEnd

end Lexeme

/-! ## Runs of items, unrolled -/

namespace Item

variable {item : Item α} {items : List α} {s s' : Scanner}

theorem manyAfter_item {a : α} (h : item.read s = .ok (some a) s') :
    item.manyAfter items s = item.manyAfter (a :: items) s' := by
  fun_cases manyAfter item items s with
  | case1 a s₁ h1 =>
    cases h1.symm.trans h
    rfl
  | case2 s₁ h1 => cases h1.symm.trans h
  | case3 e s₁ h1 => cases h1.symm.trans h

theorem manyAfter_end (h : item.read s = .ok none s') :
    item.manyAfter items s = .ok items.reverse s' := by
  fun_cases manyAfter item items s with
  | case1 a s₁ h1 => cases h1.symm.trans h
  | case2 s₁ h1 =>
    cases h1.symm.trans h
    rfl
  | case3 e s₁ h1 => cases h1.symm.trans h

theorem manyAfter_error {e : ScanError} (h : item.read s = .error e s') :
    item.manyAfter items s = .error e s' := by
  fun_cases manyAfter item items s with
  | case1 a s₁ h1 => cases h1.symm.trans h
  | case2 s₁ h1 => cases h1.symm.trans h
  | case3 e s₁ h1 =>
    cases h1.symm.trans h
    rfl

end Item

/-! ## Invariants -/

/-- A character that is not wanted is put back where it has been read. -/
theorem Scanner.nextIf_invariant {I : Scanner → Prop}
    (hnext : ∀ {s c s'}, I s → Scanner.next s = .ok c s' →
      I s' ∧ I { s' with pushed := c :: s'.pushed })
    (p : Char → Bool) {s s' : Scanner} {c : Option Char} (hs : I s)
    (h : Scanner.nextIf p s = .ok c s') : I s' := by
  simp only [Scanner.nextIf, Bind.bind, EStateM.bind] at h
  split at h
  · next d s₁ h1 =>
    obtain ⟨hread, hback⟩ := hnext hs h1
    split at h
    · split at h
      · cases h
        exact hread
      · cases h
        exact hback
    · cases h
      exact hback
  · cases h

/-- **What reading and pushing back keep, is kept by all that is composed of them.** -/
theorem ScanM.Composed.invariant {I : Scanner → Prop} {m : ScanM α} (hm : Composed m)
    (hnext : ∀ {s c s'}, I s → Scanner.next s = .ok c s' →
      I s' ∧ I { s' with pushed := c :: s'.pushed })
    (hpush : ∀ {c s}, c ≠ '\n' → I s → I { s with pushed := some c :: s.pushed })
    {s s' : Scanner} {a : α} (hs : I s) (h : m s = .ok a s') : I s' := by
  induction hm generalizing s s' with
  | pure =>
    cases h
    exact hs
  | @bind _ _ m _ _ _ ihm ihf =>
    simp only [Bind.bind, EStateM.bind] at h
    split at h
    · next b s₁ hb => exact ihf b ⟨s, s₁, hb⟩ (ihm hs hb) h
    · cases h
  | next => exact (hnext hs h).1
  | nextIf p => exact Scanner.nextIf_invariant hnext p hs h
  | pushBack hc =>
    cases h
    exact hpush hc hs
  | @manyAfter _ item items _ ih =>
    fun_induction Item.manyAfter item items s with
    | case1 items s a s₁ h1 ih' => exact ih' (ih hs h1) h
    | case2 items s s₁ h1 =>
      cases h
      exact ih hs h1
    | case3 => cases h

end CssTokens
