import CssTokens.Proofs.Refinement.Composed

/-!
# How far the lexer looks ahead

A production finds its end by reading too far, and it gives back what it has read in vain. What it
may have to give back, it holds in its hand until it knows; what it has made use of leaves the hand
for good. So what lies on the stack together with what is in the hand grows only where something
fresh is read into the hand, and the hand is never large: the longest things that are read in vain
are a mark such as `!--`, the beginning of an exponent (`e+` and what is no digit), the beginning of
a number (a sign, a point and what is no digit) and that of an identifier (a hyphen, a backslash and
what it does not escape).

Main statement: the lexer leaves at most three results on the stack, or less than there were
(`Lexeme.read_peeks`).
-/

namespace CssTokens

open Scanner Lexer

/--
Started with `hand` results in hand, the computation ends with `left a` of them in hand. All that
is on the stack or in hand at the end are `bound` results at most, unless there were more at the
start, and then it is not more than there were.
-/
def ScanM.Peeks {α : Type} (bound hand : Nat) (m : ScanM α) (left : α → Nat) : Prop :=
  ∀ s a s', m s = .ok a s' → s'.pushed.length + left a ≤ max bound (s.pushed.length + hand)

open ScanM (Peeks)

/-- What is in hand after a production: all that was, if it has failed, and nothing if what it has
read is made use of. -/
def inHand {α : Type} (hand : Nat) : Option α → Nat
  | some _ => 0
  | none => hand

variable {α β : Type} {bound hand : Nat}

/-! ## Composing -/

namespace ScanM.Peeks

variable {m : ScanM α} {left : α → Nat}

theorem pure {a : α} (h : left a ≤ hand) : Peeks bound hand (Pure.pure a : ScanM α) left := by
  intro s b s' hs
  cases hs
  omega

theorem bind {f : α → ScanM β} {mid : α → Nat} {left : β → Nat} (hm : Peeks bound hand m mid)
    (hf : ∀ a, Peeks bound (mid a) (f a) left) : Peeks bound hand (m >>= f) left := by
  intro s b s'' h
  simp only [Bind.bind, EStateM.bind] at h
  split at h
  · next a s' ha =>
    have h1 := hm s a s' ha
    have h2 := hf a s' b s'' h
    omega
  · cases h

/-- What is left over in hand may be made use of. -/
theorem mono {left' : α → Nat} (hm : Peeks bound hand m left) (h : ∀ a, left' a ≤ left a) :
    Peeks bound hand m left' := by
  intro s a s' hs
  have h1 := hm s a s' hs
  have h2 := h a
  omega

/-- All of it may be made use of. -/
theorem used (hm : Peeks bound hand m left) : Peeks bound hand m fun _ => 0 :=
  hm.mono fun _ => Nat.zero_le _

end ScanM.Peeks

/-! ## Reading up to a condition -/

namespace Scanner

variable {s s' : Scanner} {raw c : Option Char}

theorem readSource_pushed (h : readSource s = .ok raw s') : s'.pushed = s.pushed := by
  unfold readSource at h
  split at h <;> cases h <;> rfl

theorem accept_pushed (h : accept raw s = .ok c s') : s'.pushed = s.pushed := by
  unfold accept at h
  repeat' split at h
  all_goals cases h; rfl

/-- A fresh read puts nothing onto the stack. -/
theorem readFresh_pushed (h : readFresh s = .ok c s') : s'.pushed = s.pushed := by
  unfold readFresh at h
  split at h
  · cases h
  · next raw s₁ h1 =>
    have hp₁ := readSource_pushed h1
    split at h
    · split at h
      · cases h
      · next raw₂ s₂ h2 =>
        have hp₂ := readSource_pushed h2
        rw [accept_pushed h, hp₂, hp₁]
    · have hp₂ := accept_pushed h
      rw [hp₂, hp₁]

theorem next_peeks (h : hand < bound) : Peeks bound hand next fun _ => hand + 1 := by
  intro s c s' hs
  unfold next at hs
  split at hs
  · next d rest hp =>
    cases hs
    simp only [hp, List.length_cons]
    omega
  · next hp =>
    rw [readFresh_pushed hs, hp]
    simp only [List.length_nil]
    omega

theorem pushBack_peeks (c : Option Char) :
    Peeks bound (hand + 1) (pushBack c) fun _ => hand := by
  intro s a s' hs
  cases hs
  simp only [List.length_cons]
  omega

theorem nextIf_peeks (h : hand < bound) (p : Char → Bool) :
    Peeks bound hand (nextIf p) fun c => hand + countOf c := by
  refine (next_peeks h).bind fun c => ?_
  cases c with
  | none => exact (pushBack_peeks none).bind fun _ => .pure (Nat.le_refl _)
  | some c =>
    dsimp only
    split
    · exact .pure (Nat.le_refl _)
    · exact (pushBack_peeks (some c)).bind fun _ => .pure (Nat.le_refl _)

theorem nextIs_peeks (h : hand < bound) (c : Char) :
    Peeks bound hand (nextIs c) fun found => hand + if found then 1 else 0 := by
  refine (nextIf_peeks h _).bind fun d => .pure ?_
  cases d <;> exact Nat.le_refl _

/-- A mark is held until it is known whether all of it is there. -/
theorem nextText_peeks {mark : List Char} (h : hand + mark.length ≤ bound) :
    Peeks bound hand (nextText mark) fun found => hand + if found then mark.length else 0 := by
  induction mark generalizing hand with
  | nil => exact .pure (Nat.le_refl _)
  | cons c mark ih =>
    rw [List.length_cons] at h
    refine (nextIs_peeks (by omega) c).bind fun found => ?_
    cases found with
    | false => exact .pure (Nat.le_refl _)
    | true =>
      refine (ih (by omega : hand + 1 + mark.length ≤ bound)).bind fun found => ?_
      cases found with
      | true =>
        refine .pure ?_
        simp only [if_true, List.length_cons]
        omega
      | false => exact (pushBack_peeks (some c)).bind fun _ => .pure (Nat.le_refl _)

end Scanner

/-! ## Repeated items -/

namespace Item

variable {item : Item α}

theorem manyAfter_ne_nil {a : α} {items as : List α} {s s' : Scanner}
    (h : item.manyAfter (a :: items) s = .ok as s') : as ≠ [] := by
  generalize hb : a :: items = before at h
  have hne : before ≠ [] := by
    rw [← hb]
    exact List.cons_ne_nil a items
  clear hb
  fun_induction manyAfter item before s with
  | case1 items s b s' h1 ih => exact ih h (List.cons_ne_nil b items)
  | case2 items s s' h1 =>
    cases h
    exact fun hnil => hne (List.reverse_eq_nil_iff.mp hnil)
  | case3 => cases h

theorem manyAfter_peeks (h : Peeks bound 0 item.read fun _ => 0) (items : List α) :
    Peeks bound 0 (item.manyAfter items) fun _ => 0 := by
  intro s as s' hs
  fun_induction manyAfter item items s with
  | case1 items s a s₁ h1 ih =>
    have hread := h s _ s₁ h1
    have hrest := ih hs
    dsimp only at hread hrest ⊢
    omega
  | case2 items s s₁ h1 =>
    cases hs
    exact h s _ _ h1
  | case3 => cases hs

/-- What is in hand before a run of items may be given back if the run is empty. -/
theorem many_peeks (h : Peeks bound hand item.read (inHand hand))
    (h0 : Peeks bound 0 item.read fun _ => 0) :
    Peeks bound hand item.many fun as => if as.isEmpty then hand else 0 := by
  intro s as s' hs
  cases h1 : item.read s with
  | error e s₁ => cases (manyAfter_error h1).symm.trans hs
  | ok a s₁ =>
    have hread := h s a s₁ h1
    cases a with
    | none =>
      cases (manyAfter_end h1).symm.trans hs
      exact hread
    | some a =>
      have hs : item.manyAfter [a] s₁ = .ok as s' := (manyAfter_item h1).symm.trans hs
      have hrest := manyAfter_peeks h0 [a] s₁ as s' hs
      have hne : as.isEmpty = false := by simpa using manyAfter_ne_nil hs
      simp only [hne, inHand, Bool.false_eq_true, if_false] at hread hrest ⊢
      omega

/-- The same with nothing in hand. -/
theorem run_peeks (h : Peeks bound 0 item.read fun _ => 0) :
    Peeks bound 0 item.many fun _ => 0 :=
  manyAfter_peeks h []

theorem satisfying_peeks (h : hand < bound) (p : Char → Bool) :
    Peeks bound hand (satisfying p).read (inHand hand) :=
  (nextIf_peeks h p).mono fun c => by cases c <;> simp [inHand, countOf]

end Item

/-! ## Escapes and names -/

namespace Lexer

theorem codePointEscape_peeks (h : 0 < bound) (first : Char) :
    Peeks bound 0 (codePointEscape first) fun _ => 0 := by
  have hdigits : ∀ n, Peeks bound 0 (Item.hexDigit.upTo n) fun _ => 0 := by
    intro n
    induction n with
    | zero => exact .pure (Nat.le_refl _)
    | succ n ih =>
      refine (Item.satisfying_peeks h isHexDigit).bind fun d => ?_
      cases d with
      | some d => exact ih.bind fun _ => .pure (Nat.le_refl _)
      | none => exact .pure (Nat.le_refl _)
  refine (hdigits 5).bind fun more => ?_
  exact (nextIf_peeks h _).bind fun _ => .pure (Nat.zero_le _)

theorem escape_peeks (h : hand < bound) : Peeks bound hand escape (inHand hand) := by
  refine (nextIf_peeks h isHexDigit).bind fun first => ?_
  cases first with
  | some first =>
    -- An escape that begins with a digit cannot fail.
    have hrest : Peeks bound (hand + 1) (codePointEscape first) fun _ => 0 := by
      intro s c s' hs
      have hpeeks := codePointEscape_peeks (by omega : 0 < bound) first s c s' hs
      dsimp only at hpeeks ⊢
      omega
    exact hrest.bind fun _ => .pure (Nat.le_refl _)
  | none => exact (nextIf_peeks h _).mono fun c => by cases c <;> simp [inHand, countOf]

end Lexer

theorem Item.orEscape_peeks (h : hand + 2 ≤ bound) (p : Char → Bool) :
    Peeks bound hand (Item.orEscape p).read (inHand hand) := by
  refine (nextIf_peeks (by omega) p).bind fun c => ?_
  cases c with
  | some c => exact .pure (Nat.zero_le _)
  | none =>
    refine (nextIs_peeks (by omega : hand < bound) '\\').bind fun found => ?_
    cases found with
    | false => exact .pure (Nat.le_refl _)
    | true =>
      refine (Lexer.escape_peeks (by omega : hand + 1 < bound)).bind fun c => ?_
      cases c with
      | some c => exact .pure (Nat.le_refl _)
      | none => exact (pushBack_peeks _).bind fun _ => .pure (Nat.le_refl _)

/-- A run of items with escapes. -/
theorem Item.orEscape_run_peeks (h : 2 ≤ bound) (p : Char → Bool) :
    Peeks bound 0 (Item.orEscape p).many fun _ => 0 :=
  Item.run_peeks (Item.orEscape_peeks (by omega) p).used

namespace Lexer

theorem name_peeks (h : 2 ≤ bound) : Peeks bound 0 name fun _ => 0 := by
  refine (Item.orEscape_run_peeks h isNameChar).bind fun cs => ?_
  cases cs <;> exact .pure (Nat.le_refl _)

/-- The hyphen is in hand until there is the start of a name. -/
theorem ident_peeks (h : 3 ≤ bound) : Peeks bound 0 ident fun _ => 0 := by
  refine (nextIf_peeks (by omega) _).bind fun hyphen => ?_
  have hhand : 0 + countOf hyphen + 2 ≤ bound := by
    cases hyphen <;> simp only [countOf] <;> omega
  refine (Item.orEscape_peeks hhand isNameStart).bind fun first => ?_
  cases first with
  | some first =>
    exact (Item.orEscape_run_peeks (by omega) isNameChar).bind fun _ => .pure (Nat.le_refl _)
  | none =>
    cases hyphen with
    | some c => exact (pushBack_peeks _).bind fun _ => .pure (Nat.le_refl _)
    | none => exact .pure (Nat.le_refl _)

end Lexer

/-! ## Numerals -/

theorem Item.digits_peeks (h : hand < bound) :
    Peeks bound hand Item.digit.many fun ds => if ds.isEmpty then hand else 0 :=
  Item.many_peeks (Item.satisfying_peeks h _)
    (Item.satisfying_peeks (by omega) _).used

/-- The letter and the sign are in hand until there is a digit. -/
theorem Exponent.read_peeks (h : 3 ≤ bound) : Peeks bound 0 Exponent.read fun _ => 0 := by
  refine (nextIf_peeks (by omega) _).bind fun letter => ?_
  cases letter with
  | none => exact .pure (Nat.le_refl _)
  | some letter =>
    refine (nextIf_peeks (by omega : 1 < bound) isSign).bind fun sign => ?_
    have hhand : 1 + countOf sign < bound := by
      cases sign <;> simp only [countOf] <;> omega
    refine (Item.digits_peeks hhand).bind fun ds => ?_
    cases ds with
    | cons d ds => exact .pure (Nat.le_refl _)
    | nil =>
      have hback : Peeks bound 1 (do pushBack (some letter); return (none : Option Exponent))
          fun _ => 0 := (pushBack_peeks _).bind fun _ => .pure (Nat.le_refl _)
      cases sign with
      | some c => exact (pushBack_peeks _).bind fun _ => hback
      | none => exact hback

theorem Numeral.readFraction_peeks (h : hand + 2 ≤ bound) :
    Peeks bound hand Numeral.readFraction fun ds => if ds.isEmpty then hand else 0 := by
  refine (nextIs_peeks (by omega) '.').bind fun found => ?_
  cases found with
  | false => exact .pure (Nat.le_refl _)
  | true =>
    refine (Item.digits_peeks (by omega : hand + 1 < bound)).bind fun ds => ?_
    cases ds with
    | nil => exact (pushBack_peeks _).bind fun _ => .pure (Nat.le_refl _)
    | cons d ds => exact .pure (Nat.le_refl _)

/-- The sign is in hand until there is a digit, before the point or after it. -/
theorem Numeral.read_peeks (h : 3 ≤ bound) : Peeks bound 0 Numeral.read fun _ => 0 := by
  refine (nextIf_peeks (by omega) isSign).bind fun sign => ?_
  have hsign : countOf sign ≤ 1 := by
    cases sign <;> simp [countOf]
  refine (Item.digits_peeks (by omega)).bind fun whole => ?_
  refine (Numeral.readFraction_peeks (by split <;> omega)).bind fun fraction => ?_
  have hexponent : Peeks bound 0
      (do return some { sign, whole, fraction, exponent := ← Exponent.read } :
        ScanM (Option Numeral)) fun _ => 0 :=
    (Exponent.read_peeks h).bind fun _ => .pure (Nat.le_refl _)
  cases whole with
  | cons d whole => cases fraction <;> exact hexponent
  | nil =>
    cases fraction with
    | cons d fraction => exact hexponent
    | nil =>
      cases sign with
      | some c => exact (pushBack_peeks _).bind fun _ => .pure (Nat.le_refl _)
      | none => exact .pure (Nat.le_refl _)

/-! ## Strings, URLs and comments -/

theorem Item.quotedChar_peeks (h : 2 ≤ bound) (quote : Char) :
    Peeks bound 0 (Item.quotedChar quote).read fun _ => 0 := by
  refine (Item.orEscape_peeks (by omega) _).bind fun c => ?_
  cases c with
  | some c => exact .pure (Nat.le_refl _)
  | none =>
    exact (nextText_peeks (by simpa using h : 0 + 2 ≤ bound)).bind fun _ => .pure (Nat.zero_le _)

theorem Item.commentChar_peeks (h : 2 ≤ bound) :
    Peeks bound 0 Item.commentChar.read fun _ => 0 := by
  refine (nextText_peeks (by simpa using h)).bind fun found => ?_
  cases found with
  | true =>
    refine (pushBack_peeks _).bind fun _ => ?_
    exact (pushBack_peeks _).bind fun _ => .pure (Nat.le_refl _)
  | false => exact (nextIf_peeks (by omega : 0 < bound) _).used

namespace Lexer

theorem blanks_peeks (h : 0 < bound) : Peeks bound 0 Item.blank.many fun _ => 0 :=
  Item.run_peeks (Item.satisfying_peeks h isBlank).used

theorem quoted_peeks (h : 2 ≤ bound) (quote : Char) : Peeks bound 0 (quoted quote) fun _ => 0 :=
  (Item.run_peeks (Item.quotedChar_peeks h quote)).bind fun _ =>
    (nextIs_peeks (by omega) quote).bind fun _ => .pure (Nat.zero_le _)

theorem urlEnd_peeks (h : 0 < bound) (text : List Char) :
    Peeks bound 0 (urlEnd text) fun _ => 0 :=
  (blanks_peeks h).bind fun _ => (nextIs_peeks h ')').bind fun _ => .pure (Nat.zero_le _)

theorem url_peeks (h : 2 ≤ bound) : Peeks bound 0 url fun _ => 0 := by
  refine (blanks_peeks (by omega)).bind fun _ => ?_
  refine (nextIf_peeks (by omega) isQuote).used.bind fun quote => ?_
  cases quote with
  | some quote =>
    refine (quoted_peeks h quote).bind fun contents => ?_
    cases contents.closed with
    | true => exact urlEnd_peeks (by omega) contents.text
    | false => exact .pure (Nat.le_refl _)
  | none =>
    exact (Item.orEscape_run_peeks h isUrlChar).bind fun text => urlEnd_peeks (by omega) text

theorem comment_peeks (h : 2 ≤ bound) : Peeks bound 0 comment fun _ => 0 := by
  refine (Item.run_peeks (Item.commentChar_peeks h)).bind fun text => ?_
  refine (nextText_peeks (by simpa using h)).used.bind fun found => ?_
  cases found with
  | true => exact .pure (Nat.le_refl _)
  | false => exact (next_peeks (by omega)).used.bind fun _ => .pure (Nat.le_refl _)

end Lexer

/-! ## Lexemes -/

namespace Lexeme

theorem pairOrDelim_peeks (h : 0 < bound) (c : Char) :
    Peeks bound 0 (pairOrDelim c) fun _ => 0 := by
  refine (nextIf_peeks h _).bind fun d => ?_
  cases d <;> exact .pure (Nat.zero_le _)

theorem namedOrDelim_peeks (c : Char) (kind : TokenKind) {production : ScanM (Option (List Char))}
    (h : Peeks bound 0 production fun _ => 0) :
    Peeks bound 0 (namedOrDelim c kind production) fun _ => 0 := by
  refine h.bind fun text => ?_
  cases text <;> exact .pure (Nat.le_refl _)

theorem enclosed_peeks (kind cutOff : TokenKind) {production : ScanM Enclosed}
    (h : Peeks bound 0 production fun _ => 0) :
    Peeks bound 0 (enclosed kind cutOff production) fun _ => 0 :=
  h.bind fun _ => .pure (Nat.le_refl _)

theorem cdc_peeks (h : 3 ≤ bound) : Peeks bound 0 cdc fun _ => 0 :=
  (nextText_peeks (by simpa using h)).bind fun _ => .pure (Nat.zero_le _)

theorem numberLike_peeks (h : 3 ≤ bound) : Peeks bound 0 numberLike fun _ => 0 := by
  refine (Numeral.read_peeks h).bind fun n => ?_
  cases n with
  | none => exact .pure (Nat.le_refl _)
  | some n =>
    refine (nextIs_peeks (by omega) '%').used.bind fun found => ?_
    cases found with
    | true => exact .pure (Nat.le_refl _)
    | false =>
      refine (ident_peeks h).bind fun unit => ?_
      cases unit <;> exact .pure (Nat.le_refl _)

theorem identLike_peeks (h : 3 ≤ bound) (allowUrl : Bool) :
    Peeks bound 0 (identLike allowUrl) fun _ => 0 := by
  refine (ident_peeks h).bind fun text => ?_
  cases text with
  | none => exact .pure (Nat.le_refl _)
  | some text =>
    refine (nextIs_peeks (by omega) '(').used.bind fun found => ?_
    cases found with
    | false => exact .pure (Nat.le_refl _)
    | true =>
      simp only [if_true]
      split
      · exact (enclosed_peeks .url .badUrl (url_peeks (by omega))).bind fun _ =>
          .pure (Nat.le_refl _)
      · exact .pure (Nat.le_refl _)

theorem productions_peeks (h : 3 ≤ bound) (c : Char) :
    ∀ production ∈ productions c, Peeks bound 0 production fun _ => 0 := by
  unfold productions
  split
  · simp [cdc_peeks h, numberLike_peeks h, identLike_peeks h]
  · split
    · simp [numberLike_peeks h]
    · simp [identLike_peeks h]

theorem firstOf_peeks (hb : 0 < bound) {productions : List (ScanM (Option Lexeme))}
    (h : ∀ p ∈ productions, Peeks bound 0 p fun _ => 0) :
    Peeks bound 0 (firstOf productions) fun _ => 0 := by
  induction productions with
  | nil =>
    refine (next_peeks hb).bind fun c => ?_
    cases c <;> exact .pure (Nat.zero_le _)
  | cons p ps ih =>
    refine (h p List.mem_cons_self).bind fun l => ?_
    cases l with
    | some l => exact .pure (Nat.le_refl _)
    | none => exact ih fun q hq => h q (List.mem_cons_of_mem _ hq)

/-- The first character is made use of, unless it is given back at once. -/
theorem readFrom_peeks (h : 3 ≤ bound) (c : Char) : Peeks bound 1 (readFrom c) fun _ => 0 := by
  -- After a mark there is nothing in hand any more.
  have hmark : ∀ {m : ScanM Lexeme}, (Peeks bound 0 m fun _ => 0) → Peeks bound 1 m fun _ => 0 := by
    intro m hm s l s' hs
    have hpeeks := hm s l s' hs
    dsimp only at hpeeks ⊢
    omega
  unfold readFrom
  split
  · exact hmark ((blanks_peeks (by omega)).bind fun _ => .pure (Nat.le_refl _))
  split
  · exact hmark (pairOrDelim_peeks (by omega) c)
  split
  · exact hmark (namedOrDelim_peeks c _ (ident_peeks h))
  split
  · exact hmark (namedOrDelim_peeks c _ (name_peeks (by omega)))
  split
  · exact hmark (enclosed_peeks _ _ (quoted_peeks (by omega) c))
  split
  · refine hmark ((nextIs_peeks (by omega) '*').used.bind fun found => ?_)
    cases found with
    | true => exact enclosed_peeks _ _ (comment_peeks (by omega))
    | false => exact .pure (Nat.le_refl _)
  split
  · refine hmark ((nextText_peeks (by simpa using h)).used.bind fun found => ?_)
    cases found <;> exact .pure (Nat.le_refl _)
  · exact (pushBack_peeks (some c)).bind fun _ => firstOf_peeks (by omega) (productions_peeks h c)

/-- **The lexer leaves at most three results on the stack, or not more than there were.** -/
theorem read_peeks : Peeks 3 0 read fun _ => 0 := by
  refine (next_peeks (by omega)).bind fun c => ?_
  cases c with
  | some c => exact readFrom_peeks (Nat.le_refl 3) c
  | none => exact .pure (Nat.zero_le _)

end Lexeme

end CssTokens
