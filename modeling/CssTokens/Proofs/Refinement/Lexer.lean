import CssTokens.Proofs.Refinement.Scanner
import CssTokens.Proofs.Split.Shape

/-!
# The lexer refines the lexer of plain text

Each production over a scanner does to the text of the scanner what its counterpart does to plain
text. A production that fails pushes back what it has read, which in plain text is to start over
from the same text.

Main statements: reading a lexeme refines splitting the first lexeme off (`Lexeme.read_reads`), and
so what the accounts of the scanner say of a lexeme, that it costs a character, holds in plain text
(`Split.lexeme_shorter`).
-/

namespace CssTokens

open Scanner

open ScanM (Reads)

/-! ## Repeated items -/

namespace Item

variable {α : Type}

theorem manyAfter_reads {item : Item α} {f : Split.Item α} (h : Reads item.read f.split)
    (items : List α) {s : Scanner} (hs : s.Settled) :
    ∃ s', item.manyAfter items s = .ok (items.reverse ++ (f.many s.remaining).1) s' ∧ s'.Settled
      ∧ s'.remaining = (f.many s.remaining).2 := by
  -- Each item leaves a settled scanner with what the split has left of the text.
  fun_induction manyAfter item items s with
  | case1 items s a s₁ h1 ih =>
    obtain ⟨ha, hs₁, hr₁⟩ := h.of_ok hs h1
    obtain ⟨s', h2, hs', hr'⟩ := ih hs₁
    rw [Split.Item.many_cons (Split.eq_of_fst ha), ← hr₁]
    refine ⟨s', ?_, hs', hr'⟩
    rw [h2, List.reverse_cons, List.append_assoc]
    rfl
  | case2 items s s₁ h1 =>
    obtain ⟨ha, hs₁, hr₁⟩ := h.of_ok hs h1
    rw [Split.Item.many_nil ha]
    rw [f.keeps ha] at hr₁
    exact ⟨s₁, by rw [List.append_nil], hs₁, hr₁⟩
  | case3 items s e s₁ h1 => exact absurd h1 (h.ne_error hs)

theorem many_reads {item : Item α} {f : Split.Item α} (h : Reads item.read f.split) :
    Reads item.many f.many :=
  fun _ hs => manyAfter_reads h [] hs

theorem satisfying_many_reads (p : Char → Bool) :
    Reads (satisfying p).many (Split.takeWhile p) :=
  (many_reads (nextIf_reads p)).congr fun cs => Split.Item.many_satisfying p cs

theorem satisfying_upTo_reads (p : Char → Bool) (n : Nat) :
    Reads ((satisfying p).upTo n) (Split.takeUpTo p n) := by
  refine ScanM.Reads.congr ?_ (Split.Stepwise.takeUpTo_eq p n)
  induction n with
  | zero => exact .pure []
  | succ n ih =>
    refine (nextIf_reads p).bind fun c => ?_
    cases c with
    | some c => exact ih.bind fun _ => .pure _
    | none => exact .pure []

end Item

/-! ## Escapes and names -/

namespace Lexer

theorem codePointEscape_reads (first : Char) :
    Reads (codePointEscape first) (Split.codePointEscape first) :=
  (Item.satisfying_upTo_reads isHexDigit 5).bind fun _ => (nextIf_reads _).bind fun _ => .pure _

theorem escape_reads : Reads escape Split.escape := by
  refine (nextIf_reads isHexDigit).bind fun first => ?_
  cases first with
  | some first => exact (codePointEscape_reads first).bind fun _ => .pure _
  | none => exact nextIf_reads _

end Lexer

theorem Item.orEscape_reads (p : Char → Bool) :
    Reads (Item.orEscape p).read (Split.charOrEscape p) := by
  refine ScanM.Reads.congr ?_ (Split.Stepwise.charOrEscape_eq p)
  refine (nextIf_reads p).bind fun c => ?_
  cases c with
  | some c => exact .pure _
  | none =>
    refine (nextIs_reads '\\').bind fun found => ?_
    cases found with
    | false => exact .pure none
    | true =>
      refine Lexer.escape_reads.bind fun c => ?_
      cases c with
      | some c => exact .pure _
      | none => exact (pushBack_reads '\\').bind fun _ => .pure none

namespace Lexer

theorem nameChars_reads :
    Reads Item.nameChar.many (Split.Item.orEscape isNameChar).many :=
  Item.many_reads (Item.orEscape_reads isNameChar)

theorem name_reads : Reads name Split.name := by
  refine nameChars_reads.bind fun cs => ?_
  cases cs <;> exact .pure _

theorem ident_reads : Reads ident Split.ident := by
  refine ScanM.Reads.congr ?_ Split.Stepwise.ident_eq
  refine (nextIf_reads _).bind fun hyphen => (Item.orEscape_reads isNameStart).bind fun first => ?_
  cases first with
  | some first => exact nameChars_reads.bind fun _ => .pure _
  | none =>
    cases hyphen with
    | some c => exact (pushBack_reads c).bind fun _ => .pure none
    | none => exact .pure none

end Lexer

/-! ## Numerals -/

theorem Item.digit_many_reads : Reads Item.digit.many Split.digits :=
  Item.satisfying_many_reads Char.isDigit

theorem Exponent.read_reads : Reads Exponent.read Split.exponent := by
  refine ScanM.Reads.congr ?_ Split.Stepwise.exponent_eq
  refine (nextIf_reads isExponentLetter).bind fun letter => ?_
  cases letter with
  | none => exact .pure none
  | some letter =>
    refine (nextIf_reads isSign).bind fun sign => Item.digit_many_reads.bind fun ds => ?_
    cases ds with
    | cons d ds => exact .pure _
    | nil =>
      have hletter := (pushBack_reads letter).bind fun _ => .pure (none : Option Exponent)
      cases sign with
      | some c => exact (pushBack_reads c).bind fun _ => hletter
      | none => exact hletter

theorem Numeral.readFraction_reads : Reads Numeral.readFraction Split.fraction := by
  refine ScanM.Reads.congr ?_ Split.Stepwise.fraction_eq
  refine (nextIs_reads '.').bind fun found => ?_
  cases found with
  | false => exact .pure []
  | true =>
    refine Item.digit_many_reads.bind fun ds => ?_
    cases ds with
    | nil => exact (pushBack_reads '.').bind fun _ => .pure []
    | cons d ds => exact .pure (d :: ds)

theorem Numeral.read_reads : Reads Numeral.read Split.numeral := by
  refine ScanM.Reads.congr ?_ Split.Stepwise.numeral_eq
  refine (nextIf_reads isSign).bind fun sign => Item.digit_many_reads.bind fun whole => ?_
  refine Numeral.readFraction_reads.bind fun fraction => ?_
  cases whole.isEmpty && fraction.isEmpty with
  | false => exact Exponent.read_reads.bind fun _ => .pure _
  | true =>
    cases sign with
    | some c => exact (pushBack_reads c).bind fun _ => .pure none
    | none => exact .pure none

/-! ## Strings and URLs -/

theorem Item.quotedChar_reads (quote : Char) :
    Reads (Item.quotedChar quote).read (Split.quotedChar quote) := by
  refine (Item.orEscape_reads (Split.isPlainIn quote)).bind fun c => ?_
  cases c with
  | some c => exact .pure _
  | none => exact (nextText_reads _).bind fun _ => .pure _

namespace Lexer

theorem quoted_reads (quote : Char) : Reads (quoted quote) (Split.quoted quote) :=
  (Item.many_reads (Item.quotedChar_reads quote)).bind fun _ =>
    (nextIs_reads quote).bind fun _ => .pure _

theorem blanks_reads : Reads Item.blank.many (Split.takeWhile isBlank) :=
  Item.satisfying_many_reads isBlank

theorem urlEnd_reads (text : List Char) : Reads (urlEnd text) (Split.urlEnd text) :=
  blanks_reads.bind fun _ => (nextIs_reads ')').bind fun _ => .pure _

theorem url_reads : Reads url Split.url := by
  refine blanks_reads.bind fun _ => (nextIf_reads isQuote).bind fun quote => ?_
  cases quote with
  | some quote =>
    refine (quoted_reads quote).bind fun contents => ?_
    cases contents.closed with
    | true => exact urlEnd_reads contents.text
    | false => exact .pure contents
  | none => exact (Item.many_reads (Item.orEscape_reads isUrlChar)).bind fun _ => urlEnd_reads _

end Lexer

/-! ## Comments -/

theorem Item.commentChar_reads : Reads Item.commentChar.read Split.Stepwise.commentChar := by
  refine (nextText_reads _).bind fun found => ?_
  cases found with
  | true => exact (pushBack_reads '/').bind fun _ => (pushBack_reads '*').bind fun _ => .pure none
  | false => exact nextIf_reads _

theorem Lexer.comment_reads : Reads Lexer.comment Split.comment := by
  refine ScanM.Reads.congr ?_ Split.Stepwise.comment_eq
  refine (Item.many_reads Item.commentChar_reads).bind fun text => ?_
  refine (nextText_reads _).bind fun found => ?_
  cases found with
  | true => exact .pure _
  | false => exact next_reads.bind fun _ => .pure _

/-! ## Lexemes -/

namespace Lexeme

theorem pairOrDelim_reads (c : Char) : Reads (pairOrDelim c) (Split.pairOrDelim c) := by
  refine (nextIf_reads _).bind fun d => ?_
  cases d <;> exact .pure _

theorem namedOrDelim_reads (c : Char) (kind : TokenKind)
    {production : ScanM (Option (List Char))} {f : Split (Option (List Char))}
    (h : Reads production f) :
    Reads (namedOrDelim c kind production) (Split.namedOrDelim c kind f) := by
  refine h.bind fun text => ?_
  cases text <;> exact .pure _

theorem enclosed_reads (kind cutOff : TokenKind) {production : ScanM Enclosed}
    {f : Split Enclosed} (h : Reads production f) :
    Reads (enclosed kind cutOff production) (Split.enclosed kind cutOff f) :=
  h.bind fun _ => .pure _

theorem cdc_reads : Reads cdc Split.cdc :=
  (nextText_reads _).bind fun _ => .pure _

theorem numberLike_reads : Reads numberLike Split.numberLike := by
  refine Numeral.read_reads.bind fun n => ?_
  cases n with
  | none => exact .pure _
  | some n =>
    refine (nextIs_reads '%').bind fun found => ?_
    cases found with
    | true => exact .pure _
    | false =>
      refine Lexer.ident_reads.bind fun unit => ?_
      cases unit <;> exact .pure _

theorem identLike_reads (allowUrl : Bool) :
    Reads (identLike allowUrl) (Split.identLike allowUrl) := by
  refine Lexer.ident_reads.bind fun text => ?_
  cases text with
  | none => exact .pure _
  | some text =>
    refine (nextIs_reads '(').bind fun found => ?_
    cases found with
    | false => exact .pure _
    | true =>
      simp only [if_true]
      cases allowUrl && isUrlName text with
      | true => exact (enclosed_reads .url .badUrl Lexer.url_reads).bind fun _ => .pure _
      | false => exact .pure _

theorem firstOf_nil_reads : Reads (firstOf []) (Split.firstOf []) := by
  refine next_reads.bind fun c => ?_
  cases c <;> exact .pure _

theorem firstOf_cons_reads {production : ScanM (Option Lexeme)} {f : Split (Option Lexeme)}
    {productions : List (ScanM (Option Lexeme))} {fs : List (Split (Option Lexeme))}
    (h : Reads production f) (hs : Reads (firstOf productions) (Split.firstOf fs)) :
    Reads (firstOf (production :: productions)) (Split.firstOf (f :: fs)) := by
  refine h.bind fun l => ?_
  cases l with
  | some l => exact .pure l
  | none => exact hs

/-- The productions are tried in the same order. -/
theorem firstOf_productions_reads (c : Char) :
    Reads (firstOf (productions c)) (Split.firstOf (Split.productions c)) := by
  unfold productions Split.productions
  split
  · refine firstOf_cons_reads cdc_reads (firstOf_cons_reads numberLike_reads ?_)
    exact firstOf_cons_reads (identLike_reads false) firstOf_nil_reads
  · split
    · exact firstOf_cons_reads numberLike_reads firstOf_nil_reads
    · exact firstOf_cons_reads (identLike_reads _) firstOf_nil_reads

/-- After a mark its production goes on. -/
theorem readFrom_marked {c : Char} {production : Split Lexeme}
    (h : Split.marked c = some production) : Reads (readFrom c) production := by
  revert h
  unfold readFrom Split.marked
  split
  · rintro ⟨⟩
    exact Lexer.blanks_reads.bind fun _ => .pure _
  split
  · rintro ⟨⟩
    exact pairOrDelim_reads c
  split
  · rintro ⟨⟩
    exact namedOrDelim_reads c .atKeyword Lexer.ident_reads
  split
  · rintro ⟨⟩
    exact namedOrDelim_reads c .hash Lexer.name_reads
  split
  · rintro ⟨⟩
    exact enclosed_reads .quotedString .badString (Lexer.quoted_reads c)
  split
  · rintro ⟨⟩
    refine (nextIs_reads '*').bind fun found => ?_
    cases found with
    | true => exact enclosed_reads .comment .badComment Lexer.comment_reads
    | false => exact .pure _
  split
  · rintro ⟨⟩
    refine (nextText_reads _).bind fun found => ?_
    cases found <;> exact .pure _
  · intro h
    cases h

/-- Without a mark, the first character is pushed back and read again. -/
theorem readFrom_unmarked {c : Char} (h : Split.marked c = none) :
    Reads (readFrom c) fun cs => Split.firstOf (Split.productions c) (c :: cs) := by
  revert h
  unfold readFrom Split.marked
  repeat' split
  all_goals intro h
  all_goals try cases h
  exact (pushBack_reads c).bind fun _ => firstOf_productions_reads c

theorem readFrom_reads (c : Char) : Reads (readFrom c) fun cs => Split.lexeme (c :: cs) := by
  cases hm : Split.marked c with
  | some production => exact (readFrom_marked hm).congr fun cs => (Split.lexeme_marked hm cs).symm
  | none => exact (readFrom_unmarked hm).congr fun cs => (Split.lexeme_unmarked hm cs).symm

/-- **Reading a lexeme refines splitting the first lexeme off.** -/
theorem read_reads : Reads read Split.lexeme := by
  refine ScanM.Reads.congr ?_ Split.Stepwise.lexeme_eq
  refine next_reads.bind fun c => ?_
  cases c with
  | some c => exact readFrom_reads c
  | none => exact .pure atEnd

end Lexeme

/-- **Each lexeme but the end of the input takes something of the text.** -/
theorem Split.lexeme_shorter {cs : List Char} (h : cs ≠ []) :
    (Split.lexeme cs).2.length < cs.length := by
  -- A scanner on which the whole text was pushed back has a budget that is the length of it.
  let s : Scanner := { source := [], pushed := cs.map some }
  have hs : s.Settled := ⟨fun _ he => absurd he List.not_mem_nil, cs, .inl rfl⟩
  have hr : s.remaining = cs := by
    simp [s, remaining, unread, Source.chars, List.filterMap_map]
  have hb : s.budget = cs.length := by
    simp [s, budget, List.countP_map]
  obtain ⟨s', h1, -, h2⟩ := Lexeme.read_reads s hs
  rw [hr] at h1 h2
  have htakes := Lexeme.read_takes _ _ _ h1
  have hcost : (Split.lexeme cs).1.cost = 1 := if_neg fun hk => h ((Split.lexeme_kind cs).mp hk)
  have hle := s'.remaining_length_le
  rw [h2] at hle
  omega

end CssTokens
