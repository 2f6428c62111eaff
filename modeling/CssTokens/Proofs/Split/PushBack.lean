import CssTokens.Proofs.Split.Lexeme

/-!
# Giving characters back

A scanner cannot start over from the text before. Where a production fails, what it has read is
pushed back, character by character and the last one first. The productions that do so are written
for plain text here in the way of the scanner (`Split.Stepwise`). Each comes to the same as starting
over.
-/

namespace CssTokens

namespace Split

/-- Put a character in front of a text. -/
def pushBack (c : Char) : Split Unit := fun cs => ((), c :: cs)

/-- Put back what was read, if anything was read. -/
def giveBack : Option Char → Split Unit
  | some c => pushBack c
  | none => return ()

/-- What `nextIf` has read can be given back. -/
theorem giveBack_nextIf (p : Char → Bool) (cs : List Char) :
    giveBack (nextIf p cs).1 (nextIf p cs).2 = ((), cs) := by
  cases cs with
  | nil => rfl
  | cons c cs =>
    rw [nextIf]
    split <;> rfl

namespace Stepwise

/-! ## Texts and characters -/

/-- Read the text `mark` if it comes next. -/
def nextText : List Char → Split Bool
  | [] => return true
  | c :: mark => do
    if ← nextIs c then
      if ← nextText mark then return true
      pushBack c
    return false

/-- Read characters that satisfy `p`, but not more than `n`. -/
def takeUpTo (p : Char → Bool) : Nat → Split (List Char)
  | 0 => return []
  | n + 1 => do
    match ← nextIf p with
    | some c => return c :: (← takeUpTo p n)
    | none => return []

theorem nextText_eq (mark cs : List Char) : nextText mark cs = Split.nextText mark cs := by
  induction mark generalizing cs with
  | nil => exact (Split.nextText_nil cs).symm
  | cons c mark ih =>
    rw [nextText, bind_apply]
    cases cs with
    | nil => rfl
    | cons d cs =>
      by_cases hd : d = c
      · subst hd
        rw [nextIs_pos, nextText_cons_self, if_pos rfl, bind_apply, ih]
        cases hm : (Split.nextText mark cs).1 with
        | true => rfl
        | false =>
          rw [nextText_keeps hm]
          rfl
      · rw [nextIs_neg hd, nextText_cons_ne hd]
        rfl

theorem takeUpTo_eq (p : Char → Bool) (n : Nat) (cs : List Char) :
    takeUpTo p n cs = Split.takeUpTo p n cs := by
  induction n generalizing cs with
  | zero => exact (takeUpTo_zero p cs).symm
  | succ n ih =>
    rw [takeUpTo, bind_apply]
    cases cs with
    | nil => rfl
    | cons c cs =>
      by_cases hc : p c = true
      · rw [nextIf_pos hc, takeUpTo_cons hc, ← ih]
        rfl
      · have hc : p c = false := by simpa using hc
        rw [nextIf_neg hc, takeUpTo_cons_neg hc]
        rfl

/-! ## Names -/

/-- A character that satisfies `p`, or else an escape. -/
def charOrEscape (p : Char → Bool) : Split (Option Char) := do
  match ← nextIf p with
  | some c => return some c
  | none =>
    if ← nextIs '\\' then
      match ← escape with
      | some c => return some c
      | none => pushBack '\\'; return none
    else return none

/-- An identifier. -/
def ident : Split (Option (List Char)) := do
  let hyphen ← nextIf (· == '-')
  match ← Split.charOrEscape isNameStart with
  | some first => return some (hyphen.toList ++ first :: (← (Item.orEscape isNameChar).many))
  | none => giveBack hyphen; return none

theorem charOrEscape_eq (p : Char → Bool) (cs : List Char) :
    charOrEscape p cs = Split.charOrEscape p cs := by
  cases cs with
  | nil => rfl
  | cons c cs =>
    rw [charOrEscape, bind_apply]
    by_cases hp : p c = true
    · rw [nextIf_pos hp, charOrEscape_pos hp]
      rfl
    · have hp : p c = false := by simpa using hp
      rw [nextIf_neg hp, charOrEscape_neg hp]
      dsimp only
      rw [bind_apply]
      by_cases hc : c = '\\'
      · subst hc
        rw [nextIs_pos, if_pos rfl, bind_apply]
        cases he : (escape cs).1 with
        | some d =>
          rw [escaped_some (eq_of_fst he)]
          rfl
        | none =>
          rw [escaped_none he, escape_keeps he]
          rfl
      · rw [nextIs_neg hc, escaped_of_ne hc]
        rfl

theorem ident_eq (cs : List Char) : ident cs = Split.ident cs := by
  simp only [ident, Split.ident, attempt, bind_apply]
  cases hf : (Split.charOrEscape isNameStart (nextIf (· == '-') cs).2).1 with
  | some first => rfl
  | none =>
    rw [charOrEscape_keeps _ hf]
    simp only [bind_apply, giveBack_nextIf]
    rfl

/-! ## Numerals -/

/-- An exponent. -/
def exponent : Split (Option Exponent) := do
  match ← nextIf isExponentLetter with
  | none => return none
  | some letter =>
    let sign ← nextIf isSign
    match ← digits with
    | [] => giveBack sign; pushBack letter; return none
    | ds => return some { letter, sign, digits := ds }

/-- The digits of a fraction with the point before them, if there are any. -/
def fraction : Split (List Char) := do
  if ← nextIs '.' then
    match ← digits with
    | [] => pushBack '.'; return []
    | ds => return ds
  else return []

/-- A numeral. -/
def numeral : Split (Option Numeral) := do
  let sign ← nextIf isSign
  let whole ← digits
  let fraction ← Split.fraction
  if whole.isEmpty && fraction.isEmpty then
    giveBack sign
    return none
  else return some { sign, whole, fraction, exponent := ← Split.exponent }

theorem exponent_eq (cs : List Char) : exponent cs = Split.exponent cs := by
  have hletter := giveBack_nextIf isExponentLetter cs
  simp only [exponent, Split.exponent, attempt, bind_apply]
  cases hl : (nextIf isExponentLetter cs).1 with
  | none =>
    rw [hl] at hletter
    exact congrArg (Prod.mk none ∘ Prod.snd) hletter
  | some letter =>
    rw [hl] at hletter
    simp only [bind_apply]
    cases hd : (digits (nextIf isSign (nextIf isExponentLetter cs).2).2).1 with
    | cons d ds => rfl
    | nil =>
      rw [digits_keeps hd]
      simp only [bind_apply, giveBack_nextIf]
      exact congrArg (Prod.mk none ∘ Prod.snd) hletter

theorem fraction_eq (cs : List Char) : fraction cs = Split.fraction cs := by
  rw [fraction, bind_apply]
  cases cs with
  | nil => rfl
  | cons c cs =>
    by_cases hc : c = '.'
    · subst hc
      rw [nextIs_pos, if_pos rfl, bind_apply]
      cases hd : (digits cs).1 with
      | nil =>
        rw [fraction_point_empty (by rw [hd]; rfl), digits_keeps hd]
        rfl
      | cons d ds =>
        rw [fraction_point (by rw [hd]; rfl), eq_of_fst hd]
        rfl
    · rw [nextIs_neg hc, fraction_of_ne hc]
      rfl

theorem numeral_eq (cs : List Char) : numeral cs = Split.numeral cs := by
  simp only [numeral, Split.numeral, attempt, bind_apply]
  split
  · next he =>
    obtain ⟨hw, hf⟩ := Bool.and_eq_true_iff.mp he
    rw [fraction_keeps (List.isEmpty_iff.mp hf), digits_keeps (List.isEmpty_iff.mp hw)]
    simp only [bind_apply, giveBack_nextIf]
    rfl
  · rfl

/-! ## Comments -/

/-- Any character, unless the closing mark of comments begins with it. -/
def commentChar : Split (Option Char) := do
  if ← Split.nextText ['*', '/'] then
    pushBack '/'
    pushBack '*'
    return none
  else nextIf fun _ => true

theorem commentChar_closed (cs : List Char) :
    commentChar ('*' :: '/' :: cs) = (none, '*' :: '/' :: cs) := rfl

/-- Without the closing mark, what comes next is read. -/
theorem commentChar_of_not {cs : List Char} (h : (Split.nextText ['*', '/'] cs).1 = false) :
    commentChar cs = nextIf (fun _ => true) cs := by
  rw [commentChar, bind_apply, nextText_keeps h]
  rfl

theorem commentChar_cons {c : Char} {cs : List Char} (h : ¬(c = '*' ∧ cs.head? = some '/')) :
    commentChar (c :: cs) = (some c, cs) := by
  have hm : (Split.nextText ['*', '/'] (c :: cs)).1 = false := by
    refine Bool.eq_false_iff.mpr fun hm => ?_
    obtain ⟨ds, hds⟩ := nextText_prefix hm
    obtain ⟨rfl, rfl⟩ := List.cons.inj hds
    exact h ⟨rfl, rfl⟩
  rw [commentChar_of_not hm]
  exact nextIf_pos rfl

/-- The items of comments. -/
def commentItem : Item Char where
  split := commentChar
  shorter {cs a rest} h := by
    cases hm : (Split.nextText ['*', '/'] cs).1 with
    | true =>
      rw [commentChar, bind_apply, hm] at h
      cases h
    | false =>
      rw [commentChar_of_not hm] at h
      exact (Item.satisfying fun _ => true).shorter h
  keeps {cs} h := by
    cases hm : (Split.nextText ['*', '/'] cs).1 with
    | true =>
      obtain ⟨ds, rfl⟩ := nextText_prefix hm
      exact commentChar_closed ds
    | false =>
      rw [commentChar_of_not hm] at h ⊢
      exact (Item.satisfying fun _ => true).keeps h

/-- A comment after its opening mark. Without a closing mark, nothing is left to be read. -/
def comment : Split Enclosed := do
  let text ← commentItem.many
  if ← Split.nextText ['*', '/'] then return { text, closed := true }
  let _ ← nextIf fun _ => true
  return { text, closed := false }

theorem comment_eq (cs : List Char) : comment cs = Split.comment cs := by
  induction cs with
  | nil =>
    rw [comment, bind_apply, Item.many_nil rfl]
    rfl
  | cons c cs ih =>
    by_cases h : c = '*' ∧ cs.head? = some '/'
    · obtain ⟨rfl, hh⟩ := h
      obtain ⟨ds, rfl⟩ := List.head?_eq_some_iff.mp hh
      rw [comment_closed, comment, bind_apply, Item.many_nil rfl]
      rfl
    · have hc : commentItem.split (c :: cs) = (some c, cs) := commentChar_cons h
      rw [comment_cons h, ← ih, comment, bind_apply, bind_apply, Item.many_cons hc]
      dsimp only
      rw [bind_apply, bind_apply]
      cases (Split.nextText ['*', '/'] (commentItem.many cs).2).1 <;> rfl

/-! ## Lexemes -/

/-- The lexeme that starts with the character that was read, or else the end of the input. -/
def lexemeFrom : Option Char → Split Lexeme
  | some c => fun cs => Split.lexeme (c :: cs)
  | none => return .atEnd

/-- The first lexeme of a text. -/
def lexeme : Split Lexeme := do
  lexemeFrom (← nextIf fun _ => true)

theorem lexeme_eq (cs : List Char) : lexeme cs = Split.lexeme cs := by
  cases cs with
  | nil => rfl
  | cons c cs =>
    rw [lexeme, bind_apply, nextIf_pos rfl]
    rfl

end Stepwise

end Split

end CssTokens
