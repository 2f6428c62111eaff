import CssTokens.Lexer.Numeral
import CssTokens.Proofs.Split.Basic

/-!
# Numerals in plain text

The productions of `CssTokens.Lexer.Numeral` on plain text. An exponent and a numeral read ahead by
several characters before they fail, but a digit decides both, and a digit cannot be undone by what
follows it.
-/

namespace CssTokens

/-- An exponent that can be written. -/
structure Exponent.WellFormed (e : Exponent) : Prop where
  letter : isExponentLetter e.letter = true
  sign : ∀ c ∈ e.sign, isSign c = true
  digits : ∀ c ∈ e.digits, c.isDigit = true
  nonempty : e.digits ≠ []

/-- A numeral that can be written. -/
structure Numeral.WellFormed (n : Numeral) : Prop where
  sign : ∀ c ∈ n.sign, isSign c = true
  whole : ∀ c ∈ n.whole, c.isDigit = true
  fraction : ∀ c ∈ n.fraction, c.isDigit = true
  nonempty : n.whole ≠ [] ∨ n.fraction ≠ []
  exponent : ∀ e ∈ n.exponent, e.WellFormed

theorem isSign_iff {c : Char} : isSign c = true ↔ c = '+' ∨ c = '-' := by
  rw [isSign, Bool.or_eq_true, beq_iff_eq, beq_iff_eq]

theorem isExponentLetter_iff {c : Char} : isExponentLetter c = true ↔ c = 'e' ∨ c = 'E' := by
  rw [isExponentLetter, Bool.or_eq_true, beq_iff_eq, beq_iff_eq]

/-- No digit is a sign. -/
theorem isSign_of_isDigit {c : Char} (h : c.isDigit = true) : isSign c = false := by
  rw [isSign, Bool.or_eq_false_iff, beq_eq_false_iff_ne, beq_eq_false_iff_ne]
  constructor <;> rintro rfl <;> exact absurd h (by decide)

namespace Split

/-- A run of decimal digits, which may be empty. -/
def digits : Split (List Char) := takeWhile Char.isDigit

/-- The digits of a fraction with the point before them, if there are any. -/
def fraction : Split (List Char)
  | '.' :: cs => if (digits cs).1.isEmpty then ([], '.' :: cs) else digits cs
  | cs => ([], cs)

/-- An exponent. -/
def exponent : Split (Option Exponent) := attempt do
  match ← nextIf isExponentLetter with
  | none => return none
  | some letter =>
    let sign ← nextIf isSign
    match ← digits with
    | [] => return none
    | ds => return some { letter, sign, digits := ds }

/-- A numeral. -/
def numeral : Split (Option Numeral) := attempt do
  let sign ← nextIf isSign
  let whole ← digits
  let fraction ← fraction
  if whole.isEmpty && fraction.isEmpty then return none
  else return some { sign, whole, fraction, exponent := ← exponent }

theorem fraction_point_empty {cs : List Char} (h : (digits cs).1.isEmpty = true) :
    fraction ('.' :: cs) = ([], '.' :: cs) := by
  rw [fraction, if_pos h]

theorem fraction_point {cs : List Char} (h : (digits cs).1.isEmpty = false) :
    fraction ('.' :: cs) = digits cs := by
  rw [fraction, if_neg (by simp [h])]

theorem numeral_keeps : Keeps numeral := attempt_keeps _

/-! ## Digits decide -/

section
variable {c : Char} {cs : List Char}

theorem digits_cons (h : c.isDigit = true) :
    digits (c :: cs) = (c :: (digits cs).1, (digits cs).2) := by
  rw [digits, takeWhile, List.takeWhile_cons, List.dropWhile_cons, if_pos h, if_pos h]
  rfl

theorem digits_of_not (h : c.isDigit = false) : digits (c :: cs) = ([], c :: cs) := by
  rw [digits, takeWhile, List.takeWhile_cons, List.dropWhile_cons, if_neg (by simp [h]),
    if_neg (by simp [h])]

theorem fraction_of_ne (h : c ≠ '.') : fraction (c :: cs) = ([], c :: cs) := by
  unfold fraction
  split
  · next heq => exact absurd (List.cons.inj heq).1 h
  · rfl

end

/-- Where there are no digits, nothing is read. -/
theorem digits_keeps {cs : List Char} (h : (digits cs).1 = []) : (digits cs).2 = cs := by
  have happ : (digits cs).1 ++ (digits cs).2 = cs := List.takeWhile_append_dropWhile
  rwa [h] at happ

/-- Where there is no fraction, nothing is read. -/
theorem fraction_keeps {cs : List Char} (h : (fraction cs).1 = []) : (fraction cs).2 = cs := by
  unfold fraction at h ⊢
  split at h
  · next cs =>
    split at h
    · next hd => rw [if_pos hd]
    · next hd => exact absurd (List.isEmpty_iff.mpr h) hd
  · rfl

/-- Whether there are digits at the front of a text. -/
def startsDigits : List Char → Bool
  | c :: _ => c.isDigit
  | [] => false

/-- Whether there are digits at the front of a text, or a point and digits. -/
def startsFraction : List Char → Bool
  | '.' :: cs => startsDigits cs
  | cs => startsDigits cs

theorem startsDigits_append {cs : List Char} (more : List Char) (h : startsDigits cs = true) :
    startsDigits (cs ++ more) = true := by
  cases cs with
  | nil => cases h
  | cons c cs => exact h

theorem startsFraction_append {cs : List Char} (more : List Char) (h : startsFraction cs = true) :
    startsFraction (cs ++ more) = true := by
  cases cs with
  | nil => cases h
  | cons c cs =>
    by_cases hc : c = '.'
    · subst hc
      exact startsDigits_append more h
    · unfold startsFraction at h ⊢
      simp only [List.cons_append]
      split
      · next heq => exact absurd (List.cons.inj heq).1 hc
      · split at h
        · next heq => exact absurd (List.cons.inj heq).1 hc
        · exact h

theorem digits_isEmpty (cs : List Char) : (digits cs).1.isEmpty = !startsDigits cs := by
  cases cs with
  | nil => rfl
  | cons c cs =>
    by_cases hc : c.isDigit = true
    · rw [digits_cons hc, startsDigits, hc]
      rfl
    · have hc : c.isDigit = false := by simpa using hc
      rw [digits_of_not hc, startsDigits, hc]
      rfl

/-- Before a fraction there may be no digits, but then the point comes first. -/
theorem whole_fraction_isEmpty (cs : List Char) :
    ((digits cs).1.isEmpty && (fraction (digits cs).2).1.isEmpty) = !startsFraction cs := by
  cases cs with
  | nil => rfl
  | cons c cs =>
    by_cases hp : c = '.'
    · subst hp
      rw [digits_of_not (by decide), startsFraction, ← digits_isEmpty]
      cases hd : (digits cs).1.isEmpty with
      | true => rw [fraction_point_empty hd]; rfl
      | false => rw [fraction_point hd, hd]; rfl
    · have hs : startsFraction (c :: cs) = startsDigits (c :: cs) := by
        unfold startsFraction
        split
        · next heq => exact absurd (List.cons.inj heq).1 hp
        · rfl
      rw [hs, ← digits_isEmpty]
      by_cases hc : c.isDigit = true
      · rw [digits_cons hc]
        rfl
      · rw [digits_of_not (by simpa using hc), fraction_of_ne hp]
        rfl

theorem exponent_isSome (cs : List Char) :
    (exponent cs).1.isSome =
      ((nextIf isExponentLetter cs).1.isSome
        && startsDigits (nextIf isSign (nextIf isExponentLetter cs).2).2) := by
  rw [exponent, attempt_fst, bind_apply]
  cases (nextIf isExponentLetter cs).1 with
  | none => rfl
  | some letter =>
    dsimp only
    rw [bind_apply, bind_apply, ← Bool.not_not (startsDigits _), ← digits_isEmpty]
    cases (digits (nextIf isSign (nextIf isExponentLetter cs).2).2).1 <;> rfl

theorem numeral_isSome (cs : List Char) :
    (numeral cs).1.isSome = startsFraction (nextIf isSign cs).2 := by
  rw [numeral, attempt_fst, bind_apply, bind_apply, bind_apply, ← Bool.not_not (startsFraction _),
    ← whole_fraction_isEmpty]
  split
  · next h => rw [h]; rfl
  · next h => rw [(by simpa using h : (_ && _) = false)]; rfl

theorem exponent_extends : Extends exponent := by
  intro cs more h
  rw [exponent_isSome, Bool.and_eq_true] at h ⊢
  obtain ⟨hl, hd⟩ := h
  cases cs with
  | nil => cases hl
  | cons c cs =>
    rw [nextIf_append more (by simp)]
    refine ⟨hl, ?_⟩
    cases hs : (nextIf isExponentLetter (c :: cs)).2 with
    | nil =>
      rw [hs] at hd
      cases hd
    | cons d ds =>
      rw [hs] at hd
      rw [nextIf_append more (by simp)]
      exact startsDigits_append more hd

theorem numeral_extends : Extends numeral := by
  intro cs more h
  rw [numeral_isSome] at h ⊢
  cases cs with
  | nil => cases h
  | cons c cs =>
    rw [nextIf_append more (by simp)]
    exact startsFraction_append more h

/-! ## Locality -/

theorem digits_local : Local digits := takeWhile_local _

theorem fraction_suffix (cs : List Char) : (fraction cs).2 <:+ cs := by
  unfold fraction
  split
  · next cs =>
    split
    · exact List.suffix_refl _
    · exact (digits_local.suffix cs).trans (List.suffix_cons '.' cs)
  · exact List.suffix_refl _

theorem fraction_local : Local fraction where
  suffix := fraction_suffix
  cut {cs a rest} more h := by
    cases cs with
    | nil =>
      obtain ⟨rfl, hf⟩ := cut_nil fraction_suffix h
      have ha : a = [] := by
        unfold fraction at hf
        split at hf
        · next ds =>
          split at hf
          · exact (Prod.mk.inj hf).1.symm
          · -- The point would be missing from what is left.
            have hlen := (digits_local.suffix ds).length_le
            rw [hf, List.length_cons] at hlen
            exact absurd hlen (Nat.not_succ_le_self _)
        · exact (Prod.mk.inj hf).1.symm
      rw [ha]
      rfl
    | cons c cs =>
      by_cases hc : c = '.'
      · subst hc
        rw [List.cons_append] at h
        cases hd : (digits (cs ++ more)).1.isEmpty with
        | true =>
          rw [fraction_point_empty hd, ← List.cons_append] at h
          obtain ⟨rfl, hr⟩ := Prod.mk.inj h
          rw [fraction_point_empty, List.append_cancel_right hr]
          rw [digits_isEmpty, Bool.not_eq_true'] at hd ⊢
          exact Bool.eq_false_iff.mpr fun hs => by simp [startsDigits_append more hs] at hd
        | false =>
          rw [fraction_point hd] at h
          rw [h] at hd
          have hcut := digits_local.cut more h
          rw [fraction_point (by rw [hcut]; exact hd), hcut]
      · rw [List.cons_append, fraction_of_ne hc, ← List.cons_append] at h
        obtain ⟨rfl, hr⟩ := Prod.mk.inj h
        rw [fraction_of_ne hc, List.append_cancel_right hr]

theorem exponent_local : Local exponent := by
  refine Local.attempt ?_ (extends_attempt.mp exponent_extends)
  refine (nextIf_local _).bind fun letter => ?_
  cases letter with
  | none => exact .pure _
  | some letter =>
    refine (nextIf_local _).bind fun sign => digits_local.bind fun ds => ?_
    split <;> exact .pure _

theorem numeral_local : Local numeral := by
  refine Local.attempt ?_ (extends_attempt.mp numeral_extends)
  refine (nextIf_local _).bind fun sign => digits_local.bind fun whole => ?_
  refine fraction_local.bind fun fraction => ?_
  split
  · exact .pure _
  · exact exponent_local.bind fun _ => .pure _

/-! ## What is read -/

theorem digits_yields : Yields digits fun ds => ∀ d ∈ ds, d.isDigit = true :=
  takeWhile_yields _

theorem fraction_yields : Yields fraction fun ds => ∀ d ∈ ds, d.isDigit = true := by
  intro cs
  unfold fraction
  split
  · next cs =>
    split
    · exact fun _ hd => absurd hd List.not_mem_nil
    · exact digits_yields cs
  · exact fun _ hd => absurd hd List.not_mem_nil

theorem exponent_yields : Yields exponent fun e => ∀ x ∈ e, x.WellFormed := by
  have hnone : ∀ x ∈ (none : Option Exponent), x.WellFormed :=
    fun _ h => absurd h (Option.not_mem_none _)
  refine .attempt (.bind (nextIf_yields _) fun letter hletter => ?_)
  cases letter with
  | none => exact .pure hnone
  | some letter =>
    refine .bind (nextIf_yields _) fun sign hsign => .bind digits_yields fun ds hds => ?_
    cases ds with
    | nil => exact .pure hnone
    | cons d ds =>
      refine .pure fun x hx => ?_
      cases hx
      exact ⟨hletter letter rfl, hsign, hds, List.cons_ne_nil d ds⟩

/-- **What is read as a numeral is one.** -/
theorem numeral_yields : Yields numeral fun n => ∀ x ∈ n, x.WellFormed := by
  refine .attempt (.bind (nextIf_yields _) fun sign hsign => ?_)
  refine .bind digits_yields fun whole hwhole => .bind fraction_yields fun ds hds => ?_
  split
  · exact .pure fun _ h => absurd h (Option.not_mem_none _)
  · next hne =>
    rw [Bool.and_eq_true, List.isEmpty_iff, List.isEmpty_iff] at hne
    refine .bind exponent_yields fun e he => .pure fun x hx => ?_
    cases hx
    exact ⟨hsign, hwhole, hds, Classical.not_and_iff_not_or_not.mp hne, he⟩

end Split

end CssTokens
