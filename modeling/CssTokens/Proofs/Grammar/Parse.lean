import CssTokens.Binary64.Decimal
import CssTokens.Lexer.Numeral
import Mathlib.Tactic.Ring

/-!
# Parsers of numbers

The text of a number is parsed as an integer of 64 bits or as a floating-point number. Integers are
added up digit by digit in 64 bits, and each step that overflows is noticed. No integer is lost in
this way: a number that has overflowed stays too large whatever digits follow.

Main statement: an integer is parsed if it is one and does not overflow (`Parse.int64?_eq`).
-/

namespace CssTokens

namespace Parse

/-- Whether a number is negative by its sign, and what follows the sign, if there is one. -/
def splitSign : List Char → Bool × List Char
  | '+' :: cs => (false, cs)
  | '-' :: cs => (true, cs)
  | cs => (false, cs)

def withSign (negative : Bool) (n : Nat) : Int :=
  if negative then -(n : Int) else n

/-- The integer that digits write, with or without a sign before them. -/
def integer? (text : List Char) : Option Int :=
  let (negative, ds) := splitSign text
  if ds.isEmpty || !ds.all Char.isDigit then none else some (withSign negative (ofDigits ds))

/-- An integer in 64 bits with a sign, unless it overflows. -/
def checked (i : Int) : Option Int64 :=
  if Int64.minValue.toInt ≤ i ∧ i ≤ Int64.maxValue.toInt then some (Int64.ofInt i) else none

/--
Go on with one digit more. The digits of a negative number are subtracted, since the least integer
has an absolute value that overflows.
-/
def appendDigit? (negative : Bool) (n : Int64) (c : Char) : Option Int64 :=
  if c.isDigit then do
    let tens ← checked (n.toInt * 10)
    checked (tens.toInt + withSign negative (c.toNat - '0'.toNat))
  else none

/-- Parse an integer of 64 bits. -/
def int64? (text : List Char) : Option Int64 :=
  let (negative, ds) := splitSign text
  if ds.isEmpty then none else ds.foldlM (appendDigit? negative) 0

/-- The digits before the point and those after it. The point may be missing, and so may the digits
on one side of it. -/
def coefficient? (text : List Char) : Option (List Char × List Char) :=
  match text.span Char.isDigit with
  | (whole, '.' :: fraction) =>
    if (whole ++ fraction).isEmpty || !fraction.all Char.isDigit then none
    else some (whole, fraction)
  | (whole, rest) => if whole.isEmpty || !rest.isEmpty then none else some (whole, [])

/-- The power of ten after a coefficient: nothing, or a letter and an integer. -/
def power? : List Char → Option Int
  | [] => some 0
  | _ :: text => integer? text

/-- A decimal number without a sign. -/
def decimal? (text : List Char) : Option Decimal := do
  let (coefficient, exponent) := text.span fun c => !isExponentLetter c
  let (whole, fraction) ← coefficient? coefficient
  let power ← power? exponent
  return { digits := ofDigits (whole ++ fraction), exponent := power - fraction.length }

/-- The names of infinity, in lower case. -/
def infinityNames : List (List Char) :=
  ["inf".toList, "infinity".toList]

/--
Parse a floating-point number: a decimal number, which is rounded, or infinity by its name. There is
no name for what is not a number, since there is no such `Binary64`.
-/
def binary64? (text : List Char) : Option Binary64 :=
  let (negative, cs) := splitSign text
  if cs.map Char.toLower ∈ infinityNames then some (.infinity negative)
  else (decimal? cs).map fun d => .ofDecimal negative d.digits d.exponent

/-- Whether a number is written with a point or an exponent. -/
def hasPointOrLetter (text : List Char) : Bool :=
  text.any fun c => c == '.' || isExponentLetter c

/--
Parse a number, as an integer first unless it is known to be none. There is no result only if it is
not even a floating-point number.
-/
def number? (isFloat : Bool) (text : List Char) : Option NumericValue :=
  match if isFloat then none else int64? text with
  | some i => some (.integer i)
  | none => (binary64? text).map .float

/-! ## Overflow -/

theorem checked_eq_some_iff {i : Int} {k : Int64} : checked i = some k ↔ k.toInt = i := by
  unfold checked
  constructor
  · intro h
    split at h
    · next hi =>
      cases h
      exact Int64.toInt_ofInt_of_le hi.1 (Int.lt_of_le_of_lt hi.2 (by decide))
    · cases h
  · rintro rfl
    rw [if_pos ⟨Int64.minValue_le_toInt k, Int64.toInt_le k⟩, Int64.ofInt_toInt]

theorem checked_toInt (k : Int64) : checked k.toInt = some k :=
  checked_eq_some_iff.mpr rfl

theorem checked_eq_none_iff {i : Int} :
    checked i = none ↔ i < Int64.minValue.toInt ∨ Int64.maxValue.toInt < i := by
  unfold checked
  split
  · next hi =>
    refine iff_of_false (by simp) ?_
    omega
  · next hi =>
    refine iff_of_true rfl ?_
    omega

/-- What has overflowed, no more digits bring back. -/
theorem checked_withSign_of_le {negative : Bool} {m n : Nat} (hle : m ≤ n)
    (h : checked (withSign negative m) = none) : checked (withSign negative n) = none := by
  have hmin : Int64.minValue.toInt ≤ 0 := by decide
  have hmax : 0 ≤ Int64.maxValue.toInt := by decide
  rw [checked_eq_none_iff] at h ⊢
  cases negative <;> simp only [withSign, if_true, Bool.false_eq_true, if_false] at h ⊢ <;> omega

theorem withSign_mul_ten_add (negative : Bool) (m d : Nat) :
    withSign negative m * 10 + withSign negative d = withSign negative (10 * m + d) := by
  unfold withSign
  split <;> push_cast <;> ring

/-! ## Integers -/

variable {negative : Bool} {n : Int64} {m : Nat}

/-- One step is exact or overflows. -/
theorem appendDigit?_eq {c : Char} (hc : c.isDigit = true) (hn : n.toInt = withSign negative m) :
    appendDigit? negative n c =
      checked (withSign negative (10 * m + (c.toNat - '0'.toNat))) := by
  rw [appendDigit?, if_pos hc, ← withSign_mul_ten_add, ← hn]
  cases htens : checked (n.toInt * 10) with
  | none =>
    have hten : n.toInt * 10 = withSign negative (10 * m) := by
      rw [hn, ← Nat.add_zero (10 * m), ← withSign_mul_ten_add]
      cases negative <;> simp [withSign]
    rw [hten] at htens
    rw [hn, withSign_mul_ten_add, checked_withSign_of_le (Nat.le_add_right _ _) htens]
    rfl
  | some tens =>
    rw [← checked_eq_some_iff.mp htens]
    rfl

theorem le_ofDigitChars (ds : List Char) (m : Nat) : m ≤ Nat.ofDigitChars 10 ds m := by
  rw [Nat.ofDigitChars_eq_ofDigitChars_zero]
  exact (Nat.le_mul_of_pos_left m (Nat.pow_pos (by decide))).trans (Nat.le_add_right _ _)

/-- **The digits are added up exactly, or an overflow is noticed.** -/
theorem foldlM_appendDigit? {ds : List Char} (hd : ∀ c ∈ ds, c.isDigit = true)
    (hn : n.toInt = withSign negative m) :
    ds.foldlM (appendDigit? negative) n =
      checked (withSign negative (Nat.ofDigitChars 10 ds m)) := by
  induction ds generalizing n m with
  | nil =>
    rw [Nat.ofDigitChars_nil, ← hn, checked_toInt]
    rfl
  | cons c ds ih =>
    obtain ⟨hc, hds⟩ := List.forall_mem_cons.mp hd
    rw [List.foldlM_cons, appendDigit?_eq hc hn, Nat.ofDigitChars_cons]
    cases hstep : checked (withSign negative (10 * m + (c.toNat - '0'.toNat))) with
    | none =>
      rw [checked_withSign_of_le (le_ofDigitChars _ _) hstep]
      rfl
    | some k => exact ih hds (checked_eq_some_iff.mp hstep)

theorem foldlM_appendDigit?_of_not_all {ds : List Char} (hd : ds.all Char.isDigit = false) :
    ds.foldlM (appendDigit? negative) n = none := by
  induction ds generalizing n with
  | nil => cases hd
  | cons c ds ih =>
    rw [List.foldlM_cons]
    by_cases hc : c.isDigit = true
    · rw [List.all_cons, hc, Bool.true_and] at hd
      cases appendDigit? negative n c with
      | none => rfl
      | some k => exact ih hd
    · rw [appendDigit?, if_neg hc]
      rfl

/-- **An integer is parsed if it is one and does not overflow.** -/
theorem int64?_eq (text : List Char) : int64? text = (integer? text).bind checked := by
  unfold int64? integer?
  obtain ⟨negative, ds⟩ := splitSign text
  dsimp only
  by_cases hempty : ds.isEmpty = true
  · rw [if_pos hempty, hempty]
    rfl
  rw [if_neg hempty]
  cases hall : ds.all Char.isDigit with
  | false =>
    rw [foldlM_appendDigit?_of_not_all hall, Bool.not_false, Bool.or_true, if_pos rfl]
    rfl
  | true =>
    rw [Bool.not_true, Bool.or_false, if_neg hempty]
    exact foldlM_appendDigit? (List.all_eq_true.mp hall) (by cases negative <;> rfl)

example : int64? "-9223372036854775808".toList = some Int64.minValue := by decide +kernel

/-! ## Numbers -/

theorem number?_integer {text : List Char} {i : Int64} (h : int64? text = some i) :
    number? false text = some (.integer i) := by
  rw [number?, if_neg Bool.false_ne_true, h]

theorem number?_float {isFloat : Bool} {text : List Char}
    (h : isFloat = true ∨ int64? text = none) :
    number? isFloat text = (binary64? text).map .float := by
  have hnone : (if isFloat then none else int64? text) = none := by
    rcases h with rfl | h
    · rfl
    · rw [h, ite_self]
  rw [number?, hnone]

end Parse

end CssTokens
