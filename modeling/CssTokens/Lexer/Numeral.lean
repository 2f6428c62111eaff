import CssTokens.Lexer.Item
import CssTokens.Token.Basic

/-!
# Numerals

A numeral is an optional sign, digits with or without a fraction, and an optional exponent. The
digits before the point may be missing if there is a fraction, and a point belongs to the numeral
only with a digit after it. In the same way the letter `e` belongs to it only with the digits of an
exponent.
-/

namespace CssTokens

open Scanner

/-- The exponent of a numeral. -/
structure Exponent where
  /-- The letter `e` of either case. -/
  letter : Char
  sign : Option Char
  digits : List Char
  deriving DecidableEq, Repr

/-- A numeral as it was written. -/
structure Numeral where
  sign : Option Char
  whole : List Char
  /-- The digits after the point. Without any there is no point. -/
  fraction : List Char
  exponent : Option Exponent
  deriving DecidableEq, Repr

def isSign (c : Char) : Bool :=
  c == '+' || c == '-'

def isExponentLetter (c : Char) : Bool :=
  c == 'e' || c == 'E'

/-- The number that decimal digits write. -/
def ofDigits (cs : List Char) : Nat :=
  Nat.ofDigitChars 10 cs 0

namespace Exponent

/-- The text of the exponent. -/
def text (e : Exponent) : List Char :=
  e.letter :: e.sign.toList ++ e.digits

/-- The power of ten. -/
def value (e : Exponent) : Int :=
  if e.sign = some '-' then -(ofDigits e.digits : Int) else ofDigits e.digits

/-- Read an exponent if there is one. -/
def read : ScanM (Option Exponent) := do
  match ← nextIf isExponentLetter with
  | none => return none
  | some letter =>
    let sign ← nextIf isSign
    match ← Item.digit.many with
    | [] =>
      if sign.isSome then pushBack sign
      pushBack (some letter)
      return none
    | digits => return some { letter, sign, digits }

end Exponent

namespace Numeral

/-- The text of the numeral. -/
def text (n : Numeral) : List Char :=
  n.sign.toList ++ n.whole ++ (if n.fraction.isEmpty then [] else '.' :: n.fraction)
    ++ (n.exponent.map Exponent.text).getD []

/-- Whether the numeral is written as an integer, without fraction and exponent. -/
def isInteger (n : Numeral) : Bool :=
  n.fraction.isEmpty && n.exponent.isNone

def isNegative (n : Numeral) : Bool :=
  n.sign == some '-'

/-- The value if the numeral is written as an integer. -/
def integer (n : Numeral) : Int :=
  if n.isNegative then -(ofDigits n.whole : Int) else ofDigits n.whole

/-- Whether the integer fits into 64 bits with a sign. -/
def fits (n : Numeral) : Bool :=
  Int64.minValue.toInt ≤ n.integer && n.integer ≤ Int64.maxValue.toInt

/-- The floating-point number nearest to the value. -/
def float (n : Numeral) : Binary64 :=
  Binary64.ofDecimal n.isNegative (ofDigits (n.whole ++ n.fraction))
    ((n.exponent.map Exponent.value).getD 0 - n.fraction.length)

/--
The value: an integer if the numeral is written as one and it fits into 64 bits with a sign,
otherwise a floating-point number.
-/
def value (n : Numeral) : NumericValue :=
  if n.isInteger && n.fits then .integer (Int64.ofInt n.integer) else .float n.float

/-- Read the digits of a fraction with the point before them, if there are any. -/
def readFraction : ScanM (List Char) := do
  if ← nextIs '.' then
    let digits ← Item.digit.many
    if digits.isEmpty then pushBack (some '.')
    return digits
  else return []

/-- Read a numeral if there is one. -/
def read : ScanM (Option Numeral) := do
  let sign ← nextIf isSign
  let whole ← Item.digit.many
  let fraction ← readFraction
  if whole.isEmpty && fraction.isEmpty then
    if sign.isSome then pushBack sign
    return none
  else return some { sign, whole, fraction, exponent := ← Exponent.read }

end Numeral

/-! ## What a numeral costs

Whoever reads a numeral gets at least one character, the sign or a digit or the point before it.
To see that, a digit must be counted that `Item.many` has read.
-/

theorem Item.many_takes_isEmpty {α : Type} (item : Item α) (hand : Nat) :
    ScanM.Takes hand item.many fun as => hand + if as.isEmpty then 0 else 1 := by
  intro s as s' hs
  unfold many at hs
  rw [manyAfter] at hs
  split at hs
  · next a s1 h1 =>
    have h2 := item.takes _ _ _ h1
    have h3 := manyAfter_budget hs
    simp only [countOf] at h2
    dsimp only
    split <;> omega
  · next s1 h1 =>
    cases hs
    have h2 := item.takes _ _ _ h1
    simp only [countOf] at h2
    simp
    omega
  · cases hs

theorem Exponent.read_takes (hand : Nat) : ScanM.Takes hand Exponent.read fun _ => hand := by
  refine (nextIf_takes hand _).bind fun letter => ?_
  cases letter with
  | none => exact .pure (by simp [countOf])
  | some letter =>
    refine (nextIf_takes _ _).bind fun sign => ?_
    refine (Item.digit.many_takes _).bind fun digits => ?_
    cases digits with
    | cons d digits => exact .pure (by omega)
    | nil =>
      cases sign with
      | none => exact (pushBack_takes (by simp [countOf])).bind fun _ => .pure (by simp [countOf])
      | some c =>
        refine ScanM.Takes.bind (pushBack_takes (by simp [countOf])) fun _ => ?_
        exact (pushBack_takes (by simp [countOf])).bind fun _ => .pure (by simp [countOf])

theorem Numeral.readFraction_takes (hand : Nat) :
    ScanM.Takes hand Numeral.readFraction fun ds => hand + if ds.isEmpty then 0 else 1 := by
  refine (nextIs_takes hand '.').bind fun found => ?_
  cases found with
  | false => exact .pure (by simp)
  | true =>
    refine (Item.digit.many_takes _).bind fun digits => ?_
    cases digits with
    | nil => exact (pushBack_takes (by simp [countOf])).bind fun _ => .pure (by simp [countOf])
    | cons d digits => exact .pure (by simp)

theorem Numeral.read_takes (hand : Nat) :
    ScanM.Takes hand Numeral.read fun n => hand + countOf n := by
  refine (nextIf_takes hand _).bind fun sign => ?_
  refine (Item.digit.many_takes_isEmpty _).bind fun whole => ?_
  refine (Numeral.readFraction_takes _).bind fun fraction => ?_
  have hread : ScanM.Takes (hand + countOf sign + (if whole.isEmpty then 0 else 1)
      + if fraction.isEmpty then 0 else 1)
      (do return some { sign, whole, fraction, exponent := ← Exponent.read } :
        ScanM (Option Numeral))
      fun _ => hand + countOf sign + (if whole.isEmpty then 0 else 1)
        + if fraction.isEmpty then 0 else 1 :=
    (Exponent.read_takes _).bind fun _ => .pure (Nat.le_refl _)
  cases whole with
  | cons d whole =>
    refine hread.mono fun n => ?_
    have hn := countOf_le_one n
    simp only [List.isEmpty_cons, Bool.false_eq_true, if_false]
    omega
  | nil =>
    cases fraction with
    | cons d fraction =>
      refine hread.mono fun n => ?_
      have hn := countOf_le_one n
      simp only [List.isEmpty_nil, List.isEmpty_cons, Bool.false_eq_true, if_true, if_false]
      omega
    | nil =>
      cases sign with
      | none => exact .pure (by simp [countOf])
      | some c => exact (pushBack_takes (by simp [countOf])).bind fun _ => .pure (by simp [countOf])

end CssTokens
