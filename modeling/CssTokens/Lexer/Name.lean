import CssTokens.Lexer.Item

/-!
# Escapes, names and identifiers

Each production either reads what its grammar describes, and then as much of it as there is, or
reads nothing.

* An escape is a backslash and either up to six hexadecimal digits or any other character except a
  line break. Fewer than six digits may be ended by one blank, which belongs to the escape.
* A name is a run of name characters and escapes.
* An identifier is a name that starts with a letter, `_`, a non-ASCII character or an escape,
  perhaps after one hyphen.
-/

namespace CssTokens

open Scanner

namespace Lexer

/-- The rest of a numeric escape after its first digit. -/
def codePointEscape (first : Char) : ScanM Char := do
  let more ← Item.hexDigit.upTo 5
  let _ ← nextIf fun c => isBlank c && more.length < 5
  return charOfCodePoint (ofHexDigits (first :: more))

/-- The rest of an escape after its backslash: the character it stands for. -/
def escape : ScanM (Option Char) := do
  match ← nextIf isHexDigit with
  | some first => return some (← codePointEscape first)
  | none => nextIf (· != '\n')

theorem codePointEscape_takes (hand : Nat) (first : Char) :
    ScanM.Takes hand (codePointEscape first) fun _ => hand := by
  refine (Item.hexDigit.upTo_takes hand 5).bind fun more => ?_
  exact (nextIf_takes hand _).bind fun _ => .pure (by omega)

theorem escape_takes (hand : Nat) : ScanM.Takes hand escape fun c => hand + countOf c := by
  refine (nextIf_takes hand _).bind fun first => ?_
  cases first with
  | some first => exact (codePointEscape_takes _ first).bind fun _ => .pure (by simp [countOf])
  | none => exact nextIf_takes hand _

end Lexer

/-- A character that satisfies `p`, or else an escape, which stands for a character. -/
def Item.orEscape (p : Char → Bool) : Item Char where
  read := do
    match ← nextIf p with
    | some c => return some c
    | none =>
      if ← nextIs '\\' then
        match ← Lexer.escape with
        | some c => return some c
        | none => pushBack (some '\\'); return none
      else return none
  takes := by
    refine (nextIf_takes 0 p).bind fun c => ?_
    cases c with
    | some c => exact .pure (by simp [countOf])
    | none =>
      refine (nextIs_takes _ '\\').bind fun found => ?_
      cases found with
      | false => exact .pure (by simp [countOf])
      | true =>
        refine (Lexer.escape_takes _).bind fun c => ?_
        cases c with
        | some c => exact .pure (by simp [countOf])
        | none => exact (pushBack_takes (by simp [countOf])).bind fun _ => .pure (by simp [countOf])

/-- A character of a name. -/
def Item.nameChar : Item Char := .orEscape isNameChar

/-- A character that may start a name. -/
def Item.nameStart : Item Char := .orEscape isNameStart

namespace Lexer

/-- A name. -/
def name : ScanM (Option (List Char)) := do
  match ← Item.nameChar.many with
  | [] => return none
  | cs => return some cs

/-- An identifier. -/
def ident : ScanM (Option (List Char)) := do
  let hyphen ← nextIf (· == '-')
  match ← Item.nameStart.read with
  | some first => return some (hyphen.toList ++ first :: (← Item.nameChar.many))
  | none =>
    if hyphen.isSome then pushBack hyphen
    return none

theorem name_takes (hand : Nat) : ScanM.Takes hand name fun _ => hand := by
  refine (Item.nameChar.many_takes hand).bind fun cs => ?_
  split <;> exact .pure (Nat.le_refl _)

theorem ident_takes (hand : Nat) : ScanM.Takes hand ident fun cs => hand + countOf cs := by
  refine (nextIf_takes hand _).bind fun hyphen => ?_
  refine (Item.nameStart.read_takes _).bind fun first => ?_
  cases first with
  | some first => exact (Item.nameChar.many_takes _).bind fun _ => .pure (by simp [countOf])
  | none =>
    cases hyphen with
    | some c => exact (pushBack_takes (by simp [countOf])).bind fun _ => .pure (by simp [countOf])
    | none => exact .pure (by simp [countOf])

end Lexer

end CssTokens
