import CssTokens.Lexer.Name

/-!
# Strings, URLs and comments

These are enclosed between an opening and a closing mark. The text between the marks is a run of
items, and where the run ends without the closing mark the text is cut off: what cut it off stays in
the input.
-/

namespace CssTokens

open Scanner

/-- A text after its opening mark. -/
structure Enclosed where
  text : List Char
  /-- Whether the closing mark was there. -/
  closed : Bool
  deriving DecidableEq, Repr

/-! ## Strings -/

/--
A character of a string: any but the quote, a line break or a backslash; an escape; or an escaped
line break, which stands for itself.
-/
def Item.quotedChar (quote : Char) : Item Char where
  read := do
    match ← (Item.orEscape fun c => c != quote && c != '\n' && c != '\\').read with
    | some c => return some c
    | none => return if ← nextText ['\\', '\n'] then some '\n' else none
  takes := by
    refine (Item.read_takes _ 0).bind fun c => ?_
    cases c with
    | some c => exact .pure (by simp [countOf])
    | none =>
      refine (nextText_takes _ _).bind fun found => .pure ?_
      cases found <;> simp [countOf]

namespace Lexer

/-- A string after its opening quote. -/
def quoted (quote : Char) : ScanM Enclosed := do
  let text ← (Item.quotedChar quote).many
  return { text, closed := ← nextIs quote }

theorem quoted_takes (hand : Nat) (quote : Char) :
    ScanM.Takes hand (quoted quote) fun _ => hand :=
  (Item.many_takes _ hand).bind fun _ => (nextIs_takes _ _).bind fun _ => .pure (by omega)

/-! ## URLs -/

/-- The end of a URL with the given text: blanks and the closing parenthesis. -/
def urlEnd (text : List Char) : ScanM Enclosed := do
  let _ ← Item.blank.many
  return { text, closed := ← nextIs ')' }

/-- A URL after `url(`: a string, or characters and escapes without quotes, between blanks. -/
def url : ScanM Enclosed := do
  let _ ← Item.blank.many
  match ← nextIf isQuote with
  | some quote =>
    let contents ← quoted quote
    if contents.closed then urlEnd contents.text else return contents
  | none => urlEnd (← (Item.orEscape isUrlChar).many)

theorem urlEnd_takes (hand : Nat) (text : List Char) :
    ScanM.Takes hand (urlEnd text) fun _ => hand :=
  (Item.many_takes _ hand).bind fun _ => (nextIs_takes _ _).bind fun _ => .pure (by omega)

theorem url_takes (hand : Nat) : ScanM.Takes hand url fun _ => hand := by
  refine (Item.many_takes _ hand).bind fun _ => (nextIf_takes _ _).bind fun quote => ?_
  cases quote with
  | none =>
    exact (Item.many_takes _ _).bind fun text => (urlEnd_takes _ text).mono fun _ => by
      simp [countOf]
  | some quote =>
    refine (quoted_takes _ quote).bind fun contents => ?_
    split
    · exact (urlEnd_takes _ _).mono fun _ => by omega
    · exact .pure (by omega)

end Lexer

/-! ## Comments -/

/-- A character of a comment, which is any unless the closing mark starts with it. -/
def Item.commentChar : Item Char where
  read := do
    if ← nextText ['*', '/'] then
      pushBack (some '/')
      pushBack (some '*')
      return none
    else nextIf fun _ => true
  takes := by
    refine (nextText_takes 0 _).bind fun found => ?_
    cases found with
    | true =>
      refine (pushBack_takes (by simp [countOf])).bind fun _ => ?_
      exact (pushBack_takes (by simp [countOf])).bind fun _ => .pure (by simp [countOf])
    | false => exact (nextIf_takes _ _).mono fun _ => by simp

namespace Lexer

/-- A comment after its opening mark. What cuts it off is the end of the input, which is read and
not pushed back. -/
def comment : ScanM Enclosed := do
  let text ← Item.commentChar.many
  if ← nextText ['*', '/'] then return { text, closed := true }
  let _ ← next
  return { text, closed := false }

theorem comment_takes (hand : Nat) : ScanM.Takes hand comment fun _ => hand := by
  refine (Item.many_takes _ hand).bind fun text => (nextText_takes _ _).bind fun found => ?_
  cases found with
  | true => exact .pure (by omega)
  | false => exact (next_takes _).bind fun _ => .pure (by simp)

end Lexer

end CssTokens
