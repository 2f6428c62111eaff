import CssTokens.CharClass
import CssTokens.Encoding.Utf16
import CssTokens.Lexer.Numeral

/-!
# Marks of JSON text

JSON text is a sequence of marks: punctuation, literals, numerals and strings, with blanks between
them. A string may hold surrogates that were escaped one by one. Whether they make pairs matters
only where the text of the string is asked for.
-/

namespace CssTokens

/-- A character of a JSON string, or a surrogate that was written as an escape. -/
inductive JsonChar where
  | char (c : Char)
  | surrogate (u : Nat)
  deriving DecidableEq, Repr

/-- A mark of JSON text. -/
inductive JsonMark where
  | openObject
  | closeObject
  | openArray
  | closeArray
  | colon
  | comma
  | null
  | bool (b : Bool)
  | number (n : Numeral)
  | string (cs : List JsonChar)
  deriving DecidableEq, Repr

namespace JsonChar

/-- The text of a string, unless it holds a surrogate without its partner. -/
def text? : List JsonChar → Option (List Char)
  | [] => some []
  | char c :: rest => (text? rest).map (c :: ·)
  | surrogate l :: surrogate t :: rest =>
    if Utf16.isLead l && Utf16.isTrail t then
      (text? rest).map (charOfCodePoint (0x10000 + (l - 0xD800) * 0x400 + (t - 0xDC00)) :: ·)
    else none
  | surrogate _ :: _ => none

/-- What an escape by code unit stands for. -/
def ofUnit (u : Nat) : JsonChar :=
  if Utf16.isLead u || Utf16.isTrail u then surrogate u else char (charOfCodePoint u)

/-- What an escape of one character stands for. -/
def ofEscape? (c : Char) : Option Char :=
  if c = '"' || c = '\\' || c = '/' then some c
  else if c = 'b' then some '\x08'
  else if c = 'f' then some '\x0C'
  else if c = 'n' then some '\n'
  else if c = 'r' then some '\r'
  else if c = 't' then some '\t'
  else none

end JsonChar

namespace JsonMark

/-! ## Strings and numerals

Each function takes the text from where it stands and gives what it read and the rest.
-/

/-- The characters of a string up to its closing quote. Control characters must be escaped. -/
def stringChars? : List Char → Option (List JsonChar × List Char)
  | [] => none
  | '"' :: rest => some ([], rest)
  | '\\' :: 'u' :: a :: b :: c :: d :: rest =>
    if [a, b, c, d].all isHexDigit then
      (stringChars? rest).map fun r => (.ofUnit (ofHexDigits [a, b, c, d]) :: r.1, r.2)
    else none
  | '\\' :: e :: rest =>
    match JsonChar.ofEscape? e with
    | some c => (stringChars? rest).map fun r => (.char c :: r.1, r.2)
    | none => none
  | c :: rest =>
    if c.toNat < 0x20 || c = '\\' then none
    else (stringChars? rest).map fun r => (.char c :: r.1, r.2)

/-- A run of at least one digit. -/
def digits? (cs : List Char) : Option (List Char × List Char) :=
  if cs.takeWhile Char.isDigit = [] then none
  else some (cs.takeWhile Char.isDigit, cs.dropWhile Char.isDigit)

/-- The digits before the point: a single zero, or digits that do not start with zero. -/
def whole? (cs : List Char) : Option (List Char × List Char) :=
  match cs with
  | '0' :: rest => some (['0'], rest)
  | _ => digits? cs

/-- The digits after the point, if there is a point. -/
def fraction? (cs : List Char) : Option (List Char × List Char) :=
  match cs with
  | '.' :: rest => digits? rest
  | _ => some ([], cs)

/-- A sign if there is one. -/
def exponentSign (cs : List Char) : Option Char × List Char :=
  match cs with
  | c :: rest => if isSign c then (some c, rest) else (none, cs)
  | [] => (none, [])

/-- The exponent, if there is one. -/
def exponent? (cs : List Char) : Option (Option Exponent × List Char) :=
  match cs with
  | letter :: rest =>
    if isExponentLetter letter then
      (digits? (exponentSign rest).2).map fun r =>
        (some { letter, sign := (exponentSign rest).1, digits := r.1 }, r.2)
    else some (none, cs)
  | [] => some (none, [])

/-- A numeral after its sign. -/
def numeral? (sign : Option Char) (cs : List Char) : Option (Numeral × List Char) := do
  let (whole, cs) ← whole? cs
  let (fraction, cs) ← fraction? cs
  let (exponent, cs) ← exponent? cs
  return ({ sign, whole, fraction, exponent }, cs)

/-! ## Marks -/

/-- The marks of one character. -/
def punctuation : List (Char × JsonMark) :=
  [('\x7b', openObject), ('\x7d', closeObject), ('[', openArray), (']', closeArray), (':', colon),
    (',', comma)]

/-- The literals: first character, the others, and the mark. -/
def literals : List (Char × List Char × JsonMark) :=
  [('n', ['u', 'l', 'l'], null), ('t', ['r', 'u', 'e'], bool true),
    ('f', ['a', 'l', 's', 'e'], bool false)]

/-- The mark that starts with `c`. -/
def startingWith? (c : Char) (cs : List Char) : Option (JsonMark × List Char) :=
  match punctuation.lookup c, literals.lookup c with
  | some mark, _ => some (mark, cs)
  | none, some (word, mark) =>
    if word.isPrefixOf cs then some (mark, cs.drop word.length) else none
  | none, none =>
    if c = '"' then (stringChars? cs).map fun r => (string r.1, r.2)
    else if c = '-' then (numeral? (some '-') cs).map fun r => (number r.1, r.2)
    else if c.isDigit then (numeral? none (c :: cs)).map fun r => (number r.1, r.2)
    else none

/-- The blanks of JSON text. -/
def isJsonBlank (c : Char) : Bool :=
  c == ' ' || c == '\t' || c == '\n' || c == '\r'

/-! ## What is read is gone -/

theorem stringChars?_length {cs : List Char} {r : List JsonChar × List Char}
    (h : stringChars? cs = some r) : r.2.length < cs.length := by
  fun_induction stringChars? cs generalizing r with
  | case1 => simp at h
  | case2 rest => cases h; simp
  | case3 a b c d rest hx ih =>
    obtain ⟨r', h', rfl⟩ := Option.map_eq_some_iff.1 h
    have := ih h'
    simp only [List.length_cons]
    omega
  | case4 => simp at h
  | case5 e rest _ c hc ih =>
    obtain ⟨r', h', rfl⟩ := Option.map_eq_some_iff.1 h
    have := ih h'
    simp only [List.length_cons]
    omega
  | case6 => simp at h
  | case7 => simp at h
  | case8 c rest _ _ _ hc ih =>
    obtain ⟨r', h', rfl⟩ := Option.map_eq_some_iff.1 h
    have := ih h'
    simp only [List.length_cons]
    omega

theorem digits?_length {cs : List Char} {r : List Char × List Char} (h : digits? cs = some r) :
    r.2.length < cs.length := by
  unfold digits? at h
  split at h
  · cases h
  · next hne =>
    cases h
    have hlen : (cs.takeWhile Char.isDigit ++ cs.dropWhile Char.isDigit).length = cs.length := by
      rw [List.takeWhile_append_dropWhile]
    simp only [← List.length_eq_zero_iff] at hne
    simp only [List.length_append] at hlen
    dsimp only
    omega

theorem whole?_length {cs : List Char} {r : List Char × List Char} (h : whole? cs = some r) :
    r.2.length < cs.length := by
  unfold whole? at h
  split at h
  · cases h; simp
  · exact digits?_length h

theorem fraction?_length {cs : List Char} {r : List Char × List Char} (h : fraction? cs = some r) :
    r.2.length ≤ cs.length := by
  unfold fraction? at h
  split at h
  · have := digits?_length h
    simp only [List.length_cons]
    omega
  · cases h; simp

theorem exponentSign_length (cs : List Char) : (exponentSign cs).2.length ≤ cs.length := by
  unfold exponentSign
  split
  · split <;> simp
  · simp

theorem exponent?_length {cs : List Char} {r : Option Exponent × List Char}
    (h : exponent? cs = some r) : r.2.length ≤ cs.length := by
  unfold exponent? at h
  split at h
  · next letter rest =>
    split at h
    · obtain ⟨r', h', rfl⟩ := Option.map_eq_some_iff.1 h
      have h1 := digits?_length h'
      have h2 := exponentSign_length rest
      simp only [List.length_cons]
      omega
    · cases h; simp
  · cases h; simp

theorem numeral?_length {sign : Option Char} {cs : List Char} {r : Numeral × List Char}
    (h : numeral? sign cs = some r) : r.2.length < cs.length := by
  simp only [numeral?, Option.bind_eq_bind, Option.bind_eq_some_iff, Option.pure_def,
    Option.some.injEq] at h
  obtain ⟨w, hw, f, hf, e, he, rfl⟩ := h
  have h1 := whole?_length hw
  have h2 := fraction?_length hf
  have h3 := exponent?_length he
  dsimp only
  omega

theorem startingWith?_length {c : Char} {cs : List Char} {r : JsonMark × List Char}
    (h : startingWith? c cs = some r) : r.2.length ≤ cs.length := by
  unfold startingWith? at h
  split at h
  · cases h; exact Nat.le_refl _
  · split at h
    · cases h; simp
    · cases h
  · split at h
    · obtain ⟨r', h', rfl⟩ := Option.map_eq_some_iff.1 h
      exact Nat.le_of_lt (stringChars?_length h')
    split at h
    · obtain ⟨r', h', rfl⟩ := Option.map_eq_some_iff.1 h
      exact Nat.le_of_lt (numeral?_length h')
    split at h
    · obtain ⟨r', h', rfl⟩ := Option.map_eq_some_iff.1 h
      exact Nat.le_of_lt_succ (numeral?_length h')
    · cases h

/-- The marks of a text. -/
def ofText? (cs : List Char) : Option (List JsonMark) :=
  match cs with
  | [] => some []
  | c :: rest =>
    if isJsonBlank c then ofText? rest
    else match _h : startingWith? c rest with
      | some (mark, rest') => (ofText? rest').map (mark :: ·)
      | none => none
termination_by cs.length
decreasing_by
  · simp
  · have := startingWith?_length _h
    simp only [List.length_cons] at this ⊢
    omega

end JsonMark

end CssTokens
