import CssTokens.CharClass

/-!
# UTF-8

A decoder that takes one byte at a time. A sequence of bytes that cannot be continued to the
encoding of a character is malformed from its first byte up to where that shows; the byte that shows
it starts anew.

What is decoded is a list in which `none` stands for a malformed sequence.
-/

namespace CssTokens.Utf8

/-- Where the decoder stands between bytes. -/
inductive State where
  /-- Between characters. -/
  | start
  /--
  Inside a character: the value of its bits so far, the number of bytes that are to come after the
  next one, and the bounds of the next one. Narrow bounds after the first byte exclude overlong
  forms, surrogates and what is too large.
  -/
  | within (bits : Nat) (more : Nat) (low high : Nat)
  deriving DecidableEq, Repr

/-- Take the first byte of a character. -/
def startByte (b : Nat) : State × List (Option Char) :=
  if b ≤ 0x7F then (.start, [some (charOfCodePoint b)])
  else if b < 0xC2 then (.start, [none])
  else if b ≤ 0xDF then (.within (b - 0xC0) 0 0x80 0xBF, [])
  else if b ≤ 0xEF then
    (.within (b - 0xE0) 1 (if b = 0xE0 then 0xA0 else 0x80) (if b = 0xED then 0x9F else 0xBF), [])
  else if b ≤ 0xF4 then
    (.within (b - 0xF0) 2 (if b = 0xF0 then 0x90 else 0x80) (if b = 0xF4 then 0x8F else 0xBF), [])
  else (.start, [none])

/-- Take a byte. -/
def step (state : State) (b : UInt8) : State × List (Option Char) :=
  let b := b.toNat
  match state with
  | .start => startByte b
  | .within bits more low high =>
    if low ≤ b && b ≤ high then
      let bits := bits * 64 + (b - 0x80)
      match more with
      | 0 => (.start, [some (charOfCodePoint bits)])
      | more + 1 => (.within bits more 0x80 0xBF, [])
    else
      let (state, decoded) := startByte b
      (state, none :: decoded)

/-- The end of the input, which leaves a character unfinished or not. -/
def finish : State → List (Option Char)
  | .start => []
  | .within .. => [none]

end CssTokens.Utf8
