import CssTokens.CharClass

/-!
# UTF-16

A decoder that takes one byte at a time, in either order of bytes. Two bytes are a unit, and two
units that are surrogates are a character. A surrogate without its partner is malformed.

What is decoded is a list in which `none` stands for a malformed sequence.
-/

namespace CssTokens.Utf16

/-- The order of the bytes of a unit. -/
inductive Order where
  | littleEndian
  | bigEndian
  deriving DecidableEq, Repr

/-- What the decoder has taken without having decoded it. -/
structure State where
  /-- The first byte of a unit. -/
  byte : Option Nat := none
  /-- The first surrogate of a pair. -/
  lead : Option Nat := none
  deriving DecidableEq, Repr

def isLead (u : Nat) : Bool :=
  0xD800 ≤ u && u ≤ 0xDBFF

def isTrail (u : Nat) : Bool :=
  0xDC00 ≤ u && u ≤ 0xDFFF

/-- The unit that two bytes make. -/
def unitOf (order : Order) (first second : Nat) : Nat :=
  match order with
  | .littleEndian => second * 256 + first
  | .bigEndian => first * 256 + second

/-- Take a unit that does not complete a pair. -/
def startUnit (u : Nat) : State × List (Option Char) :=
  if isLead u then ({ lead := some u }, [])
  else if isTrail u then ({}, [none])
  else ({}, [some (charOfCodePoint u)])

/-- Take a unit. -/
def unitStep (lead : Option Nat) (u : Nat) : State × List (Option Char) :=
  match lead with
  | none => startUnit u
  | some l =>
    if isTrail u then ({}, [some (charOfCodePoint (0x10000 + (l - 0xD800) * 0x400 + (u - 0xDC00)))])
    else
      let (state, decoded) := startUnit u
      (state, none :: decoded)

/-- Take a byte. -/
def step (order : Order) (state : State) (b : UInt8) : State × List (Option Char) :=
  match state.byte with
  | none => ({ state with byte := some b.toNat }, [])
  | some first => unitStep state.lead (unitOf order first b.toNat)

/-- The end of the input, which leaves a unit or a pair unfinished or not. -/
def finish (state : State) : List (Option Char) :=
  if state.byte.isSome || state.lead.isSome then [none] else []

end CssTokens.Utf16
