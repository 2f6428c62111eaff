import CssTokens.Encoding.SingleByte
import CssTokens.Encoding.Utf16
import CssTokens.Encoding.Utf8

/-!
# Decoding

A decoder takes bytes in an encoding. A byte order mark at the start of the input is removed, and it
overrides the encoding. Bytes that look like a mark are held back until that is decided; if they
turn out to be none they are decoded like all others.
-/

namespace CssTokens

/-- What a decoder has taken without having decoded it. -/
inductive Pending where
  | utf8 (state : Utf8.State)
  | utf16 (order : Utf16.Order) (state : Utf16.State)
  /-- Every byte is a character. -/
  | singleByte
  /-- The input is malformed as a whole, which was noted at its first byte. -/
  | replacement (noted : Bool)
  deriving DecidableEq, Repr

/-- A decoder of bytes. -/
structure Decoder where
  encoding : Encoding
  /-- At the start of the input, the bytes of a possible mark that were taken. -/
  mark : Option (List UInt8) := some []
  pending : Pending
  deriving DecidableEq, Repr

namespace Decoder

/-- Nothing is pending at the start. -/
def initialPending : Encoding → Pending
  | .utf8 => .utf8 .start
  | .utf16le => .utf16 .littleEndian {}
  | .utf16be => .utf16 .bigEndian {}
  | .replacement => .replacement false
  | _ => .singleByte

/-- The decoder for an input that starts in the given encoding. -/
def ofEncoding (encoding : Encoding) : Decoder :=
  { encoding, pending := initialPending encoding }

/-- The byte order marks and the encodings that they select. -/
def marks : List (List UInt8 × Encoding) :=
  [([0xEF, 0xBB, 0xBF], .utf8), ([0xFF, 0xFE], .utf16le), ([0xFE, 0xFF], .utf16be)]

/-- Take a byte that belongs to no mark. -/
def step (d : Decoder) (b : UInt8) : Decoder × List (Option Char) :=
  match d.pending with
  | .utf8 state =>
    let (state, decoded) := Utf8.step state b
    ({ d with pending := .utf8 state }, decoded)
  | .utf16 order state =>
    let (state, decoded) := Utf16.step order state b
    ({ d with pending := .utf16 order state }, decoded)
  | .singleByte => (d, [some (SingleByte.decode d.encoding b)])
  | .replacement noted =>
    ({ d with pending := .replacement true }, if noted then [] else [none])

/-- Take bytes that belong to no mark. -/
def steps (d : Decoder) : List UInt8 → Decoder × List (Option Char)
  | [] => (d, [])
  | b :: bs =>
    let (d, first) := d.step b
    let (d, rest) := d.steps bs
    (d, first ++ rest)

/-- Take a byte. -/
def feed (d : Decoder) (b : UInt8) : Decoder × List (Option Char) :=
  match d.mark with
  | none => d.step b
  | some taken =>
    let taken := taken ++ [b]
    match marks.lookup taken with
    | some encoding => ({ encoding, mark := none, pending := initialPending encoding }, [])
    | none =>
      if marks.any fun m => taken.isPrefixOf m.1 then ({ d with mark := some taken }, [])
      else { d with mark := none }.steps taken

/-- Take the bytes of one piece of input, after which `decoded` was decoded, in reverse order. -/
def feedAll (d : Decoder) (bytes : List UInt8) (decoded : List (Option Char) := []) :
    Decoder × List (Option Char) :=
  match bytes with
  | [] => (d, decoded.reverse)
  | b :: bytes =>
    let (d, more) := d.feed b
    d.feedAll bytes (more.reverseAux decoded)

/-- Take the end of the input. -/
def finish (d : Decoder) : Decoder × List (Option Char) :=
  let (d, decoded) := { d with mark := none }.steps (d.mark.getD [])
  let last := match d.pending with
    | .utf8 state => Utf8.finish state
    | .utf16 _ state => Utf16.finish state
    | _ => []
  (d, decoded ++ last)

end Decoder

end CssTokens
