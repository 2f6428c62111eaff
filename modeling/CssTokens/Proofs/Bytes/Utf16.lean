import CssTokens.Proofs.Bytes.Decoder

/-!
# Decoding well-formed UTF-16

A character is encoded in one unit or, from U+10000 on, in a pair of surrogates, of which the first
holds the higher ten bits. A unit is two bytes in either order. A character that is no surrogate is
not taken for one, and after a first surrogate comes the second one.

Main statement: the encoding of a text is decoded to the text (`decode_utf16`).
-/

namespace CssTokens

namespace Utf16

open Decoder (run run_cons run_append run_flatMap)

/-- The bytes of a unit. -/
def encodeUnit (order : Order) (u : Nat) : List UInt8 :=
  match order with
  | .littleEndian => [UInt8.ofNat (u % 256), UInt8.ofNat (u / 256)]
  | .bigEndian => [UInt8.ofNat (u / 256), UInt8.ofNat (u % 256)]

/-- The units of a code point. -/
def units (codePoint : Nat) : List Nat :=
  if codePoint < 0x10000 then [codePoint]
  else [0xD800 + (codePoint - 0x10000) / 0x400, 0xDC00 + (codePoint - 0x10000) % 0x400]

/-- The encoding of a character. -/
def encodeChar (order : Order) (c : Char) : List UInt8 :=
  (units c.toNat).flatMap (encodeUnit order)

/-- The encoding of a text. -/
def encode (order : Order) (cs : List Char) : List UInt8 :=
  cs.flatMap (encodeChar order)

/-! ## Units -/

/-- The two bytes of a unit come to the unit. -/
theorem run_encodeUnit (order : Order) (lead : Option Nat) {u : Nat} (h : u < 0x10000) :
    run (step order) { lead } (encodeUnit order u) = unitStep lead u := by
  have hhigh : (UInt8.ofNat (u / 256)).toNat = u / 256 :=
    UInt8.toNat_ofNat_of_lt' (show u / 256 < 256 by omega)
  have hlow : (UInt8.ofNat (u % 256)).toNat = u % 256 :=
    UInt8.toNat_ofNat_of_lt' (show u % 256 < 256 by omega)
  cases order with
  | littleEndian =>
    simp only [encodeUnit, run, step, hhigh, hlow, unitOf]
    rw [show u / 256 * 256 + u % 256 = u by omega]
    simp
  | bigEndian =>
    simp only [encodeUnit, run, step, hhigh, hlow, unitOf]
    rw [show u / 256 * 256 + u % 256 = u by omega]
    simp

section
variable {u : Nat}

theorem unitStep_single (h : u < 0xD800 ∨ 0xDFFF < u) :
    unitStep none u = ({}, [some (charOfCodePoint u)]) := by
  have hlead : isLead u = false := by
    simp only [isLead, Bool.and_eq_false_iff, decide_eq_false_iff_not]
    omega
  have htrail : isTrail u = false := by
    simp only [isTrail, Bool.and_eq_false_iff, decide_eq_false_iff_not]
    omega
  simp [unitStep, startUnit, hlead, htrail]

theorem unitStep_lead (h : 0xD800 ≤ u) (h' : u ≤ 0xDBFF) :
    unitStep none u = ({ lead := some u }, []) := by
  simp [unitStep, startUnit, isLead, h, h']

theorem unitStep_trail (l : Nat) (h : 0xDC00 ≤ u) (h' : u ≤ 0xDFFF) :
    unitStep (some l) u =
      ({}, [some (charOfCodePoint (0x10000 + (l - 0xD800) * 0x400 + (u - 0xDC00)))]) := by
  simp [unitStep, isTrail, h, h']

end

/-! ## Characters and texts -/

/-- **The encoding of a character is decoded to it.** -/
theorem run_encodeChar (order : Order) (c : Char) :
    run (step order) {} (encodeChar order c) = ({}, [some c]) := by
  have hvalid : c.toNat < 0xD800 ∨ 0xDFFF < c.toNat ∧ c.toNat < 0x110000 := c.valid
  have hc : charOfCodePoint c.toNat = c := charOfCodePoint_toNat c
  unfold encodeChar
  generalize c.toNat = v at hvalid hc ⊢
  unfold units
  split
  · rw [List.flatMap_singleton, run_encodeUnit order none (by omega), unitStep_single (by omega)]
    rw [hc]
  · have hlead := unitStep_lead (u := 0xD800 + (v - 0x10000) / 0x400) (by omega) (by omega)
    have htrail := unitStep_trail (0xD800 + (v - 0x10000) / 0x400)
      (u := 0xDC00 + (v - 0x10000) % 0x400) (by omega) (by omega)
    rw [List.flatMap_cons, List.flatMap_singleton, run_append]
    rw [run_encodeUnit order none (by omega), hlead]
    rw [run_encodeUnit order _ (by omega), htrail]
    rw [show 0x10000 + (0xD800 + (v - 0x10000) / 0x400 - 0xD800) * 0x400
      + (0xDC00 + (v - 0x10000) % 0x400 - 0xDC00) = v by omega, hc]
    rfl

theorem run_encode (order : Order) (cs : List Char) :
    run (step order) {} (encode order cs) = ({}, cs.map some) :=
  run_flatMap (step order) (run_encodeChar order) cs

end Utf16

/-- The encoding in a given order of bytes. -/
def Utf16.Order.encoding : Utf16.Order → Encoding
  | .littleEndian => .utf16le
  | .bigEndian => .utf16be

/-- **The encoding of a text is decoded to the text.** -/
theorem Decoder.decode_utf16 (order : Utf16.Order) (cs : List Char) :
    (withoutMarks order.encoding).decode (Utf16.encode order cs) =
      (withoutMarks order.encoding, cs.map some) := by
  have hpending : (withoutMarks order.encoding).pending = .utf16 order {} := by
    cases order <;> rfl
  have hsteps : (withoutMarks order.encoding).steps (Utf16.encode order cs) =
      (withoutMarks order.encoding, cs.map some) := by
    have hrun := steps_utf16 (withoutMarks order.encoding) order {} (Utf16.encode order cs)
    rw [Utf16.run_encode, ← hpending] at hrun
    exact hrun
  rw [decode, feedAll_of_mark_none rfl, hsteps]
  cases order <;> exact Prod.ext rfl (List.append_nil _)

end CssTokens
