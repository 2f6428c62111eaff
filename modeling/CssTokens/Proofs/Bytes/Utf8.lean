import CssTokens.Proofs.Bytes.Decoder

/-!
# Decoding well-formed UTF-8

A character is encoded in one to four bytes. The first byte holds the highest bits of the code point
and says how many bytes there are, and each of the others holds six bits more. The decoder puts the
bits together again: the bounds that it sets to the second byte do not exclude any character.

Main statement: the encoding of a text is decoded to the text (`decode_utf8`).
-/

namespace CssTokens

namespace Utf8

open Decoder (run run_cons run_append run_flatMap)

/-! ## The bytes of a character

A byte is given by the bits that it holds.
-/

section
variable {bits : Nat}

theorem step_one (h : bits ≤ 0x7F) :
    step .start (UInt8.ofNat bits) = (.start, [some (charOfCodePoint bits)]) := by
  simp only [step, UInt8.toNat_ofNat_of_lt' (show bits < 256 by omega)]
  rw [startByte, if_pos h]

theorem step_two (h : 2 ≤ bits) (h' : bits < 0x20) :
    step .start (UInt8.ofNat (bits + 0xC0)) = (.within bits 0 0x80 0xBF, []) := by
  simp only [step, UInt8.toNat_ofNat_of_lt' (show bits + 0xC0 < 256 by omega)]
  rw [startByte, if_neg (by omega), if_neg (by omega), if_pos (by omega), Nat.add_sub_cancel]

/-- Three bytes are neither more than needed nor a surrogate. -/
theorem step_three (h : bits < 0x10) :
    step .start (UInt8.ofNat (bits + 0xE0)) =
      (.within bits 1 (if bits = 0 then 0xA0 else 0x80) (if bits = 0xD then 0x9F else 0xBF),
        []) := by
  have hE0 : bits + 0xE0 = 0xE0 ↔ bits = 0 := by omega
  have hED : bits + 0xE0 = 0xED ↔ bits = 0xD := by omega
  simp only [step, UInt8.toNat_ofNat_of_lt' (show bits + 0xE0 < 256 by omega)]
  rw [startByte, if_neg (by omega), if_neg (by omega), if_neg (by omega), if_pos (by omega),
    Nat.add_sub_cancel]
  simp only [hE0, hED]

/-- Four bytes are neither more than needed nor too large. -/
theorem step_four (h : bits ≤ 4) :
    step .start (UInt8.ofNat (bits + 0xF0)) =
      (.within bits 2 (if bits = 0 then 0x90 else 0x80) (if bits = 4 then 0x8F else 0xBF),
        []) := by
  have hF0 : bits + 0xF0 = 0xF0 ↔ bits = 0 := by omega
  have hF4 : bits + 0xF0 = 0xF4 ↔ bits = 4 := by omega
  simp only [step, UInt8.toNat_ofNat_of_lt' (show bits + 0xF0 < 256 by omega)]
  rw [startByte, if_neg (by omega), if_neg (by omega), if_neg (by omega), if_neg (by omega),
    if_pos (by omega), Nat.add_sub_cancel]
  simp only [hF0, hF4]

end

section
variable {bits low high n : Nat}

theorem step_within {more : Nat} (h : low ≤ n % 0x40 + 0x80) (h' : n % 0x40 + 0x80 ≤ high) :
    step (.within bits (more + 1) low high) (UInt8.ofNat (n % 0x40 + 0x80)) =
      (.within (bits * 64 + n % 0x40) more 0x80 0xBF, []) := by
  simp only [step, UInt8.toNat_ofNat_of_lt' (show n % 0x40 + 0x80 < 256 by omega),
    Nat.add_sub_cancel]
  simp [h, h']

theorem step_last (h : low ≤ n % 0x40 + 0x80) (h' : n % 0x40 + 0x80 ≤ high) :
    step (.within bits 0 low high) (UInt8.ofNat (n % 0x40 + 0x80)) =
      (.start, [some (charOfCodePoint (bits * 64 + n % 0x40))]) := by
  simp only [step, UInt8.toNat_ofNat_of_lt' (show n % 0x40 + 0x80 < 256 by omega),
    Nat.add_sub_cancel]
  simp [h, h']

end

/-! ## Characters and texts -/

/-- **The encoding of a character is decoded to it.** -/
theorem run_encodeChar (c : Char) :
    run step .start (String.utf8EncodeChar c) = (.start, [some c]) := by
  have hvalid : c.toNat < 0xD800 ∨ 0xDFFF < c.toNat ∧ c.toNat < 0x110000 := c.valid
  have hc : charOfCodePoint c.toNat = c := charOfCodePoint_toNat c
  unfold String.utf8EncodeChar
  rw [show c.val.toNat = c.toNat from rfl]
  generalize c.toNat = v at hvalid hc ⊢
  dsimp only
  split
  · rw [run_cons, step_one (by omega), hc]
    rfl
  split
  · rw [run_cons, step_two (by omega) (by omega), run_cons, step_last (by omega) (by omega)]
    rw [show v / 64 % 0x20 * 64 + v % 0x40 = v by omega, hc]
    rfl
  split
  · rw [run_cons, step_three (by omega)]
    rw [run_cons, step_within (by split <;> omega) (by split <;> omega)]
    rw [run_cons, step_last (by omega) (by omega)]
    rw [show (v / 4096 % 0x10 * 64 + v / 64 % 0x40) * 64 + v % 0x40 = v by omega, hc]
    rfl
  · rw [run_cons, step_four (by omega)]
    rw [run_cons, step_within (by split <;> omega) (by split <;> omega)]
    rw [run_cons, step_within (by omega) (by omega), run_cons, step_last (by omega) (by omega)]
    rw [show ((v / 262144 % 0x08 * 64 + v / 4096 % 0x40) * 64 + v / 64 % 0x40) * 64 + v % 0x40
      = v by omega, hc]
    rfl

/-- The encoding of a text. -/
def encode (cs : List Char) : List UInt8 :=
  cs.flatMap String.utf8EncodeChar

theorem run_encode (cs : List Char) : run step .start (encode cs) = (.start, cs.map some) :=
  run_flatMap step run_encodeChar cs

/-- Only a text that starts with the character of the marks is encoded with a mark at the start. -/
theorem not_prefix_encode {cs : List Char} (h : cs.head? ≠ some '\uFEFF') :
    ∀ m ∈ Decoder.marks, ¬m.1 <+: encode cs := by
  intro m hm hp
  obtain ⟨rest, heq⟩ := hp
  -- The marks of UTF-16 are malformed here, and that of UTF-8 is the encoding of this character.
  have hmark : (run step .start m.1).2.head? = some none
      ∨ (run step .start m.1).2.head? = some (some '\uFEFF') := by
    simp only [Decoder.marks, List.mem_cons, List.not_mem_nil, or_false] at hm
    rcases hm with rfl | rfl | rfl
    · exact .inr (by decide +kernel)
    · exact .inl (by decide +kernel)
    · exact .inl (by decide +kernel)
  have hrun : (run step .start (m.1 ++ rest)).2.head? = cs.head?.map some := by
    rw [heq, run_encode, List.head?_map]
  rw [run_append, List.head?_append] at hrun
  rcases hmark with hmark | hmark
  · rw [hmark, Option.some_or] at hrun
    cases hc : cs.head? <;> simp [hc] at hrun
  · rw [hmark, Option.some_or] at hrun
    cases hc : cs.head? with
    | none => simp [hc] at hrun
    | some c =>
      simp only [hc, Option.map_some, Option.some.injEq] at hrun
      exact h (by rw [hc, ← hrun])

end Utf8

/-- **The encoding of a text is decoded to the text.** -/
theorem Decoder.decode_utf8 (cs : List Char) :
    (withoutMarks .utf8).decode (Utf8.encode cs) = (withoutMarks .utf8, cs.map some) := by
  have hsteps : (withoutMarks .utf8).steps (Utf8.encode cs) =
      (withoutMarks .utf8, cs.map some) := by
    have hrun := steps_utf8 (withoutMarks .utf8) .start (Utf8.encode cs)
    rw [Utf8.run_encode] at hrun
    exact hrun
  rw [decode, feedAll_of_mark_none rfl, hsteps]
  exact Prod.ext rfl (List.append_nil _)

end CssTokens
