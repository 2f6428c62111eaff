import CssTokens.Proofs.Bytes.Source
import CssTokens.Proofs.Bytes.Utf16
import CssTokens.Proofs.Bytes.Utf8
import CssTokens.Proofs.Run.Comments

/-!
# Tokens of encoded text

A text may be given as bytes, in UTF-8 or after the mark of an encoding. However the bytes are
delivered, the tokenizer of the bytes is the same as that of the text, so that tokens stand where
they stand in the text.

Main statement: the calls of `next` come to the same (`results_ofBytes`).
-/

namespace CssTokens

/-- The bytes are the text in UTF-8, or a mark and the text in the encoding of the mark. Without a
mark the text may not start with the character that the marks are made of. -/
inductive Encodes (cs : List Char) : List UInt8 → Prop
  | utf8 : cs.head? ≠ some '\uFEFF' → Encodes cs (Utf8.encode cs)
  | markedUtf8 : Encodes cs ([0xEF, 0xBB, 0xBF] ++ Utf8.encode cs)
  | markedUtf16le : Encodes cs ([0xFF, 0xFE] ++ Utf16.encode .littleEndian cs)
  | markedUtf16be : Encodes cs ([0xFE, 0xFF] ++ Utf16.encode .bigEndian cs)

/-- A decoder that starts with UTF-8 decodes the bytes to the text. -/
theorem Encodes.decode {cs : List Char} {bs : List UInt8} (h : Encodes cs bs) :
    ((Decoder.ofEncoding .utf8).decode bs).2 = cs.map some := by
  cases h with
  | utf8 hc => rw [Decoder.decode_unmarked _ (Utf8.not_prefix_encode hc), Decoder.decode_utf8]
  | markedUtf8 =>
    have hmark : ([0xEF, 0xBB, 0xBF], Encoding.utf8) ∈ Decoder.marks := by simp [Decoder.marks]
    rw [Decoder.decode_marked _ hmark, Decoder.decode_utf8]
  | markedUtf16le =>
    have hmark : ([0xFF, 0xFE], Encoding.utf16le) ∈ Decoder.marks := by simp [Decoder.marks]
    have hdecode := Decoder.decode_utf16 .littleEndian cs
    rw [Decoder.decode_marked _ hmark]
    exact congrArg Prod.snd hdecode
  | markedUtf16be =>
    have hmark : ([0xFE, 0xFF], Encoding.utf16be) ∈ Decoder.marks := by simp [Decoder.marks]
    have hdecode := Decoder.decode_utf16 .bigEndian cs
    rw [Decoder.decode_marked _ hmark]
    exact congrArg Prod.snd hdecode

namespace ByteSource

/-! ## The events of a byte source -/

section
variable {b b' : ByteSource} (before : List Event)

theorem eventsAfter_char {c : Char} (h : read { b with malformed := [] } = .ok (some c) b') :
    b.eventsAfter before = b'.eventsAfter (.char c b'.malformed.head? :: before) := by
  fun_cases eventsAfter b before with
  | case1 c₁ b₁ h1 =>
    cases h1.symm.trans h
    rfl
  | case2 b₁ h1 => cases h1.symm.trans h
  | case3 f b₁ h1 => cases h1.symm.trans h

theorem eventsAfter_end (h : read { b with malformed := [] } = .ok none b') :
    b.eventsAfter before = before.reverse := by
  fun_cases eventsAfter b before with
  | case1 c₁ b₁ h1 => cases h1.symm.trans h
  | case2 b₁ h1 => rfl
  | case3 f b₁ h1 => cases h1.symm.trans h

/-- **Where nothing fails and nothing is malformed, the events are the characters of the text.** -/
theorem eventsAfter_text (h : b.Unfailing) (hwell : none ∉ b.toCome.2) :
    b.eventsAfter before = before.reverse ++ b.text.map fun c => .char c := by
  generalize htext : b.text = text
  induction text generalizing b before with
  | nil =>
    obtain ⟨b', hread, -⟩ := read_advanced (b := { b with malformed := [] }) h
    rw [show ByteSource.text { b with malformed := [] } = [] from htext] at hread
    rw [eventsAfter_end before hread, List.map_nil, List.append_nil]
  | cons c text ih =>
    obtain ⟨b', hread, hadv⟩ := read_advanced (b := { b with malformed := [] }) h
    have htext' := hadv.text
    rw [show ByteSource.text { b with malformed := [] } = c :: text from htext] at hread htext'
    obtain ⟨hwell', hmalformed⟩ := hadv.malformed hwell
    rw [eventsAfter_char before hread, hmalformed,
      ih _ hadv.unfailing hwell' htext']
    simp

end

theorem events_encoded {text : String} {reads : List ByteRead} {bs : List UInt8}
    (hbs : Encodes text.toList bs) (h : Delivers reads bs) :
    (ofEncoding .utf8 reads).events = Source.ofString text := by
  have hcome := congrArg Prod.snd (h.toCome : (ofEncoding .utf8 reads).toCome = _)
  rw [hbs.decode] at hcome
  have hwell : none ∉ (ofEncoding .utf8 reads).toCome.2 := by simp [hcome]
  have htext : (ofEncoding .utf8 reads).text = text.toList := by
    rw [ByteSource.text, hcome, textOf_map_some]
    rfl
  rw [events, eventsAfter_text [] h.unfailing hwell, htext]
  rfl

end ByteSource

namespace Tokenizer

/-- **The calls of `next` on a tokenizer of bytes come to the same as on that of the text**, with
the same places of the tokens, however the bytes are delivered. -/
theorem results_ofBytes {text : String} {reads : List ByteRead} {bs : List UInt8}
    (hbs : Encodes text.toList bs) (h : ByteSource.Delivers reads bs) (options : Options)
    (n : Nat) :
    (ofBytes (.ofEncoding .utf8 reads) options).results n = (ofString text options).results n := by
  rw [ofBytes, ByteSource.events_encoded hbs h, ofString]

/-- The mark, a unit and a pair of surrogates straddle the reads, one of which is interrupted. -/
theorem results_ofBytes_pair :
    (ofBytes (.ofEncoding .utf8 [.bytes [0xFF], .bytes [0xFE, 0x3D], .fail ⟨.interrupted, ""⟩,
        .bytes [0xD8, 0x00], .bytes [0xDE]]) {}).results 2 = (ofString "😀" {}).results 2 := by
  have hencode : [0xFF, 0xFE] ++ Utf16.encode .littleEndian "😀".toList
      = [0xFF, 0xFE, 0x3D, 0xD8, 0x00, 0xDE] := by decide +kernel
  have hbs : Encodes "😀".toList [0xFF, 0xFE, 0x3D, 0xD8, 0x00, 0xDE] := by
    rw [← hencode]
    exact .markedUtf16le
  have h : ByteSource.Delivers [.bytes [0xFF], .bytes [0xFE, 0x3D], .fail ⟨.interrupted, ""⟩,
      .bytes [0xD8, 0x00], .bytes [0xDE]] [0xFF, 0xFE, 0x3D, 0xD8, 0x00, 0xDE] :=
    ⟨rfl, rfl, trivial⟩
  exact results_ofBytes hbs h {} 2

end Tokenizer

end CssTokens
