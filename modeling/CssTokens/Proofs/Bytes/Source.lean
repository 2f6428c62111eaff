import CssTokens.Input.ByteSource
import CssTokens.Proofs.Bytes.Decoder

/-!
# Bytes in any division

A reader delivers its bytes in pieces of any size, and it may be interrupted. A byte source decodes
a piece when it needs more characters, and a piece may decode to nothing. What it delivers is the
text of all the bytes, no matter where the pieces end.

As for a scanner, what is still to come is a text: the characters that were decoded and not yet
delivered, then what the decoder will make of the bytes that the reader still delivers.

Main statement: two divisions of the same bytes yield the same text, in the same encoding
(`yields_same`).
-/

namespace CssTokens

namespace ByteSource

/-! ## What a reader delivers -/

/-- The bytes that some reads deliver up to the first empty one, which is the end of the input. -/
def delivered : List ByteRead → List UInt8
  | [] => []
  | .bytes [] :: _ => []
  | .bytes (b :: bs) :: reads => b :: bs ++ delivered reads
  | .fail _ :: reads => delivered reads

/-- Up to the end of the input, reads fail only if they were interrupted. -/
def OnlyInterrupted : List ByteRead → Prop
  | [] => True
  | .bytes [] :: _ => True
  | .bytes (_ :: _) :: reads => OnlyInterrupted reads
  | .fail f :: reads => f.kind = .interrupted ∧ OnlyInterrupted reads

/-- The reads are a division of the bytes into pieces, with interruptions anywhere. -/
structure Delivers (reads : List ByteRead) (bs : List UInt8) : Prop where
  delivered : delivered reads = bs
  onlyInterrupted : OnlyInterrupted reads

/-- The reads that are left when one has filled its buffer. -/
def readsAfter (bs : List UInt8) (reads : List ByteRead) : List ByteRead :=
  if (bs.drop chunkSize).isEmpty then reads else .bytes (bs.drop chunkSize) :: reads

theorem delivered_readsAfter (bs : List UInt8) (reads : List ByteRead) :
    bs.take chunkSize ++ delivered (readsAfter bs reads) = bs ++ delivered reads := by
  unfold readsAfter
  cases h : bs.drop chunkSize with
  | nil =>
    have htake := List.take_append_drop chunkSize bs
    rw [h, List.append_nil] at htake
    simp [htake]
  | cons b later =>
    simp only [List.isEmpty_cons, Bool.false_eq_true, if_false, delivered]
    rw [← h, ← List.append_assoc, List.take_append_drop]

theorem onlyInterrupted_readsAfter (bs : List UInt8) {reads : List ByteRead}
    (h : OnlyInterrupted reads) : OnlyInterrupted (readsAfter bs reads) := by
  unfold readsAfter
  cases bs.drop chunkSize <;> exact h

/-! ## The text of a byte source -/

/-- What the decoder will make of the bytes that the reader still delivers. -/
def toCome (b : ByteSource) : Decoder × List (Option Char) :=
  if b.finished then (b.decoder, []) else b.decoder.decode (delivered b.reads)

/-- The text of what was decoded, in which U+FFFD stands for malformed sequences. -/
def textOf (decoded : List (Option Char)) : List Char :=
  decoded.map (·.getD replacementChar)

@[simp] theorem textOf_map_some (cs : List Char) : textOf (cs.map some) = cs := by
  simp [textOf, Function.comp_def]

/-- The text that a byte source still delivers. -/
def text (b : ByteSource) : List Char :=
  b.decoded ++ textOf b.toCome.2

/-- No read that is still to come fails. -/
def Unfailing (b : ByteSource) : Prop :=
  b.finished = false → OnlyInterrupted b.reads

/-- Reading from the reader has turned `b` into `b'`, and `now` is what was decoded by it. -/
structure Filled (b : ByteSource) (now : List (Option Char)) (b' : ByteSource) : Prop where
  toCome : b.toCome = (b'.toCome.1, now ++ b'.toCome.2)
  decoded : b'.decoded = b.decoded ++ textOf now
  unfailing : b'.Unfailing
  malformed : none ∉ now → b'.malformed = b.malformed

namespace Filled

variable {b b' b'' : ByteSource} {now now' : List (Option Char)}

theorem refl (h : b.Unfailing) : Filled b [] b where
  toCome := rfl
  decoded := by simp [textOf]
  unfailing := h
  malformed _ := rfl

theorem trans (h : Filled b now b') (h' : Filled b' now' b'') : Filled b (now ++ now') b'' where
  toCome := by
    rw [h.toCome, h'.toCome, List.append_assoc]
  decoded := by
    rw [h'.decoded, h.decoded]
    simp [textOf]
  unfailing := h'.unfailing
  malformed hnone := by
    simp only [List.mem_append, not_or] at hnone
    rw [h'.malformed hnone.2, h.malformed hnone.1]

theorem text (h : Filled b now b') : b'.text = b.text := by
  rw [ByteSource.text, ByteSource.text, h.toCome, h.decoded]
  simp [textOf]

theorem accept_malformed (b : ByteSource) {result : Decoder × List (Option Char)}
    (h : none ∉ result.2) : (b.accept result).malformed = b.malformed := by
  simp [accept, h]

/-- The reader was interrupted. -/
theorem interrupted {reads : List ByteRead} (hr : delivered b.reads = delivered reads)
    (hi : OnlyInterrupted reads) : Filled b [] { b with reads } where
  toCome := by simp [ByteSource.toCome, hr]
  decoded := by simp [textOf]
  unfailing _ := hi
  malformed _ := rfl

/-- A piece of the input was read. -/
theorem piece {chunk : List UInt8} {reads : List ByteRead} (hf : b.finished = false)
    (hr : delivered b.reads = chunk ++ delivered reads) (hi : OnlyInterrupted reads) :
    Filled b (b.decoder.feedAll chunk).2
      ({ b with reads }.accept (b.decoder.feedAll chunk)) where
  toCome := by
    simp only [ByteSource.toCome, accept, hf, Bool.false_eq_true, if_false]
    rw [hr, Decoder.decode_append]
  decoded := rfl
  unfailing _ := hi
  malformed h := accept_malformed _ h

/-- The end of the input was read. -/
theorem ended {reads : List ByteRead} (hf : b.finished = false) (hr : delivered b.reads = []) :
    Filled b b.decoder.finish.2
      ({ b with reads, finished := true }.accept b.decoder.finish) where
  toCome := by
    simp only [ByteSource.toCome, accept, hf, Bool.false_eq_true, if_false, if_true]
    rw [hr, Decoder.decode_nil, List.append_nil]
  decoded := rfl
  unfailing h := by cases h
  malformed h := accept_malformed _ h

end Filled

theorem not_finished {b : ByteSource} (h : ¬(!b.decoded.isEmpty || b.finished) = true) :
    b.finished = false := by
  simp only [Bool.or_eq_true, not_or, Bool.not_eq_true] at h
  exact h.2

/-- **Filling reads on to a character or to the end of the input.** -/
theorem fill_filled {b : ByteSource} (h : b.Unfailing) :
    ∃ now b', fill b = .ok () b' ∧ Filled b now b' ∧ (b'.decoded = [] → b'.finished = true) := by
  fun_induction fill b with
  | case1 b hb =>
    refine ⟨[], b, rfl, .refl h, ?_⟩
    intro hd
    simpa [hd] using hb
  | case2 b hb hr =>
    have hf := not_finished hb
    exact ⟨_, _, rfl, .ended hf (by simp [hr, delivered]), fun _ => rfl⟩
  | case3 b hb f rest hr hi ih =>
    have hf := not_finished hb
    have hreads := h hf
    rw [hr] at hreads
    have hfirst : Filled b [] { b with reads := rest } :=
      .interrupted (by rw [hr, delivered]) hreads.2
    obtain ⟨now, b', h1, h2, h3⟩ := ih hfirst.unfailing
    exact ⟨_, b', h1, hfirst.trans h2, h3⟩
  | case4 b hb f rest hr hi =>
    have hf := not_finished hb
    have hreads := h hf
    rw [hr] at hreads
    exact absurd hreads.1 hi
  | case5 b hb rest hr =>
    have hf := not_finished hb
    exact ⟨_, _, rfl, .ended hf (by simp [hr, delivered]), fun _ => rfl⟩
  | case6 b hb first bytes rest hr chunk later reads ih =>
    have hf := not_finished hb
    have hreads := h hf
    rw [hr] at hreads
    have hpiece : delivered b.reads = chunk ++ delivered reads := by
      rw [hr, delivered]
      exact (delivered_readsAfter (first :: bytes) rest).symm
    have hfirst : Filled b _ ({ b with reads }.accept (b.decoder.feedAll chunk)) :=
      .piece hf hpiece (onlyInterrupted_readsAfter (first :: bytes) hreads)
    obtain ⟨now, b', h1, h2, h3⟩ := ih hfirst.unfailing
    exact ⟨_, b', h1, hfirst.trans h2, h3⟩

/-! ## Reading characters -/

/-- Reading a character, or the end of the input, has turned `b` into `b'`. -/
structure Advanced (b b' : ByteSource) : Prop where
  unfailing : b'.Unfailing
  text : b'.text = b.text.tail
  /-- The same decoder will be left after the end of the input. -/
  decoder : b'.toCome.1 = b.toCome.1
  /-- If there was no character, the end of the input was read. -/
  ended : b.text = [] → b'.decoded = [] ∧ b'.finished = true
  /-- Where nothing is malformed, nothing is noted as malformed. -/
  malformed : none ∉ b.toCome.2 → none ∉ b'.toCome.2 ∧ b'.malformed = b.malformed

/-- **A byte source delivers its text character by character.** -/
theorem read_advanced {b : ByteSource} (h : b.Unfailing) :
    ∃ b', read b = .ok b.text.head? b' ∧ Advanced b b' := by
  obtain ⟨now, b₁, hfill, hfilled, hend⟩ := fill_filled h
  have hmalformed : none ∉ b.toCome.2 → none ∉ b₁.toCome.2 ∧ b₁.malformed = b.malformed := by
    intro hnone
    rw [hfilled.toCome] at hnone
    simp only [List.mem_append, not_or] at hnone
    exact ⟨hnone.2, hfilled.malformed hnone.1⟩
  have hdecoder : b₁.toCome.1 = b.toCome.1 := by
    rw [hfilled.toCome]
  rw [← hfilled.text]
  unfold read
  rw [hfill]
  cases hd : b₁.decoded with
  | cons c rest =>
    simp only [hd]
    have htext : b₁.text = c :: ByteSource.text { b₁ with decoded := rest } := by
      simp only [ByteSource.text, hd]
      rfl
    rw [htext]
    refine ⟨_, rfl, hfilled.unfailing, ?_, hdecoder, ?_, hmalformed⟩
    · rw [← hfilled.text, htext]
      rfl
    · intro hnil
      rw [← hfilled.text, htext] at hnil
      cases hnil
  | nil =>
    simp only [hd]
    have hfinished := hend hd
    have htext : b₁.text = [] := by
      simp [ByteSource.text, ByteSource.toCome, hd, hfinished, textOf]
    rw [htext]
    refine ⟨_, rfl, hfilled.unfailing, ?_, hdecoder, fun _ => ⟨hd, hfinished⟩, hmalformed⟩
    rw [← hfilled.text, htext]
    rfl

/-- After the end of the input nothing is read. -/
theorem read_of_finished {b : ByteSource} (hd : b.decoded = []) (hf : b.finished = true) :
    read b = .ok none b := by
  have hfill : fill b = .ok () b := by
    unfold fill
    simp [hf]
  unfold read
  rw [hfill]
  simp only [hd]

/-- The successive reads of a byte source yield the text, then the end of the input in the given
encoding, and then the end again and again, for which nothing is read. None of them fails. -/
inductive Yields : ByteSource → List Char → Encoding → Prop
  | char {b b' : ByteSource} {c : Char} {text : List Char} {encoding : Encoding} :
    read b = .ok (some c) b' → Yields b' text encoding → Yields b (c :: text) encoding
  | ended {b b' : ByteSource} :
    read b = .ok none b' → read b' = .ok none b' → Yields b [] b'.encoding

/-- A source without failures yields its text. -/
theorem yields_text {b : ByteSource} (h : b.Unfailing) : Yields b b.text b.toCome.1.encoding := by
  generalize htext : b.text = text
  induction text generalizing b with
  | nil =>
    obtain ⟨b', hread, hadv⟩ := read_advanced h
    obtain ⟨hd, hf⟩ := hadv.ended htext
    rw [htext] at hread
    have hencoding : b'.encoding = b.toCome.1.encoding := by
      rw [← hadv.decoder]
      simp [ByteSource.toCome, hf, ByteSource.encoding]
    rw [← hencoding]
    exact .ended hread (read_of_finished hd hf)
  | cons c text ih =>
    obtain ⟨b', hread, hadv⟩ := read_advanced h
    rw [htext] at hread
    have htext' : b'.text = text := by
      rw [hadv.text, htext, List.tail_cons]
    rw [← hadv.decoder]
    exact .char hread (ih hadv.unfailing htext')

section
variable {encoding : Encoding} {reads : List ByteRead} {bs : List UInt8}

theorem Delivers.unfailing (h : Delivers reads bs) : (ofEncoding encoding reads).Unfailing :=
  fun _ => h.onlyInterrupted

theorem Delivers.toCome (h : Delivers reads bs) :
    (ofEncoding encoding reads).toCome = (Decoder.ofEncoding encoding).decode bs := by
  rw [← h.delivered]
  rfl

/-- What a source yields is the text of all the bytes. -/
theorem Delivers.yields (h : Delivers reads bs) :
    Yields (ofEncoding encoding reads) (textOf ((Decoder.ofEncoding encoding).decode bs).2)
      ((Decoder.ofEncoding encoding).decode bs).1.encoding := by
  have hyields := yields_text (h.unfailing : (ofEncoding encoding reads).Unfailing)
  rw [text, h.toCome] at hyields
  exact hyields

end

/-- **Two divisions of the same bytes yield the same text, in the same encoding.** It is what the
decoder makes of the bytes in one piece. -/
theorem yields_same {encoding : Encoding} {bs : List UInt8} {reads₁ reads₂ : List ByteRead}
    (h₁ : Delivers reads₁ bs) (h₂ : Delivers reads₂ bs) :
    Yields (ofEncoding encoding reads₁) (textOf ((Decoder.ofEncoding encoding).decode bs).2)
        ((Decoder.ofEncoding encoding).decode bs).1.encoding
      ∧ Yields (ofEncoding encoding reads₂) (textOf ((Decoder.ofEncoding encoding).decode bs).2)
        ((Decoder.ofEncoding encoding).decode bs).1.encoding :=
  ⟨h₁.yields, h₂.yields⟩

/-- A mark and a character that straddle two reads, an interruption, and the beginning of a
character at the end of the input. -/
theorem yields_same_straddling :
    Yields (ofEncoding .windows1252
        [.bytes [0xEF], .fail ⟨.interrupted, ""⟩, .bytes [0xBB, 0xBF, 0xC3],
          .bytes [0xA9, 0xF0, 0x9F]]) ['é', '\uFFFD'] .utf8
      ∧ Yields (ofEncoding .windows1252
        [.bytes [0xEF, 0xBB, 0xBF, 0xC3, 0xA9, 0xF0, 0x9F], .bytes []]) ['é', '\uFFFD'] .utf8 := by
  have h₁ : Delivers [.bytes [0xEF], .fail ⟨.interrupted, ""⟩, .bytes [0xBB, 0xBF, 0xC3],
      .bytes [0xA9, 0xF0, 0x9F]] [0xEF, 0xBB, 0xBF, 0xC3, 0xA9, 0xF0, 0x9F] := ⟨rfl, rfl, trivial⟩
  have h₂ : Delivers [.bytes [0xEF, 0xBB, 0xBF, 0xC3, 0xA9, 0xF0, 0x9F], .bytes []]
      [0xEF, 0xBB, 0xBF, 0xC3, 0xA9, 0xF0, 0x9F] := ⟨rfl, trivial⟩
  have htext : textOf ((Decoder.ofEncoding .windows1252).decode
      [0xEF, 0xBB, 0xBF, 0xC3, 0xA9, 0xF0, 0x9F]).2 = ['é', '\uFFFD'] := by decide +kernel
  have hencoding : ((Decoder.ofEncoding .windows1252).decode
      [0xEF, 0xBB, 0xBF, 0xC3, 0xA9, 0xF0, 0x9F]).1.encoding = .utf8 := by decide +kernel
  rw [← htext, ← hencoding]
  exact yields_same h₁ h₂

end ByteSource

end CssTokens
