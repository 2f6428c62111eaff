import CssTokens.Description
import CssTokens.Encoding.Decoder
import CssTokens.Input.Event

/-!
# Sources of bytes

A byte source decodes what a reader of bytes delivers, and delivers characters. Malformed sequences
become U+FFFD. A character may straddle the pieces that the reader delivers.

An interrupted read is tried again; any other failure is passed on, and reading may go on after it.
The first empty read is the end of the input, and nothing is read after that.
-/

namespace CssTokens

/-- What one read of bytes delivers, if its buffer is large enough. -/
inductive ByteRead where
  | bytes (bs : List UInt8)
  | fail (f : Failure)
  deriving Repr

/-- A source of characters that are decoded from bytes. -/
structure ByteSource where
  /-- What the reader still delivers. After that all reads are empty. -/
  reads : List ByteRead
  decoder : Decoder := .ofEncoding .utf8
  /-- The characters that were decoded and not yet delivered. -/
  decoded : List Char := []
  /-- Whether the end of the input was read. -/
  finished : Bool := false
  /-- The encodings of the pieces of input that were malformed, the latest first. -/
  malformed : List Encoding := []

namespace ByteSource

/-- The source of what a reader delivers, in the given encoding unless a mark says otherwise. -/
def ofEncoding (encoding : Encoding) (reads : List ByteRead) : ByteSource :=
  { reads, decoder := .ofEncoding encoding }

/-- The same with the label of an encoding. An unknown label means UTF-8. -/
def ofLabel (label : String) (reads : List ByteRead) : ByteSource :=
  ofEncoding ((Encoding.ofLabel? label).getD .utf8) reads

/-- The encoding in use. A mark may change it when the first bytes are read. -/
def encoding (b : ByteSource) : Encoding :=
  b.decoder.encoding

/-- The number of bytes that one read delivers at most. -/
def chunkSize : Nat := 8192

/-- Deliver what the decoder made of one read. -/
def accept (b : ByteSource) (result : Decoder × List (Option Char)) : ByteSource :=
  { b with
    decoder := result.1
    decoded := b.decoded ++ result.2.map (·.getD replacementChar)
    malformed := if result.2.contains none then result.1.encoding :: b.malformed else b.malformed }

/-- A bound on the number of reads still to come. -/
def readsLeft : List ByteRead → Nat
  | [] => 0
  | .bytes bs :: rest => bs.length + 1 + readsLeft rest
  | .fail _ :: rest => 1 + readsLeft rest

/-- Read until there are characters to deliver, or until the end of the input. -/
def fill : EStateM Failure ByteSource Unit := fun b =>
  if !b.decoded.isEmpty || b.finished then .ok () b
  else match _h : b.reads with
    | [] => .ok () ({ b with finished := true }.accept b.decoder.finish)
    | .fail f :: rest =>
      if f.kind = .interrupted then fill { b with reads := rest }
      else .error f { b with reads := rest }
    | .bytes [] :: rest =>
      .ok () ({ b with reads := rest, finished := true }.accept b.decoder.finish)
    | .bytes (first :: bytes) :: rest =>
      let chunk := (first :: bytes).take chunkSize
      let later := (first :: bytes).drop chunkSize
      let reads := if later.isEmpty then rest else .bytes later :: rest
      fill ({ b with reads }.accept (b.decoder.feedAll chunk))
termination_by b => readsLeft b.reads
decreasing_by
  · simp only [_h, readsLeft]
    omega
  · simp only [_h, accept, readsLeft]
    split
    · omega
    · simp only [readsLeft, List.length_drop, List.length_cons, chunkSize]
      omega

/-- The next character, or `none` at the end of the input. -/
def read : EStateM Failure ByteSource (Option Char) := fun b =>
  match fill b with
  | .error f b => .error f b
  | .ok () b =>
    match b.decoded with
    | c :: rest => .ok (some c) { b with decoded := rest }
    | [] => .ok none b

/-! ## As a source of characters -/

/-- A bound on the number of times that a source can be filled. -/
def fillsLeft (b : ByteSource) : Nat :=
  readsLeft b.reads + if b.finished then 0 else 1

/-- What is left of a piece that is too large for one read is shorter. -/
theorem readsLeft_later (first : UInt8) (bytes : List UInt8) (rest : List ByteRead) :
    readsLeft (if ((first :: bytes).drop chunkSize).isEmpty then rest
        else .bytes ((first :: bytes).drop chunkSize) :: rest) <
      readsLeft (.bytes (first :: bytes) :: rest) := by
  rw [readsLeft]
  split
  · omega
  · simp only [readsLeft, List.length_drop, List.length_cons, chunkSize]
    omega

theorem fillsLeft_accept_lt {b : ByteSource} {reads : List ByteRead}
    (h : readsLeft reads < readsLeft b.reads) (result : Decoder × List (Option Char)) :
    ({ b with reads }.accept result).fillsLeft < b.fillsLeft :=
  Nat.add_lt_add_right h _

theorem fill_fillsLeft {b b' : ByteSource} {r : Unit} (h : fill b = .ok r b') :
    b' = b ∨ b'.fillsLeft < b.fillsLeft := by
  fun_induction fill b with
  | case1 b => cases h; exact .inl rfl
  | case2 b hb hr =>
    cases h
    simp only [Bool.not_eq_true, Bool.or_eq_false_iff] at hb
    simp [fillsLeft, accept, hb.2]
  | case3 b hb f rest hr hi ih =>
    have hl : fillsLeft { b with reads := rest } < b.fillsLeft := by
      simp only [fillsLeft, hr, readsLeft]
      omega
    rcases ih h with rfl | h
    · exact .inr hl
    · omega
  | case4 => cases h
  | case5 b hb rest hr =>
    cases h
    simp only [Bool.not_eq_true, Bool.or_eq_false_iff] at hb
    right
    simp only [fillsLeft, accept, hb.2, hr, readsLeft, List.length_nil, if_true, Bool.false_eq_true,
      if_false]
    omega
  | case6 b hb first bytes rest hr chunk later reads ih =>
    have hl : ({ b with reads }.accept (b.decoder.feedAll chunk)).fillsLeft < b.fillsLeft :=
      fillsLeft_accept_lt (by rw [hr]; exact readsLeft_later first bytes rest) _
    rcases ih h with rfl | h
    · exact .inr hl
    · omega

theorem fill_error_fillsLeft {b b' : ByteSource} {f : Failure} (h : fill b = .error f b') :
    b'.fillsLeft < b.fillsLeft := by
  fun_induction fill b with
  | case1 => cases h
  | case2 => cases h
  | case3 b hb f rest hr hi ih =>
    have := ih h
    simp only [fillsLeft, hr, readsLeft] at this ⊢
    omega
  | case4 b hb f rest hr hi =>
    cases h
    simp only [fillsLeft, hr, readsLeft]
    omega
  | case5 => cases h
  | case6 b hb first bytes rest hr chunk later reads ih =>
    have := ih h
    have hl : ({ b with reads }.accept (b.decoder.feedAll chunk)).fillsLeft < b.fillsLeft :=
      fillsLeft_accept_lt (by rw [hr]; exact readsLeft_later first bytes rest) _
    omega

/-- Delivering a character leaves fewer fills, or as many and fewer characters. -/
theorem read_decreases {b b' : ByteSource} {c : Char} (h : read b = .ok (some c) b') :
    Prod.Lex (· < ·) (· < ·)
      (b'.fillsLeft, b'.decoded.length) (b.fillsLeft, b.decoded.length) := by
  unfold read at h
  split at h
  · cases h
  · next b1 h1 =>
    split at h
    · next c' rest hd =>
      cases h
      rcases fill_fillsLeft h1 with rfl | h1
      · rw [hd]
        exact .right _ (by simp)
      · exact .left _ _ h1
    · cases h

theorem read_error_decreases {b b' : ByteSource} {f : Failure} (h : read b = .error f b') :
    b'.fillsLeft < b.fillsLeft := by
  unfold read at h
  split at h
  · next h1 =>
    cases h
    exact fill_error_fillsLeft h1
  · split at h <;> cases h

/-- Read until the end of the input or a failure: the characters read, and how the reading ended. -/
def drain (b : ByteSource) (before : List Char := []) :
    List Char × EStateM.Result Failure ByteSource Unit :=
  match _h : read b with
  | .ok (some c) b' => drain b' (c :: before)
  | .ok none b' => (before.reverse, .ok () b')
  | .error f b' => (before.reverse, .error f b')
termination_by (b.fillsLeft, b.decoded.length)
decreasing_by exact read_decreases _h

/-- What the successive reads of a byte source deliver, after `before`, in reverse order. -/
def eventsAfter (b : ByteSource) (before : List Event) : Source :=
  match _h : read { b with malformed := [] } with
  | .ok (some c) b' => eventsAfter b' (.char c b'.malformed.head? :: before)
  | .ok none _ => before.reverse
  | .error f b' => eventsAfter b' (.fail f :: before)
termination_by (b.fillsLeft, b.decoded.length)
decreasing_by
  · have := read_decreases _h
    exact this
  · have := read_error_decreases _h
    exact .left _ _ this

/-- A byte source as a source of characters. -/
def events (b : ByteSource) : Source :=
  b.eventsAfter []

/-- What a byte source looks like: the encoding in use, and whether the end was read. -/
def description (b : ByteSource) : String :=
  describeRecord "ReadSource"
    [("encoding", describeText '"' b.encoding.name.toList), ("finished", describeBool b.finished)]

end ByteSource

end CssTokens
