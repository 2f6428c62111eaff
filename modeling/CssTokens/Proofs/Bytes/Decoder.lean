import CssTokens.Encoding.Decoder

/-!
# Decoding in pieces

A decoder may be given its input in one piece or in many. It takes one byte at a time and keeps what
it has not decoded yet, so that the pieces come to the same as the whole.

At the start of the input, bytes that may become a mark are held back. That is not to be seen in
what is decoded in the end: an input that starts with a mark is decoded in the encoding of the mark,
and any other as if there were no marks.

Main statements: decoding goes on from piece to piece (`decode_append`), with a mark at the start
(`decode_marked`) and without one (`decode_unmarked`).
-/

namespace CssTokens.Decoder

/-! ## From state to state

A decoder, and that of each single encoding, takes bytes one by one and goes from state to state.
-/

section
variable {State : Type} (step : State → UInt8 → State × List (Option Char))

/-- Take some bytes. -/
def run (state : State) : List UInt8 → State × List (Option Char)
  | [] => (state, [])
  | b :: bs => ((run (step state b).1 bs).1, (step state b).2 ++ (run (step state b).1 bs).2)

theorem run_cons (state : State) (b : UInt8) (bs : List UInt8) :
    run step state (b :: bs) =
      ((run step (step state b).1 bs).1, (step state b).2 ++ (run step (step state b).1 bs).2) :=
  rfl

theorem run_append (state : State) (as bs : List UInt8) :
    run step state (as ++ bs) =
      ((run step (run step state as).1 bs).1,
        (run step state as).2 ++ (run step (run step state as).1 bs).2) := by
  induction as generalizing state with
  | nil => rfl
  | cons a as ih => simp [run_cons, ih]

/-- If the encoding of each character is decoded to it, then that of a text is. -/
theorem run_flatMap {start : State} {encodeChar : Char → List UInt8}
    (h : ∀ c, run step start (encodeChar c) = (start, [some c])) (cs : List Char) :
    run step start (cs.flatMap encodeChar) = (start, cs.map some) := by
  induction cs with
  | nil => rfl
  | cons c cs ih => simp [run_append, h, ih]

end

variable (d : Decoder)

/-! ## Bytes that belong to no mark -/

theorem steps_cons (b : UInt8) (bs : List UInt8) :
    d.steps (b :: bs) = (((d.step b).1.steps bs).1, (d.step b).2 ++ ((d.step b).1.steps bs).2) :=
  rfl

theorem step_mark (b : UInt8) : (d.step b).1.mark = d.mark := by
  unfold step
  split <;> rfl

theorem steps_mark (bs : List UInt8) : (d.steps bs).1.mark = d.mark := by
  induction bs generalizing d with
  | nil => rfl
  | cons b bs ih => rw [steps_cons, ih, step_mark]

/-! ## Pieces of the input -/

theorem feedAll_eq_run (bs : List UInt8) : d.feedAll bs = run feed d bs := by
  have hfeed : ∀ (d : Decoder) (decoded : List (Option Char)),
      d.feedAll bs decoded = ((run feed d bs).1, decoded.reverse ++ (run feed d bs).2) := by
    induction bs with
    | nil => simp [feedAll, run]
    | cons b bs ih =>
      intro d decoded
      show (d.feed b).1.feedAll bs ((d.feed b).2.reverseAux decoded) = _
      rw [ih, run_cons]
      simp [List.reverseAux_eq]
  exact hfeed d []

theorem feedAll_cons (b : UInt8) (bs : List UInt8) :
    d.feedAll (b :: bs) =
      (((d.feed b).1.feedAll bs).1, (d.feed b).2 ++ ((d.feed b).1.feedAll bs).2) := by
  rw [feedAll_eq_run, feedAll_eq_run, run_cons]

theorem feedAll_append (as bs : List UInt8) :
    d.feedAll (as ++ bs) =
      (((d.feedAll as).1.feedAll bs).1, (d.feedAll as).2 ++ ((d.feedAll as).1.feedAll bs).2) := by
  simp only [feedAll_eq_run, run_append]

/-- All that is decoded of an input, and the decoder after the end of it. -/
def decode (bs : List UInt8) : Decoder × List (Option Char) :=
  ((d.feedAll bs).1.finish.1, (d.feedAll bs).2 ++ (d.feedAll bs).1.finish.2)

theorem decode_nil : d.decode [] = d.finish := rfl

theorem decode_cons (b : UInt8) (bs : List UInt8) :
    d.decode (b :: bs) =
      (((d.feed b).1.decode bs).1, (d.feed b).2 ++ ((d.feed b).1.decode bs).2) := by
  simp [decode, feedAll_cons]

/-- **Decoding goes on where a piece of the input has left off.** -/
theorem decode_append (as bs : List UInt8) :
    d.decode (as ++ bs) =
      (((d.feedAll as).1.decode bs).1, (d.feedAll as).2 ++ ((d.feedAll as).1.decode bs).2) := by
  simp [decode, feedAll_append]

/-! ## Marks -/

/-- The decoder for an input in the given encoding, in which there are no marks. -/
def withoutMarks (encoding : Encoding) : Decoder :=
  { encoding, mark := none, pending := initialPending encoding }

/-- After the marks, the bytes are taken one by one. -/
theorem feedAll_of_mark_none {d : Decoder} (h : d.mark = none) (bs : List UInt8) :
    d.feedAll bs = d.steps bs := by
  induction bs generalizing d with
  | nil => rfl
  | cons b bs ih =>
    have hfeed : d.feed b = d.step b := by simp only [feed, h]
    rw [feedAll_cons, hfeed, ih ((d.step_mark b).trans h), steps_cons]

/-- **A mark at the start selects the encoding of what follows.** -/
theorem decode_marked (encoding : Encoding) {mark : List UInt8} {marked : Encoding}
    (h : (mark, marked) ∈ marks) (bs : List UInt8) :
    (ofEncoding encoding).decode (mark ++ bs) = (withoutMarks marked).decode bs := by
  have hfeed : (ofEncoding encoding).feedAll mark = (withoutMarks marked, []) := by
    simp only [marks, List.mem_cons, Prod.mk.injEq, List.not_mem_nil, or_false] at h
    rcases h with ⟨rfl, rfl⟩ | ⟨rfl, rfl⟩ | ⟨rfl, rfl⟩ <;> rfl
  simp [decode_append, hfeed]

/-- At the end of the input, bytes that were held back turn out to be no mark. -/
theorem finish_eq_decode : d.finish = { d with mark := none }.decode (d.mark.getD []) := by
  rw [decode, feedAll_of_mark_none rfl, finish]
  generalize hr : { d with mark := none }.steps (d.mark.getD []) = r
  have hmark : r.1.mark = none := by
    rw [← hr]
    exact steps_mark _ _
  obtain ⟨⟨encoding, mark, pending⟩, decoded⟩ := r
  subst hmark
  rfl

/-- Bytes that do not go on to a mark are decoded together with those that were held back. -/
theorem decode_unmarked_of_taken {d : Decoder} {taken bs : List UInt8} (hd : d.mark = some taken)
    (h : ∀ m ∈ marks, ¬m.1 <+: taken ++ bs) :
    d.decode bs = { d with mark := none }.decode (taken ++ bs) := by
  induction bs generalizing d taken with
  | nil =>
    rw [decode_nil, finish_eq_decode, hd, List.append_nil]
    rfl
  | cons b bs ih =>
    rw [List.append_cons] at h ⊢
    have hlookup : marks.lookup (taken ++ [b]) = none := by
      rw [List.lookup_eq_none_iff]
      intro m hm
      simp only [bne_iff_ne]
      intro heq
      apply h m hm
      rw [heq]
      exact List.prefix_append _ _
    rw [decode_cons]
    by_cases hp : (marks.any fun m => (taken ++ [b]).isPrefixOf m.1) = true
    · -- What was taken may yet become a mark.
      have hfeed : d.feed b = ({ d with mark := some (taken ++ [b]) }, []) := by
        simp only [feed, hd, hlookup, hp, if_true]
      rw [hfeed]
      exact ih rfl h
    · have hfeed : d.feed b = { d with mark := none }.steps (taken ++ [b]) := by
        simp only [feed, hd, hlookup, hp]
        rfl
      have hfeedAll : { d with mark := none }.feedAll (taken ++ [b]) = _ :=
        feedAll_of_mark_none rfl _
      rw [hfeed, decode_append, hfeedAll]

/-- **An input that starts with no mark is decoded as if there were no marks.** -/
theorem decode_unmarked (encoding : Encoding) {bs : List UInt8} (h : ∀ m ∈ marks, ¬m.1 <+: bs) :
    (ofEncoding encoding).decode bs = (withoutMarks encoding).decode bs := by
  have hmark : (ofEncoding encoding).mark = some [] := rfl
  exact decode_unmarked_of_taken hmark h

/-! ## The decoders of the single encodings -/

theorem steps_utf8 (state : Utf8.State) (bs : List UInt8) :
    { d with pending := .utf8 state }.steps bs =
      ({ d with pending := .utf8 (run Utf8.step state bs).1 }, (run Utf8.step state bs).2) := by
  induction bs generalizing state with
  | nil => rfl
  | cons b bs ih => simp [steps_cons, run_cons, step, ih]

theorem steps_utf16 (order : Utf16.Order) (state : Utf16.State) (bs : List UInt8) :
    { d with pending := .utf16 order state }.steps bs =
      ({ d with pending := .utf16 order (run (Utf16.step order) state bs).1 },
        (run (Utf16.step order) state bs).2) := by
  induction bs generalizing state with
  | nil => rfl
  | cons b bs ih => simp [steps_cons, run_cons, step, ih]

end CssTokens.Decoder
