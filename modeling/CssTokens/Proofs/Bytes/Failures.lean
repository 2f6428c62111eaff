import CssTokens.Proofs.Bytes.Source
import CssTokens.Proofs.Reading.Draining

/-!
# Readers that fail

A reader may fail at any of its reads. A byte source tries an interrupted read again and passes any
other failure on, and no byte is lost by either: the decoder keeps what it has taken, be it a piece
of a character or of a mark.

So all that the reads of a byte source come to can be said from the reads of its reader alone
(`results`): the characters that each piece completes, and between them the failures, where they
happened.

Main statement: failures take nothing from the text, and each is reported behind what was decoded
before it (`read_failures`).
-/

namespace CssTokens

/-- Whether a read delivers bytes, perhaps none. -/
def ByteRead.isBytes : ByteRead → Bool
  | .bytes _ => true
  | .fail _ => false

/-- The failure that is passed on if a read fails. -/
def ByteRead.reported? : ByteRead → Option Failure
  | .bytes _ => none
  | .fail f => if f.kind = .interrupted then none else some f

theorem ByteRead.reported?_of_interrupted {f : Failure} (h : f.kind = .interrupted) :
    (ByteRead.fail f).reported? = none :=
  if_pos h

theorem ByteRead.reported?_of_not_interrupted {f : Failure} (h : f.kind ≠ .interrupted) :
    (ByteRead.fail f).reported? = some f :=
  if_neg h

theorem ByteRead.not_interrupted_of_reported? {r : ByteRead} {f : Failure}
    (h : r.reported? = some f) : f.kind ≠ .interrupted := by
  cases r with
  | bytes bs => cases h
  | fail g =>
    by_cases hg : g.kind = .interrupted
    · rw [reported?_of_interrupted hg] at h
      cases h
    · rw [reported?_of_not_interrupted hg] at h
      cases h
      exact hg

namespace ByteSource

/-! ## Up to the end of the input -/

/-- The reads before the first empty one. -/
def untilEnd : List ByteRead → List ByteRead
  | [] => []
  | .bytes [] :: _ => []
  | .bytes (b :: bs) :: reads => .bytes (b :: bs) :: untilEnd reads
  | .fail f :: reads => .fail f :: untilEnd reads

/-- The reads behind the first empty one. -/
def afterEnd : List ByteRead → List ByteRead
  | [] => []
  | .bytes [] :: reads => reads
  | .bytes (_ :: _) :: reads => afterEnd reads
  | .fail _ :: reads => afterEnd reads

/-- What the reads of a byte source come to, if its decoder is `d` and its reader delivers
`reads`. -/
def resultsOf (d : Decoder) : List ByteRead → List (Except Failure Char)
  | [] | .bytes [] :: _ => (textOf d.finish.2).map .ok
  | .bytes (b :: bs) :: reads =>
    (textOf (d.feedAll (b :: bs)).2).map .ok ++ resultsOf (d.feedAll (b :: bs)).1 reads
  | .fail f :: reads =>
    if f.kind = .interrupted then resultsOf d reads else .error f :: resultsOf d reads

theorem textOf_append (decoded decoded' : List (Option Char)) :
    textOf (decoded ++ decoded') = textOf decoded ++ textOf decoded' :=
  List.map_append

section
variable (d : Decoder) (reads : List ByteRead)

/-- **The items are what the decoder makes of all the bytes.** -/
theorem itemsOf_resultsOf :
    itemsOf (resultsOf d reads) = textOf (d.decode (delivered reads)).2 := by
  fun_induction resultsOf d reads with
  | case1 d => exact itemsOf_map_ok _
  | case2 d reads => exact itemsOf_map_ok _
  | case3 d b bs reads ih =>
    rw [itemsOf_append, itemsOf_map_ok, ih, delivered, Decoder.decode_append, textOf_append]
  | case4 d f reads hi ih => exact ih
  | case5 d f reads hi ih => exact ih

/-- **The failures are those of the reader** up to the end, the interruptions apart. -/
theorem failuresOf_resultsOf :
    failuresOf (resultsOf d reads) = (untilEnd reads).filterMap ByteRead.reported? := by
  fun_induction resultsOf d reads with
  | case1 d => exact failuresOf_map_ok _
  | case2 d reads => exact failuresOf_map_ok _
  | case3 d b bs reads ih =>
    rw [failuresOf_append, failuresOf_map_ok, ih]
    rfl
  | case4 d f reads hi ih =>
    rw [ih, untilEnd, List.filterMap_cons_none (ByteRead.reported?_of_interrupted hi)]
  | case5 d f reads hi ih =>
    rw [untilEnd, List.filterMap_cons_some (ByteRead.reported?_of_not_interrupted hi), ← ih]
    rfl

/-- **A failure is reported between what was decoded before it and what is decoded later.** -/
theorem resultsOf_fail {before after : List ByteRead} {f : Failure} (hf : f.kind ≠ .interrupted)
    (h : untilEnd reads = before ++ .fail f :: after) :
    ∃ earlier later, resultsOf d reads = earlier ++ .error f :: later
      ∧ itemsOf earlier = textOf (d.feedAll (delivered before)).2
      ∧ failuresOf earlier = before.filterMap ByteRead.reported? := by
  fun_induction resultsOf d reads generalizing before with
  | case1 d => cases before <;> cases h
  | case2 d reads => cases before <;> cases h
  | case3 d b bs reads ih =>
    cases before with
    | nil => cases h
    | cons r before =>
      obtain ⟨rfl, hrest⟩ := List.cons.inj h
      obtain ⟨earlier, later, hresults, hitems, hfailures⟩ := ih hrest
      refine ⟨(textOf (d.feedAll (b :: bs)).2).map .ok ++ earlier, later, ?_, ?_, ?_⟩
      · rw [hresults, List.append_assoc]
      · rw [itemsOf_append, itemsOf_map_ok, hitems, delivered, Decoder.feedAll_append,
          textOf_append]
      · rw [failuresOf_append, failuresOf_map_ok, hfailures]
        rfl
  | case4 d g reads hi ih =>
    cases before with
    | nil =>
      cases h
      exact absurd hi hf
    | cons r before =>
      obtain ⟨rfl, hrest⟩ := List.cons.inj h
      obtain ⟨earlier, later, hresults, hitems, hfailures⟩ := ih hrest
      refine ⟨earlier, later, hresults, hitems, ?_⟩
      rw [hfailures, List.filterMap_cons_none (ByteRead.reported?_of_interrupted hi)]
  | case5 d g reads hi ih =>
    cases before with
    | nil =>
      cases h
      exact ⟨[], resultsOf d reads, rfl, rfl, rfl⟩
    | cons r before =>
      obtain ⟨rfl, hrest⟩ := List.cons.inj h
      obtain ⟨earlier, later, hresults, hitems, hfailures⟩ := ih hrest
      refine ⟨.error g :: earlier, later, congrArg (.error g :: ·) hresults, hitems, ?_⟩
      rw [List.filterMap_cons_some (ByteRead.reported?_of_not_interrupted hi), ← hfailures]
      rfl

/-- It does not matter if a reader does not fill a buffer that is too small at once. -/
theorem resultsOf_readsAfter (b : UInt8) (bs : List UInt8) :
    (textOf (d.feedAll ((b :: bs).take chunkSize)).2).map .ok
        ++ resultsOf (d.feedAll ((b :: bs).take chunkSize)).1 (readsAfter (b :: bs) reads) =
      resultsOf d (.bytes (b :: bs) :: reads) := by
  have hsplit := List.take_append_drop chunkSize (b :: bs)
  unfold readsAfter
  cases hlater : (b :: bs).drop chunkSize with
  | nil =>
    rw [hlater, List.append_nil] at hsplit
    rw [hsplit]
    rfl
  | cons later rest =>
    rw [hlater] at hsplit
    conv => rhs; rw [resultsOf, ← hsplit, Decoder.feedAll_append, textOf_append, List.map_append,
      List.append_assoc]
    rfl

theorem afterEnd_readsAfter (b : UInt8) (bs : List UInt8) :
    afterEnd (readsAfter (b :: bs) reads) = afterEnd reads := by
  unfold readsAfter
  cases (b :: bs).drop chunkSize <;> rfl

/-- Failures are no bytes. -/
theorem delivered_filter : delivered (reads.filter (·.isBytes)) = delivered reads := by
  fun_induction delivered reads with
  | case1 => rfl
  | case2 reads => rfl
  | case3 b bs reads ih =>
    rw [← ih]
    rfl
  | case4 f reads ih => exact ih

theorem untilEnd_filter :
    (untilEnd (reads.filter (·.isBytes))).filterMap ByteRead.reported? = [] := by
  fun_induction untilEnd reads with
  | case1 => rfl
  | case2 reads => rfl
  | case3 b bs reads ih => exact ih
  | case4 f reads ih => exact ih

end

/-! ## Reading on after failures -/

/-- What the reads of a byte source come to. -/
def results (b : ByteSource) : List (Except Failure Char) :=
  b.decoded.map .ok ++ if b.finished then [] else resultsOf b.decoder b.reads

/-- What the reader still delivers when the byte source is done with it. -/
def leftOver (b : ByteSource) : List ByteRead :=
  if b.finished then b.reads else afterEnd b.reads

/-- Reading from the reader has turned `b` into `b'`, and nothing was lost. -/
structure Keeps (b b' : ByteSource) : Prop where
  results : b'.results = b.results
  leftOver : b'.leftOver = b.leftOver

namespace Keeps

variable {b b' b'' : ByteSource}

theorem refl (b : ByteSource) : Keeps b b := ⟨rfl, rfl⟩

theorem trans (h : Keeps b b') (h' : Keeps b' b'') : Keeps b b'' :=
  ⟨h'.results.trans h.results, h'.leftOver.trans h.leftOver⟩

/-- The reader was interrupted. -/
theorem interrupted {f : Failure} {rest : List ByteRead} (hf : b.finished = false)
    (hr : b.reads = .fail f :: rest) (hi : f.kind = .interrupted) :
    Keeps b { b with reads := rest } where
  results := by simp [ByteSource.results, hf, hr, resultsOf, hi]
  leftOver := by simp [ByteSource.leftOver, hf, hr, afterEnd]

/-- A piece of the input was read. -/
theorem piece {first : UInt8} {bytes : List UInt8} {rest : List ByteRead}
    (hf : b.finished = false) (hr : b.reads = .bytes (first :: bytes) :: rest) :
    Keeps b ({ b with reads := readsAfter (first :: bytes) rest }.accept
      (b.decoder.feedAll ((first :: bytes).take chunkSize))) where
  results := by
    have hpiece := resultsOf_readsAfter b.decoder rest first bytes
    simp only [ByteSource.results, accept, hf, hr, Bool.false_eq_true, if_false, ← hpiece]
    simp [textOf]
  leftOver := by
    simp only [ByteSource.leftOver, accept, hf, hr, Bool.false_eq_true, if_false]
    exact afterEnd_readsAfter rest first bytes

/-- The end of the input was read. -/
theorem ended {rest : List ByteRead} (hf : b.finished = false)
    (hr : b.reads = rest ∧ rest = [] ∨ b.reads = .bytes [] :: rest) :
    Keeps b ({ b with reads := rest, finished := true }.accept b.decoder.finish) where
  results := by
    have hresults : resultsOf b.decoder b.reads = (textOf b.decoder.finish.2).map .ok := by
      rcases hr with ⟨hr, hnil⟩ | hr
      · rw [hr, hnil, resultsOf]
      · rw [hr, resultsOf]
    simp [ByteSource.results, accept, hf, hresults, textOf]
  leftOver := by
    have hafter : afterEnd b.reads = rest := by
      rcases hr with ⟨hr, hnil⟩ | hr
      · rw [hr, hnil, afterEnd]
      · rw [hr, afterEnd]
    simp [ByteSource.leftOver, accept, hf, hafter]

end Keeps

section
variable {b b' : ByteSource} {f : Failure}

/-- **Filling loses nothing**, and it comes to characters or to the end of the input. -/
theorem fill_ok_keeps (h : fill b = .ok () b') :
    Keeps b b' ∧ (b'.decoded = [] → b'.finished = true) := by
  fun_induction fill b with
  | case1 b hb =>
    cases h
    refine ⟨.refl _, fun hd => ?_⟩
    simpa [hd] using hb
  | case2 b hb hr =>
    have hkeeps : Keeps b ({ b with finished := true }.accept b.decoder.finish) :=
      .ended (not_finished hb) (.inl ⟨rfl, hr⟩)
    cases h
    exact ⟨hkeeps, fun _ => rfl⟩
  | case3 b hb f rest hr hi ih =>
    have hfirst := Keeps.interrupted (not_finished hb) hr hi
    obtain ⟨hkeeps, hend⟩ := ih h
    exact ⟨hfirst.trans hkeeps, hend⟩
  | case4 => cases h
  | case5 b hb rest hr =>
    have hkeeps := Keeps.ended (not_finished hb) (.inr hr)
    cases h
    exact ⟨hkeeps, fun _ => rfl⟩
  | case6 b hb first bytes rest hr chunk later reads ih =>
    have hfirst := Keeps.piece (not_finished hb) hr
    obtain ⟨hkeeps, hend⟩ := ih h
    exact ⟨hfirst.trans hkeeps, hend⟩

/-- **If filling fails, all that follows the failure is still to come.** -/
theorem fill_error_keeps (h : fill b = .error f b') :
    b.results = .error f :: b'.results ∧ b'.leftOver = b.leftOver := by
  fun_induction fill b with
  | case1 => cases h
  | case2 => cases h
  | case3 b hb g rest hr hi ih =>
    have hfirst := Keeps.interrupted (not_finished hb) hr hi
    obtain ⟨hresults, hleft⟩ := ih h
    exact ⟨hfirst.results.symm.trans hresults, hleft.trans hfirst.leftOver⟩
  | case4 b hb g rest hr hi =>
    cases h
    -- Nothing is decoded where filling begins to read.
    simp only [Bool.or_eq_true, not_or, Bool.not_eq_true, Bool.not_eq_false',
      List.isEmpty_iff] at hb
    obtain ⟨hd, hf⟩ := hb
    constructor
    · simp [results, hd, hf, hr, resultsOf, hi]
    · simp [leftOver, hf, hr, afterEnd]
  | case5 => cases h
  | case6 b hb first bytes rest hr chunk later reads ih =>
    have hfirst := Keeps.piece (not_finished hb) hr
    obtain ⟨hresults, hleft⟩ := ih h
    exact ⟨hfirst.results.symm.trans hresults, hleft.trans hfirst.leftOver⟩

end

/-- **One read delivers the first of the results**, or it finds the end of the input. -/
theorem read_results (b : ByteSource) : ∃ b', b'.leftOver = b.leftOver
    ∧ (read b = .ok none b' ∧ b.results = [] ∧ b'.decoded = [] ∧ b'.finished = true
      ∨ (∃ c, read b = .ok (some c) b' ∧ b.results = .ok c :: b'.results)
      ∨ ∃ f, read b = .error f b' ∧ b.results = .error f :: b'.results) := by
  unfold read
  cases hfill : fill b with
  | error f b₁ =>
    obtain ⟨hresults, hleft⟩ := fill_error_keeps hfill
    exact ⟨b₁, hleft, .inr (.inr ⟨f, rfl, hresults⟩)⟩
  | ok _ b₁ =>
    obtain ⟨hkeeps, hend⟩ := fill_ok_keeps hfill
    rw [← hkeeps.results]
    cases hd : b₁.decoded with
    | cons c rest =>
      refine ⟨{ b₁ with decoded := rest }, hkeeps.leftOver, .inr (.inl ⟨c, ?_, ?_⟩)⟩
      · simp only [hd]
      · rw [results, hd]
        rfl
    | nil =>
      have hf := hend hd
      refine ⟨b₁, hkeeps.leftOver, .inl ⟨?_, ?_, hd, hf⟩⟩
      · simp only [hd]
      · simp [results, hd, hf]

/-- **Reading to the end and on after each failure comes to the results.** After that nothing is
read. -/
theorem drains_results (b : ByteSource) :
    ∃ b', Drains read b b.results b' ∧ b'.reads = b.leftOver ∧ read b' = .ok none b' := by
  generalize hresults : b.results = results
  induction results generalizing b with
  | nil =>
    obtain ⟨b', hleft, ⟨hread, -, hd, hf⟩ | ⟨c, -, hcons⟩ | ⟨f, -, hcons⟩⟩ := read_results b
    · refine ⟨b', .ended hread, ?_, read_of_finished hd hf⟩
      rw [← hleft, leftOver, if_pos hf]
    · cases hresults.symm.trans hcons
    · cases hresults.symm.trans hcons
  | cons r results ih =>
    obtain ⟨b₁, hleft, ⟨-, hnil, -⟩ | ⟨c, hread, hcons⟩ | ⟨f, hread, hcons⟩⟩ := read_results b
    · cases hresults.symm.trans hnil
    · obtain ⟨rfl, hrest⟩ := List.cons.inj (hresults.symm.trans hcons)
      obtain ⟨b', hdrains, hreads, hend⟩ := ih b₁ hrest.symm
      exact ⟨b', .item hread hdrains, hreads.trans hleft, hend⟩
    · obtain ⟨rfl, hrest⟩ := List.cons.inj (hresults.symm.trans hcons)
      obtain ⟨b', hdrains, hreads, hend⟩ := ih b₁ hrest.symm
      exact ⟨b', .failure hread hdrains, hreads.trans hleft, hend⟩

theorem results_ofEncoding (encoding : Encoding) (reads : List ByteRead) :
    (ofEncoding encoding reads).results = resultsOf (.ofEncoding encoding) reads :=
  rfl

/--
**Failures of the reader take nothing from the text.** Reading to the end and on after each failure
delivers the characters that are delivered where the reads that fail are left out. Interruptions are
not reported. Any other failure up to the end of the input is reported once, as it is, behind all
characters that the bytes before it complete and before all others. Behind the end nothing is read.
-/
theorem read_failures (encoding : Encoding) (reads : List ByteRead) :
    ∃ results b', Drains read (ofEncoding encoding reads) results b'
      ∧ (∃ b'', Drains read (ofEncoding encoding (reads.filter (·.isBytes)))
        ((itemsOf results).map .ok) b'')
      ∧ failuresOf results = (untilEnd reads).filterMap ByteRead.reported?
      ∧ (∀ f ∈ failuresOf results, f.kind ≠ .interrupted)
      ∧ (∀ before f after, untilEnd reads = before ++ .fail f :: after → f.kind ≠ .interrupted →
        ∃ earlier later, results = earlier ++ .error f :: later
          ∧ itemsOf earlier = textOf ((Decoder.ofEncoding encoding).feedAll (delivered before)).2
          ∧ failuresOf earlier = before.filterMap ByteRead.reported?)
      ∧ b'.reads = afterEnd reads ∧ read b' = .ok none b' := by
  obtain ⟨b', hdrains, hreads, hend⟩ := drains_results (ofEncoding encoding reads)
  obtain ⟨b'', hdrains', -, -⟩ := drains_results (ofEncoding encoding (reads.filter (·.isBytes)))
  rw [results_ofEncoding] at hdrains hdrains'
  have hfailures := failuresOf_resultsOf (.ofEncoding encoding) reads
  refine ⟨_, b', hdrains, ⟨b'', ?_⟩, hfailures, fun f hf => ?_, fun before f after h hf => ?_,
    hreads, hend⟩
  · -- Without failures there are characters alone, and the decoder takes the same bytes.
    have hnone := failuresOf_resultsOf (.ofEncoding encoding) (reads.filter (·.isBytes))
    rw [untilEnd_filter] at hnone
    rw [eq_map_ok_of_failuresOf hnone] at hdrains'
    rwa [itemsOf_resultsOf, delivered_filter, ← itemsOf_resultsOf] at hdrains'
  · rw [hfailures, List.mem_filterMap] at hf
    obtain ⟨r, -, hr⟩ := hf
    exact ByteRead.not_interrupted_of_reported? hr
  · exact resultsOf_fail _ _ hf h

/-- A failure and an interruption within a character, a failure behind it, and reads behind the
end. -/
theorem read_failures_straddling : ∃ results b' earlier later, Drains read
      (ofEncoding .windows1252
        [.bytes [0xEF, 0xBB, 0xBF, 0xC3], .fail ⟨.timedOut, "slow"⟩, .fail ⟨.interrupted, ""⟩,
          .bytes [0xA9, 0x78], .fail ⟨.other, "lost"⟩, .bytes [], .bytes [0x79]]) results b'
    ∧ itemsOf results = ['é', 'x'] ∧ failuresOf results = [⟨.timedOut, "slow"⟩, ⟨.other, "lost"⟩]
    ∧ results = earlier ++ .error ⟨.other, "lost"⟩ :: later
    ∧ itemsOf earlier = ['é', 'x'] ∧ failuresOf earlier = [⟨.timedOut, "slow"⟩]
    ∧ b'.reads = [.bytes [0x79]] ∧ read b' = .ok none b' := by
  obtain ⟨results, b', hdrains, -, hreported, -, hfail, hreads, hend⟩ :=
    read_failures .windows1252
      [.bytes [0xEF, 0xBB, 0xBF, 0xC3], .fail ⟨.timedOut, "slow"⟩, .fail ⟨.interrupted, ""⟩,
        .bytes [0xA9, 0x78], .fail ⟨.other, "lost"⟩, .bytes [], .bytes [0x79]]
  obtain ⟨earlier, later, hresults, hitems, hfailures⟩ := hfail
    [.bytes [0xEF, 0xBB, 0xBF, 0xC3], .fail ⟨.timedOut, "slow"⟩, .fail ⟨.interrupted, ""⟩,
      .bytes [0xA9, 0x78]] ⟨.other, "lost"⟩ [] rfl (by decide)
  obtain ⟨b'', hdrains', -, -⟩ := drains_results (ofEncoding .windows1252
      [.bytes [0xEF, 0xBB, 0xBF, 0xC3], .fail ⟨.timedOut, "slow"⟩, .fail ⟨.interrupted, ""⟩,
        .bytes [0xA9, 0x78], .fail ⟨.other, "lost"⟩, .bytes [], .bytes [0x79]])
  refine ⟨results, b', earlier, later, hdrains, ?_, hreported, hresults, ?_, ?_, hreads, hend⟩
  · rw [(hdrains.unique hdrains').1, results_ofEncoding, itemsOf_resultsOf]
    decide +kernel
  · rw [hitems]
    decide +kernel
  · rw [hfailures]
    rfl

end ByteSource

end CssTokens
