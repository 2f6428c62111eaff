/-!
# Reading from plain text

A `Split` reads from the front of a text and leaves the rest. There is no source, nothing is pushed
back and nothing is counted, so that the productions of the lexer are plain functions on texts here.

## Locality

What follows the text that a production reads has a say only in where the reading ends. `Local` says
so: the rest is the end of the text, and a text that is cut off anywhere after what was read is read
in the same way. A production that gives back what it has read when it fails (`attempt`) is local if
it cannot be made to fail by more text at the end (`Extends`).
-/

namespace CssTokens

/-- A way to read from the front of a text: what is read, and the rest. -/
def Split (α : Type) : Type := List Char → α × List Char

namespace Split

instance : Monad Split where
  pure a := fun cs => (a, cs)
  bind f g := fun cs => g (f cs).1 (f cs).2

variable {α β : Type}

theorem pure_apply (a : α) (cs : List Char) : (pure a : Split α) cs = (a, cs) := rfl

theorem bind_apply (f : Split α) (g : α → Split β) (cs : List Char) :
    (f >>= g) cs = g (f cs).1 (f cs).2 := rfl

theorem eq_of_fst {f : Split α} {cs : List Char} {a : α} (h : (f cs).1 = a) :
    f cs = (a, (f cs).2) := by
  rw [← h]

/-- Read what `f` reads, or nothing if it fails. -/
def attempt (f : Split (Option α)) : Split (Option α) := fun cs =>
  match f cs with
  | (some a, rest) => (some a, rest)
  | (none, _) => (none, cs)

theorem attempt_some {f : Split (Option α)} {cs rest : List Char} {a : α}
    (h : f cs = (some a, rest)) : attempt f cs = (some a, rest) := by
  rw [attempt, h]

theorem attempt_none {f : Split (Option α)} {cs : List Char} (h : (f cs).1 = none) :
    attempt f cs = (none, cs) := by
  unfold attempt
  split
  · next heq =>
    rw [heq] at h
    cases h
  · rfl

theorem attempt_fst (f : Split (Option α)) (cs : List Char) : (attempt f cs).1 = (f cs).1 := by
  unfold attempt
  split <;> next heq => rw [heq]

/-- Where the reading fails, nothing is read. -/
def Keeps (f : Split (Option α)) : Prop :=
  ∀ {cs}, (f cs).1 = none → f cs = (none, cs)

theorem attempt_keeps (f : Split (Option α)) : Keeps (attempt f) :=
  fun h => attempt_none (by rwa [attempt_fst] at h)

/-! ## Locality -/

/-- Reading that depends on the text read and not on what follows it. -/
structure Local (f : Split α) : Prop where
  /-- The rest is the end of the text. -/
  suffix : ∀ cs, (f cs).2 <:+ cs
  /-- The text may be cut off after what was read. -/
  cut : ∀ {cs a rest} more, f (cs ++ more) = (a, rest ++ more) → f cs = (a, rest)

/-- More text at the end does not make the reading fail. -/
def Extends (f : Split (Option α)) : Prop :=
  ∀ cs more, (f cs).1.isSome = true → (f (cs ++ more)).1.isSome = true

theorem extends_attempt {f : Split (Option α)} : Extends (attempt f) ↔ Extends f := by
  simp only [Extends, attempt_fst]

/-- Where a text is cut off before anything was read, there is nothing left of it. -/
theorem cut_nil {f : Split α} {more rest : List Char} {a : α} (hs : ∀ cs, (f cs).2 <:+ cs)
    (h : f ([] ++ more) = (a, rest ++ more)) : rest = [] ∧ f more = (a, more) := by
  rw [List.nil_append] at h
  have hlen : (rest ++ more).length ≤ more.length := by
    have := hs more
    rw [h] at this
    exact this.length_le
  rw [List.length_append] at hlen
  obtain rfl : rest = [] := List.length_eq_zero_iff.mp (by omega)
  exact ⟨rfl, h⟩

namespace Local

theorem pure (a : α) : Local (Pure.pure a : Split α) where
  suffix := List.suffix_refl
  cut _ h := by
    obtain ⟨ha, hr⟩ := Prod.mk.inj h
    rw [pure_apply, ha, List.append_cancel_right hr]

theorem bind {f : Split α} {g : α → Split β} (hf : Local f) (hg : ∀ a, Local (g a)) :
    Local (f >>= g) where
  suffix cs := ((hg _).suffix _).trans (hf.suffix cs)
  cut {cs b rest} more h := by
    rw [bind_apply] at h ⊢
    -- `f` has left what `g` was yet to read before the end.
    have hs : rest ++ more <:+ (f (cs ++ more)).2 := by
      have := (hg (f (cs ++ more)).1).suffix (f (cs ++ more)).2
      rwa [h] at this
    obtain ⟨read, hread⟩ := hs
    have hcut : f cs = ((f (cs ++ more)).1, read ++ rest) := by
      refine hf.cut more ?_
      rw [List.append_assoc, hread]
    rw [hcut]
    refine (hg _).cut more ?_
    rw [List.append_assoc, hread]
    exact h

theorem attempt {f : Split (Option α)} (hf : Local f) (he : Extends f) :
    Local (attempt f) where
  suffix cs := by
    unfold Split.attempt
    split
    · next heq =>
      have := hf.suffix cs
      rwa [heq] at this
    · exact List.suffix_refl cs
  cut {cs a rest} more h := by
    cases hc : (f (cs ++ more)).1 with
    | some b =>
      have hsome := eq_of_fst hc
      rw [attempt_some hsome] at h
      obtain ⟨rfl, hr⟩ := Prod.mk.inj h
      rw [hr] at hsome
      exact attempt_some (hf.cut more hsome)
    | none =>
      rw [attempt_none hc] at h
      obtain ⟨rfl, hr⟩ := Prod.mk.inj h
      rw [List.append_cancel_right hr]
      refine attempt_none ?_
      -- If the text up to the cut could be read, so could the whole text.
      cases hn : (f rest).1 with
      | none => rfl
      | some b =>
        have := he rest more (by rw [hn]; rfl)
        rw [← List.append_cancel_right hr, hc] at this
        cases this

end Local

/-! ## Reading up to a condition -/

/-- Read a character if it satisfies `p`. -/
def nextIf (p : Char → Bool) : Split (Option Char)
  | c :: cs => if p c then (some c, cs) else (none, c :: cs)
  | [] => (none, [])

/-- Read the character `c` if it comes next. -/
def nextIs (c : Char) : Split Bool := do
  return (← nextIf (· == c)).isSome

/-- Read the text `mark` if it comes next. -/
def nextText (mark : List Char) : Split Bool := fun cs =>
  if mark.isPrefixOf cs then (true, cs.drop mark.length) else (false, cs)

/-- Read characters as long as they satisfy `p`. -/
def takeWhile (p : Char → Bool) : Split (List Char) := fun cs =>
  (cs.takeWhile p, cs.dropWhile p)

/-- The same, but not more than `n` characters. -/
def takeUpTo (p : Char → Bool) (n : Nat) : Split (List Char) := fun cs =>
  ((cs.take n).takeWhile p, cs.drop ((cs.take n).takeWhile p).length)

section
variable {p : Char → Bool} {c : Char} {cs : List Char}

theorem nextIf_pos (h : p c = true) : nextIf p (c :: cs) = (some c, cs) := by
  rw [nextIf, if_pos h]

theorem nextIf_neg (h : p c = false) : nextIf p (c :: cs) = (none, c :: cs) := by
  rw [nextIf, if_neg (by simp [h])]

/-- What is read of a text that is not empty does not depend on what follows. -/
theorem nextIf_append (more : List Char) (h : cs ≠ []) :
    nextIf p (cs ++ more) = ((nextIf p cs).1, (nextIf p cs).2 ++ more) := by
  obtain ⟨c, cs, rfl⟩ := List.exists_cons_of_ne_nil h
  rw [List.cons_append, nextIf, nextIf]
  split <;> rfl

theorem nextIs_pos : nextIs c (c :: cs) = (true, cs) := by
  rw [nextIs, bind_apply, nextIf_pos (p := (· == c)) (beq_self_eq_true c)]
  rfl

theorem nextIs_neg {d : Char} (h : d ≠ c) : nextIs c (d :: cs) = (false, d :: cs) := by
  rw [nextIs, bind_apply, nextIf_neg (p := (· == c)) (beq_eq_false_iff_ne.mpr h)]
  rfl

theorem nextIs_of_ne (h : cs.head? ≠ some c) : nextIs c cs = (false, cs) := by
  cases cs with
  | nil => rfl
  | cons d cs => exact nextIs_neg fun hd => h (congrArg some hd)

/-- A character comes next or not. -/
theorem nextIs_cases (c : Char) (cs : List Char) :
    (∃ rest, cs = c :: rest ∧ nextIs c cs = (true, rest))
      ∨ cs.head? ≠ some c ∧ nextIs c cs = (false, cs) := by
  by_cases h : cs.head? = some c
  · obtain ⟨rest, rfl⟩ := List.head?_eq_some_iff.mp h
    exact .inl ⟨rest, rfl, nextIs_pos⟩
  · exact .inr ⟨h, nextIs_of_ne h⟩

end

theorem nextIf_suffix (p : Char → Bool) (cs : List Char) : (nextIf p cs).2 <:+ cs := by
  cases cs with
  | nil => exact List.suffix_refl []
  | cons c cs =>
    rw [nextIf]
    split
    · exact List.suffix_cons c cs
    · exact List.suffix_refl _

theorem nextIf_local (p : Char → Bool) : Local (nextIf p) where
  suffix := nextIf_suffix p
  cut {cs a rest} more h := by
    cases cs with
    | nil =>
      obtain ⟨rfl, hf⟩ := cut_nil (nextIf_suffix p) h
      cases more with
      | nil => exact hf
      | cons c more =>
        rw [nextIf] at hf
        split at hf
        · exact absurd (Prod.mk.inj hf).2.symm (List.cons_ne_self c more)
        · rw [← (Prod.mk.inj hf).1, nextIf]
    | cons c cs =>
      rw [nextIf_append more (List.cons_ne_nil c cs)] at h
      obtain ⟨ha, hr⟩ := Prod.mk.inj h
      rw [← ha, ← List.append_cancel_right hr]

theorem nextIs_local (c : Char) : Local (nextIs c) :=
  (nextIf_local _).bind fun _ => .pure _

theorem nextText_local (mark : List Char) : Local (nextText mark) where
  suffix cs := by
    unfold nextText
    split
    · exact List.drop_suffix _ _
    · exact List.suffix_refl cs
  cut {cs a rest} more h := by
    unfold nextText at h ⊢
    by_cases hp : mark <+: cs ++ more
    · rw [if_pos (List.isPrefixOf_iff_prefix.mpr hp)] at h
      obtain ⟨rfl, hr⟩ := Prod.mk.inj h
      -- What is left reaches back to the cut at least, so the mark ends before it.
      have hlen : mark.length ≤ cs.length := by
        have := congrArg List.length hr
        have := hp.length_le
        simp only [List.length_drop, List.length_append] at *
        omega
      have hcs : mark <+: cs :=
        List.prefix_of_prefix_length_le hp (List.prefix_append cs more) hlen
      rw [List.drop_append_of_le_length hlen] at hr
      rw [if_pos (List.isPrefixOf_iff_prefix.mpr hcs), List.append_cancel_right hr]
    · rw [if_neg (by rwa [List.isPrefixOf_iff_prefix])] at h
      obtain ⟨rfl, hr⟩ := Prod.mk.inj h
      rw [if_neg, List.append_cancel_right hr]
      rw [List.isPrefixOf_iff_prefix]
      exact fun hcs => hp (hcs.trans (List.prefix_append cs more))

theorem nextText_nil (cs : List Char) : nextText [] cs = (true, cs) := by
  rw [nextText, List.isPrefixOf_nil_left]
  rfl

theorem nextText_cons_self (c : Char) (mark cs : List Char) :
    nextText (c :: mark) (c :: cs) =
      if (nextText mark cs).1 then (true, (nextText mark cs).2) else (false, c :: cs) := by
  unfold nextText
  rw [List.isPrefixOf_cons_cons_self]
  by_cases hp : mark.isPrefixOf cs = true
  · rw [if_pos hp, if_pos hp]
    rfl
  · rw [if_neg hp, if_neg hp]
    rfl

theorem nextText_cons_ne {c d : Char} (h : d ≠ c) (mark cs : List Char) :
    nextText (c :: mark) (d :: cs) = (false, d :: cs) := by
  rw [nextText, List.isPrefixOf_cons_cons, beq_eq_false_iff_ne.mpr h.symm, Bool.false_and,
    if_neg (by decide)]

theorem nextText_shorter {mark cs : List Char} (hm : mark ≠ []) (h : (nextText mark cs).1 = true) :
    (nextText mark cs).2.length < cs.length := by
  unfold nextText at h ⊢
  split at h
  · next hp =>
    have hlen := (List.isPrefixOf_iff_prefix.mp hp).length_le
    have hpos := List.length_pos_iff.mpr hm
    rw [if_pos hp, List.length_drop]
    omega
  · cases h

theorem nextText_prefix {mark cs : List Char} (h : (nextText mark cs).1 = true) : mark <+: cs := by
  unfold nextText at h
  split at h
  · next hp => exact List.isPrefixOf_iff_prefix.mp hp
  · cases h

theorem nextText_keeps {mark cs : List Char} (h : (nextText mark cs).1 = false) :
    nextText mark cs = (false, cs) := by
  unfold nextText at h ⊢
  split at h
  · cases h
  · next hp => rw [if_neg hp]

theorem takeWhile_local (p : Char → Bool) : Local (takeWhile p) where
  suffix cs := List.dropWhile_suffix p
  cut {cs a rest} more h := by
    induction cs generalizing a with
    | nil =>
      obtain ⟨rfl, hf⟩ := cut_nil (fun _ => List.dropWhile_suffix p) h
      obtain ⟨rfl, hr⟩ := Prod.mk.inj hf
      have htake : more.takeWhile p = [] := by
        have happ := List.takeWhile_append_dropWhile (p := p) (l := more)
        rwa [hr, List.append_left_eq_self] at happ
      rw [htake]
      rfl
    | cons c cs ih =>
      unfold takeWhile at h ih ⊢
      rw [List.cons_append, List.takeWhile_cons, List.dropWhile_cons] at h
      rw [List.takeWhile_cons, List.dropWhile_cons]
      by_cases hc : p c = true
      · rw [if_pos hc, if_pos hc] at h
        obtain ⟨rfl, hr⟩ := Prod.mk.inj h
        obtain ⟨h1, h2⟩ := Prod.mk.inj (ih (by rw [hr]))
        rw [if_pos hc, if_pos hc, h1, h2]
      · rw [if_neg hc, if_neg hc] at h
        obtain ⟨rfl, hr⟩ := Prod.mk.inj h
        rw [← List.cons_append] at hr
        rw [if_neg hc, if_neg hc, List.append_cancel_right hr]

theorem takeUpTo_cons {p : Char → Bool} {c : Char} (h : p c = true) (n : Nat) (cs : List Char) :
    takeUpTo p (n + 1) (c :: cs) = (c :: (takeUpTo p n cs).1, (takeUpTo p n cs).2) := by
  simp [takeUpTo, h]

theorem takeUpTo_cons_neg {p : Char → Bool} {c : Char} (h : p c = false) (n : Nat)
    (cs : List Char) : takeUpTo p n (c :: cs) = ([], c :: cs) := by
  cases n <;> simp [takeUpTo, h]

theorem takeUpTo_zero (p : Char → Bool) (cs : List Char) : takeUpTo p 0 cs = ([], cs) := by
  simp [takeUpTo]

theorem takeUpTo_nil (p : Char → Bool) (n : Nat) : takeUpTo p n [] = ([], []) := by
  simp [takeUpTo]

/-- A run of characters ends after the last one that may belong to it, or before one that does not
belong to it. -/
theorem takeUpTo_append {p : Char → Bool} {ds rest : List Char} {n : Nat}
    (h : ∀ c ∈ ds, p c = true) (hlen : ds.length ≤ n)
    (hrest : ds.length < n → ∀ c ∈ rest.head?, p c = false) :
    takeUpTo p n (ds ++ rest) = (ds, rest) := by
  induction ds generalizing n with
  | nil =>
    cases n with
    | zero => exact takeUpTo_zero p rest
    | succ n =>
      cases rest with
      | nil => exact takeUpTo_nil p (n + 1)
      | cons d rest => exact takeUpTo_cons_neg (hrest (Nat.succ_pos n) d rfl) _ rest
  | cons c ds ih =>
    rw [List.length_cons] at hlen hrest
    obtain ⟨n, rfl⟩ : ∃ m, n = m + 1 := ⟨n - 1, by omega⟩
    rw [List.cons_append, takeUpTo_cons (h c List.mem_cons_self),
      ih (fun e he => h e (List.mem_cons_of_mem c he)) (by omega) fun hlt => hrest (by omega)]

/-- What a run of characters is, and where it ends. -/
theorem takeUpTo_spec (p : Char → Bool) (n : Nat) (cs : List Char) :
    cs = (takeUpTo p n cs).1 ++ (takeUpTo p n cs).2
      ∧ (∀ c ∈ (takeUpTo p n cs).1, p c = true) ∧ (takeUpTo p n cs).1.length ≤ n
      ∧ ((takeUpTo p n cs).1.length < n → ∀ c ∈ (takeUpTo p n cs).2.head?, p c = false) := by
  induction n generalizing cs with
  | zero => simp [takeUpTo_zero]
  | succ n ih =>
    cases cs with
    | nil => simp [takeUpTo_nil]
    | cons c cs =>
      by_cases hc : p c = true
      · obtain ⟨happ, hall, hlen, hend⟩ := ih cs
        rw [takeUpTo_cons hc]
        refine ⟨congrArg (c :: ·) happ, List.forall_mem_cons.mpr ⟨hc, hall⟩,
          Nat.succ_le_succ hlen, fun hlt => hend (Nat.lt_of_succ_lt_succ hlt)⟩
      · have hc : p c = false := by simpa using hc
        rw [takeUpTo_cons_neg hc]
        simpa using hc

theorem takeUpTo_local (p : Char → Bool) (n : Nat) : Local (takeUpTo p n) where
  suffix cs := List.drop_suffix _ _
  cut {cs a rest} more h := by
    induction n generalizing cs a with
    | zero =>
      rw [takeUpTo_zero] at h ⊢
      obtain ⟨rfl, hr⟩ := Prod.mk.inj h
      rw [List.append_cancel_right hr]
    | succ n ih =>
      cases cs with
      | nil =>
        obtain ⟨rfl, hf⟩ := cut_nil (fun _ => List.drop_suffix _ _) h
        cases more with
        | nil => exact hf
        | cons c more =>
          by_cases hc : p c = true
          · -- The first character would be read, but all of the text is left.
            have hlen := congrArg (List.length ∘ Prod.snd) hf
            simp [takeUpTo, hc] at hlen
            omega
          · rw [takeUpTo_cons_neg (by simpa using hc)] at hf
            rw [← (Prod.mk.inj hf).1, takeUpTo_nil]
      | cons c cs =>
        rw [List.cons_append] at h
        by_cases hc : p c = true
        · rw [takeUpTo_cons hc] at h ⊢
          obtain ⟨rfl, hr⟩ := Prod.mk.inj h
          rw [ih (Prod.ext rfl hr)]
        · rw [takeUpTo_cons_neg (by simpa using hc)] at h ⊢
          obtain ⟨rfl, hr⟩ := Prod.mk.inj h
          rw [← List.cons_append] at hr
          rw [List.append_cancel_right hr]

/-! ## What can be read -/

/-- All that `f` can read satisfies `P`. -/
def Yields (f : Split α) (P : α → Prop) : Prop :=
  ∀ cs, P (f cs).1

namespace Yields

variable {P : β → Prop} {Q : α → Prop}

theorem anything (f : Split α) : Yields f fun _ => True :=
  fun _ => True.intro

theorem pure {b : β} (h : P b) : Yields (Pure.pure b) P :=
  fun _ => h

theorem bind {f : Split α} {g : α → Split β} (hf : Yields f Q) (hg : ∀ a, Q a → Yields (g a) P) :
    Yields (f >>= g) P :=
  fun cs => hg (f cs).1 (hf cs) (f cs).2

theorem attempt {f : Split (Option α)} {P : Option α → Prop} (h : Yields f P) :
    Yields (attempt f) P := by
  intro cs
  rw [attempt_fst]
  exact h cs

end Yields

theorem nextIf_yields (p : Char → Bool) : Yields (nextIf p) fun c => ∀ d ∈ c, p d = true := by
  intro cs d hd
  cases cs with
  | nil => cases hd
  | cons c cs =>
    rw [nextIf] at hd
    split at hd
    · next hc =>
      cases hd
      exact hc
    · cases hd

theorem takeWhile_yields (p : Char → Bool) :
    Yields (takeWhile p) fun ds => ∀ d ∈ ds, p d = true :=
  fun _ d hd => List.all_eq_true.mp List.all_takeWhile d hd

end Split

end CssTokens
