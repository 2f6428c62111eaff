import CssTokens.Proofs.Split.Basic

/-!
# Repeated items in plain text

An item of a run costs characters, or else nothing is read. A run of items is local if an item is.
-/

namespace CssTokens

namespace Split

/-- A production that reads an item, or nothing. -/
structure Item (α : Type) where
  split : Split (Option α)
  /-- An item costs characters. -/
  shorter : ∀ {cs a rest}, split cs = (some a, rest) → rest.length < cs.length
  /-- Where there is none, nothing is read. -/
  keeps : Keeps split

/-- As many items as there are. -/
def Item.many {α : Type} (item : Item α) : Split (List α) := fun cs =>
  match _h : item.split cs with
  | (some a, rest) => (a :: (item.many rest).1, (item.many rest).2)
  | (none, rest) => ([], rest)
termination_by cs => cs.length
decreasing_by all_goals exact item.shorter _h

namespace Item

variable {α : Type} {item : Item α} {cs rest : List Char} {a : α}

theorem many_cons (h : item.split cs = (some a, rest)) :
    item.many cs = (a :: (item.many rest).1, (item.many rest).2) := by
  rw [many]
  split
  · next heq =>
    rw [h] at heq
    cases heq
    rfl
  · next heq =>
    rw [h] at heq
    cases heq

theorem many_nil (h : (item.split cs).1 = none) : item.many cs = ([], cs) := by
  rw [many]
  split
  · next heq =>
    rw [heq] at h
    cases h
  · next heq =>
    rw [item.keeps h] at heq
    rw [(Prod.mk.inj heq).2]

/-- Items that are read one by one, whatever follows, are read in a run. -/
theorem many_flatMap {text : α → List Char}
    (h : ∀ a rest, item.split (text a ++ rest) = (some a, rest)) (as : List α) (rest : List Char) :
    item.many (as.flatMap text ++ rest) = (as ++ (item.many rest).1, (item.many rest).2) := by
  induction as with
  | nil => rfl
  | cons a as ih =>
    rw [List.flatMap_cons, List.append_assoc, many_cons (h a _), ih]
    rfl

theorem many_suffix (h : Local item.split) (cs : List Char) : (item.many cs).2 <:+ cs := by
  fun_induction many item cs with
  | case1 cs a rest hc ih =>
    have := h.suffix cs
    rw [hc] at this
    exact ih.trans this
  | case2 cs rest hc =>
    have := h.suffix cs
    rwa [hc] at this

theorem many_local (h : Local item.split) : Local item.many where
  suffix := many_suffix h
  cut {cs as rest} more := by
    generalize hn : cs ++ more = text
    intro ht
    fun_induction many item text generalizing cs as rest with
    | case1 text a left hc ih =>
      obtain ⟨rfl, hr⟩ := Prod.mk.inj ht
      subst hn
      -- The other items are read from the text that the first one has left before the end.
      obtain ⟨later, rfl⟩ : ∃ later, later ++ more = left := by
        have hs : rest ++ more <:+ left := hr ▸ many_suffix h left
        obtain ⟨read, hread⟩ := hs
        exact ⟨read ++ rest, by rw [List.append_assoc, hread]⟩
      rw [many_cons (h.cut more hc), ih rfl (Prod.ext rfl hr)]
    | case2 text left hc =>
      obtain ⟨rfl, hr⟩ := Prod.mk.inj ht
      subst hn
      obtain rfl : left = cs ++ more := by
        rw [item.keeps (by rw [hc])] at hc
        exact (Prod.mk.inj hc).2.symm
      obtain rfl := List.append_cancel_right hr
      exact many_nil (by rw [h.cut more hc])

/-! ## Single characters -/

/-- The items that are single characters. -/
def satisfying (p : Char → Bool) : Item Char where
  split := nextIf p
  shorter {cs a rest} h := by
    cases cs with
    | nil => cases h
    | cons c cs =>
      rw [nextIf] at h
      split at h
      · rw [← (Prod.mk.inj h).2]
        exact Nat.lt_succ_self _
      · cases h
  keeps {cs} h := by
    cases cs with
    | nil => rfl
    | cons c cs =>
      rw [nextIf] at h ⊢
      split at h
      · cases h
      · next hc => rw [if_neg hc]

theorem many_satisfying (p : Char → Bool) (cs : List Char) :
    (satisfying p).many cs = takeWhile p cs := by
  induction cs with
  | nil => exact many_nil rfl
  | cons c cs ih =>
    rw [takeWhile, List.takeWhile_cons, List.dropWhile_cons]
    by_cases hc : p c = true
    · have hsome : (satisfying p).split (c :: cs) = (some c, cs) := nextIf_pos hc
      rw [many_cons hsome, ih, if_pos hc, if_pos hc]
      rfl
    · have hn : nextIf p (c :: cs) = (none, c :: cs) := nextIf_neg (by simpa using hc)
      have hnone : ((satisfying p).split (c :: cs)).1 = none := congrArg Prod.fst hn
      rw [many_nil hnone, if_neg hc, if_neg hc]

end Item

end Split

end CssTokens
