import CssTokens.Proofs.Text.Normal
import Mathlib.Data.List.Basic
import Mathlib.Data.List.Induction

/-!
# The normal form of the beginning of a text

A text that goes on behind a CR may go on with the LF of that CR, and this LF is all that the place
where a text is cut has an effect on (`normalize_append`). So the end of a text in normal form comes
from the end of the text, one character from one, unless there is a line break in it: that may be a
CR LF.

Main statement: an end of the normal form in which at most the last character is a line break is the
normal form of an end, character by character (`exists_split_of_normalize`).
-/

namespace CssTokens

/-- Whether a text ends in a CR, so that a LF behind it belongs to the CR. -/
def endsInCr (cs : List Char) : Bool :=
  cs.getLast? == some '\r'

theorem endsInCr_cons_cons (c d : Char) (cs : List Char) :
    endsInCr (c :: d :: cs) = endsInCr (d :: cs) := by
  rw [endsInCr, List.getLast?_cons_cons]
  rfl

/-- **Normalization of a text and what follows it.** -/
theorem normalize_append (cs ds : List Char) :
    normalize (cs ++ ds) = normalize cs ++ normalize (if endsInCr cs then dropLf ds else ds) := by
  fun_induction normalize cs with
  | case1 cs ih =>
    have hends : endsInCr ('\r' :: '\n' :: cs) = endsInCr cs := by
      rw [endsInCr_cons_cons]
      cases cs with
      | nil => rfl
      | cons d cs => exact endsInCr_cons_cons _ d cs
    rw [hends]
    exact congrArg ('\n' :: ·) ih
  | case2 c cs hcrlf ih =>
    rw [List.cons_append, normalize_cons, List.cons_append]
    congr 1
    cases cs with
    | nil =>
      by_cases hc : c = '\r'
      · subst hc
        rfl
      · have hends : endsInCr [c] = false := by simpa [endsInCr] using hc
        rw [if_neg (by simpa using hc), hends]
        rfl
    | cons d cs =>
      rw [endsInCr_cons_cons, ← ih]
      by_cases hc : c = '\r'
      · have hd : d ≠ '\n' := by
          rintro rfl
          exact hcrlf cs hc rfl
        rw [if_pos (by simpa using hc), List.cons_append, dropLf_of_ne hd]
      · rw [if_neg (by simpa using hc)]
  | case3 => rfl

/-- The last character of a text counts for itself, unless it is the LF of a CR LF. -/
theorem normalize_concat {cs : List Char} {d : Char} (h : ¬(endsInCr cs = true ∧ d = '\n')) :
    normalize (cs ++ [d]) = normalize cs ++ [normalizeChar d] := by
  rw [normalize_append]
  congr 1
  cases hends : endsInCr cs with
  | false =>
    rw [if_neg (by decide), normalize_cons]
    split <;> rfl
  | true =>
    have hd : d ≠ '\n' := fun hd => h ⟨hends, hd⟩
    rw [if_pos rfl, dropLf_of_ne hd, normalize_cons]
    split <;> rfl

/-- A text whose last character counts for itself. -/
def EndsPlainly (cs : List Char) : Prop :=
  ∃ before d, cs = before ++ [d] ∧ normalize cs = normalize before ++ [normalizeChar d]

theorem EndsPlainly.concat {cs : List Char} {d : Char} (h : ¬(endsInCr cs = true ∧ d = '\n')) :
    EndsPlainly (cs ++ [d]) :=
  ⟨cs, d, rfl, normalize_concat h⟩

/-- A character of the normal form that is not a line break is that of the last character. -/
theorem endsPlainly_of_normalize {cs before : List Char} {c : Char}
    (h : normalize cs = before ++ [c]) (hc : c ≠ '\n') : EndsPlainly cs := by
  rcases List.eq_nil_or_concat' cs with rfl | ⟨cs, d, rfl⟩
  · cases before <;> cases h
  · by_cases hcrlf : endsInCr cs = true ∧ d = '\n'
    · -- The normal form of a text that ends in CR LF ends in a line break.
      obtain ⟨hends, rfl⟩ := hcrlf
      obtain ⟨cs, rfl⟩ : ∃ cs', cs = cs' ++ ['\r'] :=
        List.getLast?_eq_some_iff.mp (by simpa [endsInCr] using hends)
      have hcr : ¬(endsInCr cs = true ∧ '\r' = '\n') := fun hcr => absurd hcr.2 (by decide)
      rw [normalize_append, if_pos hends, normalize_concat hcr] at h
      have hlast := congrArg List.getLast? h
      simp only [dropLf, normalize_nil, List.append_nil, List.getLast?_append] at hlast
      exact absurd (Option.some.inj hlast).symm hc
    · exact .concat hcrlf

/-- **The end of a text in normal form comes from the end of the text**, character by character, if
it has no line break but perhaps one at its end, which is not that of a CR LF. -/
theorem exists_split_of_normalize {taken before cs : List Char}
    (h : normalize taken = before ++ cs) (hcs : '\n' ∉ cs.dropLast)
    (hlast : '\n' ∈ cs → EndsPlainly taken) :
    ∃ behind ahead, taken = behind ++ ahead ∧ normalize behind = before
      ∧ ahead.map normalizeChar = cs := by
  induction cs using List.reverseRecOn generalizing taken with
  | nil => exact ⟨taken, [], (List.append_nil _).symm, by rwa [List.append_nil] at h, rfl⟩
  | append_singleton cs c ih =>
    rw [List.dropLast_concat] at hcs
    have hplain : EndsPlainly taken := by
      by_cases hc : c = '\n'
      · exact hlast (by simp [hc])
      · exact endsPlainly_of_normalize ((List.append_assoc _ _ _).symm ▸ h) hc
    obtain ⟨taken, d, rfl, hd⟩ := hplain
    rw [hd, ← List.append_assoc] at h
    obtain ⟨htaken, hchar⟩ := List.append_inj' h rfl
    obtain ⟨behind, ahead, rfl, hbehind, hahead⟩ :=
      ih htaken (fun hmem => hcs (List.dropLast_subset cs hmem)) fun hmem => absurd hmem hcs
    refine ⟨behind, ahead ++ [d], List.append_assoc _ _ _, hbehind, ?_⟩
    rw [List.map_append, hahead]
    exact congrArg (cs ++ ·) hchar

end CssTokens
