import CssTokens.Input.Scanner

/-!
# Normalized text

What a scanner delivers is the text of its source in normal form: each line break is U+000A, and
there is no NUL. Here the normal form is a function on texts, which knows nothing of a scanner.

A CR has an effect on the character after it. So that a text can be taken character by character, a
LF that belongs to a CR before it is dropped from what follows (`dropLf`, `normalize_cons`).
-/

namespace CssTokens

/-- The character that `c` becomes where it stands alone. -/
def normalizeChar (c : Char) : Char :=
  if c == '\r' || c == '\n' || c == '\x0C' then '\n'
  else if c == '\x00' then replacementChar
  else c

/-- A text in normal form: CR LF, CR and FF become line breaks, and NUL becomes U+FFFD. -/
def normalize : List Char → List Char
  | '\r' :: '\n' :: cs => '\n' :: normalize cs
  | c :: cs => normalizeChar c :: normalize cs
  | [] => []

/-- The text after a CR, without the LF that belongs to it. -/
def dropLf : List Char → List Char
  | '\n' :: cs => cs
  | cs => cs

@[simp] theorem normalize_nil : normalize [] = [] := rfl

theorem dropLf_of_ne {c : Char} {cs : List Char} (h : c ≠ '\n') : dropLf (c :: cs) = c :: cs := by
  unfold dropLf
  split
  · next heq => exact absurd (List.cons.inj heq).1 h
  · rfl

/-- **Normalization character by character.** -/
theorem normalize_cons (c : Char) (cs : List Char) :
    normalize (c :: cs) = normalizeChar c :: normalize (if c == '\r' then dropLf cs else cs) := by
  by_cases hc : c = '\r'
  · subst hc
    rw [if_pos (by decide)]
    cases cs with
    | nil => rfl
    | cons d cs =>
      by_cases hd : d = '\n'
      · subst hd
        rfl
      · rw [dropLf_of_ne hd, normalize]
        intro cs' _ heq
        exact hd (List.cons.inj heq).1
  · rw [if_neg (by simpa using hc), normalize]
    intro cs' heq _
    exact hc heq

/-! ## Texts in normal form -/

/-- Whether a character may stand in a text in normal form. -/
def isNormal (c : Char) : Bool :=
  c != '\r' && c != '\x0C' && c != '\x00'

theorem isNormal_normalizeChar (c : Char) : isNormal (normalizeChar c) = true := by
  unfold normalizeChar
  split
  · rfl
  · split
    · rfl
    · next h1 h2 =>
      simp only [Bool.or_eq_true, beq_iff_eq, not_or] at h1 h2
      simp [isNormal, h1, h2]

theorem normalizeChar_of_isNormal {c : Char} (h : isNormal c = true) : normalizeChar c = c := by
  simp only [isNormal, Bool.and_eq_true, bne_iff_ne, ne_eq] at h
  unfold normalizeChar
  by_cases hc : c = '\n'
  · subst hc
    rfl
  · rw [if_neg (by simp [h, hc]), if_neg (by simp [h])]

theorem dropLf_length_le (cs : List Char) : (dropLf cs).length ≤ cs.length := by
  unfold dropLf
  split
  · exact Nat.le_succ _
  · exact Nat.le_refl _

/-- What is made of a text is in normal form. -/
theorem isNormal_of_mem_normalize {cs : List Char} {c : Char} (h : c ∈ normalize cs) :
    isNormal c = true := by
  fun_induction normalize cs with
  | case1 cs ih =>
    rcases List.mem_cons.mp h with rfl | h
    · rfl
    · exact ih h
  | case2 d cs _ ih =>
    rcases List.mem_cons.mp h with rfl | h
    · exact isNormal_normalizeChar d
    · exact ih h
  | case3 => cases h

theorem normalize_length_le (cs : List Char) : (normalize cs).length ≤ cs.length := by
  fun_induction normalize cs with
  | case1 cs ih =>
    simp only [List.length_cons]
    omega
  | case2 d cs _ ih => exact Nat.succ_le_succ ih
  | case3 => exact Nat.le_refl _

/-- A text in normal form is left as it is. -/
theorem normalize_of_isNormal : ∀ {cs : List Char}, (∀ c ∈ cs, isNormal c = true) →
    normalize cs = cs
  | [], _ => rfl
  | c :: cs, h => by
    have hc : isNormal c = true := h c List.mem_cons_self
    have hcr : ¬(c == '\r') = true := by
      simp only [isNormal, Bool.and_eq_true, bne_iff_ne, ne_eq] at hc
      simp [hc]
    rw [normalize_cons, if_neg hcr, normalizeChar_of_isNormal hc,
      normalize_of_isNormal fun d hd => h d (List.mem_cons_of_mem _ hd)]

/-! ## The text of a source -/

/-- The character that a read delivers, if it does not fail. -/
def Event.char? : Event → Option Char
  | .char c _ => some c
  | .fail _ => none

namespace Source

/-- All the characters that a source delivers. -/
def chars (source : Source) : List Char :=
  source.filterMap Event.char?

/-- Whether all reads of a source succeed. -/
def Infallible (source : Source) : Prop :=
  ∀ e ∈ source, e.char?.isSome = true

theorem Infallible.tail {e : Event} {source : Source} (h : Infallible (e :: source)) :
    Infallible source :=
  fun e' he => h e' (List.mem_cons_of_mem _ he)

theorem chars_ofString (text : String) : chars (ofString text) = text.toList := by
  rw [chars, ofString, List.filterMap_map]
  exact List.filterMap_some

theorem infallible_ofString (text : String) : Infallible (ofString text) := by
  intro e he
  obtain ⟨c, _, rfl⟩ := List.mem_map.mp he
  rfl

end Source

end CssTokens
