import CssTokens.Proofs.Refinement.Composed
import CssTokens.Proofs.Refinement.Lexer
import CssTokens.Proofs.Roundtrip.Numeral
import Mathlib.Computability.Language

/-!
# Numerals as a language

The grammar of numerals is a language, and what is read as a numeral is the longest word of it that
the text begins with.

To see that no longer word was missed needs no look at how a numeral is read. A word is read in full
where it stands alone. If less of it were read where more text follows, then as little would be read
without this text, since what is read does not depend on what follows it.

Main statement: `Numeral.read_longest`.
-/

namespace CssTokens

/-! ## The grammar -/

namespace Grammar

/-- What may be missing. -/
def optional (l : Language Char) : Language Char := 1 + l

def sign : Language Char := {['+'], ['-']}

/-- Decimal digits, one at least. -/
def digits : Language Char := {ds | ds ≠ [] ∧ ∀ c ∈ ds, c.isDigit = true}

/-- Digits, or a point with digits after it and perhaps before it. -/
def mantissa : Language Char := digits + optional digits * {['.']} * digits

def exponent : Language Char := {['e'], ['E']} * optional sign * digits

def number : Language Char := optional sign * mantissa * optional exponent

variable {cs : List Char}

theorem mem_optional {l : Language Char} : cs ∈ optional l ↔ cs = [] ∨ cs ∈ l :=
  Iff.rfl

theorem mem_optional_sign :
    cs ∈ optional sign ↔ ∃ s : Option Char, (∀ c ∈ s, isSign c = true) ∧ s.toList = cs := by
  constructor
  · rintro (rfl | rfl | rfl)
    · exact ⟨none, by simp, rfl⟩
    · exact ⟨some '+', by simp [isSign], rfl⟩
    · exact ⟨some '-', by simp [isSign], rfl⟩
  · rintro ⟨s, hs, rfl⟩
    cases s with
    | none => exact .inl rfl
    | some c =>
      rcases isSign_iff.mp (hs c rfl) with rfl | rfl
      · exact .inr (.inl rfl)
      · exact .inr (.inr rfl)

theorem mem_optional_digits : cs ∈ optional digits ↔ ∀ c ∈ cs, c.isDigit = true := by
  rw [mem_optional]
  constructor
  · rintro (rfl | ⟨-, hd⟩)
    · exact List.forall_mem_nil _
    · exact hd
  · intro hd
    exact (Classical.em (cs = [])).imp_right fun hne => ⟨hne, hd⟩

/-- A mantissa is the digits before the point and the fraction, one of which may be missing. -/
theorem mem_mantissa :
    cs ∈ mantissa ↔ ∃ whole fraction : List Char, (∀ c ∈ whole, c.isDigit = true)
      ∧ (∀ c ∈ fraction, c.isDigit = true) ∧ (whole ≠ [] ∨ fraction ≠ [])
      ∧ whole ++ fractionText fraction = cs := by
  simp only [mantissa, Language.mem_add, Language.mem_mul, mem_optional_digits]
  constructor
  · rintro (⟨hne, hd⟩ | ⟨_, ⟨whole, hwhole, _, rfl, rfl⟩, fraction, ⟨hne, hfraction⟩, rfl⟩)
    · exact ⟨cs, [], hd, List.forall_mem_nil _, .inl hne, List.append_nil cs⟩
    · refine ⟨whole, fraction, hwhole, hfraction, .inr hne, ?_⟩
      obtain ⟨d, ds, rfl⟩ := List.exists_cons_of_ne_nil hne
      rw [List.append_assoc]
      rfl
  · rintro ⟨whole, fraction, hwhole, hfraction, hne, rfl⟩
    cases fraction with
    | nil =>
      left
      rw [fractionText, List.isEmpty_nil, if_pos rfl, List.append_nil]
      exact ⟨hne.resolve_right fun h => h rfl, hwhole⟩
    | cons d ds =>
      refine .inr ⟨whole ++ ['.'], ⟨whole, hwhole, ['.'], rfl, rfl⟩, d :: ds,
        ⟨List.cons_ne_nil d ds, hfraction⟩, ?_⟩
      rw [List.append_assoc]
      rfl

theorem mem_exponent : cs ∈ exponent ↔ ∃ e : Exponent, e.WellFormed ∧ e.text = cs := by
  simp only [exponent, Language.mem_mul, mem_optional_sign]
  constructor
  · rintro ⟨_, ⟨letter, hletter, _, ⟨sign, hsign, rfl⟩, rfl⟩, ds, ⟨hne, hd⟩, rfl⟩
    rcases hletter with rfl | rfl
    · exact ⟨{ letter := 'e', sign, digits := ds }, ⟨rfl, hsign, hd, hne⟩, rfl⟩
    · exact ⟨{ letter := 'E', sign, digits := ds }, ⟨rfl, hsign, hd, hne⟩, rfl⟩
  · rintro ⟨e, ⟨hletter, hsign, hd, hne⟩, rfl⟩
    refine ⟨[e.letter] ++ e.sign.toList, ⟨[e.letter], ?_, _, ⟨e.sign, hsign, rfl⟩, rfl⟩,
      e.digits, ⟨hne, hd⟩, rfl⟩
    rcases isExponentLetter_iff.mp hletter with hl | hl
    · exact .inl (by rw [hl])
    · exact .inr (by rw [hl]; rfl)

theorem mem_optional_exponent :
    cs ∈ optional exponent ↔
      ∃ e : Option Exponent, (∀ x ∈ e, x.WellFormed) ∧ exponentText e = cs := by
  rw [mem_optional, mem_exponent]
  constructor
  · rintro (rfl | ⟨e, he, rfl⟩)
    · exact ⟨none, by simp, rfl⟩
    · exact ⟨some e, by simpa using he, rfl⟩
  · rintro ⟨e, he, rfl⟩
    cases e with
    | none => exact .inl rfl
    | some e => exact .inr ⟨e, he e rfl, rfl⟩

/-- **The words of the grammar are the texts of numerals.** -/
theorem mem_number : cs ∈ number ↔ ∃ n : Numeral, n.WellFormed ∧ n.text = cs := by
  simp only [number, Language.mem_mul, mem_optional_sign, mem_mantissa, mem_optional_exponent]
  constructor
  · rintro ⟨_, ⟨_, ⟨sign, hsign, rfl⟩, _, ⟨whole, fraction, hwhole, hfraction, hne, rfl⟩, rfl⟩, _,
      ⟨exponent, hexponent, rfl⟩, rfl⟩
    refine ⟨{ sign, whole, fraction, exponent }, ⟨hsign, hwhole, hfraction, hne, hexponent⟩, ?_⟩
    rw [Numeral.text_eq, List.append_assoc, List.append_assoc]
  · rintro ⟨n, hn, rfl⟩
    refine ⟨_, ⟨_, ⟨n.sign, hn.sign, rfl⟩, _,
      ⟨n.whole, n.fraction, hn.whole, hn.fraction, hn.nonempty, rfl⟩, rfl⟩, _,
      ⟨n.exponent, hn.exponent, rfl⟩, ?_⟩
    rw [Numeral.text_eq, List.append_assoc, List.append_assoc]

end Grammar

/-! ## Longest matches -/

/-- The longest word of a language that the text begins with. -/
structure IsLongestMatch (l : Language Char) (cs word : List Char) : Prop where
  mem : word ∈ l
  begins : word <+: cs
  longest : ∀ w ∈ l, w <+: cs → w.length ≤ word.length

namespace Split

variable {α : Type} {f : Split (Option α)} {text : α → List Char} {l : Language Char}

/-- What is read are words of the language, and each of them can be read. -/
structure Recognizes (f : Split (Option α)) (text : α → List Char) (l : Language Char) : Prop where
  isLocal : Local f
  extending : Extends f
  /-- What is read stands in front of the rest. -/
  sound : ∀ {cs a rest}, f cs = (some a, rest) → text a ∈ l ∧ cs = text a ++ rest
  /-- A word that stands alone is read in full. -/
  complete : ∀ {w}, w ∈ l → ∃ a, f w = (some a, [])

namespace Recognizes

variable (h : Recognizes f text l)
include h

/-- **A word is read exactly if there is one.** -/
theorem isSome_iff (cs : List Char) : (f cs).1.isSome = true ↔ ∃ w ∈ l, w <+: cs := by
  constructor
  · intro hsome
    obtain ⟨a, ha⟩ := Option.isSome_iff_exists.mp hsome
    obtain ⟨hmem, hcs⟩ := h.sound (eq_of_fst ha)
    exact ⟨text a, hmem, _, hcs.symm⟩
  · rintro ⟨w, hw, more, rfl⟩
    obtain ⟨a, ha⟩ := h.complete hw
    exact h.extending w more (by rw [ha]; rfl)

/-- **The longest word is read.** -/
theorem isLongestMatch {cs rest : List Char} {a : α} (hf : f cs = (some a, rest)) :
    IsLongestMatch l cs (text a) := by
  obtain ⟨hmem, hcs⟩ := h.sound hf
  refine ⟨hmem, ⟨rest, hcs.symm⟩, ?_⟩
  rintro w hw ⟨more, hmore⟩
  by_contra hshort
  -- If less than the word is read, some of the word is left before what follows it.
  obtain ⟨later, hlater⟩ : more <:+ rest := by
    refine List.suffix_of_suffix_length_le ⟨w, hmore⟩ ⟨text a, hcs.symm⟩ ?_
    have hlen := congrArg List.length (hmore.trans hcs)
    rw [List.length_append, List.length_append] at hlen
    omega
  have hcut : f w = (some a, later) := by
    refine h.isLocal.cut more ?_
    rw [hmore, hf, hlater]
  obtain ⟨b, hb⟩ := h.complete hw
  obtain ⟨-, rfl⟩ := Prod.mk.inj (hcut.symm.trans hb)
  obtain ⟨-, hword⟩ := h.sound hcut
  rw [List.append_nil] at hword
  exact hshort (by rw [hword])

end Recognizes

/-! ## What is read of a numeral -/

theorem nextIf_append_rest (p : Char → Bool) (cs : List Char) :
    (nextIf p cs).1.toList ++ (nextIf p cs).2 = cs := by
  cases cs with
  | nil => rfl
  | cons c cs =>
    rw [nextIf]
    split <;> rfl

theorem digits_append_rest (cs : List Char) : (digits cs).1 ++ (digits cs).2 = cs :=
  List.takeWhile_append_dropWhile

theorem fraction_append_rest (cs : List Char) :
    fractionText (fraction cs).1 ++ (fraction cs).2 = cs := by
  unfold fraction
  split
  · next cs =>
    split
    · rfl
    · next hne =>
      rw [fractionText, if_neg hne, List.cons_append, digits_append_rest]
  · rfl

theorem exponent_append_rest (cs : List Char) :
    exponentText (exponent cs).1 ++ (exponent cs).2 = cs := by
  have hletter := nextIf_append_rest isExponentLetter cs
  have hsign := nextIf_append_rest isSign (nextIf isExponentLetter cs).2
  have hdigits := digits_append_rest (nextIf isSign (nextIf isExponentLetter cs).2).2
  simp only [exponent, attempt, bind_apply]
  cases hl : (nextIf isExponentLetter cs).1 with
  | none => rfl
  | some letter =>
    rw [hl] at hletter
    simp only [bind_apply]
    cases hd : (digits (nextIf isSign (nextIf isExponentLetter cs).2).2).1 with
    | nil => rfl
    | cons d ds =>
      rw [hd] at hdigits
      show letter :: ((nextIf isSign (nextIf isExponentLetter cs).2).1.toList ++ (d :: ds))
        ++ (digits (nextIf isSign (nextIf isExponentLetter cs).2).2).2 = cs
      rw [List.cons_append, List.append_assoc, hdigits, hsign]
      exact hletter

/-- **What is read as a numeral stands in front of the rest.** -/
theorem numeral_append_rest {cs rest : List Char} {n : Numeral}
    (h : numeral cs = (some n, rest)) : n.text ++ rest = cs := by
  have hsign := nextIf_append_rest isSign cs
  have hwhole := digits_append_rest (nextIf isSign cs).2
  have hfraction := fraction_append_rest (digits (nextIf isSign cs).2).2
  have hexponent := exponent_append_rest (fraction (digits (nextIf isSign cs).2).2).2
  simp only [numeral, attempt, bind_apply] at h
  split at h
  · next hread =>
    cases h
    split at hread
    · cases hread
    · cases hread
      rw [Numeral.text_eq, List.append_assoc, List.append_assoc, List.append_assoc]
      dsimp only
      rw [hexponent, hfraction, hwhole, hsign]
  · cases h

theorem numeral_recognizes : Recognizes numeral Numeral.text Grammar.number where
  isLocal := numeral_local
  extending := numeral_extends
  sound {cs n rest} h := by
    have hn : n.WellFormed := numeral_yields cs n (by rw [h]; rfl)
    exact ⟨Grammar.mem_number.mpr ⟨n, hn, rfl⟩, (numeral_append_rest h).symm⟩
  complete {w} hw := by
    obtain ⟨n, hn, rfl⟩ := Grammar.mem_number.mp hw
    have hends : EndsNumeral [] := ⟨rfl, rfl, rfl⟩
    have hread := numeral_text hn hends
    rw [List.append_nil] at hread
    exact ⟨n, hread⟩

end Split

/-! ## Reading a numeral -/

/--
**The longest numeral that the text begins with is read**, and nothing if there is none. The rest of
the text is left as it is.
-/
theorem Numeral.read_longest {s : Scanner} (hs : s.Settled) :
    read.Outcome s (∃ w ∈ Grammar.number, w <+: s.remaining) fun n rest =>
      IsLongestMatch Grammar.number s.remaining n.text ∧ s.remaining = n.text ++ rest := by
  refine read_reads.outcome hs Split.numeral_keeps (Split.numeral_recognizes.isSome_iff _) ?_
  intro n rest hread
  exact ⟨Split.numeral_recognizes.isLongestMatch hread, (Split.numeral_append_rest hread).symm⟩

/-- Without the digits of an exponent, neither the letter nor the sign after it belongs to the
numeral, of which a digit was pushed back. -/
theorem Numeral.read_longest_letter :
    ∃ n s', read { source := Source.ofString "0e+x", pushed := [some '1'] } = .ok (some n) s'
      ∧ n.text = ['1', '0'] ∧ IsLongestMatch Grammar.number ['1', '0', 'e', '+', 'x'] n.text
      ∧ s'.remaining = ['e', '+', 'x'] := by
  have hsettled : Scanner.Settled { source := Source.ofString "0e+x", pushed := [some '1'] } :=
    ⟨Source.infallible_ofString "0e+x", ['1'], .inl rfl⟩
  have hremaining : Scanner.remaining { source := Source.ofString "0e+x", pushed := [some '1'] } =
      ['1', '0', 'e', '+', 'x'] := by decide +kernel
  have hdigits : ['1', '0'] ∈ Grammar.number :=
    Grammar.mem_number.mpr ⟨{ sign := none, whole := ['1', '0'], fraction := [], exponent := none },
      ⟨by simp, List.all_eq_true.mp rfl, List.forall_mem_nil _, by decide, by simp⟩, rfl⟩
  have hbegins : ['1', '0'] <+: ['1', '0', 'e', '+', 'x'] := ⟨['e', '+', 'x'], rfl⟩
  have houtcome := read_longest hsettled
  rw [hremaining] at houtcome
  obtain ⟨n, s', hn⟩ := houtcome.succeeds.mpr ⟨_, hdigits, hbegins⟩
  obtain ⟨⟨hlongest, htext⟩, -⟩ := houtcome.reads n s' hn
  have hrun : EStateM.run' read { source := Source.ofString "0e+x", pushed := [some '1'] } =
      some (some { sign := none, whole := ['1', '0'], fraction := [], exponent := none }) := by
    decide +kernel
  obtain rfl := Option.some.inj (Option.some.inj (hrun.symm.trans (ScanM.run'_of_ok hn)))
  have hrest : ['1', '0'] ++ ['e', '+', 'x'] = ['1', '0'] ++ s'.remaining := htext
  exact ⟨_, s', hn, rfl, hlongest, (List.append_cancel_left hrest).symm⟩

end CssTokens
