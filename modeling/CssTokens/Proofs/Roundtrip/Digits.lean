import CssTokens.Binary64.Layout
import CssTokens.Proofs.Roundtrip.Numeral
import CssTokens.Proofs.Text.CharClass
import Mathlib.Tactic.Ring

/-!
# Written digits

What a coefficient is written with: digits before the point and, unless it is an integer, digits
after it, the last of which is not zero.

Main statement: `fixedText_eq`.
-/

namespace CssTokens

theorem isDigit_of_mem_toDigits {n : Nat} : ∀ c ∈ Nat.toDigits 10 n, c.isDigit = true :=
  fun _ hc => Nat.isDigit_of_mem_toDigits (by decide) (by decide) hc

theorem ofDigits_toDigits (n : Nat) : ofDigits (Nat.toDigits 10 n) = n :=
  Nat.ofDigitChars_toDigits (by decide) (by decide)

/-- Only zero is written with a zero in front. -/
theorem exists_toDigits_of_pos {n : Nat} (hn : 0 < n) :
    ∃ d ds, Nat.toDigits 10 n = d :: ds ∧ d ≠ '0' := by
  induction n using Nat.strongRecOn with
  | ind n ih =>
    rcases Nat.lt_or_ge n 10 with hlt | hge
    · have hdigits : Nat.toDigits 10 n = [n.digitChar] := Nat.toDigits_of_lt_base hlt
      refine ⟨_, [], hdigits, fun hzero => ?_⟩
      have hvalue := ofDigits_toDigits n
      rw [hdigits, hzero] at hvalue
      exact Nat.ne_of_lt hn hvalue
    · obtain ⟨d, ds, hdigits, hd⟩ := ih (n / 10) (by omega) (by omega)
      rw [Nat.toDigits_of_base_le (by decide) hge, hdigits]
      exact ⟨d, _, rfl, hd⟩

theorem ofDigits_append (ds es : List Char) :
    ofDigits (ds ++ es) = ofDigits ds * 10 ^ es.length + ofDigits es := by
  unfold ofDigits
  rw [Nat.ofDigitChars_append, Nat.ofDigitChars_eq_ofDigitChars_zero, Nat.mul_comm]

theorem ofDigits_replicate_zero (k : Nat) : ofDigits (List.replicate k '0') = 0 := by
  rw [ofDigits, Nat.ofDigitChars_replicate_zero, Nat.mul_zero]

/-! ## Zeros at the end -/

/-- Digits without the zeros at their end. -/
def trimZeros (ds : List Char) : List Char :=
  (ds.reverse.dropWhile (· == '0')).reverse

variable {ds : List Char}

theorem exists_trimZeros (ds : List Char) : ∃ k, ds = trimZeros ds ++ List.replicate k '0' := by
  have hsplit : trimZeros ds ++ (ds.reverse.takeWhile (· == '0')).reverse = ds := by
    rw [trimZeros, ← List.reverse_append, List.takeWhile_append_dropWhile, List.reverse_reverse]
  have hzeros : ∀ c ∈ (ds.reverse.takeWhile (· == '0')).reverse, c = '0' := fun c hc =>
    beq_iff_eq.mp (List.all_eq_true.mp List.all_takeWhile c (List.mem_reverse.mp hc))
  rw [List.eq_replicate_of_mem hzeros] at hsplit
  exact ⟨_, hsplit.symm⟩

theorem mem_of_mem_trimZeros {c : Char} (h : c ∈ trimZeros ds) : c ∈ ds := by
  have hmem := (List.dropWhile_suffix _).subset (List.mem_reverse.mp h)
  exact List.mem_reverse.mp hmem

/-- Digits that do not end in zero are not all zeros. -/
theorem ofDigits_trimZeros_pos (hd : ∀ c ∈ ds, c.isDigit = true) (hne : trimZeros ds ≠ []) :
    0 < ofDigits (trimZeros ds) := by
  cases hdrop : ds.reverse.dropWhile (· == '0') with
  | nil => exact absurd (by rw [trimZeros, hdrop]; rfl) hne
  | cons c cs =>
    have hkept : trimZeros ds = cs.reverse ++ [c] := by rw [trimZeros, hdrop, List.reverse_cons]
    have hdigit := toNat_of_isDigit (hd c (mem_of_mem_trimZeros (by simp [hkept])))
    have hc : c ≠ '0' := by
      have hhead := List.head?_dropWhile_not (· == '0') ds.reverse
      rw [hdrop] at hhead
      simpa using hhead
    have hcode : c.toNat ≠ '0'.toNat := fun h => hc (Char.toNat_inj.mp h)
    have hlast : ofDigits [c] = c.toNat - '0'.toNat := by
      rw [ofDigits, Nat.ofDigitChars_cons, Nat.ofDigitChars_nil, Nat.mul_zero, Nat.zero_add]
    have hzero : '0'.toNat = 0x30 := rfl
    rw [hkept, ofDigits_append, hlast]
    omega

/-- The zeros at the end are a factor of the number. -/
theorem ofDigits_trimZeros (ds : List Char) :
    ∃ k, (trimZeros ds).length + k = ds.length
      ∧ ofDigits (trimZeros ds) * 10 ^ k = ofDigits ds := by
  obtain ⟨k, hk⟩ := exists_trimZeros ds
  refine ⟨k, ?_, ?_⟩
  · conv_rhs => rw [hk, List.length_append, List.length_replicate]
  · conv_rhs =>
      rw [hk, ofDigits_append, ofDigits_replicate_zero, List.length_replicate, Nat.add_zero]

/-- No digits are left if all of them are zeros. -/
theorem trimZeros_eq_nil_iff (hd : ∀ c ∈ ds, c.isDigit = true) :
    trimZeros ds = [] ↔ ofDigits ds = 0 := by
  obtain ⟨k, -, hvalue⟩ := ofDigits_trimZeros ds
  rw [← hvalue]
  constructor
  · intro hnil
    rw [hnil]
    exact Nat.zero_mul _
  · intro hzero
    by_contra hne
    have hpos : 0 < ofDigits (trimZeros ds) * 10 ^ k :=
      Nat.mul_pos (ofDigits_trimZeros_pos hd hne) (Nat.pow_pos (by decide))
    omega

/-! ## Coefficients -/

/-- A number below a power of ten, with zeros before it up to the digits of that power. -/
theorem padded_spec {n places : Nat} (hp : 0 < places) (hn : n < 10 ^ places) :
    let padded := List.replicate (places - (Nat.toDigits 10 n).length) '0' ++ Nat.toDigits 10 n
    padded.length = places ∧ ofDigits padded = n ∧ ∀ c ∈ padded, c.isDigit = true := by
  have hlength := (Nat.length_toDigits_le_iff (by decide) hp).mpr hn
  refine ⟨?_, ?_, fun c hc => ?_⟩
  · rw [List.length_append, List.length_replicate]
    omega
  · rw [ofDigits_append, ofDigits_replicate_zero, ofDigits_toDigits, Nat.zero_mul, Nat.zero_add]
  · rcases List.mem_append.mp hc with hc | hc
    · rw [List.eq_of_mem_replicate hc]
      rfl
    · exact isDigit_of_mem_toDigits c hc

/-- **A coefficient is digits, or digits, a point and digits.** There are digits after the point if
the coefficient is no integer. -/
theorem fixedText_eq (digits places : Nat) :
    ∃ (whole : Nat) (fraction : List Char), (∀ c ∈ fraction, c.isDigit = true)
      ∧ fixedText digits places = Nat.toDigits 10 whole ++ fractionText fraction
      ∧ ofDigits (Nat.toDigits 10 whole ++ fraction) * 10 ^ places = digits * 10 ^ fraction.length
      ∧ (fraction = [] ↔ 10 ^ places ∣ digits) := by
  rcases Nat.eq_zero_or_pos places with rfl | hplaces
  · refine ⟨digits / Nat.pow 10 0, [], by simp, ?_, ?_, by simp⟩
    · exact (List.append_nil _).symm
    · rw [List.append_nil, ofDigits_toDigits, Nat.pow_eq, Nat.pow_zero, Nat.div_one]
      rfl
  have hlt : digits % Nat.pow 10 places < 10 ^ places := Nat.mod_lt _ (Nat.pow_pos (by decide))
  obtain ⟨hlength, hvalue, hdigits⟩ := padded_spec hplaces hlt
  unfold fixedText
  extract_lets whole fraction padded kept
  have hkept : kept = trimZeros padded := rfl
  refine ⟨digits / Nat.pow 10 places, kept, fun c hc => ?_, ?_, ?_, ?_⟩
  · exact hdigits c (mem_of_mem_trimZeros hc)
  · have hne : decide (places = 0) = false := decide_eq_false (Nat.ne_of_gt hplaces)
    rw [hne, Bool.false_or, fractionText]
    split
    · exact (List.append_nil _).symm
    · rfl
  · obtain ⟨k, hk, htrim⟩ := ofDigits_trimZeros padded
    rw [← hkept] at hk htrim
    have hpow : 10 ^ places = 10 ^ kept.length * 10 ^ k := by
      rw [← Nat.pow_add, hk]
      exact congrArg _ hlength.symm
    have hrest : ofDigits kept * 10 ^ k = digits % 10 ^ places := htrim.trans hvalue
    have hfirst : ofDigits whole = digits / 10 ^ places := ofDigits_toDigits _
    rw [ofDigits_append]
    show (ofDigits whole * 10 ^ kept.length + ofDigits kept) * 10 ^ places = _
    calc (ofDigits whole * 10 ^ kept.length + ofDigits kept) * 10 ^ places
        = (ofDigits whole * 10 ^ places + ofDigits kept * 10 ^ k) * 10 ^ kept.length := by
          rw [hpow]
          ring
      _ = digits * 10 ^ kept.length := by rw [hrest, hfirst, Nat.div_add_mod']
  · rw [hkept, trimZeros_eq_nil_iff hdigits, Nat.dvd_iff_mod_eq_zero]
    exact iff_of_eq (congrArg (· = 0) hvalue)

end CssTokens
