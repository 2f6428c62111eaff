import CssTokens.Proofs.Roundtrip.Hex
import CssTokens.Proofs.Roundtrip.Written
import CssTokens.Proofs.Split.Name
import CssTokens.Proofs.Text.CharClass
import CssTokens.Proofs.Text.Normal

/-!
# Names read back

What is written for a character is read as this character, whatever follows. From there it is an
induction to names, and an identifier is its first character and a name.

Main statements: `name_nameText` and `ident_identifierText`.
-/

namespace CssTokens

theorem isNameControl_iff {c : Char} :
    isNameControl c = true ↔ c.toNat ≤ 0x1F ∨ 0x7F ≤ c.toNat ∧ c.toNat ≤ 0x9F := by
  simp [isNameControl]

namespace Split

/-! ## Characters -/

/-- **An escape by code point is read back.** The blank after it belongs to it, since there are not
more than five digits. -/
theorem escape_hexDigits {c : Char} (h : c.toNat < 0x100000) (rest : List Char) :
    escape (hexDigits c.toNat ++ ' ' :: rest) = (some c, rest) := by
  obtain ⟨d, ds, hds⟩ := List.exists_cons_of_ne_nil (hexDigits_ne_nil c.toNat)
  have hhex : ∀ e ∈ d :: ds, isHexDigit e = true := by
    rw [← hds]
    exact fun e he => isHexDigit_of_mem_hexDigits he
  -- Less than five digits follow the first one, so that a blank may end the escape.
  have hlen : ds.length < 5 := by
    have := hexDigits_length_le h
    rw [hds] at this
    exact this
  have htake : takeUpTo isHexDigit 5 (ds ++ ' ' :: rest) = (ds, ' ' :: rest) :=
    takeUpTo_append (fun e he => hhex e (List.mem_cons_of_mem d he)) (Nat.le_of_lt hlen)
      fun _ e he => by cases he; rfl
  have hblank : nextIf (fun c => isBlank c && ds.length < 5) (' ' :: rest) = (some ' ', rest) :=
    nextIf_pos (by simpa [isBlank] using hlen)
  rw [hds, List.cons_append, escape_cons, if_pos (hhex d List.mem_cons_self)]
  have hcode : codePointEscape d (ds ++ ' ' :: rest) = (c, rest) := by
    rw [codePointEscape, bind_apply, htake, bind_apply, hblank, pure_apply, ← hds,
      ofHexDigits_hexDigits, charOfCodePoint_toNat]
  rw [hcode]

section
variable {p : Char → Bool} {c : Char}

theorem charOrEscape_hexEscapeText (hp : p '\\' = false) (h : c.toNat < 0x100000)
    (rest : List Char) : charOrEscape p (hexEscapeText c ++ rest) = (some c, rest) := by
  rw [hexEscapeText, List.cons_append, List.cons_append, List.append_assoc, charOrEscape_neg hp]
  exact escaped_some (escape_hexDigits h rest)

/-- A character after a backslash stands for itself, unless it is a hexadecimal digit or a line
break. -/
theorem charOrEscape_escapedText (hp : p '\\' = false) (h : isHexDigit c = false)
    (rest : List Char) : charOrEscape p (escapedText c ++ rest) = (some c, rest) := by
  unfold escapedText
  split
  · next hc =>
    refine charOrEscape_hexEscapeText hp ?_ rest
    rw [isNameControl_iff] at hc
    omega
  · next hc =>
    have hn : ¬(c == '\n') = true := by
      rintro hn
      rw [beq_iff_eq.mp hn] at hc
      exact hc rfl
    show charOrEscape p ('\\' :: c :: rest) = _
    rw [charOrEscape_neg hp]
    refine escaped_some ?_
    rw [escape_cons, if_neg (by simp [h]), if_neg hn]

end

/-- **A character of a name is read back.** -/
theorem charOrEscape_nameCharText (c : Char) (rest : List Char) :
    charOrEscape isNameChar (nameCharText c ++ rest) = (some c, rest) := by
  unfold nameCharText
  split
  · next hc => exact charOrEscape_pos hc
  · next hc =>
    -- No hexadecimal digit is escaped by a backslash alone, since digits can stand in a name.
    simp only [isNameChar, Bool.or_eq_true, not_or, Bool.not_eq_true] at hc
    exact charOrEscape_escapedText rfl (isHexDigit_eq_false hc.1.1 hc.1.2) rest

/-- **The first character of an identifier is read back.** -/
theorem charOrEscape_nameStartText (c : Char) (rest : List Char) :
    charOrEscape isNameStart (nameStartText c ++ rest) = (some c, rest) := by
  unfold nameStartText
  split
  · next hc => exact charOrEscape_pos hc
  · next hc =>
    split
    · next hd =>
      refine charOrEscape_hexEscapeText rfl ?_ rest
      have := toNat_of_isDigit hd
      omega
    · next hd =>
      exact charOrEscape_escapedText rfl
        (isHexDigit_eq_false (by simpa using hc) (by simpa using hd)) rest

/-! ## Names -/

/-- **The characters of a name are read back**, and then the reading goes on. -/
theorem many_nameText (cs rest : List Char) :
    (Item.orEscape isNameChar).many (nameText cs ++ rest) =
      (cs ++ ((Item.orEscape isNameChar).many rest).1,
        ((Item.orEscape isNameChar).many rest).2) :=
  Item.many_flatMap charOrEscape_nameCharText cs rest

section
variable {cs rest : List Char} (hrest : (charOrEscape isNameChar rest).1 = none)
include hrest

theorem many_nameText_end : (Item.orEscape isNameChar).many (nameText cs ++ rest) = (cs, rest) := by
  rw [many_nameText, Item.many_nil hrest, List.append_nil]

/-- **A name is read back up to where no name can go on.** -/
theorem name_nameText (h : cs ≠ []) : name (nameText cs ++ rest) = (some cs, rest) := by
  obtain ⟨c, cs, rfl⟩ := List.exists_cons_of_ne_nil h
  rw [name, bind_apply, many_nameText_end hrest]
  rfl

end

/-! ## Identifiers -/

/-- The first character stands for itself, or an escape for it. -/
theorem nameStartText_cases (c : Char) :
    (isNameStart c = true ∧ nameStartText c = [c]) ∨ ∃ ds, nameStartText c = '\\' :: ds := by
  unfold nameStartText escapedText hexEscapeText
  split
  · next hc => exact .inl ⟨hc, rfl⟩
  · refine .inr ?_
    split
    · exact ⟨_, rfl⟩
    · split <;> exact ⟨_, rfl⟩

/-- What is written for the first character begins with a letter or a backslash, or the like. -/
theorem nameStartText_cons (c : Char) :
    ∃ d ds, nameStartText c = d :: ds ∧ (isNameStart d = true ∨ d = '\\') := by
  rcases nameStartText_cases c with ⟨hc, htext⟩ | ⟨ds, htext⟩
  · exact ⟨c, [], htext, .inl hc⟩
  · exact ⟨'\\', ds, htext, .inr rfl⟩

/-- But for digits and hyphens, a character of a name is written like the first one. -/
theorem nameCharText_eq_nameStartText {c : Char} (hd : c.isDigit = false) (hc : c ≠ '-') :
    nameCharText c = nameStartText c := by
  simp [nameCharText, nameStartText, isNameChar, hd, hc]

theorem ne_of_nameStart {c d : Char} (h : isNameStart d = true ∨ d = '\\')
    (hs : isNameStart c = false) (hc : c ≠ '\\') : d ≠ c := by
  rintro rfl
  rcases h with h | h
  · rw [hs] at h
    cases h
  · exact hc h

/-- What an identifier is made of. -/
theorem ident_of_first {cs after rest : List Char} {hyphen : Option Char} {c : Char}
    (hh : nextIf (· == '-') cs = (hyphen, after))
    (hc : charOrEscape isNameStart after = (some c, rest)) :
    ident cs = (some (hyphen.toList ++ c :: ((Item.orEscape isNameChar).many rest).1),
      ((Item.orEscape isNameChar).many rest).2) := by
  refine attempt_some ?_
  rw [bind_apply, hh, bind_apply]
  dsimp only
  rw [hc]
  rfl

/-- **An identifier is read back up to where no name can go on.** -/
theorem ident_identifierText {cs rest : List Char}
    (hrest : (charOrEscape isNameChar rest).1 = none) (h : cs ≠ []) :
    ident (identifierText cs ++ rest) = (some cs, rest) := by
  obtain ⟨c, cs, rfl⟩ := List.exists_cons_of_ne_nil h
  by_cases hc : c = '-'
  · subst hc
    cases cs with
    | nil =>
      -- The hyphen is escaped, so that it is the first character and not the hyphen before it.
      have hfirst : charOrEscape isNameStart ('\\' :: '-' :: rest) = (some '-', rest) :=
        charOrEscape_escapedText (p := isNameStart) (c := '-') rfl rfl rest
      show ident ('\\' :: '-' :: rest) = _
      rw [ident_of_first (nextIf_neg rfl) hfirst, Item.many_nil hrest]
      rfl
    | cons c cs =>
      show ident ('-' :: (nameStartText c ++ nameText cs ++ rest)) = _
      rw [List.append_assoc, ident_of_first (nextIf_pos rfl) (charOrEscape_nameStartText c _),
        many_nameText_end hrest]
      rfl
  · have hhyphen : nextIf (· == '-') (nameStartText c ++ (nameText cs ++ rest)) =
        (none, nameStartText c ++ (nameText cs ++ rest)) := by
      obtain ⟨d, ds, hds, hd⟩ := nameStartText_cons c
      rw [hds, List.cons_append]
      exact nextIf_neg (beq_eq_false_iff_ne.mpr (ne_of_nameStart hd rfl (by decide)))
    rw [identifierText_of_ne hc, List.append_assoc,
      ident_of_first hhyphen (charOrEscape_nameStartText c _), many_nameText_end hrest]
    rfl

end Split

/-! ## No control characters

An escape by code point hides a control character, so that normalization leaves the text as it is.
-/

/-- No character of the text is below the space. -/
def NoControls (cs : List Char) : Prop :=
  ∀ c ∈ cs, 0x20 ≤ c.toNat

instance (cs : List Char) : Decidable (NoControls cs) :=
  List.decidableBAll (fun c : Char => 0x20 ≤ c.toNat) cs

namespace NoControls

variable {cs ds : List Char} {c : Char}

theorem nil : NoControls [] := fun _ h => by cases h

theorem cons (hc : 0x20 ≤ c.toNat) (h : NoControls cs) : NoControls (c :: cs) :=
  List.forall_mem_cons.mpr ⟨hc, h⟩

theorem append (hc : NoControls cs) (hd : NoControls ds) : NoControls (cs ++ ds) :=
  List.forall_mem_append.mpr ⟨hc, hd⟩

theorem isNormal (h : NoControls cs) (hc : c ∈ cs) : isNormal c = true := by
  have hne : ∀ d : Char, d.toNat < 0x20 → c ≠ d := by
    rintro d hd rfl
    have := h c hc
    omega
  simp [CssTokens.isNormal, hne '\r' (by decide), hne '\x0C' (by decide), hne '\x00' (by decide)]

end NoControls

theorem hexEscapeText_noControls (c : Char) : NoControls (hexEscapeText c) := by
  refine .cons (by decide) (.append ?_ (.cons (by decide) .nil))
  intro d hd
  rcases isNameStart_or_isDigit (isHexDigit_of_mem_hexDigits hd) with h | h
  · have := toNat_of_isNameStart h
    omega
  · have := toNat_of_isDigit h
    omega

theorem escapedText_noControls (c : Char) : NoControls (escapedText c) := by
  unfold escapedText
  split
  · exact hexEscapeText_noControls c
  · next hc =>
    refine .cons (by decide) (.cons ?_ .nil)
    rw [isNameControl_iff] at hc
    omega

theorem nameCharText_noControls (c : Char) : NoControls (nameCharText c) := by
  unfold nameCharText
  split
  · next hc =>
    have := toNat_of_isNameChar hc
    exact .cons (by omega) .nil
  · exact escapedText_noControls c

theorem nameStartText_noControls (c : Char) : NoControls (nameStartText c) := by
  unfold nameStartText
  split
  · next hc =>
    have := toNat_of_isNameStart hc
    exact .cons (by omega) .nil
  · split
    · exact hexEscapeText_noControls c
    · exact escapedText_noControls c

theorem nameText_noControls (cs : List Char) : NoControls (nameText cs) := by
  induction cs with
  | nil => exact .nil
  | cons c cs ih => exact (nameCharText_noControls c).append ih

theorem identifierText_noControls (cs : List Char) : NoControls (identifierText cs) := by
  fun_cases identifierText cs with
  | case1 => exact .nil
  | case2 => exact .cons (by decide) (.cons (by decide) .nil)
  | case3 c cs =>
    exact .cons (by decide) ((nameStartText_noControls c).append (nameText_noControls cs))
  | case4 c cs => exact (nameStartText_noControls c).append (nameText_noControls cs)

end CssTokens
