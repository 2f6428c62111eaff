import CssTokens.Proofs.Grammar.Name
import CssTokens.Proofs.Roundtrip.Identifier
import CssTokens.Proofs.Roundtrip.Quoted
import CssTokens.Proofs.Split.Kind

/-!
# Texts that are identifiers as they are

A text is written without quotes if it is an identifier as it stands. No other text reads as an
identifier that spells this very text: an escape has more characters than it stands for, and so a
text that stands for itself has none. Normalization does not make a text longer, so that it has
changed nothing either.

Main statement: a text is plain exactly if it reads as an identifier with this text, and a text that
is written in one way or the other is read back (`plain_iff_readsAs`).
-/

namespace CssTokens

namespace Grammar

variable {P : Char → Prop} {c : Char} {cs text rest : List Char}

/-! ## What stands for itself -/

theorem Spelled.shorter (h : Spelled P cs c rest) : rest.length < cs.length := by
  cases h with
  | plain _ => exact Nat.lt_succ_self _
  | escape he => exact Nat.lt_succ_of_lt he.shorter

/-- An escape costs more than one character. -/
theorem Spelled.plain_of_length (h : Spelled P cs c rest) (hlen : cs.length ≤ rest.length + 1) :
    cs = c :: rest ∧ P c := by
  cases h with
  | plain hc => exact ⟨rfl, hc⟩
  | escape he =>
    have hshorter := he.shorter
    rw [List.length_cons] at hlen
    omega

theorem Run.length_le (h : Run (Spelled P) cs text rest) : text.length ≤ cs.length := by
  induction h with
  | stop _ => exact Nat.zero_le _
  | item hitem _ ih =>
    have hshorter := hitem.shorter
    rw [List.length_cons]
    omega

/-- **A text that spells as many characters as it has stands for itself.** -/
theorem Run.plain_of_length (h : Run (Spelled P) cs text rest) (hlen : cs.length ≤ text.length) :
    cs = text ∧ ∀ c ∈ text, P c := by
  induction h with
  | stop _ =>
    exact ⟨List.length_eq_zero_iff.mp (Nat.le_zero.mp hlen), fun c hc => absurd hc List.not_mem_nil⟩
  | @item c as cs mid rest hitem hrun ih =>
    have hshorter := hitem.shorter
    have hle := hrun.length_le
    rw [List.length_cons] at hlen
    -- The rest cannot make up for an escape, so there is none.
    obtain ⟨rfl, hc⟩ := hitem.plain_of_length (by omega)
    obtain ⟨rfl, hall⟩ := ih (by omega)
    exact ⟨rfl, List.forall_mem_cons.mpr ⟨hc, hall⟩⟩

/-- A name that stands for itself begins with a character that starts it. -/
theorem Name.starts_of_length (hname : Name cs text rest) (hbegins : Begins (Spelled StartsName) cs)
    (hlen : cs.length ≤ text.length) :
    ∃ c ds, text = c :: ds ∧ StartsName c ∧ ∀ d ∈ ds, GoesInName d := by
  obtain ⟨rfl, hall⟩ := Run.plain_of_length hname hlen
  obtain ⟨c, mid, hfirst⟩ := hbegins
  cases hfirst with
  | plain hc => exact ⟨c, mid, rfl, hc, (List.forall_mem_cons.mp hall).2⟩
  | escape _ =>
    -- The backslash of an escape does not stand for itself.
    have hback := hall '\\' List.mem_cons_self
    simp [GoesInName, StartsName] at hback

end Grammar

open Grammar

/-! ## Plain identifiers -/

section
variable {cs text rest : List Char}

theorem isPlainIdentifier_iff :
    isPlainIdentifier cs = true ↔ ∃ c ds, (cs = c :: ds ∨ cs = '-' :: c :: ds)
      ∧ isNameStart c = true ∧ ∀ d ∈ ds, isNameChar d = true := by
  have hhyphen : ∀ c ds,
      isPlainIdentifier ('-' :: c :: ds) = (isNameStart c && ds.all isNameChar) := fun _ _ => rfl
  have hother : ∀ {c : Char}, c ≠ '-' → ∀ ds,
      isPlainIdentifier (c :: ds) = (isNameStart c && ds.all isNameChar) := by
    intro c hc ds
    rw [isPlainIdentifier, if_neg (by simpa using hc)]
  constructor
  · intro h
    cases cs with
    | nil => cases h
    | cons c ds =>
      by_cases hc : c = '-'
      · subst hc
        cases ds with
        | nil => cases h
        | cons d ds =>
          rw [hhyphen, Bool.and_eq_true, List.all_eq_true] at h
          exact ⟨d, ds, .inr rfl, h.1, h.2⟩
      · rw [hother hc, Bool.and_eq_true, List.all_eq_true] at h
        exact ⟨c, ds, .inl rfl, h.1, h.2⟩
  · rintro ⟨c, ds, rfl | rfl, hc, hds⟩
    · have hne : c ≠ '-' := Split.ne_of_nameStart (.inl hc) rfl (by decide)
      rw [hother hne, Bool.and_eq_true, List.all_eq_true]
      exact ⟨hc, hds⟩
    · rw [hhyphen, Bool.and_eq_true, List.all_eq_true]
      exact ⟨hc, hds⟩

/-- The characters of a name are written as they are. -/
theorem nameText_of_nameChars (h : ∀ c ∈ cs, isNameChar c = true) : nameText cs = cs := by
  induction cs with
  | nil => rfl
  | cons c cs ih =>
    obtain ⟨hc, hcs⟩ := List.forall_mem_cons.mp h
    have hchar : nameCharText c = [c] := if_pos hc
    rw [nameText, List.flatMap_cons, hchar, ← nameText, ih hcs]
    rfl

/-- An identifier that spells as many characters as it has is plain. -/
theorem isPlainIdentifier_of_length (h : Identifier cs text rest)
    (hlen : cs.length ≤ text.length) : isPlainIdentifier text = true := by
  rw [isPlainIdentifier_iff]
  cases h with
  | plain hbegins hname =>
    obtain ⟨c, ds, rfl, hc, hds⟩ := hname.starts_of_length hbegins hlen
    exact ⟨c, ds, .inl rfl, isNameStart_iff.mpr hc, fun d hd => isNameChar_iff.mpr (hds d hd)⟩
  | hyphen hbegins hname =>
    obtain ⟨c, ds, rfl, hc, hds⟩ := hname.starts_of_length hbegins (Nat.le_of_succ_le_succ hlen)
    exact ⟨c, ds, .inr rfl, isNameStart_iff.mpr hc, fun d hd => isNameChar_iff.mpr (hds d hd)⟩

/-- **A plain identifier is written as it is.** -/
theorem identifierText_of_plain (h : isPlainIdentifier cs = true) : identifierText cs = cs := by
  obtain ⟨c, ds, hcs, hc, hds⟩ := isPlainIdentifier_iff.mp h
  have hstart : nameStartText c = [c] := if_pos hc
  have hname : nameText ds = ds := nameText_of_nameChars hds
  rcases hcs with rfl | rfl
  · have hne : c ≠ '-' := Split.ne_of_nameStart (.inl hc) rfl (by decide)
    rw [identifierText_of_ne hne, hstart, hname]
    rfl
  · show '-' :: nameStartText c ++ nameText ds = _
    rw [hstart, hname]
    rfl

end

namespace Tokenizer

open WriteM

variable (options : Options)

/-- A plain text reads as an identifier. -/
theorem readsAs_of_plain {value : String} (h : isPlainIdentifier value.toList = true) :
    ReadsAs value options [{ kind := .ident, value }] := by
  have hne : value.toList ≠ [] := by
    intro hnil
    rw [hnil] at h
    cases h
  have hreads := readsAs_identifierText hne options
  rwa [identifierText_of_plain h, String.ofList_toList] at hreads

/-- A text that reads as an identifier with this text is plain. -/
theorem plain_of_readsAs {value : String} (h : ReadsAs value options [{ kind := .ident, value }]) :
    isPlainIdentifier value.toList = true := by
  rw [readsAs_iff] at h
  have hk : (Split.delivered options.skipComments (normalize value.toList)).1.kind ≠ .eof := by
    intro hk
    rw [Split.lexemes_eof hk] at h
    cases congrArg List.length h
  rw [Split.lexemes_cons hk, List.map_cons] at h
  have htoken := (List.cons.inj h).1
  obtain ⟨later, hlater, heq⟩ :=
    Split.delivered_eq options.skipComments (normalize value.toList)
  rw [heq] at htoken
  have hkind : (Split.lexeme later).1.kind = .ident := congrArg Token.kind htoken
  have htext : (Split.lexeme later).1.text = value.toList := by
    have hvalue : String.ofList (Split.lexeme later).1.text = value := congrArg Token.value htoken
    rw [← hvalue, String.toList_ofList]
  obtain ⟨hident, -⟩ := Split.ident_of_lexeme hkind
  rw [htext] at hident
  -- What was read is no longer than the text, and it spells all of it.
  refine isPlainIdentifier_of_length (Split.ident_sound hident) ?_
  exact Nat.le_trans hlater.length_le (normalize_length_le value.toList)

theorem readsAs_writeString (value : String) :
    ReadsAs (writeString value.toList).written options [{ kind := .quotedString, value }] := by
  have hreads := readsAs_string value.toList options
  rwa [String.ofList_toList, ← written_chars, ← writeString_eq] at hreads

/--
**A text is plain exactly if it reads as an identifier with this text.** So it is read back, whether
it is written as it is or in quotes.
-/
theorem plain_iff_readsAs (value : String) :
    (isPlainIdentifier value.toList = true ↔ ReadsAs value options [{ kind := .ident, value }])
      ∧ ReadsAs (writeStringOrIdent value.toList).written options
        [{ kind := if isPlainIdentifier value.toList then .ident else .quotedString, value }] := by
  refine ⟨⟨readsAs_of_plain options, plain_of_readsAs options⟩, ?_⟩
  unfold writeStringOrIdent
  split
  · next h =>
    rw [written_chars, String.ofList_toList]
    exact readsAs_of_plain options h
  · exact readsAs_writeString options value

end Tokenizer

end CssTokens
