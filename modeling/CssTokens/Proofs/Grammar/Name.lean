import CssTokens.Proofs.Refinement.Composed
import CssTokens.Proofs.Refinement.Lexer
import CssTokens.Proofs.Roundtrip.Name

/-!
# The grammar of names

What a text spells, by rules that say for each text what it begins with and what is left of it. An
escape has as many digits as there are, but not more than six, and a name is as long as it can be.
Both are part of the rules, so that they leave no choice.

Main statement: names and identifiers are read by these rules (`Lexer.ident_name_outcome`).
-/

namespace CssTokens

namespace Grammar

variable {α : Type}

/-- What a text begins with, and what is left of it. -/
abbrev Rule (α : Type) : Type := List Char → α → List Char → Prop

/-- Whether a text begins in accordance with a rule. -/
def Begins (R : Rule α) (cs : List Char) : Prop :=
  ∃ a rest, R cs a rest

/-! ## Escapes -/

/-- What is spelled after a backslash. -/
inductive Escape : Rule Char
  /-- Any character but a hexadecimal digit and a line break stands for itself. -/
  | plain {c : Char} {rest : List Char} : isHexDigit c = false → c ≠ '\n' →
    Escape (c :: rest) c rest
  /-- Up to six hexadecimal digits stand for the character of a code point. -/
  | codePoint {digits rest : List Char} : digits ≠ [] → digits.length ≤ 6 →
    (∀ d ∈ digits, isHexDigit d = true) →
    (digits.length < 6 → ∀ c ∈ rest.head?, isHexDigit c = false ∧ isBlank c = false) →
    Escape (digits ++ rest) (charOfCodePoint (ofHexDigits digits)) rest
  /-- A blank after less than six digits belongs to the escape. -/
  | blank {digits rest : List Char} {b : Char} : digits ≠ [] → digits.length < 6 →
    (∀ d ∈ digits, isHexDigit d = true) → isBlank b = true →
    Escape (digits ++ b :: rest) (charOfCodePoint (ofHexDigits digits)) rest

theorem Escape.shorter {c : Char} {cs rest : List Char} (h : Escape cs c rest) :
    rest.length < cs.length := by
  cases h with
  | plain _ _ => exact Nat.lt_succ_self _
  | codePoint hne _ _ _ =>
    rw [List.length_append]
    exact Nat.lt_add_of_pos_left (List.length_pos_iff.mpr hne)
  | blank _ _ _ _ =>
    rw [List.length_append, List.length_cons]
    omega

/-- A character that satisfies a condition, or an escape with its backslash. -/
inductive Spelled (P : Char → Prop) : Rule Char
  | plain {c : Char} {rest : List Char} : P c → Spelled P (c :: rest) c rest
  | escape {c : Char} {cs rest : List Char} : Escape cs c rest → Spelled P ('\\' :: cs) c rest

theorem Spelled.mono {P Q : Char → Prop} (h : ∀ c, P c → Q c) {c : Char} {cs rest : List Char}
    (hs : Spelled P cs c rest) : Spelled Q cs c rest := by
  cases hs with
  | plain hc => exact .plain (h c hc)
  | escape he => exact .escape he

/-! ## Runs -/

/-- As many items as there are. -/
inductive Run (R : Rule α) : Rule (List α)
  | stop {cs : List Char} : ¬Begins R cs → Run R cs [] cs
  | item {a : α} {as : List α} {cs mid rest : List Char} : R cs a mid → Run R mid as rest →
    Run R cs (a :: as) rest

theorem Run.stops {R : Rule α} {as : List α} {cs rest : List Char} (h : Run R cs as rest) :
    ¬Begins R rest := by
  induction h with
  | stop hstop => exact hstop
  | item _ _ ih => exact ih

/-! ## Names -/

/-- The ASCII letters, the underscore and the characters after U+009F. -/
def StartsName (c : Char) : Prop :=
  c.isAlpha = true ∨ c = '_' ∨ 0x9F < c.toNat

/-- These, the digits and the hyphen. -/
def GoesInName (c : Char) : Prop :=
  StartsName c ∨ c.isDigit = true ∨ c = '-'

/-- The characters of a name as far as it goes. There may be none. -/
def Name : Rule (List Char) :=
  Run (Spelled GoesInName)

/-- A name after an optional hyphen, where not all characters may come first. -/
inductive Identifier : Rule (List Char)
  | plain {text cs rest : List Char} : Begins (Spelled StartsName) cs → Name cs text rest →
    Identifier cs text rest
  | hyphen {text cs rest : List Char} : Begins (Spelled StartsName) cs → Name cs text rest →
    Identifier ('-' :: cs) ('-' :: text) rest

theorem isNameStart_iff {c : Char} : isNameStart c = true ↔ StartsName c := by
  simp [isNameStart, isNonAscii, StartsName, or_assoc]

theorem isNameChar_iff {c : Char} : isNameChar c = true ↔ GoesInName c := by
  simp [isNameChar, isNameStart_iff, GoesInName, or_assoc]

end Grammar

namespace Split

open Grammar

variable {cs rest : List Char} {c : Char}

/-! ## Reading by the rules -/

theorem isHexDigit_of_isBlank (h : isBlank c = true) : isHexDigit c = false := by
  simp only [isBlank, Bool.or_eq_true, beq_iff_eq] at h
  rcases h with (rfl | rfl) | rfl <;> rfl

/-- The blank after the digits is read or not, as it belongs to the escape. -/
theorem codePointEscape_eq {first : Char} {ds left : List Char}
    (htake : takeUpTo isHexDigit 5 cs = (ds, left)) :
    codePointEscape first cs =
      (charOfCodePoint (ofHexDigits (first :: ds)),
        (nextIf (fun b => isBlank b && ds.length < 5) left).2) := by
  rw [codePointEscape, bind_apply, htake]
  rfl

/-- An escape with digits is one by the rules. -/
theorem codePointEscape_sound {first : Char} (hx : isHexDigit first = true) (cs : List Char) :
    Escape (first :: cs) (codePointEscape first cs).1 (codePointEscape first cs).2 := by
  obtain ⟨happ, hall, hlen, hend⟩ := takeUpTo_spec isHexDigit 5 cs
  generalize htake : takeUpTo isHexDigit 5 cs = run at happ hall hlen hend
  obtain ⟨ds, left⟩ := run
  have hdigits : ∀ d ∈ first :: ds, isHexDigit d = true := List.forall_mem_cons.mpr ⟨hx, hall⟩
  rw [codePointEscape_eq htake, happ, ← List.cons_append]
  cases left with
  | nil => exact .codePoint (List.cons_ne_nil first ds) (Nat.succ_le_succ hlen) hdigits (by simp)
  | cons b left =>
    by_cases hb : isBlank b = true ∧ ds.length < 5
    · rw [nextIf_pos (by simpa using hb)]
      exact .blank (List.cons_ne_nil first ds) (Nat.succ_lt_succ hb.2) hdigits hb.1
    · rw [nextIf_neg (by simpa using hb)]
      refine .codePoint (List.cons_ne_nil first ds) (Nat.succ_le_succ hlen) hdigits ?_
      intro hlt c hc
      cases hc
      have hlt : ds.length < 5 := Nat.lt_of_succ_lt_succ hlt
      exact ⟨hend hlt b rfl, by simpa using fun hblank => hb ⟨hblank, hlt⟩⟩

/-- The digits of an escape are read in full, and then the blank after them. -/
theorem escape_digits {first : Char} {ds left : List Char}
    (hd : ∀ d ∈ first :: ds, isHexDigit d = true) (hlen : (first :: ds).length ≤ 6)
    (hend : (first :: ds).length < 6 → ∀ c ∈ left.head?, isHexDigit c = false) :
    escape (first :: ds ++ left) =
      (some (charOfCodePoint (ofHexDigits (first :: ds))),
        (nextIf (fun b => isBlank b && ds.length < 5) left).2) := by
  obtain ⟨hfirst, hds⟩ := List.forall_mem_cons.mp hd
  have htake : takeUpTo isHexDigit 5 (ds ++ left) = (ds, left) :=
    takeUpTo_append hds (Nat.le_of_succ_le_succ hlen) fun hlt => hend (Nat.succ_lt_succ hlt)
  rw [List.cons_append, escape_cons, if_pos hfirst, codePointEscape_eq htake]

/-- **Escapes are read by the rules.** -/
theorem escape_iff : escape cs = (some c, rest) ↔ Escape cs c rest := by
  constructor
  · intro h
    cases cs with
    | nil => cases h
    | cons d cs =>
      rw [escape_cons] at h
      split at h
      · next hx =>
        cases h
        exact codePointEscape_sound hx cs
      · next hx =>
        split at h
        · cases h
        · next hd =>
          cases h
          exact .plain (by simpa using hx) (by simpa using hd)
  · intro h
    cases h with
    | plain hx hc => rw [escape_cons, if_neg (by simp [hx]), if_neg (by simpa using hc)]
    | @codePoint digits _ hne hlen hd hend =>
      obtain ⟨first, ds, rfl⟩ := List.exists_cons_of_ne_nil hne
      rw [escape_digits hd hlen fun hlt c hc => (hend hlt c hc).1]
      cases rest with
      | nil => rfl
      | cons b rest =>
        rw [nextIf_neg]
        rw [Bool.and_eq_false_iff, decide_eq_false_iff_not]
        by_cases hlt : ds.length < 5
        · exact .inl (hend (Nat.succ_lt_succ hlt) b rfl).2
        · exact .inr hlt
    | @blank digits _ b hne hlen hd hb =>
      obtain ⟨first, ds, rfl⟩ := List.exists_cons_of_ne_nil hne
      have hend : ∀ c ∈ (b :: rest).head?, isHexDigit c = false := by
        rintro c ⟨⟩
        exact isHexDigit_of_isBlank hb
      rw [escape_digits hd (Nat.le_of_lt hlen) fun _ => hend, nextIf_pos]
      rw [hb, Bool.true_and, decide_eq_true_eq]
      exact Nat.lt_of_succ_lt_succ hlen

/-- A rule applies where something can be read by it. -/
theorem isSome_iff_begins {α : Type} {f : Split (Option α)} {R : Rule α}
    (h : ∀ {cs a rest}, f cs = (some a, rest) ↔ R cs a rest) :
    (f cs).1.isSome = true ↔ Begins R cs := by
  rw [Option.isSome_iff_exists]
  constructor
  · rintro ⟨a, ha⟩
    exact ⟨a, _, h.mp (eq_of_fst ha)⟩
  · rintro ⟨a, rest, hr⟩
    exact ⟨a, by rw [h.mpr hr]⟩

/-- **A backslash begins an escape unless there is a line break or nothing after it.** -/
theorem begins_escape_iff : Begins Escape cs ↔ cs ≠ [] ∧ cs.head? ≠ some '\n' := by
  rw [← isSome_iff_begins escape_iff]
  cases cs with
  | nil => simp [escape, bind_apply, nextIf]
  | cons d cs =>
    rw [escape_cons]
    by_cases hx : isHexDigit d = true
    · have hd : d ≠ '\n' := by
        rintro rfl
        cases hx
      simp [hx, hd]
    · rw [if_neg hx]
      by_cases hd : d = '\n' <;> simp [hd]

theorem charOrEscape_iff {p : Char → Bool} {P : Char → Prop} (hp : ∀ {c}, p c = true ↔ P c)
    (hback : ¬P '\\') : charOrEscape p cs = (some c, rest) ↔ Spelled P cs c rest := by
  have hback : p '\\' = false := Bool.eq_false_iff.mpr fun h => hback (hp.mp h)
  constructor
  · intro h
    cases cs with
    | nil => cases h
    | cons d cs =>
      by_cases hd : p d = true
      · rw [charOrEscape_pos hd] at h
        cases h
        exact .plain (hp.mp hd)
      · rw [charOrEscape_neg (by simpa using hd)] at h
        by_cases hd : d = '\\'
        · subst hd
          cases he : (escape cs).1 with
          | none =>
            rw [escaped_none he] at h
            cases h
          | some e =>
            rw [escaped_some (eq_of_fst he)] at h
            cases h
            exact .escape (escape_iff.mp (eq_of_fst he))
        · rw [escaped_of_ne hd] at h
          cases h
  · intro h
    cases h with
    | plain hc => exact charOrEscape_pos (hp.mpr hc)
    | escape he =>
      rw [charOrEscape_neg hback]
      exact escaped_some (escape_iff.mpr he)

theorem nameStart_iff :
    charOrEscape isNameStart cs = (some c, rest) ↔ Spelled StartsName cs c rest :=
  charOrEscape_iff isNameStart_iff (by simp [StartsName])

theorem nameChar_iff :
    charOrEscape isNameChar cs = (some c, rest) ↔ Spelled GoesInName cs c rest :=
  charOrEscape_iff isNameChar_iff (by simp [GoesInName, StartsName])

/-- **Repeated items are read as runs.** -/
theorem Item.many_iff {α : Type} {item : Item α} {R : Rule α} {as : List α}
    (h : ∀ {cs a rest}, item.split cs = (some a, rest) ↔ R cs a rest) :
    item.many cs = (as, rest) ↔ Run R cs as rest := by
  constructor
  · intro hmany
    fun_induction many item cs generalizing as rest with
    | case1 cs a mid ha ih =>
      cases hmany
      exact .item (h.mp ha) (ih rfl)
    | case2 cs left hnone =>
      cases hmany
      have hkeeps := item.keeps (congrArg Prod.fst hnone)
      rw [hnone] at hkeeps
      cases hkeeps
      refine .stop ?_
      rw [← isSome_iff_begins h, hnone]
      exact Bool.false_ne_true
  · intro hrun
    induction hrun with
    | stop hstop =>
      rw [← isSome_iff_begins h, Option.not_isSome_iff_eq_none] at hstop
      exact many_nil hstop
    | item ha _ ih => rw [many_cons (h.mpr ha), ih]

/-! ## Names and identifiers -/

theorem nameStart_isSome_iff :
    (charOrEscape isNameStart cs).1.isSome = true ↔ Begins (Spelled StartsName) cs :=
  isSome_iff_begins nameStart_iff

theorem nameChar_isSome_iff :
    (charOrEscape isNameChar cs).1.isSome = true ↔ Begins (Spelled GoesInName) cs :=
  isSome_iff_begins nameChar_iff

theorem nameChars_iff {text : List Char} :
    (Item.orEscape isNameChar).many cs = (text, rest) ↔ Name cs text rest :=
  Item.many_iff nameChar_iff

theorem name_of_item {mid : List Char} (h : charOrEscape isNameChar cs = (some c, mid)) :
    name cs = (some (c :: ((Item.orEscape isNameChar).many mid).1),
      ((Item.orEscape isNameChar).many mid).2) := by
  have hitem : (Item.orEscape isNameChar).split cs = (some c, mid) := h
  rw [name, bind_apply, Item.many_cons hitem]
  rfl

theorem name_of_none (h : (charOrEscape isNameChar cs).1 = none) : name cs = (none, cs) := by
  have hitem : ((Item.orEscape isNameChar).split cs).1 = none := h
  rw [name, bind_apply, Item.many_nil hitem]
  rfl

theorem name_isSome (cs : List Char) :
    (name cs).1.isSome = (charOrEscape isNameChar cs).1.isSome := by
  cases hc : (charOrEscape isNameChar cs).1 with
  | none =>
    rw [name_of_none hc]
    rfl
  | some c =>
    rw [name_of_item (eq_of_fst hc)]
    rfl

theorem name_keeps : Keeps name := by
  intro cs h
  rw [← Option.not_isSome_iff_eq_none, name_isSome, Option.not_isSome_iff_eq_none] at h
  exact name_of_none h

/-- A name is read as far as it goes. -/
theorem name_sound {text : List Char} (h : name cs = (some text, rest)) : Name cs text rest := by
  cases hc : (charOrEscape isNameChar cs).1 with
  | none =>
    rw [name_of_none hc] at h
    cases h
  | some c =>
    rw [name_of_item (eq_of_fst hc)] at h
    cases h
    exact .item (nameChar_iff.mp (eq_of_fst hc)) (nameChars_iff.mp rfl)

/-- There is a hyphen at the front of a text or not. -/
theorem nextIf_hyphen_cases (cs : List Char) :
    nextIf (· == '-') cs = (none, cs) ∧ cs.head? ≠ some '-'
      ∨ ∃ ds, cs = '-' :: ds ∧ nextIf (· == '-') cs = (some '-', ds) := by
  cases cs with
  | nil => exact .inl ⟨rfl, by simp⟩
  | cons c cs =>
    by_cases hc : c = '-'
    · subst hc
      exact .inr ⟨cs, rfl, rfl⟩
    · exact .inl ⟨nextIf_neg (by simpa using hc), by simpa using hc⟩

theorem not_begins_hyphen (cs : List Char) : ¬Begins (Spelled StartsName) ('-' :: cs) := by
  rw [← nameStart_isSome_iff]
  exact Bool.false_ne_true

/-- **An identifier begins with an optional hyphen and a character that may start a name.** -/
theorem ident_isSome_iff :
    (ident cs).1.isSome = true ↔
      ∃ ds, (cs = ds ∨ cs = '-' :: ds) ∧ Begins (Spelled StartsName) ds := by
  rw [ident_isSome, nameStart_isSome_iff]
  rcases nextIf_hyphen_cases cs with ⟨hread, hne⟩ | ⟨ds, rfl, hread⟩
  · rw [hread]
    constructor
    · intro h
      exact ⟨cs, .inl rfl, h⟩
    · rintro ⟨ds, rfl | rfl, h⟩
      · exact h
      · exact absurd rfl hne
  · rw [hread]
    constructor
    · intro h
      exact ⟨ds, .inr rfl, h⟩
    · rintro ⟨es, heq | heq, h⟩
      · rw [← heq] at h
        exact absurd h (not_begins_hyphen ds)
      · cases heq
        exact h

/-- An identifier is read as far as it goes. -/
theorem ident_sound {text : List Char} (h : ident cs = (some text, rest)) :
    Identifier cs text rest := by
  have hname : ∀ {hyphen : Option Char} {after : List Char},
      nextIf (· == '-') cs = (hyphen, after) →
        ∃ name, text = hyphen.toList ++ name ∧ Begins (Spelled StartsName) after
          ∧ Name after name rest := by
    intro hyphen after hread
    have hsome : (ident cs).1.isSome = true := by rw [h]; rfl
    rw [ident_isSome, hread] at hsome
    obtain ⟨c, hc⟩ := Option.isSome_iff_exists.mp hsome
    have hfirst := nameStart_iff.mp (eq_of_fst hc)
    rw [ident_of_first hread (eq_of_fst hc)] at h
    cases h
    exact ⟨_, rfl, ⟨c, _, hfirst⟩, .item (hfirst.mono fun _ => .inl) (nameChars_iff.mp rfl)⟩
  rcases nextIf_hyphen_cases cs with ⟨hread, -⟩ | ⟨ds, rfl, hread⟩
  · obtain ⟨name, rfl, hbegins, hname⟩ := hname hread
    exact .plain hbegins hname
  · obtain ⟨name, rfl, hbegins, hname⟩ := hname hread
    exact .hyphen hbegins hname

theorem ident_of_name {hyphen : Option Char} {after text : List Char}
    (hread : nextIf (· == '-') cs = (hyphen, after)) (hbegins : Begins (Spelled StartsName) after)
    (hname : Name after text rest) : ident cs = (some (hyphen.toList ++ text), rest) := by
  obtain ⟨c, mid, hfirst⟩ := hbegins
  -- What starts a name goes in one, so that it is the first item of the name.
  have hitem : (Item.orEscape isNameChar).split after = (some c, mid) :=
    nameChar_iff.mpr (hfirst.mono fun _ => .inl)
  have hmany := nameChars_iff.mpr hname
  rw [Item.many_cons hitem] at hmany
  cases hmany
  exact ident_of_first hread (nameStart_iff.mpr hfirst)

/-- **Identifiers are read by the rules.** -/
theorem ident_iff {text : List Char} : ident cs = (some text, rest) ↔ Identifier cs text rest := by
  refine ⟨ident_sound, fun h => ?_⟩
  cases h with
  | plain hbegins hname =>
    rcases nextIf_hyphen_cases cs with ⟨hread, -⟩ | ⟨ds, rfl, -⟩
    · exact ident_of_name hread hbegins hname
    · exact absurd hbegins (not_begins_hyphen ds)
  | hyphen hbegins hname => exact ident_of_name rfl hbegins hname

end Split

/-! ## Reading names and identifiers -/

open Grammar

/--
**Names and identifiers are read as far as they go, by the rules**, and nothing is read where there
are none. A backslash belongs to a name unless there is a line break or nothing after it.
-/
theorem Lexer.ident_name_outcome {s : Scanner} (hs : s.Settled) :
    ident.Outcome s
        (∃ cs, (s.remaining = cs ∨ s.remaining = '-' :: cs) ∧ Begins (Spelled StartsName) cs)
        (Identifier s.remaining)
      ∧ name.Outcome s (Begins (Spelled GoesInName) s.remaining) (Name s.remaining)
      ∧ ∀ cs, Begins Escape cs ↔ cs ≠ [] ∧ cs.head? ≠ some '\n' := by
  refine ⟨?_, ?_, fun cs => Split.begins_escape_iff⟩
  · exact ident_reads.outcome hs Split.ident_keeps Split.ident_isSome_iff fun _ _ =>
      Split.ident_sound
  · refine name_reads.outcome hs Split.name_keeps ?_ fun _ _ => Split.name_sound
    rw [Split.name_isSome, Split.nameChar_isSome_iff]

/-- The blank belongs to the escape before it, but a backslash before a line break to none. -/
theorem Lexer.ident_name_outcome_escape :
    ∃ s', ident { source := Source.ofString "-\\31 x\\\n" } = .ok (some ['-', '1', 'x']) s'
      ∧ Identifier ['-', '\\', '3', '1', ' ', 'x', '\\', '\n'] ['-', '1', 'x'] s'.remaining := by
  have hsettled : Scanner.Settled { source := Source.ofString "-\\31 x\\\n" } :=
    Scanner.settled_ofSource (Source.infallible_ofString _)
  have hremaining : Scanner.remaining { source := Source.ofString "-\\31 x\\\n" } =
      ['-', '\\', '3', '1', ' ', 'x', '\\', '\n'] := by decide +kernel
  obtain ⟨hident, -⟩ := ident_name_outcome hsettled
  rw [hremaining] at hident
  have hescape : Escape ['3', '1', ' ', 'x', '\\', '\n'] '1' ['x', '\\', '\n'] :=
    @Escape.blank ['3', '1'] _ ' ' (by decide) (by decide) (List.all_eq_true.mp rfl) rfl
  obtain ⟨text, s', h⟩ := hident.succeeds.mpr ⟨_, .inr rfl, _, _, .escape hescape⟩
  have hrun : EStateM.run' ident { source := Source.ofString "-\\31 x\\\n" } =
      some (some ['-', '1', 'x']) := by decide +kernel
  cases hrun.symm.trans (ScanM.run'_of_ok h)
  exact ⟨s', h, (hident.reads _ s' h).1⟩

end CssTokens
