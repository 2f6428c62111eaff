import CssTokens.Proofs.Split.Shape
import CssTokens.Proofs.Text.CharClass

/-!
# Where a lexeme comes from

The kind of a lexeme tells which production has read it. Neither a mark nor a number begins with an
identifier, so that identifiers, functions and URLs come from one production.

Main statements: what a lexeme of these kinds is, and where the URLs are among them
(`lexeme_identLike`, `identLike_cases`, `lexeme_of_url`).
-/

namespace CssTokens

namespace Lexeme

/-- The kinds of the lexemes that begin with an identifier. -/
def isIdentLike : TokenKind → Bool
  | .ident | .function | .url | .badUrl => true
  | _ => false

theorem isIdentLike_of_fixedText {kind : TokenKind} {text : String}
    (h : kind.fixedText? = some text) : isIdentLike kind = false := by
  cases kind with
  | ident | function | url | badUrl => cases h
  | _ => rfl

/-- **The name of a URL is the letters `url`**, each in either case. -/
theorem isUrlName_iff {name : List Char} :
    isUrlName name = true ↔ ∃ u r l, name = [u, r, l]
      ∧ (u = 'u' ∨ u = 'U') ∧ (r = 'r' ∨ r = 'R') ∧ (l = 'l' ∨ l = 'L') := by
  rw [isUrlName, beq_iff_eq]
  constructor
  · intro h
    obtain ⟨u, rest, rfl, hu, h⟩ := List.map_eq_cons_iff.mp h
    obtain ⟨r, rest, rfl, hr, h⟩ := List.map_eq_cons_iff.mp h
    obtain ⟨l, rest, rfl, hl, h⟩ := List.map_eq_cons_iff.mp h
    obtain rfl := List.map_eq_nil_iff.mp h
    exact ⟨u, r, l, rfl, eq_or_eq_of_toLower rfl hu, eq_or_eq_of_toLower rfl hr,
      eq_or_eq_of_toLower rfl hl⟩
  · rintro ⟨u, r, l, rfl, hu, hr, hl⟩
    rcases hu with rfl | rfl <;> rcases hr with rfl | rfl <;> rcases hl with rfl | rfl <;> rfl

end Lexeme

open Lexeme (isIdentLike isIdentLike_of_fixedText isUrlName)

namespace Split

variable {c : Char} {cs rest : List Char} {l : Lexeme}

/-! ## Productions for other lexemes -/

theorem pairOrDelim_kind (c : Char) : Yields (pairOrDelim c) (isIdentLike ·.kind = false) := by
  refine .bind (nextIf_yields _) fun d hd => ?_
  cases d with
  | none => exact .pure rfl
  | some d =>
    obtain ⟨kind, hk⟩ := Option.isSome_iff_exists.mp (hd d rfl)
    refine .pure ?_
    rw [hk]
    exact isIdentLike_of_fixedText (fixedText_of_pairKind hk)

theorem namedOrDelim_kind (c : Char) {kind : TokenKind} (hk : isIdentLike kind = false)
    (production : Split (Option (List Char))) :
    Yields (namedOrDelim c kind production) (isIdentLike ·.kind = false) := by
  refine .bind (.anything _) fun text _ => ?_
  cases text with
  | none => exact .pure rfl
  | some text => exact .pure hk

theorem enclosed_kind {kind cutOff : TokenKind} (hk : isIdentLike kind = false)
    (hc : isIdentLike cutOff = false) (production : Split Enclosed) :
    Yields (enclosed kind cutOff production) (isIdentLike ·.kind = false) := by
  refine .bind (.anything _) fun contents _ => .pure ?_
  cases contents.closed with
  | true => exact hk
  | false => exact hc

/-- A mark begins no identifier. -/
theorem marked_kind {production : Split Lexeme} (h : marked c = some production) :
    Yields production (isIdentLike ·.kind = false) := by
  unfold marked at h
  repeat' split at h
  all_goals cases h
  · exact .bind (.anything _) fun _ _ => .pure rfl
  · exact pairOrDelim_kind c
  · exact namedOrDelim_kind c rfl ident
  · exact namedOrDelim_kind c rfl name
  · exact enclosed_kind rfl rfl (quoted c)
  · refine .bind (.anything _) fun found _ => ?_
    cases found with
    | true => exact enclosed_kind rfl rfl comment
    | false => exact .pure rfl
  · refine .bind (.anything _) fun found _ => ?_
    cases found <;> exact .pure rfl

theorem cdc_kind : Yields cdc fun l => ∀ x ∈ l, isIdentLike x.kind = false := by
  refine .bind (.anything _) fun found _ => .pure ?_
  cases found <;> simp [isIdentLike]

theorem numberLike_kind : Yields numberLike fun l => ∀ x ∈ l, isIdentLike x.kind = false := by
  refine .bind (.anything _) fun n _ => ?_
  cases n with
  | none => exact .pure (by simp)
  | some n =>
    refine .bind (.anything _) fun found _ => ?_
    cases found with
    | true => exact .pure (by simp [isIdentLike])
    | false =>
      refine .bind (.anything _) fun unit _ => ?_
      cases unit <;> exact .pure (by simp [isIdentLike])

/-! ## Lexemes that begin with an identifier -/

/-- Unless it is a single character, what is read comes from one of the productions. -/
theorem firstOf_identLike {ps : List (Split (Option Lexeme))} (hk : ∀ p ∈ ps, Keeps p)
    (h : isIdentLike (firstOf ps cs).1.kind = true) :
    ∃ p ∈ ps, p cs = (some (firstOf ps cs).1, (firstOf ps cs).2) := by
  induction ps with
  | nil =>
    rw [firstOf, bind_apply] at h
    cases hc : (nextIf (fun _ => true) cs).1 <;> rw [hc] at h <;> cases h
  | cons p ps ih =>
    rw [List.forall_mem_cons] at hk
    cases hp : (p cs).1 with
    | some l =>
      refine ⟨p, List.mem_cons_self, ?_⟩
      rw [firstOf_some (eq_of_fst hp)]
      exact eq_of_fst hp
    | none =>
      rw [firstOf_none (hk.1 hp)] at h ⊢
      obtain ⟨q, hq, heq⟩ := ih hk.2 h
      exact ⟨q, List.mem_cons_of_mem p hq, heq⟩

/-- Such a lexeme comes from the production for identifiers, and it may be a URL if it begins with
the right letter. -/
theorem lexeme_identLike (h : isIdentLike (lexeme cs).1.kind = true) :
    ∃ c ds, cs = c :: ds
      ∧ identLike (c = 'u' || c = 'U') cs = (some (lexeme cs).1, (lexeme cs).2) := by
  cases cs with
  | nil => cases h
  | cons c ds =>
    refine ⟨c, ds, rfl, ?_⟩
    cases hm : marked c with
    | some production =>
      rw [lexeme_marked hm, marked_kind hm ds] at h
      cases h
    | none =>
      rw [lexeme_unmarked hm] at h ⊢
      obtain ⟨p, hp, heq⟩ := firstOf_identLike (productions_keeps c) h
      have hother : ¬Yields p fun l => ∀ x ∈ l, isIdentLike x.kind = false := by
        intro hyields
        have hkind := hyields (c :: ds) (firstOf (productions c) (c :: ds)).1 (by rw [heq]; rfl)
        rw [h] at hkind
        cases hkind
      unfold productions at hp
      split at hp
      · next hc =>
        subst hc
        simp only [List.mem_cons, List.not_mem_nil, or_false] at hp
        rcases hp with rfl | rfl | rfl
        · exact absurd cdc_kind hother
        · exact absurd numberLike_kind hother
        · exact heq
      · split at hp
        · rw [List.mem_singleton.mp hp] at hother
          exact absurd numberLike_kind hother
        · rw [← List.mem_singleton.mp hp]
          exact heq

/-- **What the production for identifiers reads**: a URL or a function where a parenthesis follows
the identifier, and else the identifier alone. -/
theorem identLike_cases {allowUrl : Bool} (h : identLike allowUrl cs = (some l, rest)) :
    ∃ text after, ident cs = (some text, after)
      ∧ ((∃ contents, after = '(' :: contents ∧ allowUrl = true ∧ isUrlName text = true
            ∧ enclosed .url .badUrl url contents = (l, rest))
        ∨ l = { kind := .function, text }
        ∨ l = { kind := .ident, text } ∧ after = rest) := by
  rw [identLike, bind_apply] at h
  cases hi : (ident cs).1 with
  | none =>
    rw [hi] at h
    cases h
  | some text =>
    refine ⟨text, (ident cs).2, eq_of_fst hi, ?_⟩
    rw [hi] at h
    generalize (ident cs).2 = after at h ⊢
    dsimp only at h
    rw [bind_apply] at h
    rcases nextIs_cases '(' after with ⟨contents, rfl, hparen⟩ | ⟨-, hparen⟩
    · rw [hparen, if_pos rfl] at h
      split at h
      · next hu =>
        rw [Bool.and_eq_true] at hu
        cases h
        exact .inl ⟨contents, rfl, hu.1, hu.2, rfl⟩
      · cases h
        exact .inr (.inl rfl)
    · rw [hparen] at h
      cases h
      exact .inr (.inr ⟨rfl, rfl⟩)

/-! ## Identifiers and URLs -/

/-- An identifier is what is read as one at the front of the text. -/
theorem ident_of_lexeme (hk : (lexeme cs).1.kind = .ident) :
    ident cs = (some (lexeme cs).1.text, (lexeme cs).2)
      ∧ (lexeme cs).1 = { kind := .ident, text := (lexeme cs).1.text } := by
  obtain ⟨c, ds, -, hread⟩ := lexeme_identLike (by rw [hk]; rfl)
  obtain ⟨text, after, hident, ⟨contents, -, -, -, hurl⟩ | hfun | ⟨hl, rfl⟩⟩ :=
    identLike_cases hread
  · -- The kind of a URL is one of two others.
    have hkind : (lexeme cs).1.kind = if (url contents).1.closed then .url else .badUrl := by
      rw [← congrArg Prod.fst hurl]
      rfl
    rw [hk] at hkind
    split at hkind <;> cases hkind
  · rw [hfun] at hk
    cases hk
  · rw [hl]
    exact ⟨hident, rfl⟩

/-- A URL follows its name and a parenthesis, and the name begins with the letter itself. -/
theorem lexeme_of_url (hk : (lexeme cs).1.kind = .url ∨ (lexeme cs).1.kind = .badUrl) :
    (∃ c ∈ cs.head?, c = 'u' ∨ c = 'U')
      ∧ ∃ text contents, ident cs = (some text, '(' :: contents) ∧ isUrlName text = true := by
  obtain ⟨c, ds, rfl, hread⟩ := lexeme_identLike (by rcases hk with hk | hk <;> rw [hk] <;> rfl)
  obtain ⟨text, after, hident, ⟨contents, rfl, hallow, hname, -⟩ | hfun | ⟨hl, -⟩⟩ :=
    identLike_cases hread
  · exact ⟨⟨c, rfl, by simpa using hallow⟩, text, contents, hident, hname⟩
  · rw [hfun] at hk
    rcases hk with hk | hk <;> cases hk
  · rw [hl] at hk
    rcases hk with hk | hk <;> cases hk

/-- **After the name of a URL and a parenthesis there is a URL.** -/
theorem lexeme_url_of_ident {text : List Char} (hfirst : ∃ c ∈ cs.head?, c = 'u' ∨ c = 'U')
    (hident : ident cs = (some text, '(' :: rest)) (hname : isUrlName text = true) :
    lexeme cs = enclosed .url .badUrl url rest := by
  obtain ⟨c, hc, hletter⟩ := hfirst
  obtain ⟨ds, rfl⟩ := List.head?_eq_some_iff.mp hc
  have hprod : lexeme (c :: ds) = firstOf [identLike true] (c :: ds) := by
    rcases hletter with rfl | rfl <;> exact lexeme_unmarked rfl ds
  rw [hprod]
  refine firstOf_some ?_
  rw [identLike, bind_apply, hident]
  dsimp only
  rw [bind_apply, nextIs_pos, if_pos rfl, hname]
  rfl

end Split

end CssTokens
