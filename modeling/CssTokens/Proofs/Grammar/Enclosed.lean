import CssTokens.Proofs.Grammar.Name
import CssTokens.Proofs.Refinement.Failing
import CssTokens.Proofs.Run.Standalone

/-!
# The grammar of texts between marks

A text after an opening mark is closed, or else it is cut off. There is a rule for the one and a
rule for the other, and for each text one of the two applies.

Comments are the simple case: they end at the first closing mark, and without one nothing is left.

Main statement: a comment is read by these rules, and its token is written as the text that it takes
(`Tokenizer.read_comment`).
-/

namespace CssTokens

open Grammar

/-- What comes of reading a token where `cs` follows an opening mark. The token has the kind `kind`
if the text is closed by the rule `Closed`, and if it is cut off by the rule `CutOff`, the kind
`cutOff`. -/
structure Tokenizer.ReadsEnclosed (t : Tokenizer) (kind cutOff : TokenKind)
    (Closed CutOff : Rule (List Char)) (cs : List Char) : Prop where
  /-- Unless the source fails, a token is read. -/
  returns : t.scanner.source.Infallible → ∃ k t', t.read = .ok k t'
  closed_iff : ∀ {k t'}, t.read = .ok k t' → (k = kind ↔ Begins Closed cs)
  cutOff_iff : ∀ {k t'}, t.read = .ok k t' → (k = cutOff ↔ Begins CutOff cs)
  /-- The text is either closed or cut off. -/
  cutOff_iff_not : Begins CutOff cs ↔ ¬Begins Closed cs
  closed : ∀ {k t'}, t.read = .ok k t' → ∀ text rest, Closed cs text rest →
    t'.token.unplaced = { kind, value := String.ofList text } ∧ t'.remaining = rest
  cutOff : ∀ {k t'}, t.read = .ok k t' → ∀ text rest, CutOff cs text rest →
    t'.token.unplaced = { kind := cutOff, value := String.ofList text } ∧ t'.remaining = rest
  /-- A call delivers the token, if it is one to be delivered. -/
  delivers : ∀ {k t'}, t.read = .ok k t' → t.pushedBack = false →
    (t.options.skipComments && k.isComment) = false →
    t.next = .ok k (t'.note (.returned t'.token))

section
variable {t t' : Tokenizer} {kind cutOff k : TokenKind} {production : Split Enclosed}
  {Closed CutOff : Rule (List Char)} {cs : List Char}

/-- The token that is read where the production has read `contents`. -/
theorem Tokenizer.read_enclosed (hs : t.scanner.Sound)
    (hlexeme : Split.lexeme t.remaining = Split.enclosed kind cutOff production cs)
    {contents : Enclosed} {rest : List Char} (hread : production cs = (contents, rest))
    (h : t.read = .ok k t') :
    k = (if contents.closed then kind else cutOff)
      ∧ t'.token.unplaced = { kind := k, value := String.ofList contents.text }
      ∧ t'.remaining = rest := by
  obtain ⟨hkind, hstep⟩ := read_of_sound hs h
  rw [hlexeme, Split.enclosed, Split.bind_apply, hread] at hkind hstep
  subst hkind
  exact ⟨rfl, hstep.token, hstep.remaining⟩

/-- **What is read by the rules is the token**, if the production that reads it keeps to them. -/
theorem Tokenizer.readsEnclosed (hs : t.scanner.Sound) (hne : kind ≠ cutOff)
    (hlexeme : Split.lexeme t.remaining = Split.enclosed kind cutOff production cs)
    (hclosed : ∀ text rest, production cs = ({ text, closed := true }, rest) ↔
      Closed cs text rest)
    (hcutOff : ∀ text rest, production cs = ({ text, closed := false }, rest) ↔
      CutOff cs text rest) :
    t.ReadsEnclosed kind cutOff Closed CutOff cs := by
  have hbegins : ∀ {closed : Bool} {R : Rule (List Char)},
      (∀ text rest, production cs = ({ text, closed }, rest) ↔ R cs text rest) →
        ((production cs).1.closed = closed ↔ Begins R cs) := by
    intro closed R hR
    constructor
    · intro h
      refine ⟨(production cs).1.text, (production cs).2, (hR _ _).mp ?_⟩
      rw [← h]
    · rintro ⟨text, rest, h⟩
      rw [(hR text rest).mpr h]
  have hbeginsClosed := hbegins hclosed
  have hbeginsCutOff := hbegins hcutOff
  have hkind : ∀ {k t'}, t.read = .ok k t' →
      k = if (production cs).1.closed then kind else cutOff :=
    fun h => (read_enclosed hs hlexeme rfl h).1
  constructor
  case returns => exact exists_read
  case closed_iff =>
    intro k t' h
    rw [hkind h, ← hbeginsClosed]
    cases (production cs).1.closed <;> simp [hne.symm]
  case cutOff_iff =>
    intro k t' h
    rw [hkind h, ← hbeginsCutOff]
    cases (production cs).1.closed <;> simp [hne]
  case cutOff_iff_not => rw [← hbeginsClosed, ← hbeginsCutOff, Bool.not_eq_true]
  case closed =>
    intro k t' h text rest hrule
    obtain ⟨rfl, htoken⟩ := read_enclosed hs hlexeme ((hclosed text rest).mpr hrule) h
    exact htoken
  case cutOff =>
    intro k t' h text rest hrule
    obtain ⟨rfl, htoken⟩ := read_enclosed hs hlexeme ((hcutOff text rest).mpr hrule) h
    exact htoken
  case delivers =>
    intro k t' h hp hk
    rw [next_eq_readDelivered hp]
    exact readDelivered_keep h hk

end

/-! ## Comments -/

namespace Grammar

/-- A comment up to its first closing mark. -/
def EndsComment : Rule (List Char) := fun cs text rest =>
  cs = text ++ '*' :: '/' :: rest
    ∧ ∀ before after, cs = before ++ '*' :: '/' :: after → text.length ≤ before.length

/-- A comment without a closing mark. -/
def CutOffComment : Rule (List Char) := fun cs text rest =>
  ¬['*', '/'] <:+: cs ∧ text = cs ∧ rest = []

end Grammar

namespace Split

variable {c : Char} {cs text rest : List Char}

/-- A closing mark at the front is the first one. -/
theorem endsComment_nil (cs : List Char) : EndsComment ('*' :: '/' :: cs) [] cs :=
  ⟨rfl, fun before _ _ => Nat.zero_le before.length⟩

/-- Where there is no closing mark at the front, the first one is further back. -/
theorem endsComment_cons (hc : ¬(c = '*' ∧ cs.head? = some '/')) :
    EndsComment (c :: cs) (c :: text) rest ↔ EndsComment cs text rest := by
  constructor
  · rintro ⟨happ, hfirst⟩
    refine ⟨(List.cons.inj happ).2, fun before after h => ?_⟩
    have hle := hfirst (c :: before) after (congrArg (c :: ·) h)
    exact Nat.le_of_succ_le_succ hle
  · rintro ⟨happ, hfirst⟩
    refine ⟨congrArg (c :: ·) happ, fun before after h => ?_⟩
    cases before with
    | nil =>
      obtain ⟨rfl, rfl⟩ := List.cons.inj h
      exact absurd ⟨rfl, rfl⟩ hc
    | cons d before => exact Nat.succ_le_succ (hfirst before after (List.cons.inj h).2)

/-- The text of a comment begins as the text that it is read from. -/
theorem endsComment_text (hc : ¬(c = '*' ∧ cs.head? = some '/'))
    (h : EndsComment (c :: cs) text rest) : ∃ text', text = c :: text' := by
  cases text with
  | nil =>
    obtain ⟨rfl, rfl⟩ := List.cons.inj h.1
    exact absurd ⟨rfl, rfl⟩ hc
  | cons d text' => exact ⟨text', by rw [(List.cons.inj h.1).1]⟩

/-- **A comment that is closed ends at the first closing mark.** -/
theorem comment_closed_iff :
    comment cs = ({ text, closed := true }, rest) ↔ EndsComment cs text rest := by
  fun_induction comment cs generalizing text with
  | case1 cs =>
    constructor
    · rintro ⟨⟩
      exact endsComment_nil rest
    · rintro ⟨happ, hfirst⟩
      -- There is nothing before the first mark.
      obtain rfl : text = [] := List.length_eq_zero_iff.mp (Nat.le_zero.mp (hfirst [] cs rfl))
      obtain rfl : cs = rest := by simpa using happ
      rfl
  | case2 c cs hc ih =>
    have hc : ¬(c = '*' ∧ cs.head? = some '/') := not_mark_of_ne hc
    constructor
    · intro h
      obtain ⟨hcontents, hrest⟩ := Prod.mk.inj h
      obtain ⟨rfl, hclosed⟩ := Enclosed.mk.inj hcontents
      refine (endsComment_cons hc).mpr (ih.mp ?_)
      rw [← hrest, ← hclosed]
    · intro h
      obtain ⟨text, rfl⟩ := endsComment_text hc h
      rw [ih.mpr ((endsComment_cons hc).mp h)]
  | case3 =>
    constructor
    · rintro ⟨⟩
    · rintro ⟨happ, -⟩
      simp at happ

/-- No closing mark begins in the first character, and so there is one further back or there is
none. -/
theorem infix_cons_iff_of_not_mark (hc : ¬(c = '*' ∧ cs.head? = some '/')) :
    ['*', '/'] <:+: c :: cs ↔ ['*', '/'] <:+: cs := by
  rw [List.infix_cons_iff]
  refine or_iff_right fun hprefix => hc ?_
  obtain ⟨rfl, ds, rfl⟩ := List.cons_prefix_cons.mp hprefix
  exact ⟨rfl, rfl⟩

/-- **A comment that is cut off is all of the text.** -/
theorem comment_cutOff_iff :
    comment cs = ({ text, closed := false }, rest) ↔ CutOffComment cs text rest := by
  fun_induction comment cs generalizing text with
  | case1 cs =>
    constructor
    · rintro ⟨⟩
    · rintro ⟨hmark, -, -⟩
      exact absurd ⟨[], cs, rfl⟩ hmark
  | case2 c cs hc ih =>
    have hc : ¬(c = '*' ∧ cs.head? = some '/') := not_mark_of_ne hc
    constructor
    · intro h
      obtain ⟨hcontents, hrest⟩ := Prod.mk.inj h
      obtain ⟨rfl, hclosed⟩ := Enclosed.mk.inj hcontents
      obtain ⟨hmark, htext, hnil⟩ := ih.mp (by rw [← hrest, ← hclosed])
      exact ⟨by rwa [infix_cons_iff_of_not_mark hc], congrArg (c :: ·) htext, hnil⟩
    · rintro ⟨hmark, rfl, rfl⟩
      rw [infix_cons_iff_of_not_mark hc] at hmark
      rw [ih.mpr ⟨hmark, rfl, rfl⟩]
  | case3 =>
    constructor
    · rintro ⟨⟩
      exact ⟨by simp, rfl, rfl⟩
    · rintro ⟨-, rfl, rfl⟩
      rfl

/-- A comment can be closed where there is a closing mark. -/
theorem begins_endsComment_iff : Begins EndsComment cs ↔ ['*', '/'] <:+: cs := by
  constructor
  · rintro ⟨text, rest, rfl, -⟩
    exact ⟨text, rest, by simp⟩
  · intro hmark
    rcases hread : comment cs with ⟨⟨text, closed⟩, rest⟩
    cases closed with
    | true => exact ⟨text, rest, comment_closed_iff.mp hread⟩
    | false => exact absurd hmark (comment_cutOff_iff.mp hread).1

theorem lexeme_comment (cs : List Char) :
    lexeme ('/' :: '*' :: cs) = enclosed .comment .badComment comment cs := rfl

end Split

/-! ## Reading a comment -/

namespace Tokenizer

open WriteM

variable {t : Tokenizer} {cs : List Char}

theorem readsEnclosed_comment (hs : t.scanner.Sound) (hcs : t.remaining = '/' :: '*' :: cs) :
    t.ReadsEnclosed .comment .badComment EndsComment CutOffComment cs :=
  readsEnclosed hs (by decide) (by rw [hcs, Split.lexeme_comment])
    (fun _ _ => Split.comment_closed_iff) fun _ _ => Split.comment_cutOff_iff

/-- The place of a token has no say in what is written for it. -/
theorem css_unplaced (t : Token) : t.unplaced.css = t.css := rfl

theorem css_comment (text : List Char) :
    Token.css { kind := .comment, value := String.ofList text } =
      String.ofList ('/' :: '*' :: (text ++ ['*', '/'])) := by
  show (do chars ['/', '*']; chars (String.ofList text).toList; chars ['*', '/']).written = _
  rw [String.toList_ofList, ← chars_append, ← chars_append, written_chars]
  rfl

theorem css_badComment (text : List Char) :
    Token.css { kind := .badComment, value := String.ofList text } =
      String.ofList ('/' :: '*' :: text) := by
  show (do chars ['/', '*']; chars (String.ofList text).toList).written = _
  rw [String.toList_ofList, ← chars_append, written_chars]
  rfl

/-- **A comment is written as it was read.** -/
theorem comment_css {t' : Tokenizer} {kind : TokenKind} (hs : t.scanner.Sound)
    (hcs : t.remaining = '/' :: '*' :: cs) (h : t.read = .ok kind t') :
    t.remaining = t'.token.css.toList ++ t'.remaining := by
  have hreads := readsEnclosed_comment hs hcs
  rw [hcs]
  by_cases hmark : Begins EndsComment cs
  · obtain ⟨text, rest, hends⟩ := hmark
    obtain ⟨htoken, hrest⟩ := hreads.closed h text rest hends
    rw [← css_unplaced, htoken, css_comment, hrest, hends.1]
    simp
  · obtain ⟨text, rest, hcut⟩ := hreads.cutOff_iff_not.mpr hmark
    obtain ⟨htoken, hrest⟩ := hreads.cutOff h text rest hcut
    obtain ⟨-, rfl, rfl⟩ := hcut
    rw [← css_unplaced, htoken, css_badComment, hrest]
    simp

/--
**A comment ends at the first closing mark, and without one it is all of the text.** What is written
for it is what it takes of the text, so that this text reads as the comment again.
-/
theorem read_comment (hs : t.scanner.Sound) (hcs : t.remaining = '/' :: '*' :: cs) :
    t.ReadsEnclosed .comment .badComment EndsComment CutOffComment cs
      ∧ (Begins EndsComment cs ↔ ['*', '/'] <:+: cs)
      ∧ ∀ kind t', t.read = .ok kind t' → t.remaining = t'.token.css.toList ++ t'.remaining
        ∧ ReadsAs t'.token.css { skipComments := false } [t'.token.unplaced] := by
  refine ⟨readsEnclosed_comment hs hcs, Split.begins_endsComment_iff, fun kind t' h => ?_⟩
  have hcss := comment_css hs hcs h
  obtain ⟨hkind, hstep⟩ := read_of_sound hs h
  have hne : t.remaining ≠ [] := by simp [hcs]
  -- What is written is the piece that the first lexeme takes of the text.
  have hpiece : Split.piece t.remaining = t'.token.css.toList := by
    have happ := Split.piece_append t.remaining
    rw [← hstep.remaining] at happ
    exact List.append_cancel_right (happ.trans hcss)
  have hnormal : ∀ c ∈ Split.piece t.remaining, isNormal c = true :=
    fun c hc => hs.normal c (List.mem_of_mem_take hc)
  refine ⟨hcss, ?_⟩
  have hreads : ReadsAs (String.ofList (Split.piece t.remaining)) { skipComments := false }
      [(Split.lexeme t.remaining).1.token] :=
    readsAs_of_lexeme hnormal (Split.lexeme_piece hne)
      (fun hk => hne ((Split.lexeme_kind _).mp hk)) rfl
  rwa [hpiece, String.ofList_toList, ← hstep.token] at hreads

/-- The opening mark and the slash after it close nothing, and a second closing mark is left. -/
theorem read_comment_first :
    ∃ t', (ofString "/*/**/*/").read = .ok .comment t'
      ∧ t'.token.unplaced = { kind := .comment, value := "/*" } ∧ t'.remaining = ['*', '/']
      ∧ ReadsAs "/*/**/" { skipComments := false } [{ kind := .comment, value := "/*" }] := by
  have hs : (ofString "/*/**/*/").scanner.Sound := Scanner.sound_of_pushed_nil rfl
  have hcs : (ofString "/*/**/*/").remaining = ['/', '*', '/', '*', '*', '/', '*', '/'] := by
    decide +kernel
  have hends : EndsComment ['/', '*', '*', '/', '*', '/'] ['/', '*'] ['*', '/'] :=
    Split.comment_closed_iff.mp (by decide +kernel)
  obtain ⟨hreads, -, hcss⟩ := read_comment hs hcs
  obtain ⟨kind, t', h⟩ := hreads.returns (Source.infallible_ofString _)
  obtain rfl := (hreads.closed_iff h).mpr ⟨_, _, hends⟩
  obtain ⟨htoken, hrest⟩ := hreads.closed h _ _ hends
  have hwritten := (hcss _ t' h).2
  rw [← css_unplaced, htoken, css_comment] at hwritten
  exact ⟨t', h, htoken, hrest, hwritten⟩

end Tokenizer

end CssTokens
