import CssTokens.Proofs.Refinement.Lexer

/-!
# Runs over plain text

A text is taken apart into lexemes, one after the other, up to its end. These are functions on
texts, and the tokenizer refines them.

Main statement: the pieces that the lexemes take of a text are not empty, and together they are the
text (`pieces_ne_nil`, `pieces_flatten`).
-/

namespace CssTokens

namespace Split

open Lexeme (atEnd)

variable {skip : Bool} {cs : List Char}

/-! ## Delivered lexemes -/

/-- A lexeme that may be left out is not the end of the input. -/
theorem lexeme_shorter_of_skip (h : (skip && (lexeme cs).1.kind.isComment) = true) :
    (lexeme cs).2.length < cs.length := by
  refine lexeme_shorter ?_
  rintro rfl
  rw [Bool.and_eq_true] at h
  cases h.2

/-- The first lexeme of a text that is delivered. With `skip`, comments are left out. -/
def delivered (skip : Bool) : Split Lexeme := fun cs =>
  if _h : skip && (lexeme cs).1.kind.isComment then delivered skip (lexeme cs).2 else lexeme cs
termination_by cs => cs.length
decreasing_by exact lexeme_shorter_of_skip _h

theorem delivered_skip (h : (skip && (lexeme cs).1.kind.isComment) = true) :
    delivered skip cs = delivered skip (lexeme cs).2 := by
  rw [delivered, dif_pos h]

theorem delivered_keep (h : ¬(skip && (lexeme cs).1.kind.isComment) = true) :
    delivered skip cs = lexeme cs := by
  rw [delivered, dif_neg h]

theorem delivered_false (cs : List Char) : delivered false cs = lexeme cs :=
  delivered_keep (by simp)

theorem delivered_nil (skip : Bool) : delivered skip [] = (atEnd, []) :=
  delivered_keep (by simp [lexeme, atEnd, TokenKind.isComment])

/-- What is delivered is the first lexeme of an end of the text. -/
theorem delivered_eq (skip : Bool) (cs : List Char) :
    ∃ later, later <:+ cs ∧ delivered skip cs = lexeme later := by
  fun_induction delivered skip cs with
  | case1 cs h ih =>
    obtain ⟨later, hl, heq⟩ := ih
    exact ⟨later, hl.trans (lexeme_suffix cs), heq⟩
  | case2 cs h => exact ⟨cs, List.suffix_refl cs, rfl⟩

theorem delivered_suffix (skip : Bool) (cs : List Char) : (delivered skip cs).2 <:+ cs := by
  obtain ⟨later, hl, heq⟩ := delivered_eq skip cs
  rw [heq]
  exact (lexeme_suffix later).trans hl

theorem delivered_shorter (h : (delivered skip cs).1.kind ≠ .eof) :
    (delivered skip cs).2.length < cs.length := by
  obtain ⟨later, hl, heq⟩ := delivered_eq skip cs
  rw [heq] at h ⊢
  have hne : later ≠ [] := fun hn => h ((lexeme_kind later).mpr hn)
  exact Nat.lt_of_lt_of_le (lexeme_shorter hne) hl.length_le

/-- Nothing is left after the end of the input. -/
theorem delivered_eof (h : (delivered skip cs).1.kind = .eof) :
    delivered skip cs = (atEnd, []) := by
  obtain ⟨later, -, heq⟩ := delivered_eq skip cs
  rw [heq] at h ⊢
  rw [(lexeme_kind later).mp h]
  rfl

/-! ## All lexemes -/

/-- The delivered lexemes of a text up to its end, which is one of them. -/
def lexemes (skip : Bool) (cs : List Char) : List Lexeme :=
  if _h : (delivered skip cs).1.kind = .eof then [atEnd]
  else (delivered skip cs).1 :: lexemes skip (delivered skip cs).2
termination_by cs.length
decreasing_by exact delivered_shorter _h

theorem lexemes_eof (h : (delivered skip cs).1.kind = .eof) : lexemes skip cs = [atEnd] := by
  rw [lexemes, dif_pos h]

theorem lexemes_cons (h : (delivered skip cs).1.kind ≠ .eof) :
    lexemes skip cs = (delivered skip cs).1 :: lexemes skip (delivered skip cs).2 := by
  rw [lexemes, dif_neg h]

theorem lexemes_nil (skip : Bool) : lexemes skip [] = [atEnd] :=
  lexemes_eof (by rw [delivered_nil]; rfl)

/-- A lexeme that is delivered is followed by those of the rest. -/
theorem lexemes_of_lexeme {l : Lexeme} {rest : List Char} (h : lexeme cs = (l, rest))
    (hk : l.kind ≠ .eof) (hc : (skip && l.kind.isComment) = false) :
    lexemes skip cs = l :: lexemes skip rest := by
  have hd : delivered skip cs = (l, rest) := by
    rw [delivered_keep (by simp [h, hc]), h]
  rw [lexemes_cons (by rwa [hd]), hd]

/-- A lexeme that is all of a text is followed by the end of the input. -/
theorem lexemes_single {l : Lexeme} (h : lexeme cs = (l, [])) (hk : l.kind ≠ .eof)
    (hc : (skip && l.kind.isComment) = false) : lexemes skip cs = [l, atEnd] := by
  rw [lexemes_of_lexeme h hk hc, lexemes_nil]

/-! ## The pieces of a text -/

/-- What the first lexeme takes of a text. -/
def piece (cs : List Char) : List Char :=
  cs.take (cs.length - (lexeme cs).2.length)

theorem piece_append (cs : List Char) : piece cs ++ (lexeme cs).2 = cs := by
  obtain ⟨taken, h⟩ := lexeme_suffix cs
  have hlen := congrArg List.length h
  rw [List.length_append] at hlen
  have htaken : piece cs = taken := by
    rw [piece, ← hlen, Nat.add_sub_cancel]
    exact (List.prefix_iff_eq_take.mp ⟨_, h⟩).symm
  rw [htaken, h]

theorem piece_ne_nil (h : cs ≠ []) : piece cs ≠ [] := by
  intro hp
  have happ := piece_append cs
  rw [hp, List.nil_append] at happ
  have hlt := lexeme_shorter h
  rw [happ] at hlt
  exact Nat.lt_irrefl _ hlt

/-- What the lexemes of a text take one after the other, without the end of the input. -/
def pieces (cs : List Char) : List (List Char) :=
  if _h : cs = [] then [] else piece cs :: pieces (lexeme cs).2
termination_by cs.length
decreasing_by exact lexeme_shorter _h

theorem pieces_nil : pieces [] = [] := by
  rw [pieces, dif_pos rfl]

theorem pieces_cons (h : cs ≠ []) : pieces cs = piece cs :: pieces (lexeme cs).2 := by
  rw [pieces, dif_neg h]

theorem pieces_eq_nil : pieces cs = [] ↔ cs = [] := by
  constructor
  · intro h
    rw [pieces] at h
    split at h
    · assumption
    · cases h
  · rintro rfl
    exact pieces_nil

theorem pieces_lexeme (cs : List Char) : pieces (lexeme cs).2 = (pieces cs).tail := by
  by_cases h : cs = []
  · subst h
    rw [pieces_nil]
    exact pieces_nil
  · rw [pieces_cons h, List.tail_cons]

/-- **The pieces are not empty.** -/
theorem pieces_ne_nil (cs : List Char) : ∀ p ∈ pieces cs, p ≠ [] := by
  fun_induction pieces cs with
  | case1 => simp
  | case2 cs h ih =>
    intro p hp
    rcases List.mem_cons.mp hp with rfl | hp
    · exact piece_ne_nil h
    · exact ih p hp

/-- **Together the pieces are the text.** -/
theorem pieces_flatten (cs : List Char) : (pieces cs).flatten = cs := by
  fun_induction pieces cs with
  | case1 => rfl
  | case2 cs h ih => rw [List.flatten_cons, ih, piece_append]

/-- There are not more pieces than characters. -/
theorem pieces_length_le (cs : List Char) : (pieces cs).length ≤ cs.length := by
  fun_induction pieces cs with
  | case1 => exact Nat.le_refl _
  | case2 cs h ih => exact Nat.lt_of_le_of_lt ih (lexeme_shorter h)

end Split

end CssTokens
