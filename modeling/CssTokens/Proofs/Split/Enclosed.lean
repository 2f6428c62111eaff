import CssTokens.Lexer.Enclosed
import CssTokens.Proofs.Split.Name

/-!
# Strings, URLs and comments in plain text

The productions of `CssTokens.Lexer.Enclosed` on plain text. A comment ends at the first closing
mark, so it is one recursion here and not a run of items: an item that ends before a closing mark
looks further ahead than it reads and would not be local.
-/

namespace CssTokens

namespace Split

/-! ## Strings -/

/-- The characters that stand for themselves in a string. -/
def isPlainIn (quote c : Char) : Bool :=
  c != quote && c != '\n' && c != '\\'

/-- A character of a string. -/
def quotedChar (quote : Char) : Split (Option Char) := do
  match ← charOrEscape (isPlainIn quote) with
  | some c => return some c
  | none => return if ← nextText ['\\', '\n'] then some '\n' else none

theorem quotedChar_some {quote c : Char} {cs rest : List Char}
    (h : charOrEscape (isPlainIn quote) cs = (some c, rest)) :
    quotedChar quote cs = (some c, rest) := by
  rw [quotedChar, bind_apply, h]
  rfl

/-- Where there is neither a plain character nor an escape, there may be an escaped line break. -/
theorem quotedChar_none {quote : Char} {cs : List Char}
    (h : (charOrEscape (isPlainIn quote) cs).1 = none) :
    quotedChar quote cs =
      (if (nextText ['\\', '\n'] cs).1 then some '\n' else none, (nextText ['\\', '\n'] cs).2) := by
  have hk : (charOrEscape (isPlainIn quote) cs).2 = cs :=
    congrArg Prod.snd (charOrEscape_keeps _ h)
  rw [quotedChar, bind_apply, h, hk]
  rfl

theorem quotedChar_local (quote : Char) : Local (quotedChar quote) := by
  refine (charOrEscape_local _).bind fun c => ?_
  cases c with
  | some c => exact .pure _
  | none => exact (nextText_local _).bind fun _ => .pure _

/-- The items of strings. -/
def Item.quotedChar (quote : Char) : Item Char where
  split := Split.quotedChar quote
  shorter {cs a rest} h := by
    cases hc : (charOrEscape (isPlainIn quote) cs).1 with
    | some c =>
      have hsome : charOrEscape (isPlainIn quote) cs = (some c, _) := eq_of_fst hc
      rw [quotedChar_some hsome] at h
      rw [← (Prod.mk.inj h).2]
      exact (Item.orEscape _).shorter hsome
    | none =>
      rw [quotedChar_none hc] at h
      obtain ⟨hf, rfl⟩ := Prod.mk.inj h
      cases ht : (nextText ['\\', '\n'] cs).1 with
      | true => exact nextText_shorter (by simp) ht
      | false =>
        rw [ht] at hf
        cases hf
  keeps {cs} h := by
    cases hc : (charOrEscape (isPlainIn quote) cs).1 with
    | some c =>
      rw [quotedChar_some (eq_of_fst hc)] at h
      cases h
    | none =>
      rw [quotedChar_none hc] at h ⊢
      cases ht : (nextText ['\\', '\n'] cs).1 with
      | true =>
        rw [ht] at h
        cases h
      | false =>
        rw [nextText_keeps ht]
        rfl

/-- A string after its opening quote. -/
def quoted (quote : Char) : Split Enclosed := do
  let text ← (Item.quotedChar quote).many
  return { text, closed := ← nextIs quote }

theorem quoted_local (quote : Char) : Local (quoted quote) := by
  refine (Item.many_local (quotedChar_local quote)).bind fun _ => ?_
  exact (nextIs_local quote).bind fun _ => .pure _

/-! ## URLs -/

/-- The end of a URL with the given text. -/
def urlEnd (text : List Char) : Split Enclosed := do
  let _ ← takeWhile isBlank
  return { text, closed := ← nextIs ')' }

/-- A URL after its opening mark. -/
def url : Split Enclosed := do
  let _ ← takeWhile isBlank
  match ← nextIf isQuote with
  | some quote =>
    let contents ← quoted quote
    if contents.closed then urlEnd contents.text else return contents
  | none => urlEnd (← (Item.orEscape isUrlChar).many)

theorem urlEnd_local (text : List Char) : Local (urlEnd text) :=
  (takeWhile_local _).bind fun _ => (nextIs_local ')').bind fun _ => .pure _

theorem url_local : Local url := by
  refine (takeWhile_local _).bind fun _ => (nextIf_local _).bind fun quote => ?_
  cases quote with
  | some quote =>
    refine (quoted_local quote).bind fun contents => ?_
    split
    · exact urlEnd_local contents.text
    · exact .pure contents
  | none => exact (Item.many_local (charOrEscape_local _)).bind fun text => urlEnd_local text

/-! ## Comments -/

/-- A comment after its opening mark. -/
def comment : Split Enclosed
  | '*' :: '/' :: cs => ({ text := [], closed := true }, cs)
  | c :: cs => ({ (comment cs).1 with text := c :: (comment cs).1.text }, (comment cs).2)
  | [] => ({ text := [], closed := false }, [])

theorem comment_closed (cs : List Char) :
    comment ('*' :: '/' :: cs) = ({ text := [], closed := true }, cs) := by
  rw [comment]

theorem comment_cons {c : Char} {cs : List Char} (h : ¬(c = '*' ∧ cs.head? = some '/')) :
    comment (c :: cs) =
      ({ (comment cs).1 with text := c :: (comment cs).1.text }, (comment cs).2) := by
  rw [comment]
  rintro cs rfl rfl
  exact h ⟨rfl, rfl⟩

/-- The closing mark does not come next where the recursion goes on. -/
theorem not_mark_of_ne {c : Char} {cs : List Char}
    (hc : ∀ ds, c = '*' → cs = '/' :: ds → False) : ¬(c = '*' ∧ cs.head? = some '/') := by
  rintro ⟨rfl, hhead⟩
  obtain ⟨ds, rfl⟩ := List.head?_eq_some_iff.mp hhead
  exact hc ds rfl rfl

theorem comment_suffix (cs : List Char) : (comment cs).2 <:+ cs := by
  fun_induction comment cs with
  | case1 cs => exact (List.suffix_cons '/' cs).trans (List.suffix_cons '*' _)
  | case2 c cs _ ih => exact ih.trans (List.suffix_cons c cs)
  | case3 => exact List.suffix_refl []

/-- A comment takes something of every text. -/
theorem comment_shorter (c : Char) (cs : List Char) :
    (comment (c :: cs)).2.length < (c :: cs).length := by
  rw [List.length_cons]
  by_cases h : c = '*' ∧ cs.head? = some '/'
  · obtain ⟨rfl, hh⟩ := h
    obtain ⟨ds, rfl⟩ := List.head?_eq_some_iff.mp hh
    rw [comment_closed]
    exact Nat.lt_succ_of_le (Nat.le_succ ds.length)
  · rw [comment_cons h]
    exact Nat.lt_succ_of_le (comment_suffix cs).length_le

theorem comment_local : Local comment where
  suffix := comment_suffix
  cut {cs a rest} more h := by
    induction cs generalizing a with
    | nil =>
      obtain ⟨rfl, hf⟩ := cut_nil comment_suffix h
      cases more with
      | nil => exact hf
      | cons c more =>
        have hlt := comment_shorter c more
        rw [hf] at hlt
        exact absurd hlt (Nat.lt_irrefl _)
    | cons c cs ih =>
      rw [List.cons_append] at h
      by_cases hm : c = '*' ∧ cs.head? = some '/'
      · obtain ⟨rfl, hh⟩ := hm
        obtain ⟨ds, rfl⟩ := List.head?_eq_some_iff.mp hh
        rw [List.cons_append, comment_closed] at h
        obtain ⟨rfl, hr⟩ := Prod.mk.inj h
        rw [comment_closed, List.append_cancel_right hr]
      · rw [comment_cons hm]
        by_cases hx : c = '*' ∧ (cs ++ more).head? = some '/'
        · -- The closing mark would begin in the text and end after it.
          obtain ⟨rfl, hh⟩ := hx
          obtain ⟨ds, hds⟩ := List.head?_eq_some_iff.mp hh
          rw [hds, comment_closed] at h
          have hlen := congrArg List.length hds
          rw [(Prod.mk.inj h).2, List.length_append, List.length_cons, List.length_append] at hlen
          cases cs with
          | nil =>
            rw [List.length_nil] at hlen
            omega
          | cons d cs =>
            rw [List.cons_append, List.cons.injEq] at hds
            exact absurd ⟨rfl, by rw [hds.1]; rfl⟩ hm
        · rw [comment_cons hx] at h
          obtain ⟨rfl, hr⟩ := Prod.mk.inj h
          rw [ih (Prod.ext rfl hr)]

/-- The text of a comment begins as the text that it is read from. -/
theorem comment_head {cs : List Char} {c : Char} (h : (comment cs).1.text.head? = some c) :
    cs.head? = some c := by
  fun_cases comment cs with
  | case1 cs =>
    rw [comment_closed] at h
    cases h
  | case2 d cs hd =>
    rw [comment_cons (not_mark_of_ne hd)] at h
    exact h
  | case3 => cases h

/-- **The text of a comment does not hold the end of one.** -/
theorem comment_yields : Yields comment fun contents => ¬['*', '/'] <:+: contents.text := by
  intro cs
  fun_induction comment cs with
  | case1 cs => exact fun h => absurd (List.infix_nil.mp h) (List.cons_ne_nil _ _)
  | case2 c cs hc ih =>
    intro h
    rcases List.infix_cons_iff.mp h with hprefix | hinfix
    · -- The end would begin in the character, but then the comment had ended there.
      rw [List.cons_prefix_cons] at hprefix
      obtain ⟨rfl, hprefix⟩ := hprefix
      obtain ⟨ds, hds⟩ := hprefix
      have hhead : cs.head? = some '/' := comment_head (by rw [← hds]; rfl)
      obtain ⟨later, rfl⟩ := List.head?_eq_some_iff.mp hhead
      exact hc later rfl rfl
    · exact ih hinfix
  | case3 => exact fun h => absurd (List.infix_nil.mp h) (List.cons_ne_nil _ _)

end Split

end CssTokens
