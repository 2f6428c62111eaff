import CssTokens.Lexer.Name
import CssTokens.Proofs.Split.Item

/-!
# Escapes, names and identifiers in plain text

The productions of `CssTokens.Lexer.Name` on plain text. All of them are local, and an escape, the
start of an identifier and an identifier cannot be made to fail by what follows.
-/

namespace CssTokens

namespace Split

/-! ## Escapes -/

/-- The rest of a numeric escape after its first digit. -/
def codePointEscape (first : Char) : Split Char := do
  let digits ← takeUpTo isHexDigit 5
  let _ ← nextIf fun c => isBlank c && digits.length < 5
  return charOfCodePoint (ofHexDigits (first :: digits))

/-- The rest of an escape after its backslash: the character it stands for. -/
def escape : Split (Option Char) := do
  match ← nextIf isHexDigit with
  | some first => return some (← codePointEscape first)
  | none => nextIf (· != '\n')

/-- An escape with its backslash. -/
def escaped : Split (Option Char) := attempt do
  if ← nextIs '\\' then escape else return none

theorem codePointEscape_local (first : Char) : Local (codePointEscape first) :=
  (takeUpTo_local _ _).bind fun _ => (nextIf_local _).bind fun _ => .pure _

theorem escape_local : Local escape := by
  refine (nextIf_local _).bind fun first => ?_
  cases first with
  | some first => exact (codePointEscape_local first).bind fun _ => .pure _
  | none => exact nextIf_local _

theorem escape_cons (c : Char) (cs : List Char) :
    escape (c :: cs) =
      if isHexDigit c then (some (codePointEscape c cs).1, (codePointEscape c cs).2)
      else if c == '\n' then (none, c :: cs) else (some c, cs) := by
  rw [escape, bind_apply]
  by_cases hx : isHexDigit c = true
  · rw [nextIf_pos hx, if_pos hx]
    rfl
  · rw [nextIf_neg (by simpa using hx), if_neg hx]
    by_cases hc : c = '\n'
    · subst hc
      rfl
    · rw [if_neg (by simpa using hc)]
      exact nextIf_pos (p := (· != '\n')) (by simpa using hc)

theorem escape_keeps : Keeps escape := by
  intro cs h
  cases cs with
  | nil => rfl
  | cons c cs =>
    rw [escape_cons] at h ⊢
    split at h
    · cases h
    · next hx =>
      rw [if_neg hx]
      split at h
      · next hc => rw [if_pos hc]
      · cases h

theorem escape_extends : Extends escape := by
  intro cs more h
  cases cs with
  | nil => cases h
  | cons c cs =>
    rw [List.cons_append]
    rw [escape_cons] at h ⊢
    split at h
    · next hx => rw [if_pos hx]; rfl
    · next hx =>
      rw [if_neg hx]
      split at h
      · cases h
      · next hc => rw [if_neg hc]; rfl

section
variable {c d : Char} {cs rest : List Char}

theorem escaped_of_ne (h : c ≠ '\\') : escaped (c :: cs) = (none, c :: cs) := by
  refine attempt_none ?_
  rw [bind_apply, nextIs_neg h]
  rfl

theorem escaped_some (h : escape cs = (some d, rest)) : escaped ('\\' :: cs) = (some d, rest) := by
  refine attempt_some ?_
  rw [bind_apply, nextIs_pos]
  exact h

theorem escaped_none (h : (escape cs).1 = none) : escaped ('\\' :: cs) = (none, '\\' :: cs) := by
  refine attempt_none ?_
  rw [bind_apply, nextIs_pos]
  exact h

end

theorem escaped_extends : Extends escaped := by
  intro cs more h
  cases cs with
  | nil => cases h
  | cons c cs =>
    by_cases hc : c = '\\'
    · subst hc
      cases he : (escape cs).1 with
      | none =>
        rw [escaped_none he] at h
        cases h
      | some d =>
        have hx := escape_extends cs more (by rw [he]; rfl)
        obtain ⟨e, hex⟩ := Option.isSome_iff_exists.mp hx
        rw [List.cons_append, escaped_some (eq_of_fst hex)]
        rfl
    · rw [escaped_of_ne hc] at h
      cases h

theorem escaped_local : Local escaped := by
  refine Local.attempt ?_ (extends_attempt.mp escaped_extends)
  refine (nextIs_local '\\').bind fun found => ?_
  cases found with
  | true => exact escape_local
  | false => exact .pure _

/-- An escape costs at least its backslash. -/
theorem escaped_shorter {cs rest : List Char} {d : Char} (h : escaped cs = (some d, rest)) :
    rest.length < cs.length := by
  cases cs with
  | nil => cases h
  | cons c cs =>
    by_cases hc : c = '\\'
    · subst hc
      cases he : (escape cs).1 with
      | none =>
        rw [escaped_none he] at h
        cases h
      | some e =>
        rw [escaped_some (eq_of_fst he)] at h
        obtain ⟨-, rfl⟩ := Prod.mk.inj h
        exact Nat.lt_succ_of_le (escape_local.suffix cs).length_le
    · rw [escaped_of_ne hc] at h
      cases h

/-! ## Names -/

/-- A character that satisfies `p`, or else an escape. -/
def charOrEscape (p : Char → Bool) : Split (Option Char) := do
  match ← nextIf p with
  | some c => return some c
  | none => escaped

section
variable {p : Char → Bool} {c : Char} {cs : List Char}

theorem charOrEscape_pos (h : p c = true) : charOrEscape p (c :: cs) = (some c, cs) := by
  rw [charOrEscape, bind_apply, nextIf_pos h]
  rfl

theorem charOrEscape_neg (h : p c = false) : charOrEscape p (c :: cs) = escaped (c :: cs) := by
  rw [charOrEscape, bind_apply, nextIf_neg h]

end

theorem charOrEscape_keeps (p : Char → Bool) : Keeps (charOrEscape p) := by
  intro cs h
  cases cs with
  | nil => rfl
  | cons c cs =>
    by_cases hc : p c = true
    · rw [charOrEscape_pos hc] at h
      cases h
    · have hc : p c = false := by simpa using hc
      rw [charOrEscape_neg hc] at h ⊢
      exact attempt_keeps _ h

theorem charOrEscape_local (p : Char → Bool) : Local (charOrEscape p) := by
  refine (nextIf_local p).bind fun c => ?_
  cases c with
  | some c => exact .pure _
  | none => exact escaped_local

theorem charOrEscape_extends (p : Char → Bool) : Extends (charOrEscape p) := by
  intro cs more h
  cases cs with
  | nil => cases h
  | cons c cs =>
    rw [List.cons_append]
    by_cases hc : p c = true
    · rw [charOrEscape_pos hc]
      rfl
    · have hc : p c = false := by simpa using hc
      rw [charOrEscape_neg hc] at h ⊢
      exact escaped_extends (c :: cs) more h

/-- The items of names, of strings and of URLs. -/
def Item.orEscape (p : Char → Bool) : Item Char where
  split := charOrEscape p
  shorter {cs a rest} h := by
    cases cs with
    | nil => cases h
    | cons c cs =>
      by_cases hc : p c = true
      · rw [charOrEscape_pos hc] at h
        obtain ⟨-, rfl⟩ := Prod.mk.inj h
        exact Nat.lt_succ_self _
      · rw [charOrEscape_neg (by simpa using hc)] at h
        exact escaped_shorter h
  keeps := charOrEscape_keeps p

/-- A name. -/
def name : Split (Option (List Char)) := do
  match ← (Item.orEscape isNameChar).many with
  | [] => return none
  | cs => return some cs

/-- An identifier. -/
def ident : Split (Option (List Char)) := attempt do
  let hyphen ← nextIf (· == '-')
  match ← charOrEscape isNameStart with
  | some first => return some (hyphen.toList ++ first :: (← (Item.orEscape isNameChar).many))
  | none => return none

theorem ident_keeps : Keeps ident := attempt_keeps _

theorem name_local : Local name := by
  refine (Item.many_local (charOrEscape_local _)).bind fun cs => ?_
  split <;> exact .pure _

/-- What decides whether there is an identifier. -/
theorem ident_isSome (cs : List Char) :
    (ident cs).1.isSome = (charOrEscape isNameStart (nextIf (· == '-') cs).2).1.isSome := by
  rw [ident, attempt_fst, bind_apply, bind_apply]
  cases (charOrEscape isNameStart (nextIf (· == '-') cs).2).1 <;> rfl

theorem ident_extends : Extends ident := by
  intro cs more h
  rw [ident_isSome] at h ⊢
  cases cs with
  | nil => cases h
  | cons c cs =>
    rw [nextIf_append more (by simp)]
    exact charOrEscape_extends _ _ more h

theorem ident_local : Local ident := by
  refine Local.attempt ?_ (extends_attempt.mp ident_extends)
  refine (nextIf_local _).bind fun hyphen => (charOrEscape_local _).bind fun first => ?_
  cases first with
  | some first => exact (Item.many_local (charOrEscape_local _)).bind fun _ => .pure _
  | none => exact .pure _

/-! ## What is read -/

theorem name_yields : Yields name fun text => ∀ cs ∈ text, cs ≠ [] := by
  refine .bind (.anything _) fun cs _ => ?_
  cases cs with
  | nil => exact .pure fun _ h => absurd h (Option.not_mem_none _)
  | cons c cs =>
    refine .pure fun ds hds => ?_
    cases hds
    exact List.cons_ne_nil c cs

theorem ident_yields : Yields ident fun text => ∀ cs ∈ text, cs ≠ [] := by
  refine .attempt (.bind (.anything _) fun hyphen _ => .bind (.anything _) fun first _ => ?_)
  cases first with
  | none => exact .pure fun _ h => absurd h (Option.not_mem_none _)
  | some first =>
    refine .bind (.anything _) fun cs _ => .pure fun ds hds => ?_
    cases hds
    exact List.append_ne_nil_of_right_ne_nil _ (List.cons_ne_nil first cs)

end Split

end CssTokens
