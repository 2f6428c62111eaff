import CssTokens.Proofs.Refinement.Composed
import CssTokens.Proofs.Refinement.Tokenizer

/-!
# Two tokenizers side by side

All that the lexer does with a scanner is to read and to push back. If these two go alike on
scanners that are related in some way, then all of the lexer goes alike on them: it reads the same,
and leaves scanners that are related again. Two tokenizers of such scanners go alike, too. Up to
what their tokens are the same depends on the relation, since where a token stands is read off the
scanner.

The relation is a parameter, and so is the one in which a failure leaves the scanners. To use the
statements below for some relation, only reading and pushing back have to be looked at
(`Scanner.Agreement`).

Main statements: the lexer reads the same lexeme (`Lexeme.read_agrees`), and the next calls of two
tokenizers come to the same (`Tokenizer.Related.next`).
-/

namespace CssTokens

open Scanner Lexer

/-- Two results are alike if they are the same up to the scanners that are left, which are related
by `R`, or by `E` after a failure. -/
inductive Scanner.Alike {α : Type} (R E : Scanner → Scanner → Prop) :
    EStateM.Result ScanError Scanner α → EStateM.Result ScanError Scanner α → Prop
  | ok {a : α} {s s' : Scanner} : R s s' → Alike R E (.ok a s) (.ok a s')
  | error {e : ScanError} {s s' : Scanner} : E s s' → Alike R E (.error e s) (.error e s')

/-- On scanners that are related by `R`, the results of the computation are alike. -/
def ScanM.Agrees {α : Type} (R E : Scanner → Scanner → Prop) (m : ScanM α) : Prop :=
  ∀ s s', R s s' → Alike R E (m s) (m s')

/-- Reading and pushing back go alike on related scanners. -/
structure Scanner.Agreement (R E : Scanner → Scanner → Prop) : Prop where
  next : ScanM.Agrees R E next
  pushBack : ∀ c, ScanM.Agrees R E (pushBack c)

open ScanM (Agrees Composed)

variable {R E : Scanner → Scanner → Prop} {α β : Type}

namespace ScanM.Agrees

theorem pure (a : α) : Agrees R E (Pure.pure a : ScanM α) :=
  fun _ _ h => .ok h

theorem bind {m : ScanM α} {f : α → ScanM β} (hm : Agrees R E m)
    (hf : ∀ a, m.MayReturn a → Agrees R E (f a)) : Agrees R E (m >>= f) := by
  intro s s' h
  have hms := hm s s' h
  show Alike R E (EStateM.bind m f s) (EStateM.bind m f s')
  unfold EStateM.bind
  generalize hr : m s = r at hms
  generalize m s' = r' at hms
  cases hms with
  | @ok a s₁ _ h₁ => exact hf a ⟨s, s₁, hr⟩ _ _ h₁
  | error h₁ => exact .error h₁

theorem nextIf (h : Agreement R E) (p : Char → Bool) : Agrees R E (Scanner.nextIf p) := by
  refine h.next.bind fun c _ => ?_
  cases c with
  | none => exact (h.pushBack none).bind fun _ _ => .pure none
  | some c =>
    dsimp only
    split
    · exact .pure (some c)
    · exact (h.pushBack (some c)).bind fun _ _ => .pure none

theorem manyAfter {item : Item α} (hitem : Agrees R E item.read) (items : List α) :
    Agrees R E (item.manyAfter items) := by
  intro s s' hs
  have hread := hitem s s' hs
  fun_induction Item.manyAfter item items s generalizing s' with
  | case1 items s a s₁ h1 ih =>
    rw [h1] at hread
    generalize h1' : item.read s' = r at hread
    cases hread with
    | ok hs₁ =>
      rw [Item.manyAfter_item h1']
      exact ih _ hs₁ (hitem _ _ hs₁)
  | case2 items s s₁ h1 =>
    rw [h1] at hread
    generalize h1' : item.read s' = r at hread
    cases hread with
    | ok hs₁ =>
      rw [Item.manyAfter_end h1']
      exact .ok hs₁
  | case3 items s e s₁ h1 =>
    rw [h1] at hread
    generalize h1' : item.read s' = r at hread
    cases hread with
    | error hs₁ =>
      rw [Item.manyAfter_error h1']
      exact .error hs₁

end ScanM.Agrees

/-- **What reading and pushing back agree on, all that is composed of them agrees on.** -/
theorem ScanM.Composed.agrees {m : ScanM α} (hm : Composed m) (h : Agreement R E) :
    Agrees R E m := by
  induction hm with
  | pure a => exact .pure a
  | bind _ _ ihm ihf => exact ihm.bind ihf
  | next => exact h.next
  | nextIf p => exact .nextIf h p
  | pushBack _ => exact h.pushBack _
  | manyAfter items _ ih => exact ih.manyAfter items

/-- **On related scanners the lexer reads the same lexeme.** -/
theorem Lexeme.read_agrees (h : Agreement R E) : Agrees R E Lexeme.read :=
  Lexeme.read_composed.agrees h

/-! ## Tokenizers -/

namespace Tokenizer

variable {f : Token → Token}

/-- Related scanners make the same tokens up to `f`. Malformed input does not matter. -/
structure Agreement (R E : Scanner → Scanner → Prop) (f : Token → Token) : Prop
    extends Scanner.Agreement R E where
  token : ∀ {s s'} (l : Lexeme), R s s' → f (tokenOf l s) = f (tokenOf l s')
  malformed : ∀ {s s'}, R s s' → R { s with malformed := [] } { s' with malformed := [] }
  malformed_error : ∀ {s s'}, E s s' → E { s with malformed := [] } { s' with malformed := [] }

/-- The scanners are related, and they are read in the same way. -/
structure Related (R : Scanner → Scanner → Prop) (t t' : Tokenizer) : Prop where
  scanner : R t.scanner t'.scanner
  options : t.options = t'.options
  notPushedBack : t.pushedBack = false
  notPushedBack' : t'.pushedBack = false

/-- Both calls return the same token up to `f`, or they fail in the same way, and leave related
tokenizers. -/
inductive Alike (R E : Scanner → Scanner → Prop) (f : Token → Token) :
    EStateM.Result ScanError Tokenizer TokenKind → EStateM.Result ScanError Tokenizer TokenKind →
      Prop
  | ok {kind : TokenKind} {t t' : Tokenizer} : f t.token = f t'.token → Related R t t' →
    Alike R E f (.ok kind t) (.ok kind t')
  | error {e : ScanError} {t t' : Tokenizer} : Related E t t' →
    Alike R E f (.error e t) (.error e t')

namespace Related

variable {t t' : Tokenizer}

/-- The log does not matter. -/
theorem note (h : Related R t t') (entry entry' : LogEntry) :
    Related R (t.note entry) (t'.note entry') :=
  { h with }

theorem read (hA : Agreement R E f) (h : Related R t t') :
    Alike R E f (read t) (read t') := by
  have hread := Lexeme.read_agrees hA.toAgreement _ _ h.scanner
  unfold Tokenizer.read
  generalize Lexeme.read t.scanner = r at hread
  generalize Lexeme.read t'.scanner = r' at hread
  cases hread with
  | error hs =>
    exact .error ⟨hA.malformed_error hs, h.options, h.notPushedBack, h.notPushedBack'⟩
  | @ok l s s' hs =>
    have hrelated : Related R
        { t with scanner := s, token := tokenOf l t.scanner, started := true }.noteMalformed
        { t' with scanner := s', token := tokenOf l t'.scanner, started := true }.noteMalformed :=
      ⟨hA.malformed hs, h.options, h.notPushedBack, h.notPushedBack'⟩
    have htoken := hA.token l h.scanner
    have hkind : ∀ s, (tokenOf l s).kind = l.kind := fun _ => rfl
    -- A malformed token is noted in both logs or in none.
    simp only [hkind]
    split
    · exact .ok htoken (hrelated.note _ _)
    · exact .ok htoken hrelated

theorem readDelivered (hA : Agreement R E f) (h : Related R t t') :
    Alike R E f (readDelivered t) (readDelivered t') := by
  have hread := h.read hA
  fun_induction Tokenizer.readDelivered t generalizing t' with
  | case1 t e t₁ h1 =>
    rw [h1] at hread
    generalize h1' : Tokenizer.read t' = r at hread
    cases hread with
    | error hrelated =>
      rw [readDelivered_error h1']
      exact .error hrelated
  | case2 t kind t₁ h1 hk ih =>
    rw [h1] at hread
    generalize h1' : Tokenizer.read t' = r at hread
    cases hread with
    | ok _ hrelated =>
      rw [h.options] at hk
      rw [readDelivered_skip h1' hk]
      exact ih hrelated (hrelated.read hA)
  | case3 t kind t₁ h1 hk =>
    rw [h1] at hread
    generalize h1' : Tokenizer.read t' = r at hread
    cases hread with
    | ok htoken hrelated =>
      rw [h.options, Bool.not_eq_true] at hk
      rw [readDelivered_keep h1' hk]
      exact .ok htoken (hrelated.note _ _)

/-- **The next calls of two tokenizers of related scanners are alike.** -/
theorem next (hA : Agreement R E f) (h : Related R t t') : Alike R E f t.next t'.next := by
  rw [next_eq_readDelivered h.notPushedBack, next_eq_readDelivered h.notPushedBack']
  exact h.readDelivered hA

end Related

end Tokenizer

end CssTokens
