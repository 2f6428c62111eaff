import CssTokens.CharClass
import CssTokens.Input.Event

/-!
# The scanner

The scanner reads the characters of a source, one at a time. It normalizes them on the way: CR LF,
CR and FF each become one line break, and NUL becomes U+FFFD. It counts the characters taken from
the source and the line breaks made of them, and it takes back characters that were read too far.

What is pushed back is a stack of read results, so the end of the input (`none`) can be pushed back
like a character. Replaying an entry of the stack changes neither the counters nor the source.

## Termination

Loops over a scanner end because they spend characters. `Scanner.budget` is the number of
characters that it can still deliver at most, and `ScanM.Takes` does the accounts of a computation
that reads characters and pushes some of them back.
-/

namespace CssTokens

/-- A reader of normalized characters with unlimited push-back. -/
structure Scanner where
  /-- What the source still delivers. -/
  source : Source
  /-- The results that were pushed back, the last one first. -/
  pushed : List (Option Char) := []
  /-- The number of characters taken from the source. -/
  position : Nat := 0
  /-- The number of line breaks made of them. -/
  line : Nat := 0
  /-- The last result. -/
  current : Option Char := none
  /-- Whether the last character of the source was a CR, so that a LF belongs to it. -/
  afterCr : Bool := false
  /-- The malformed pieces of input met since they were last taken note of, the latest first. -/
  malformed : List Encoding := []
  deriving Repr

/-- A computation that reads from a scanner. A failure leaves the scanner behind it. -/
abbrev ScanM := EStateM ScanError Scanner

namespace Scanner

/-- One read of the source. A failure is an event like any other: it is gone after that. -/
def readSource : ScanM (Option Char) := fun s =>
  match s.source with
  | [] => .ok none s
  | .char c malformed :: rest =>
    .ok (some c) { s with source := rest, malformed := malformed.toList ++ s.malformed }
  | .fail f :: rest => .error ⟨f⟩ { s with source := rest }

/-- Count a character of the source and normalize it. -/
def accept (raw : Option Char) (s : Scanner) : EStateM.Result ScanError Scanner (Option Char) :=
  match raw with
  | none => .ok none { s with current := none }
  | some c =>
    if c == '\r' then
      .ok (some '\n') { s with
        position := s.position + 1, line := s.line + 1, current := some '\n', afterCr := true }
    else if c == '\n' || c == '\x0C' then
      .ok (some '\n') { s with
        position := s.position + 1, line := s.line + 1, current := some '\n' }
    else if c == '\x00' then
      .ok (some replacementChar) { s with
        position := s.position + 1, current := some replacementChar }
    else
      .ok (some c) { s with position := s.position + 1, current := some c }

/-- The LF of a CR LF counts as a character, but the line break was delivered with the CR. -/
def readFresh : ScanM (Option Char) := fun s =>
  match readSource s with
  | .error e s => .error e s
  | .ok raw s =>
    if s.afterCr && raw == some '\n' then
      match readSource { s with afterCr := false, position := s.position + 1 } with
      | .error e s => .error e s
      | .ok raw s => accept raw s
    else accept raw { s with afterCr := false }

/-- The next character: what was pushed back last, or else the next one of the source. -/
def next : ScanM (Option Char) := fun s =>
  match s.pushed with
  | c :: rest => .ok c { s with pushed := rest, current := c }
  | [] => readFresh s

/-- Push a result back, so that it is the next one again. -/
def pushBack (c : Option Char) : ScanM Unit := fun s =>
  .ok () { s with pushed := c :: s.pushed }

/-! ## Termination -/

/-- A bound on the number of characters and failures still to come. -/
def budget (s : Scanner) : Nat :=
  s.pushed.countP Option.isSome + s.source.length

end Scanner

/-- One for something read and nothing for nothing. -/
def countOf {α : Type} : Option α → Nat
  | some _ => 1
  | none => 0

theorem countOf_le_one {α : Type} (a : Option α) : countOf a ≤ 1 := by
  cases a <;> simp [countOf]

/--
Started with `hand` characters in hand, the computation ends with at least `left a` of them in
hand. A character comes into the hand when it is read and leaves it when it is pushed back.
-/
def ScanM.Takes {α : Type} (hand : Nat) (m : ScanM α) (left : α → Nat) : Prop :=
  ∀ s a s', m s = .ok a s' → s'.budget + left a ≤ s.budget + hand

namespace ScanM.Takes

variable {α β : Type} {hand : Nat} {m : ScanM α} {left : α → Nat}

theorem pure {a : α} (h : left a ≤ hand) : Takes hand (Pure.pure a : ScanM α) left := by
  intro s b s' hm
  cases hm
  omega

theorem bind {f : α → ScanM β} {mid : α → Nat} {left : β → Nat} (hm : Takes hand m mid)
    (hf : ∀ a, Takes (mid a) (f a) left) : Takes hand (m >>= f) left := by
  intro s b s'' h
  simp only [Bind.bind, EStateM.bind] at h
  split at h
  · next a s' ha =>
    have h1 := hm s a s' ha
    have h2 := hf a s' _ s'' h
    omega
  · cases h

/-- More in hand at the start is more in hand at the end. -/
theorem more {k : Nat} {left' : α → Nat} (hm : Takes hand m left)
    (h : ∀ a, left' a ≤ left a + k) : Takes (hand + k) m left' := by
  intro s a s' hs
  have h1 := hm s a s' hs
  have h2 := h a
  omega

/-- What is left over in hand may be forgotten. -/
theorem mono {left' : α → Nat} (hm : Takes hand m left) (h : ∀ a, left' a ≤ left a) :
    Takes hand m left' :=
  hm.more (k := 0) h

end ScanM.Takes

namespace Scanner

theorem readSource_takes (hand : Nat) :
    ScanM.Takes hand readSource fun c => hand + countOf c := by
  intro s c s' h
  unfold readSource at h
  split at h
  · next hs =>
    cases h
    simp [budget, countOf, hs]
  · next hs =>
    cases h
    simp only [budget, countOf, hs, List.length_cons]
    omega
  · cases h

theorem accept_budget {raw c : Option Char} {s s' : Scanner} (h : accept raw s = .ok c s') :
    s'.budget = s.budget ∧ countOf c = countOf raw := by
  unfold accept at h
  repeat' split at h
  all_goals cases h; exact ⟨rfl, rfl⟩

theorem next_takes (hand : Nat) : ScanM.Takes hand next fun c => hand + countOf c := by
  intro s c s' h
  unfold next at h
  split at h
  · next c rest hp =>
    cases h
    cases c with
    | none => simp [budget, countOf, hp]
    | some c =>
      simp only [budget, countOf, hp, List.countP_cons, Option.isSome_some, if_true]
      omega
  · unfold readFresh at h
    split at h
    · cases h
    · next raw s1 h1 =>
      have b1 := readSource_takes 0 _ _ _ h1
      split at h
      · split at h
        · cases h
        · next raw2 s2 h2 =>
          have b2 := readSource_takes 0 _ _ _ h2
          have b3 := accept_budget h
          simp only [budget] at b1 b2 b3 ⊢
          omega
      · have b3 := accept_budget h
        simp only [budget] at b1 b3 ⊢
        omega

theorem pushBack_takes {hand : Nat} {c : Option Char} (h : countOf c ≤ hand) :
    ScanM.Takes hand (pushBack c) fun _ => hand - countOf c := by
  intro s a s' hs
  cases hs
  cases c with
  | none => simp [budget, countOf]
  | some c =>
    simp only [budget, countOf, List.countP_cons, Option.isSome_some, if_true] at h ⊢
    omega

/-! ## Reading up to a condition -/

/-- Read a character if it satisfies `p`; otherwise read nothing. -/
def nextIf (p : Char → Bool) : ScanM (Option Char) := do
  match ← next with
  | some c => if p c then return some c else pushBack (some c); return none
  | none => pushBack none; return none

/-- Read the character `c` if it comes next. -/
def nextIs (c : Char) : ScanM Bool := do
  return (← nextIf (· == c)).isSome

/-- Read the text `cs` if it comes next; otherwise read nothing. -/
def nextText : List Char → ScanM Bool
  | [] => return true
  | c :: cs => do
    if ← nextIs c then
      if ← nextText cs then return true
      pushBack (some c)
    return false

theorem nextIf_takes (hand : Nat) (p : Char → Bool) :
    ScanM.Takes hand (nextIf p) fun c => hand + countOf c := by
  refine (next_takes hand).bind fun c => ?_
  cases c with
  | none => exact (pushBack_takes (by simp [countOf])).bind fun _ => .pure (by simp [countOf])
  | some c =>
    dsimp only
    split
    · exact .pure (by simp [countOf])
    · exact (pushBack_takes (by simp [countOf])).bind fun _ => .pure (by simp [countOf])

theorem nextIs_takes (hand : Nat) (c : Char) :
    ScanM.Takes hand (nextIs c) fun found => hand + if found then 1 else 0 := by
  refine (nextIf_takes hand _).bind fun c => .pure ?_
  cases c <;> simp [countOf]

theorem nextText_takes (hand : Nat) :
    ∀ cs, ScanM.Takes hand (nextText cs) fun found => hand + if found then cs.length else 0
  | [] => .pure (by simp)
  | c :: cs => by
    refine (nextIs_takes hand c).bind fun found => ?_
    cases found with
    | false => exact .pure (by simp)
    | true =>
      refine (nextText_takes _ cs).bind fun found => ?_
      cases found with
      | true => exact .pure (by simp only [List.length_cons, if_true]; omega)
      | false =>
        exact (pushBack_takes (by simp [countOf])).bind fun _ => .pure (by simp [countOf])

/-- Read until the end of the input or a failure: the characters read, and how the reading ended. -/
def drain (s : Scanner) (read : List Char := []) :
    List Char × EStateM.Result ScanError Scanner Unit :=
  match _h : next s with
  | .ok (some c) s' => drain s' (c :: read)
  | .ok none s' => (read.reverse, .ok () s')
  | .error e s' => (read.reverse, .error e s')
termination_by s.budget
decreasing_by
  have := next_takes 0 _ _ _ _h
  simp only [countOf] at this
  omega

end Scanner

end CssTokens
