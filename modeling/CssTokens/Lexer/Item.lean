import CssTokens.Input.Scanner

/-!
# Repeated items

A name, a string or a comment is a run of items: characters that stand for themselves and escapes.
An item is a computation that either reads something or leaves the input alone, and since reading
costs characters it can be repeated as often as it goes.
-/

namespace CssTokens

/-- A computation that reads an item, or nothing. -/
structure Item (α : Type) where
  read : ScanM (Option α)
  /-- An item costs characters. Where there is none, what was read is given back. -/
  takes : ScanM.Takes 0 read countOf

namespace Item

variable {α : Type}

/-- The items from here on, after those in `items`, which are in reverse order. -/
def manyAfter (item : Item α) (items : List α) : ScanM (List α) := fun s =>
  match _h : item.read s with
  | .ok (some a) s' => manyAfter item (a :: items) s'
  | .ok none s' => .ok items.reverse s'
  | .error e s' => .error e s'
termination_by s => s.budget
decreasing_by
  have := item.takes _ _ _ _h
  simp only [countOf] at this
  omega

/-- As many items as there are. -/
def many (item : Item α) : ScanM (List α) :=
  item.manyAfter []

/-- As many items as there are, but not more than `n`. -/
def upTo (item : Item α) : Nat → ScanM (List α)
  | 0 => pure []
  | n + 1 => do
    match ← item.read with
    | some a => return a :: (← item.upTo n)
    | none => return []

/-- A single character that satisfies `p`. -/
def satisfying (p : Char → Bool) : Item Char where
  read := Scanner.nextIf p
  takes := (Scanner.nextIf_takes 0 p).mono fun _ => by simp

/-- A decimal digit. -/
def digit : Item Char := satisfying Char.isDigit

/-- A hexadecimal digit. -/
def hexDigit : Item Char := satisfying isHexDigit

/-- A blank. -/
def blank : Item Char := satisfying isBlank

/-! ## What repetition costs -/

theorem read_takes (item : Item α) (hand : Nat) :
    ScanM.Takes hand item.read fun a => hand + countOf a := by
  have h : ScanM.Takes (0 + hand) item.read fun a => hand + countOf a :=
    item.takes.more fun _ => by omega
  simpa using h

theorem manyAfter_budget {item : Item α} {items as : List α} {s s' : Scanner}
    (hs : item.manyAfter items s = .ok as s') : s'.budget ≤ s.budget := by
  fun_induction manyAfter item items s with
  | case1 items s a s1 h1 ih =>
    have := item.takes _ _ _ h1
    have := ih hs
    omega
  | case2 items s s1 h1 =>
    cases hs
    have := item.takes _ _ _ h1
    omega
  | case3 => cases hs

theorem many_takes (item : Item α) (hand : Nat) :
    ScanM.Takes hand item.many fun _ => hand := by
  intro s as s' hs
  have := manyAfter_budget hs
  dsimp only
  omega

theorem upTo_takes (item : Item α) (hand : Nat) :
    ∀ n, ScanM.Takes hand (item.upTo n) fun _ => hand
  | 0 => .pure (Nat.le_refl _)
  | n + 1 => by
    have hread : ScanM.Takes hand item.read fun _ => hand :=
      (item.read_takes hand).mono fun _ => by omega
    refine hread.bind fun a => ?_
    cases a with
    | none => exact .pure (Nat.le_refl _)
    | some a => exact (item.upTo_takes hand n).bind fun _ => .pure (Nat.le_refl _)

end Item

end CssTokens
