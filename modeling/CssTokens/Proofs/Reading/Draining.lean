/-!
# Reading to the end of the input

A reader delivers items one by one until it finds the end of its input, and some of its reads may
fail on the way. Whoever wants all of the input reads on after each failure. This is said here of
any reader: of a scanner and of a source of bytes alike. Where it has other operations besides, it
is used by calls in a row.

Main statement: what such reading comes to is determined (`Drains.unique`).
-/

namespace CssTokens

variable {ε σ α : Type}

/-! ## Results -/

/-- What the reads that did not fail have delivered. -/
def itemsOf (results : List (Except ε α)) : List α :=
  results.filterMap Except.toOption

/-- What the reads that failed have reported. -/
def failuresOf (results : List (Except ε α)) : List ε :=
  results.filterMap fun
    | .ok _ => none
    | .error e => some e

section
variable (results results' : List (Except ε α))

theorem itemsOf_append : itemsOf (results ++ results') = itemsOf results ++ itemsOf results' :=
  List.filterMap_append

theorem failuresOf_append :
    failuresOf (results ++ results') = failuresOf results ++ failuresOf results' :=
  List.filterMap_append

@[simp] theorem itemsOf_map_ok (items : List α) :
    itemsOf (items.map (.ok : α → Except ε α)) = items := by
  rw [itemsOf, List.filterMap_map]
  exact List.filterMap_some

@[simp] theorem failuresOf_map_ok (items : List α) :
    failuresOf (items.map (.ok : α → Except ε α)) = [] := by
  rw [failuresOf, List.filterMap_map]
  exact List.filterMap_eq_nil_iff.mpr fun _ _ => rfl

end

/-- Without failures, the results are the items. -/
theorem eq_map_ok_of_failuresOf {results : List (Except ε α)} (h : failuresOf results = []) :
    results = (itemsOf results).map .ok := by
  induction results with
  | nil => rfl
  | cons r results ih =>
    cases r with
    | ok a => exact congrArg (.ok a :: ·) (ih h)
    | error e => cases h

/-! ## Draining -/

/-- Reading from `s` to the end of the input, and on after each failure, has these results and
leaves `s'`. -/
inductive Drains (read : EStateM ε σ (Option α)) : σ → List (Except ε α) → σ → Prop
  | item {s s₁ s' : σ} {a : α} {results : List (Except ε α)} :
    read s = .ok (some a) s₁ → Drains read s₁ results s' → Drains read s (.ok a :: results) s'
  | failure {s s₁ s' : σ} {e : ε} {results : List (Except ε α)} :
    read s = .error e s₁ → Drains read s₁ results s' → Drains read s (.error e :: results) s'
  | ended {s s' : σ} : read s = .ok none s' → Drains read s [] s'

/-- **What reading to the end comes to is determined.** -/
theorem Drains.unique {read : EStateM ε σ (Option α)} {s s' s'' : σ}
    {results results' : List (Except ε α)} (h : Drains read s results s')
    (h' : Drains read s results' s'') : results = results' ∧ s' = s'' := by
  induction h generalizing results' with
  | item h1 _ ih =>
    cases h' with
    | item h2 h' =>
      cases h1.symm.trans h2
      obtain ⟨rfl, rfl⟩ := ih h'
      exact ⟨rfl, rfl⟩
    | failure h2 => cases h1.symm.trans h2
    | ended h2 => cases h1.symm.trans h2
  | failure h1 _ ih =>
    cases h' with
    | item h2 => cases h1.symm.trans h2
    | failure h2 h' =>
      cases h1.symm.trans h2
      obtain ⟨rfl, rfl⟩ := ih h'
      exact ⟨rfl, rfl⟩
    | ended h2 => cases h1.symm.trans h2
  | ended h1 =>
    cases h' with
    | item h2 => cases h1.symm.trans h2
    | failure h2 => cases h1.symm.trans h2
    | ended h2 =>
      cases h1.symm.trans h2
      exact ⟨rfl, rfl⟩

/-! ## Calls in a row -/

/-- Make some calls one after the other: all that they return, and the state after them. -/
def runCalls {σ γ β : Type} (call : σ → γ → List β × σ) (s : σ) : List γ → List β × σ
  | [] => ([], s)
  | c :: calls =>
    ((call s c).1 ++ (runCalls call (call s c).2 calls).1, (runCalls call (call s c).2 calls).2)

end CssTokens
