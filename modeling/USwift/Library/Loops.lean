import Mathlib.Data.List.Forall2
import Mathlib.Tactic.Common

/-!
# Loops over lists that may fail

A loop that runs through a list with a step that may fail is `List.foldlM` in `Except`.
Steps that succeed under an invariant make a loop that succeeds. The invariant is stated
for the part of the list that has been visited, for a list that the loop builds, or for the
number that has been reached. What every successful step keeps is kept by a successful loop.
-/

namespace Loops

universe u

variable {Error State : Type u} {Item : Type*} {step : State → Item → Except Error State}

theorem bind_eq_ok {Value Result : Type u} {first : Except Error Value}
    {second : Value → Except Error Result} {result : Result} :
    (first >>= second) = .ok result ↔ ∃ value, first = .ok value ∧ second value = .ok result := by
  cases first with
  | error failure =>
      constructor
      · rintro ⟨⟩
      · rintro ⟨_, ⟨⟩, _⟩
  | ok value =>
      constructor
      · intro succeeds
        exact ⟨value, rfl, succeeds⟩
      · rintro ⟨_, ⟨⟩, succeeds⟩
        exact succeeds

theorem foldlM_append_of_invariant {invariant : List Item → State → Prop} {all : List Item}
    (steps : ∀ visited item state, invariant visited state → visited ++ [item] <+: all →
      ∃ state', step state item = .ok state' ∧ invariant (visited ++ [item]) state')
    {visited rest : List Item} (split : visited ++ rest = all) {state : State}
    (holds : invariant visited state) :
    ∃ state', rest.foldlM step state = .ok state' ∧ invariant all state' := by
  induction rest generalizing visited state with
  | nil =>
      rw [List.append_nil] at split
      exact ⟨state, rfl, split ▸ holds⟩
  | cons item rest further =>
      have split' : visited ++ [item] ++ rest = all := by simpa using split
      rcases steps visited item state holds ⟨rest, split'⟩ with ⟨middle, stepped, held⟩
      rcases further split' held with ⟨state', runs, final⟩
      refine ⟨state', ?_, final⟩
      rw [List.foldlM_cons, stepped]
      exact runs

theorem foldlM_of_invariant {invariant : List Item → State → Prop} {all : List Item}
    (steps : ∀ visited item state, invariant visited state → visited ++ [item] <+: all →
      ∃ state', step state item = .ok state' ∧ invariant (visited ++ [item]) state')
    {state : State} (start : invariant [] state) :
    ∃ state', all.foldlM step state = .ok state' ∧ invariant all state' :=
  foldlM_append_of_invariant steps (List.nil_append all) start

/-- A loop over the numbers below a count, from the first one. -/
theorem foldlM_range {step : State → ℕ → Except Error State} {invariant : ℕ → State → Prop}
    {count : ℕ}
    (steps : ∀ i < count, ∀ state, invariant i state →
      ∃ state', step state i = .ok state' ∧ invariant (i + 1) state')
    {state : State} (start : invariant 0 state) :
    ∃ state', (List.range count).foldlM step state = .ok state' ∧ invariant count state' := by
  induction count with
  | zero => exact ⟨state, rfl, start⟩
  | succ count earlier =>
      rcases earlier fun i i_lt => steps i (by omega) with ⟨middle, runs, held⟩
      rcases steps count (by omega) middle held with ⟨state', stepped, final⟩
      refine ⟨state', ?_, final⟩
      rw [List.range_succ, List.foldlM_append, runs]
      change List.foldlM step middle [count] = .ok state'
      rw [List.foldlM_cons, stepped]
      rfl

/-- A loop over the numbers below a count, from the last one. -/
theorem foldlM_reverse_range {step : State → ℕ → Except Error State}
    {invariant : ℕ → State → Prop} {count : ℕ}
    (steps : ∀ i < count, ∀ state, invariant (i + 1) state →
      ∃ state', step state i = .ok state' ∧ invariant i state')
    {state : State} (start : invariant count state) :
    ∃ state', (List.range count).reverse.foldlM step state = .ok state' ∧
      invariant 0 state' := by
  induction count generalizing state with
  | zero => exact ⟨state, rfl, start⟩
  | succ count later =>
      rcases steps count (by omega) state start with ⟨middle, stepped, held⟩
      rcases later (fun i i_lt => steps i (by omega)) held with ⟨state', runs, final⟩
      refine ⟨state', ?_, final⟩
      rw [List.range_succ, List.reverse_append, List.reverse_singleton, List.singleton_append,
        List.foldlM_cons, stepped]
      exact runs

end Loops
