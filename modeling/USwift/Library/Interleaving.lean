import Mathlib.Algebra.Order.BigOperators.Group.Finset
import Mathlib.Tactic.Common

/-!
# Runs of labelled transition systems

A run is a list of labels that leads from a state to another one. What one step keeps is
kept by every run. The parties of a system are a finite type, and a quantity of the whole
system is a sum over what each party has, which a step of one party changes in one place.
-/

namespace Interleaving

universe u v

variable {State : Type u} {Label : Type v}

/-- The states that a list of steps leads to. -/
inductive Run (step : State → Label → State → Prop) (first : State) :
    List Label → State → Prop
  | start : Run step first [] first
  | next {labels : List Label} {label : Label} {middle last : State}
      (run : Run step first labels middle) (stepped : step middle label last) :
      Run step first (labels ++ [label]) last

namespace Run

variable {step : State → Label → State → Prop} {first last : State} {labels : List Label}

/-- What holds at first and is kept by every step holds at the end of every run. -/
theorem keeps {invariant : List Label → State → Prop} (run : Run step first labels last)
    (holds : invariant [] first)
    (step_keeps : ∀ {labels label middle last}, invariant labels middle →
      step middle label last → invariant (labels ++ [label]) last) :
    invariant labels last := by
  induction run with
  | start => exact holds
  | next _ stepped kept => exact step_keeps kept stepped

theorem eq_of_stuck (run : Run step first labels last) {allowed : Label → Prop}
    (stuck : ∀ label last, step first label last → ¬ allowed label)
    (all : ∀ label ∈ labels, allowed label) : last = first := by
  induction run with
  | start => rfl
  | next run stepped unmoved =>
      have same := unmoved fun label present => all label (List.mem_append_left _ present)
      subst same
      exact absurd (all _ (List.mem_append_right _ (List.mem_singleton_self _)))
        (stuck _ _ stepped)

end Run

section Sums

variable {Party : Type u} [Fintype Party] {Local : Type v}

/-- One party's change moves the sum by the change of its own part. -/
theorem sum_update_add [DecidableEq Party] (parts : Party → Local) (weight : Local → ℕ)
    (party : Party) (changed : Local) :
    ∑ other, weight (Function.update parts party changed other) + weight (parts party) =
      ∑ other, weight (parts other) + weight changed := by
  have split := fun locals : Party → Local =>
    Finset.add_sum_erase Finset.univ (fun other => weight (locals other)) (Finset.mem_univ party)
  have others : ∑ other ∈ Finset.univ.erase party,
      weight (Function.update parts party changed other) =
        ∑ other ∈ Finset.univ.erase party, weight (parts other) := by
    apply Finset.sum_congr rfl
    intro other present
    rw [Function.update_of_ne (Finset.ne_of_mem_erase present)]
  have before := split parts
  have after := split (Function.update parts party changed)
  simp only [Function.update_self] at after
  omega

theorem le_sum (parts : Party → ℕ) (party : Party) : parts party ≤ ∑ other, parts other :=
  Finset.single_le_sum (fun _ _ => Nat.zero_le _) (Finset.mem_univ party)

theorem add_le_sum (parts : Party → ℕ) {party other : Party} (different : party ≠ other) :
    parts party + parts other ≤ ∑ third, parts third := by
  classical
  rw [← Finset.sum_pair different]
  exact Finset.sum_le_sum_of_subset (Finset.subset_univ _)

end Sums

end Interleaving
