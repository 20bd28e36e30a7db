import Mathlib.Data.Nat.Basic
import Mathlib.Logic.Function.Iterate
import Mathlib.Tactic.Common

/-!
# Iterators as partial functions

An iterator is a state together with a `next` function that either reports the
end or produces an element and the following state. `Runs` is any number of its
steps, `Yields` the run to the end, and `collect` and `fold` the executable runs with a bound
on their length. Nothing here depends on what the states are.
-/

namespace Iteration

universe u v w

variable {State : Type u} {Element : Type v}

section Relations

variable (next : State → Option (Element × State))

/-- An iterator produces a list on the way from a state to another one. -/
inductive Runs : State → List Element → State → Prop
  | refl (state : State) : Runs state [] state
  | step {state later final : State} {element : Element} {elements : List Element}
      (advanced : next state = some (element, later)) (rest : Runs later elements final) :
      Runs state (element :: elements) final

/-- Running an iterator from a state produces a list and then the end. -/
def Yields (state : State) (elements : List Element) : Prop :=
  ∃ final, Runs next state elements final ∧ next final = none

/-- Run an iterator for at most a number of steps, and report a list only if the end is seen. -/
def collect : ℕ → State → Option (List Element)
  | 0, _ => none
  | fuel + 1, state =>
      match next state with
      | none => some []
      | some (element, later) => (collect fuel later).map (element :: ·)

/-- A loop over an iterator, for at most a number of steps. -/
def fold {Result : Type w} (body : Result → Element → Result) :
    ℕ → State → Result → Option Result
  | 0, _, _ => none
  | fuel + 1, state, result =>
      match next state with
      | none => some result
      | some (element, later) => fold body fuel later (body result element)

end Relations

variable {next : State → Option (Element × State)}

theorem Runs.trans {state middle final : State} {front back : List Element}
    (first : Runs next state front middle) (second : Runs next middle back final) :
    Runs next state (front ++ back) final := by
  induction first with
  | refl => exact second
  | step advanced _ rest => exact step advanced (rest second)

namespace Yields

variable {state later : State} {element : Element} {elements others : List Element}

theorem done (ended : next state = none) : Yields next state [] :=
  ⟨state, .refl state, ended⟩

theorem step (advanced : next state = some (element, later))
    (rest : Yields next later elements) : Yields next state (element :: elements) := by
  rcases rest with ⟨final, runs, ended⟩
  exact ⟨final, .step advanced runs, ended⟩

theorem cons_inv (yields : Yields next state (element :: elements)) :
    ∃ later, next state = some (element, later) ∧ Yields next later elements := by
  rcases yields with ⟨final, runs, ended⟩
  cases runs with
  | step advanced rest => exact ⟨_, advanced, final, rest, ended⟩

theorem nil_inv (yields : Yields next state ([] : List Element)) : next state = none := by
  rcases yields with ⟨final, runs, ended⟩
  cases runs
  exact ended

theorem unique (first : Yields next state elements) (second : Yields next state others) :
    elements = others := by
  induction elements generalizing others state with
  | nil =>
      cases others with
      | nil => rfl
      | cons other others =>
          rcases second.cons_inv with ⟨later, advanced, _⟩
          rw [first.nil_inv] at advanced
          cases advanced
  | cons element elements tails =>
      rcases first.cons_inv with ⟨later, advanced, rest⟩
      cases others with
      | nil =>
          rw [second.nil_inv] at advanced
          cases advanced
      | cons other others =>
          rcases second.cons_inv with ⟨otherLater, otherAdvanced, otherRest⟩
          rw [advanced, Option.some_inj, Prod.mk.injEq] at otherAdvanced
          rcases otherAdvanced with ⟨rfl, rfl⟩
          rw [tails rest otherRest]

theorem mem_of_next (yields : Yields next state elements)
    (advanced : next state = some (element, later)) : element ∈ elements := by
  cases elements with
  | nil =>
      rw [yields.nil_inv] at advanced
      cases advanced
  | cons other others =>
      rcases yields.cons_inv with ⟨otherLater, otherAdvanced, _⟩
      rw [advanced, Option.some_inj, Prod.mk.injEq] at otherAdvanced
      rw [otherAdvanced.1]
      exact List.mem_cons_self

theorem collect {fuel : ℕ} (yields : Yields next state elements)
    (enough : elements.length < fuel) : Iteration.collect next fuel state = some elements := by
  induction elements generalizing fuel state with
  | nil =>
      rcases Nat.exists_eq_add_of_lt enough with ⟨more, rfl⟩
      rw [Iteration.collect, yields.nil_inv]
  | cons element elements shorter =>
      rcases Nat.exists_eq_add_of_lt enough with ⟨more, rfl⟩
      rcases yields.cons_inv with ⟨later, advanced, rest⟩
      have tail : Iteration.collect next ((element :: elements).length + more) later =
          some elements := shorter rest (by simp; omega)
      rw [Iteration.collect, advanced]
      dsimp only
      rw [tail, Option.map_some]

theorem fold {Result : Type w} {body : Result → Element → Result} {fuel : ℕ}
    (yields : Yields next state elements) (enough : elements.length < fuel) (result : Result) :
    Iteration.fold next body fuel state result = some (elements.foldl body result) := by
  induction elements generalizing fuel state result with
  | nil =>
      rcases Nat.exists_eq_add_of_lt enough with ⟨more, rfl⟩
      rw [Iteration.fold, yields.nil_inv, List.foldl_nil]
  | cons element elements shorter =>
      rcases Nat.exists_eq_add_of_lt enough with ⟨more, rfl⟩
      rcases yields.cons_inv with ⟨later, advanced, rest⟩
      rw [Iteration.fold, advanced, List.foldl_cons]
      exact shorter rest (by simp; omega) (body result element)

end Yields

section Loops

variable {advance : State → State} {view : State → Element} {stop : State → Prop}

theorem Runs.iterate
    (going : ∀ state, ¬ stop state → next state = some (view state, advance state))
    {state : State} {count : ℕ} (before : ∀ k < count, ¬ stop (advance^[k] state)) :
    Runs next state ((List.range count).map fun k => view (advance^[k] state))
      (advance^[count] state) := by
  induction count generalizing state with
  | zero => exact .refl state
  | succ count rest =>
      rw [List.range_succ_eq_map, List.map_cons, List.map_map]
      apply Runs.step (going state (before 0 (by omega)))
      exact rest fun k k_lt => before (k + 1) (by omega)

/--
What such an iterator yields: the states before the first stopping one, and then
what it yields from there.
-/
theorem yields_iff_stops
    (going : ∀ state, ¬ stop state → next state = some (view state, advance state))
    {state : State} {elements : List Element} :
    Yields next state elements ↔
      ∃ count tail, (∀ k < count, ¬ stop (advance^[k] state)) ∧ stop (advance^[count] state) ∧
        Yields next (advance^[count] state) tail ∧
        elements = ((List.range count).map fun k => view (advance^[k] state)) ++ tail := by
  constructor
  · intro yields
    induction elements generalizing state with
    | nil =>
        have stopped : stop state := by
          by_contra running
          have ended := yields.nil_inv
          rw [going state running] at ended
          cases ended
        exact ⟨0, [], by simp, stopped, yields, rfl⟩
    | cons element elements rest =>
        by_cases stopped : stop state
        · exact ⟨0, element :: elements, by simp, stopped, yields, rfl⟩
        · rcases yields.cons_inv with ⟨later, advanced, yields⟩
          rw [going state stopped, Option.some_inj, Prod.mk.injEq] at advanced
          rcases advanced with ⟨rfl, rfl⟩
          rcases rest yields with ⟨count, tail, before, at_end, ending, rfl⟩
          refine ⟨count + 1, tail, ?_, at_end, ending, ?_⟩
          · intro k k_lt
            cases k with
            | zero => exact stopped
            | succ k => exact before k (by omega)
          · rw [List.range_succ_eq_map, List.map_cons, List.map_map]
            rfl
  · rintro ⟨count, tail, before, _, ⟨final, runs, ended⟩, rfl⟩
    exact ⟨final, (Runs.iterate going before).trans runs, ended⟩

end Loops

section Simulation

universe x

variable {Abstract : Type x} {AbstractElement : Type w}
  {abstractNext : Abstract → Option (AbstractElement × Abstract)}
  {holds : State → Abstract → Prop} {view : AbstractElement → Element}

/--
The simulation rule: where every step of an abstract iterator is one of the
concrete iterator, so is every run.
-/
theorem Runs.simulate
    (steps : ∀ state abstract element later, holds state abstract →
      abstractNext abstract = some (element, later) →
      ∃ state', next state = some (view element, state') ∧ holds state' later)
    {state : State} {abstract final : Abstract} {elements : List AbstractElement}
    (start : holds state abstract) (runs : Runs abstractNext abstract elements final) :
    ∃ state', Runs next state (elements.map view) state' ∧ holds state' final := by
  induction runs generalizing state with
  | refl abstract => exact ⟨state, .refl state, start⟩
  | step advanced _ rest =>
      rcases steps _ _ _ _ start advanced with ⟨middle, stepped, kept⟩
      rcases rest kept with ⟨state', runs, held⟩
      exact ⟨state', .step stepped runs, held⟩

end Simulation

section Texts

variable {Symbol Item : Type*} {scan : List Symbol → Option (Element × List Symbol)}

theorem Runs.flatMap_append {front : Item → List Symbol} {view : Item → Element}
    (scans : ∀ item rest, scan (front item ++ rest) = some (view item, rest)) (items : List Item)
    (back : List Symbol) :
    Runs scan (items.flatMap front ++ back) (items.map view) back := by
  induction items with
  | nil => exact .refl back
  | cons item items rest =>
      rw [List.flatMap_cons, List.append_assoc]
      exact .step (scans item (items.flatMap front ++ back)) rest

theorem Runs.flatMap {front : Item → List Symbol} {view : Item → Element}
    (scans : ∀ item rest, scan (front item ++ rest) = some (view item, rest)) (items : List Item) :
    Runs scan (items.flatMap front) (items.map view) [] := by
  simpa using Runs.flatMap_append scans items []

theorem Runs.exhaust {holds : Element → Item → Prop}
    (steps : ∀ text, text ≠ [] → ∃ element rest item,
      scan text = some (element, rest) ∧ rest.length < text.length ∧ holds element item)
    (text : List Symbol) :
    ∃ elements items, Runs scan text elements [] ∧ List.Forall₂ holds elements items := by
  induction length : text.length using Nat.strong_induction_on generalizing text with
  | _ size shorter =>
      by_cases empty : text = []
      · rw [empty]
        exact ⟨[], [], .refl [], .nil⟩
      · rcases steps text empty with ⟨element, rest, item, scanned, less, held⟩
        rcases shorter rest.length (by omega) rest rfl with ⟨elements, items, runs, all⟩
        exact ⟨element :: elements, item :: items, .step scanned runs, .cons held all⟩

end Texts

section Failures

/--
An iterator that may fail, by a trap or a loop without an end, delivers a list and
then the end.
-/
def Delivers (next : State → Option (Option (Element × State))) : State → List Element → Prop
  | state, [] => next state = some none
  | state, element :: elements =>
      ∃ later, next state = some (some (element, later)) ∧ Delivers next later elements

/-- Where a relation between states and remaining elements is kept, these are delivered. -/
theorem Delivers.of_invariant {next : State → Option (Option (Element × State))}
    (holds : State → List Element → Prop)
    (ends : ∀ state, holds state [] → next state = some none)
    (steps : ∀ state element elements, holds state (element :: elements) →
      ∃ later, next state = some (some (element, later)) ∧ holds later elements)
    {state : State} {elements : List Element} (start : holds state elements) :
    Delivers next state elements := by
  induction elements generalizing state with
  | nil => exact ends state start
  | cons element elements rest =>
      rcases steps state element elements start with ⟨later, advanced, kept⟩
      exact ⟨later, advanced, rest kept⟩

/-- The iterator of a list, whose state is what remains of it. -/
def listNext : List Element → Option (Option (Element × List Element))
  | [] => some none
  | element :: elements => some (some (element, elements))

theorem delivers_list (elements : List Element) : Delivers listNext elements elements := by
  induction elements with
  | nil => rfl
  | cons element elements rest => exact ⟨elements, rfl, rest⟩

end Failures

end Iteration
