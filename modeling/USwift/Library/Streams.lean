import Mathlib.Data.Seq.Basic

/-!
# Iterators that change in place

A call of such an iterator answers with an element or the end, and changes the iterator in
both cases. What it answers to one call after another is a sequence, finite or not. Nothing
here depends on what the states are.
-/

namespace Streams

open Stream' (Seq)

universe u v

variable {State : Type u} {Element : Type v}

/-- The state after a number of calls. -/
def after (next : State → Option Element × State) (calls : ℕ) (state : State) : State :=
  (fun state => (next state).2)^[calls] state

/-- The calls of an iterator are answered by the elements of a sequence, and by the end for ever. -/
def Answers (next : State → Option Element × State) (state : State) (elements : Seq Element) :
    Prop :=
  ∀ calls, (next (after next calls state)).1 = elements.get? calls

/-- A predicate accepts a number of elements, and not the one behind them if there is one. -/
def Accepts (accepts : Element → Bool) (elements : Seq Element) (count : ℕ) : Prop :=
  (∀ i < count, ∃ element, elements.get? i = some element ∧ accepts element = true) ∧
    ∀ element, elements.get? count = some element → accepts element = false

/-- The iterator of a list, whose state is what remains of it. -/
def listNext : List Element → Option Element × List Element
  | [] => (none, [])
  | element :: elements => (some element, elements)

section Answers

variable {next : State → Option Element × State} {state : State} {elements : Seq Element}

theorem after_succ (calls : ℕ) :
    after next (calls + 1) state = after next calls (next state).2 := rfl

theorem after_add (calls more : ℕ) :
    after next (calls + more) state = after next more (after next calls state) := by
  rw [after, Nat.add_comm, Function.iterate_add_apply]
  rfl

theorem Answers.first (answers : Answers next state elements) :
    (next state).1 = elements.get? 0 :=
  answers 0

theorem Answers.after (answers : Answers next state elements) (calls : ℕ) :
    Answers next (after next calls state) (elements.drop calls) := by
  intro more
  rw [Seq.drop_get?, ← answers (calls + more), after_add]

theorem Answers.rest (answers : Answers next state elements) :
    Answers next (next state).2 (elements.drop 1) :=
  answers.after 1

/-- An iterator behaves as a sequence if its state keeps a relation to what is left of it. -/
theorem Answers.of_invariant (holds : State → Seq Element → Prop)
    (answered : ∀ state elements, holds state elements → (next state).1 = elements.get? 0)
    (steps : ∀ state elements, holds state elements → holds (next state).2 (elements.drop 1))
    (start : holds state elements) : Answers next state elements := by
  intro calls
  induction calls generalizing state elements with
  | zero => exact answered state elements start
  | succ calls later =>
      have following := later (steps state elements start)
      rw [Seq.drop_get?, Nat.add_comm] at following
      rw [after_succ]
      exact following

end Answers

section Lists

variable {list : List Element} {accepts : Element → Bool}

theorem drop_ofList (list : List Element) (n : ℕ) :
    (Seq.ofList list).drop n = Seq.ofList (list.drop n) := by
  apply Seq.ext
  intro i
  rw [Seq.drop_get?, Seq.ofList_get?, Seq.ofList_get?, List.getElem?_drop]

theorem take_ofList (list : List Element) (n : ℕ) : (Seq.ofList list).take n = list.take n := by
  apply List.ext_getElem?
  intro i
  rw [Seq.getElem?_take, Seq.ofList_get?, List.getElem?_take]

theorem answers_list (list : List Element) : Answers listNext list (Seq.ofList list) := by
  apply Answers.of_invariant fun list elements => elements = Seq.ofList list
  · rintro list _ rfl
    rw [Seq.ofList_get?]
    cases list <;> rfl
  · rintro list _ rfl
    rw [drop_ofList]
    cases list <;> rfl
  · rfl

theorem Answers.nil_inv {next : State → Option Element × State} {state : State}
    (answers : Answers next state (Seq.ofList [])) : ∃ later, next state = (none, later) :=
  ⟨(next state).2, Prod.ext answers.first rfl⟩

theorem Answers.cons_inv {next : State → Option Element × State} {state : State}
    {element : Element} (answers : Answers next state (Seq.ofList (element :: list))) :
    ∃ later, next state = (some element, later) ∧ Answers next later (Seq.ofList list) := by
  have rest := answers.rest
  rw [drop_ofList] at rest
  exact ⟨(next state).2, Prod.ext answers.first rfl, rest⟩

theorem accepts_ofList (accepts : Element → Bool) (list : List Element) :
    Accepts accepts (Seq.ofList list) (list.takeWhile accepts).length := by
  constructor
  · intro i inside
    have kept : list.takeWhile accepts <+: list := List.takeWhile_prefix accepts
    have accepted := List.all_eq_true.mp (@List.all_takeWhile _ accepts list)
    refine ⟨(list.takeWhile accepts)[i], ?_, accepted _ (List.getElem_mem inside)⟩
    rw [Seq.ofList_get?, kept.getElem inside]
    exact List.getElem?_eq_getElem (inside.trans_le kept.length_le)
  · intro element found
    rw [Seq.ofList_get?] at found
    induction list with
    | nil => cases found
    | cons first list rest =>
        cases accepted : accepts first with
        | false =>
            rw [List.takeWhile_cons, accepted] at found
            cases found
            exact accepted
        | true =>
            rw [List.takeWhile_cons, accepted] at found
            exact rest found

theorem drop_takeWhile_length (accepts : Element → Bool) (list : List Element) :
    list.drop (list.takeWhile accepts).length = list.dropWhile accepts := by
  calc list.drop (list.takeWhile accepts).length
      = (list.takeWhile accepts ++ list.dropWhile accepts).drop
          (list.takeWhile accepts).length := by rw [List.takeWhile_append_dropWhile]
    _ = list.dropWhile accepts := List.drop_left

end Lists

end Streams
