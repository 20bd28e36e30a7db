import USwift.Library.Lexicographic
import USwift.Library.Streams

/-!
# Comparing two sequences

`starts(with:by:)`, `elementsEqual(_:by:)` and `lexicographicallyPrecedes(_:by:)` advance two
iterators together, and differ in what they return when one of them comes to its end.
-/

namespace USwift

open Lexicographic Streams
open Stream' (Seq)

/-- A sequence whose iterator comes to its end, with the list of its elements. -/
structure FiniteSequence (Element : Type) where
  Iterator : Type
  next : Iterator → Option Element × Iterator
  makeIterator : Iterator
  elements : List Element
  answers : Answers next makeIterator (Seq.ofList elements)

section Operations

variable {Iterator OtherIterator Element OtherElement : Type}
  (next : Iterator → Option Element × Iterator)

/-- The loop of `starts(with:by:)`, for at most a number of rounds. -/
def startsLoop (otherNext : OtherIterator → Option OtherElement × OtherIterator)
    (areEquivalent : Element → OtherElement → Bool) :
    ℕ → Iterator → OtherIterator → Option Bool
  | 0, _, _ => none
  | fuel + 1, iterator, possiblePrefixIterator =>
      match next iterator with
      | (some e0, iterator) =>
          match otherNext possiblePrefixIterator with
          | (some e1, possiblePrefixIterator) =>
              if !areEquivalent e0 e1 then some false
              else startsLoop otherNext areEquivalent fuel iterator possiblePrefixIterator
          | (none, _) => some true
      | (none, _) => some (otherNext possiblePrefixIterator).1.isNone

/-- The loop of `elementsEqual(_:by:)`, for at most a number of rounds. -/
def elementsEqualLoop (otherNext : OtherIterator → Option OtherElement × OtherIterator)
    (areEquivalent : Element → OtherElement → Bool) :
    ℕ → Iterator → OtherIterator → Option Bool
  | 0, _, _ => none
  | fuel + 1, iter1, iter2 =>
      match next iter1, otherNext iter2 with
      | (some e1, iter1), (some e2, iter2) =>
          if !areEquivalent e1 e2 then some false
          else elementsEqualLoop otherNext areEquivalent fuel iter1 iter2
      | (some _, _), (none, _) => some false
      | (none, _), (some _, _) => some false
      | (none, _), (none, _) => some true

/-- The loop of `lexicographicallyPrecedes(_:by:)`, for at most a number of rounds. -/
def lexicographicallyPrecedesLoop (otherNext : OtherIterator → Option Element × OtherIterator)
    (areInIncreasingOrder : Element → Element → Bool) :
    ℕ → Iterator → OtherIterator → Option Bool
  | 0, _, _ => none
  | fuel + 1, iter1, iter2 =>
      match next iter1 with
      | (some e1, iter1) =>
          match otherNext iter2 with
          | (some e2, iter2) =>
              if areInIncreasingOrder e1 e2 then some true
              else if areInIncreasingOrder e2 e1 then some false
              else lexicographicallyPrecedesLoop otherNext areInIncreasingOrder fuel iter1 iter2
          | (none, _) => some false
      | (none, _) => some (otherNext iter2).1.isSome

/-- `starts(with:by:)`. -/
def FiniteSequence.starts (self : FiniteSequence Element)
    (possiblePrefix : FiniteSequence OtherElement) (areEquivalent : Element → OtherElement → Bool)
    (fuel : ℕ) : Option Bool :=
  startsLoop self.next possiblePrefix.next areEquivalent fuel self.makeIterator
    possiblePrefix.makeIterator

/-- `elementsEqual(_:by:)`. -/
def FiniteSequence.elementsEqual (self : FiniteSequence Element)
    (other : FiniteSequence OtherElement) (areEquivalent : Element → OtherElement → Bool)
    (fuel : ℕ) : Option Bool :=
  elementsEqualLoop self.next other.next areEquivalent fuel self.makeIterator other.makeIterator

/-- `lexicographicallyPrecedes(_:by:)`. -/
def FiniteSequence.lexicographicallyPrecedes (self other : FiniteSequence Element)
    (areInIncreasingOrder : Element → Element → Bool) (fuel : ℕ) : Option Bool :=
  lexicographicallyPrecedesLoop self.next other.next areInIncreasingOrder fuel self.makeIterator
    other.makeIterator

end Operations

/-- A loop that may run for enough rounds returns whether something is the case. -/
def Decides (loop : ℕ → Option Bool) (holds : Prop) : Prop :=
  ∃ bound, ∀ fuel > bound, ∃ result, loop fuel = some result ∧ (result = true ↔ holds)

theorem Decides.iff {loop : ℕ → Option Bool} {first second : Prop} (decides : Decides loop first)
    (decides' : Decides loop second) : first ↔ second := by
  rcases decides with ⟨bound, returns⟩
  rcases decides' with ⟨bound', returns'⟩
  rcases returns (bound + bound' + 1) (by omega) with ⟨result, returned, correct⟩
  rcases returns' (bound + bound' + 1) (by omega) with ⟨result', returned', correct'⟩
  rw [returned, Option.some_inj] at returned'
  subst returned'
  exact correct.symm.trans correct'

theorem Decides.congr {loop : ℕ → Option Bool} {first second : Prop} (decides : Decides loop first)
    (same : first ↔ second) : Decides loop second := by
  rw [← propext same]
  exact decides

section Loops

variable {Iterator OtherIterator Element OtherElement : Type}
  {next : Iterator → Option Element × Iterator}
  {otherNext : OtherIterator → Option OtherElement × OtherIterator} {iterator : Iterator}
  {otherIterator : OtherIterator} {elements : List Element} {others : List OtherElement}
  {areEquivalent : Element → OtherElement → Bool} {fuel : ℕ}

theorem prefix_cons_iff {equivalent : Element → OtherElement → Prop} {e0 : Element}
    {e1 : OtherElement} :
    (∃ front, front <+: e0 :: elements ∧ List.Forall₂ equivalent front (e1 :: others)) ↔
      equivalent e0 e1 ∧ ∃ front, front <+: elements ∧ List.Forall₂ equivalent front others := by
  constructor
  · rintro ⟨front, begins, pairs⟩
    cases pairs with
    | cons first pairs =>
        rw [List.cons_prefix_cons] at begins
        rcases begins with ⟨rfl, begins⟩
        exact ⟨first, _, begins, pairs⟩
  · rintro ⟨first, front, begins, pairs⟩
    exact ⟨e0 :: front, List.cons_prefix_cons.mpr ⟨rfl, begins⟩, .cons first pairs⟩

theorem startsLoop_eq (answers : Answers next iterator (Seq.ofList elements))
    (otherAnswers : Answers otherNext otherIterator (Seq.ofList others))
    (enough : elements.length < fuel) :
    ∃ result, startsLoop next otherNext areEquivalent fuel iterator otherIterator =
        some result ∧
      (result = true ↔ ∃ front, front <+: elements ∧
        List.Forall₂ (fun e0 e1 => areEquivalent e0 e1 = true) front others) := by
  induction elements generalizing others iterator otherIterator fuel with
  | nil =>
      rcases Nat.exists_eq_add_of_lt enough with ⟨more, rfl⟩
      rcases answers.nil_inv with ⟨_, ended⟩
      rw [startsLoop, ended]
      refine ⟨_, rfl, ?_⟩
      rw [otherAnswers.first, Seq.ofList_get?]
      simp
  | cons e0 elements rest =>
      rcases Nat.exists_eq_add_of_lt enough with ⟨more, rfl⟩
      rcases answers.cons_inv with ⟨later, advanced, remaining⟩
      rw [startsLoop, advanced]
      cases others with
      | nil =>
          rcases otherAnswers.nil_inv with ⟨_, ended⟩
          rw [ended]
          exact ⟨true, rfl, fun _ => ⟨[], List.nil_prefix, .nil⟩, fun _ => rfl⟩
      | cons e1 others =>
          rcases otherAnswers.cons_inv with ⟨otherLater, otherAdvanced, otherRemaining⟩
          rw [otherAdvanced, prefix_cons_iff]
          cases equivalent : areEquivalent e0 e1 with
          | false => exact ⟨false, by simp [equivalent], by simp⟩
          | true =>
              have shorter : elements.length < (e0 :: elements).length + more := by
                rw [List.length_cons]
                omega
              rcases rest remaining otherRemaining shorter with ⟨result, returned, correct⟩
              refine ⟨result, ?_, by simpa using correct⟩
              simpa [equivalent] using returned

theorem elementsEqualLoop_eq (answers : Answers next iterator (Seq.ofList elements))
    (otherAnswers : Answers otherNext otherIterator (Seq.ofList others))
    (enough : elements.length < fuel) :
    ∃ result, elementsEqualLoop next otherNext areEquivalent fuel iterator otherIterator =
        some result ∧
      (result = true ↔
        List.Forall₂ (fun e1 e2 => areEquivalent e1 e2 = true) elements others) := by
  induction elements generalizing others iterator otherIterator fuel with
  | nil =>
      rcases Nat.exists_eq_add_of_lt enough with ⟨more, rfl⟩
      rcases answers.nil_inv with ⟨_, ended⟩
      rw [elementsEqualLoop, ended]
      cases others with
      | nil =>
          rcases otherAnswers.nil_inv with ⟨_, otherEnded⟩
          rw [otherEnded]
          exact ⟨true, rfl, by simp⟩
      | cons e2 others =>
          rcases otherAnswers.cons_inv with ⟨_, otherAdvanced, _⟩
          rw [otherAdvanced]
          exact ⟨false, rfl, by simp⟩
  | cons e1 elements rest =>
      rcases Nat.exists_eq_add_of_lt enough with ⟨more, rfl⟩
      rcases answers.cons_inv with ⟨later, advanced, remaining⟩
      rw [elementsEqualLoop, advanced]
      cases others with
      | nil =>
          rcases otherAnswers.nil_inv with ⟨_, otherEnded⟩
          rw [otherEnded]
          exact ⟨false, rfl, by simp⟩
      | cons e2 others =>
          rcases otherAnswers.cons_inv with ⟨otherLater, otherAdvanced, otherRemaining⟩
          rw [otherAdvanced, List.forall₂_cons]
          cases equivalent : areEquivalent e1 e2 with
          | false => exact ⟨false, by simp [equivalent], by simp⟩
          | true =>
              have shorter : elements.length < (e1 :: elements).length + more := by
                rw [List.length_cons]
                omega
              rcases rest remaining otherRemaining shorter with ⟨result, returned, correct⟩
              refine ⟨result, ?_, by simpa using correct⟩
              simpa [equivalent] using returned

theorem lexicographicallyPrecedesLoop_eq
    {otherNext : OtherIterator → Option Element × OtherIterator} {others : List Element}
    {areInIncreasingOrder : Element → Element → Bool}
    (answers : Answers next iterator (Seq.ofList elements))
    (otherAnswers : Answers otherNext otherIterator (Seq.ofList others))
    (enough : elements.length < fuel) :
    ∃ result, lexicographicallyPrecedesLoop next otherNext areInIncreasingOrder fuel iterator
        otherIterator = some result ∧
      (result = true ↔
        Precedes (fun e1 e2 => areInIncreasingOrder e1 e2 = true) elements others) := by
  induction elements generalizing others iterator otherIterator fuel with
  | nil =>
      rcases Nat.exists_eq_add_of_lt enough with ⟨more, rfl⟩
      rcases answers.nil_inv with ⟨_, ended⟩
      rw [lexicographicallyPrecedesLoop, ended]
      refine ⟨_, rfl, ?_⟩
      rw [otherAnswers.first, Seq.ofList_get?]
      cases others with
      | nil => simp [precedes_nil]
      | cons e2 others => simp [Precedes.ended]
  | cons e1 elements rest =>
      rcases Nat.exists_eq_add_of_lt enough with ⟨more, rfl⟩
      rcases answers.cons_inv with ⟨later, advanced, remaining⟩
      rw [lexicographicallyPrecedesLoop, advanced]
      cases others with
      | nil =>
          rcases otherAnswers.nil_inv with ⟨_, otherEnded⟩
          rw [otherEnded]
          exact ⟨false, rfl, by simp [precedes_nil]⟩
      | cons e2 others =>
          rcases otherAnswers.cons_inv with ⟨otherLater, otherAdvanced, otherRemaining⟩
          rw [otherAdvanced, precedes_cons, Tied]
          cases lower : areInIncreasingOrder e1 e2 with
          | true => exact ⟨true, by simp [lower], by simp⟩
          | false =>
              cases higher : areInIncreasingOrder e2 e1 with
              | true => exact ⟨false, by simp [lower, higher], by simp⟩
              | false =>
                  have shorter : elements.length < (e1 :: elements).length + more := by
                    rw [List.length_cons]
                    omega
                  rcases rest remaining otherRemaining shorter with ⟨result, returned, correct⟩
                  refine ⟨result, ?_, by simpa using correct⟩
                  simpa [lower, higher] using returned

end Loops

namespace FiniteSequence

variable {Element OtherElement : Type} (self : FiniteSequence Element)

theorem starts_decides (possiblePrefix : FiniteSequence OtherElement)
    (areEquivalent : Element → OtherElement → Bool) :
    Decides (self.starts possiblePrefix areEquivalent)
      (∃ front, front <+: self.elements ∧
        List.Forall₂ (fun e0 e1 => areEquivalent e0 e1 = true) front possiblePrefix.elements) :=
  ⟨self.elements.length, fun _ enough => startsLoop_eq self.answers possiblePrefix.answers enough⟩

theorem elementsEqual_decides (other : FiniteSequence OtherElement)
    (areEquivalent : Element → OtherElement → Bool) :
    Decides (self.elementsEqual other areEquivalent)
      (List.Forall₂ (fun e1 e2 => areEquivalent e1 e2 = true) self.elements other.elements) :=
  ⟨self.elements.length, fun _ enough => elementsEqualLoop_eq self.answers other.answers enough⟩

theorem lexicographicallyPrecedes_decides (other : FiniteSequence Element)
    (areInIncreasingOrder : Element → Element → Bool) :
    Decides (self.lexicographicallyPrecedes other areInIncreasingOrder)
      (Precedes (fun e1 e2 => areInIncreasingOrder e1 e2 = true) self.elements other.elements) :=
  ⟨self.elements.length, fun _ enough =>
    lexicographicallyPrecedesLoop_eq self.answers other.answers enough⟩

/-- A list as a sequence. -/
def ofList (elements : List Element) : FiniteSequence Element :=
  ⟨List Element, listNext, elements, elements, answers_list elements⟩

end FiniteSequence

/--
For a strict weak order of the elements, the comparison of finite sequences returns a
result and is a strict weak order itself. Neither of two sequences precedes the other if and
only if they are equal with respect to elements of which neither precedes the other. For any
relation of elements, sequences are equal if their lists have the same length and related
elements, and one starts with another if the other's list is so related to a part at the
front of its own.
-/
theorem comparison_laws {Element : Type} {areInIncreasingOrder : Element → Element → Bool}
    (order : IsStrictWeakOrder Element fun x y => areInIncreasingOrder x y = true) :
    let precedes (self other : FiniteSequence Element) : Prop :=
      Decides (self.lexicographicallyPrecedes other areInIncreasingOrder) True
    (∀ self other : FiniteSequence Element,
      Decides (self.lexicographicallyPrecedes other areInIncreasingOrder) (precedes self other)) ∧
    IsStrictWeakOrder (FiniteSequence Element) precedes ∧
    (∀ self other : FiniteSequence Element,
      Decides
        (self.elementsEqual other fun x y =>
          !areInIncreasingOrder x y && !areInIncreasingOrder y x)
        (¬ precedes self other ∧ ¬ precedes other self)) ∧
    ∀ (OtherElement : Type) (areEquivalent : Element → OtherElement → Bool)
      (self : FiniteSequence Element) (other : FiniteSequence OtherElement),
      Decides (self.elementsEqual other areEquivalent)
        (List.Forall₂ (fun x y => areEquivalent x y = true) self.elements other.elements) ∧
      Decides (self.starts other areEquivalent)
        (∃ front, front <+: self.elements ∧
          List.Forall₂ (fun x y => areEquivalent x y = true) front other.elements) := by
  intro precedes
  have precedes_iff : ∀ self other, precedes self other ↔
      Precedes (fun x y => areInIncreasingOrder x y = true) self.elements other.elements := by
    intro self other
    have decides := self.lexicographicallyPrecedes_decides other areInIncreasingOrder
    constructor
    · intro returns
      exact (decides.iff returns).mpr trivial
    · intro lower
      exact decides.congr (iff_true_intro lower)
  have laws := @isStrictWeakOrder _ _ order
  refine ⟨?_, ?_, ?_, ?_⟩
  · intro self other
    exact (self.lexicographicallyPrecedes_decides other areInIncreasingOrder).congr
      (precedes_iff self other).symm
  · exact {
      irrefl := fun self => by
        rw [precedes_iff]
        exact laws.irrefl self.elements
      trans := fun first second third => by
        rw [precedes_iff, precedes_iff, precedes_iff]
        exact laws.trans first.elements second.elements third.elements
      incomp_trans := fun first second third => by
        simp only [precedes_iff]
        exact laws.incomp_trans first.elements second.elements third.elements }
  · intro self other
    have tied : (fun x y => (!areInIncreasingOrder x y && !areInIncreasingOrder y x) = true) =
        Tied fun x y => areInIncreasingOrder x y = true := by
      funext x y
      simp [Tied]
    apply (self.elementsEqual_decides other _).congr
    rw [precedes_iff, precedes_iff, incomparable_iff, tied]
  · intro OtherElement areEquivalent self other
    exact ⟨self.elementsEqual_decides other areEquivalent, self.starts_decides other areEquivalent⟩

/-- Numbers in the order of their tens, where two lists with the same tens are incomparable. -/
theorem comparison_laws_tens :
    IsStrictWeakOrder (FiniteSequence ℕ) (fun self other =>
        Decides (self.lexicographicallyPrecedes other fun x y => x / 10 < y / 10) True) ∧
      Decides
        ((FiniteSequence.ofList [12, 34]).elementsEqual (FiniteSequence.ofList [15, 30])
          fun x y => !decide (x / 10 < y / 10) && !decide (y / 10 < x / 10))
        (¬ Decides ((FiniteSequence.ofList [12, 34]).lexicographicallyPrecedes
            (FiniteSequence.ofList [15, 30]) fun x y => x / 10 < y / 10) True ∧
          ¬ Decides ((FiniteSequence.ofList [15, 30]).lexicographicallyPrecedes
            (FiniteSequence.ofList [12, 34]) fun x y => x / 10 < y / 10) True) := by
  have order : IsStrictWeakOrder ℕ fun x y => decide (x / 10 < y / 10) = true := {
    irrefl := fun x => by simp
    trans := fun x y z => by simp only [decide_eq_true_eq]; omega
    incomp_trans := fun x y z => by simp only [decide_eq_true_eq]; omega }
  have laws := comparison_laws order
  exact ⟨laws.2.1, laws.2.2.1 _ _⟩

end USwift
