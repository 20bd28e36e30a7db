import USwift.Collections.Ranges
import USwift.Library.Swaps

/-!
# Collections as lists

A collection has the elements of a list when its indices are numbered by the positions of
the list. The default iterator then produces the list, and the collections that are edited
or rearranged are specified by what becomes of it.
-/

namespace USwift

open Iteration Swaps

section Operations

variable {Elements Index Element : Type} (collection : Collection Elements Index Element)

/-- `isEmpty`. -/
def Collection.isEmpty (elements : Elements) : Bool :=
  collection.equal (collection.startIndex elements) (collection.endIndex elements)

/-- `first`. -/
def Collection.first (elements : Elements) : Option Element :=
  let start := collection.startIndex elements
  if !collection.equal start (collection.endIndex elements) then
    some (collection.subscript elements start)
  else none

/-- The elements of the default iterator, which is run for at most a number of steps. -/
def Collection.iterated (fuel : ℕ) (elements : Elements) : List Element :=
  (collect (IndexingIterator.next collection) fuel (.init collection elements)).getD []

/-- A list as a collection whose indices are offsets. -/
def offsetCollection [Inhabited Element] : Collection (List Element) ℤ Element where
  startIndex _ := 0
  endIndex list := list.length
  indexAfter _ i := i + 1
  subscript list i := list.getD i.toNat default
  equal lhs rhs := lhs == rhs

/-- What a collection supplies to the defaults of `MutableCollection`. -/
structure MutableCollection (Elements Index Element : Type) extends
    Collection Elements Index Element where
  setSubscript : Elements → Index → Element → Elements

/-- A list as a collection whose elements are assigned. -/
def offsetMutableCollection [Inhabited Element] : MutableCollection (List Element) ℤ Element where
  toCollection := offsetCollection
  setSubscript list i element := list.set i.toNat element

/-- `swapAt(_:_:)`. -/
def MutableCollection.swapAt (collection : MutableCollection Elements Index Element)
    (elements : Elements) (i j : Index) : Elements :=
  if collection.equal i j then elements
  else
    let tmp := collection.subscript elements i
    let elements := collection.setSubscript elements i (collection.subscript elements j)
    collection.setSubscript elements j tmp

end Operations

variable {Elements Index Element : Type} {collection : Collection Elements Index Element}
  {elements : Elements} {list : List Element} {index : ℕ → Index}

/-- A collection has the elements of a list, and its indices number them. -/
structure Listed (collection : Collection Elements Index Element) (elements : Elements)
    (list : List Element) (index : ℕ → Index) : Prop where
  startIndex : collection.startIndex elements = index 0
  endIndex : collection.endIndex elements = index list.length
  equal : ∀ {i j : ℕ}, i ≤ list.length → j ≤ list.length →
    (collection.equal (index i) (index j) = true ↔ i = j)
  indexAfter : ∀ {i : ℕ}, i < list.length → collection.indexAfter elements (index i) = index (i + 1)
  subscript : ∀ {i : ℕ} (inside : i < list.length),
    collection.subscript elements (index i) = list[i]

namespace Listed

theorem isEmpty (listed : Listed collection elements list index) :
    collection.isEmpty elements = list.isEmpty := by
  rw [Collection.isEmpty, listed.startIndex, listed.endIndex, Bool.eq_iff_iff,
    listed.equal (Nat.zero_le _) le_rfl, List.isEmpty_iff_length_eq_zero]
  exact eq_comm

theorem first (listed : Listed collection elements list index) :
    collection.first elements = list.head? := by
  have atStart := listed.equal (Nat.zero_le list.length) le_rfl
  rw [Collection.first, listed.startIndex, listed.endIndex]
  cases list with
  | nil => simpa using atStart
  | cons element rest =>
      have inside : 0 < (element :: rest).length := by simp
      simp only [List.length_cons] at atStart
      simp [atStart, listed.subscript inside]

theorem yields_drop (listed : Listed collection elements list index) {i : ℕ}
    (inside : i ≤ list.length) :
    Yields (IndexingIterator.next collection) ⟨elements, index i⟩ (list.drop i) := by
  induction remaining : list.length - i generalizing i with
  | zero =>
      have here : i = list.length := by omega
      have ended : collection.equal (index i) (index list.length) = true :=
        (listed.equal inside le_rfl).mpr here
      rw [List.drop_of_length_le here.ge]
      apply Yields.done
      rw [IndexingIterator.next, listed.endIndex, if_pos ended]
  | succ remaining shorter =>
      have before : i < list.length := by omega
      have going : ¬ collection.equal (index i) (index list.length) = true := by
        rw [listed.equal inside le_rfl]
        omega
      rw [List.drop_eq_getElem_cons before]
      apply Yields.step _ (shorter before (by omega))
      rw [IndexingIterator.next, listed.endIndex, if_neg going]
      simp only [listed.subscript before, listed.indexAfter before]

/-- Iterating a collection produces its list. -/
theorem yields (listed : Listed collection elements list index) :
    Yields (IndexingIterator.next collection) (.init collection elements) list := by
  have walked := listed.yields_drop (Nat.zero_le list.length)
  rw [List.drop_zero, ← listed.startIndex] at walked
  exact walked

theorem iterated (listed : Listed collection elements list index) {fuel : ℕ}
    (enough : list.length < fuel) : collection.iterated fuel elements = list := by
  rw [Collection.iterated, listed.yields.collect enough, Option.getD_some]

/-- The indices of a collection tell how many elements it has. -/
theorem length_unique {list' : List Element} (listed : Listed collection elements list index)
    (listed' : Listed collection elements list' index) (shorter : list.length ≤ list'.length) :
    list.length = list'.length := by
  apply (listed'.equal shorter le_rfl).mp
  rw [← listed.endIndex, listed'.endIndex]
  exact (listed'.equal le_rfl le_rfl).mpr rfl

theorem unique {list' : List Element} (listed : Listed collection elements list index)
    (listed' : Listed collection elements list' index) : list = list' := by
  have length : list.length = list'.length := by
    rcases Nat.le_total list.length list'.length with shorter | longer
    · exact listed.length_unique listed' shorter
    · exact (listed'.length_unique listed longer).symm
  apply List.ext_getElem length
  intro i inside inside'
  rw [← listed.subscript inside, listed'.subscript inside']

end Listed

theorem listed_offsets [Inhabited Element] (list : List Element) :
    Listed offsetCollection list list fun i => (i : ℤ) := by
  constructor
  · rfl
  · rfl
  · simp [offsetCollection]
  · simp [offsetCollection]
  · intro i inside
    simp [offsetCollection, inside]

/-- Assigning an element of a collection replaces one of its list, and leaves the indices. -/
structure Assignable (collection : MutableCollection Elements Index Element)
    (list : Elements → List Element) (index : Elements → ℕ → Index) : Prop where
  listed : ∀ elements, Listed collection.toCollection elements (list elements) (index elements)
  setSubscript : ∀ elements {i : ℕ} element, i < (list elements).length →
    list (collection.setSubscript elements (index elements i) element) =
      (list elements).set i element
  keeps : ∀ elements {i : ℕ} element, i < (list elements).length →
    index (collection.setSubscript elements (index elements i) element) = index elements

/-- Swapping two elements of a collection swaps those of its list, and leaves the indices. -/
structure Rearranges (collection : Collection Elements Index Element)
    (swapAt : Elements → Index → Index → Elements) (list : Elements → List Element)
    (index : Elements → ℕ → Index) : Prop where
  listed : ∀ elements, Listed collection elements (list elements) (index elements)
  swaps : ∀ elements {i j : ℕ}, i < (list elements).length → j < (list elements).length →
    list (swapAt elements (index elements i) (index elements j)) = swap (list elements) i j
  keeps : ∀ elements {i j : ℕ}, i < (list elements).length → j < (list elements).length →
    index (swapAt elements (index elements i) (index elements j)) = index elements

/-- The swap of two elements of a list that is written out. -/
theorem Rearranges.swap_apart {swapAt : Elements → Index → Index → Elements}
    {list : Elements → List Element} {index : Elements → ℕ → Index}
    (rearranges : Rearranges collection swapAt list index) {front middle back : List Element}
    {x y : Element} (shape : list elements = front ++ x :: middle ++ y :: back) :
    ∃ later, swapAt elements (index elements front.length)
        (index elements (front ++ x :: middle).length) = later ∧
      list later = front ++ y :: middle ++ x :: back ∧ index later = index elements ∧
      (list later).Perm (list elements) := by
  have place : (front ++ x :: middle).length = front.length + 1 + middle.length := by
    simp
    omega
  have i_lt : front.length < (list elements).length := by simp [shape]
  have j_lt : front.length + 1 + middle.length < (list elements).length := by
    simp [shape]
    omega
  have swapped := rearranges.swaps elements i_lt j_lt
  rw [place]
  refine ⟨_, rfl, ?_, rearranges.keeps elements i_lt j_lt, ?_⟩
  · rw [swapped, shape, Swaps.swap_apart]
  · rw [swapped]
    exact swap_perm _ _ _

namespace Assignable

variable {collection : MutableCollection Elements Index Element}
  {list : Elements → List Element} {index : Elements → ℕ → Index} {i j : ℕ}

theorem swapAt_self (assignable : Assignable collection list index)
    (i_lt : i < (list elements).length) :
    collection.swapAt elements (index elements i) (index elements i) = elements := by
  have same := ((assignable.listed elements).equal i_lt.le i_lt.le).mpr rfl
  rw [MutableCollection.swapAt, if_pos same]

theorem swapAt (assignable : Assignable collection list index)
    (i_lt : i < (list elements).length) (j_lt : j < (list elements).length) :
    list (collection.swapAt elements (index elements i) (index elements j)) =
        swap (list elements) i j ∧
      index (collection.swapAt elements (index elements i) (index elements j)) =
        index elements := by
  by_cases same : i = j
  · subst same
    rw [assignable.swapAt_self i_lt, swap_self]
    exact ⟨rfl, rfl⟩
  · have differ : ¬ collection.equal (index elements i) (index elements j) = true := by
      rw [(assignable.listed elements).equal i_lt.le j_lt.le]
      exact same
    rw [MutableCollection.swapAt, if_neg differ, (assignable.listed elements).subscript i_lt,
      (assignable.listed elements).subscript j_lt, swap_eq i_lt j_lt]
    have first := assignable.setSubscript elements (list elements)[j] i_lt
    have kept := assignable.keeps elements (list elements)[j] i_lt
    have inside : j < (list (collection.setSubscript elements (index elements i)
        (list elements)[j])).length := by
      rw [first, List.length_set]
      exact j_lt
    have second := assignable.setSubscript _ (list elements)[i] inside
    have kept' := assignable.keeps _ (list elements)[i] inside
    rw [kept] at second kept'
    rw [first] at second
    exact ⟨second, kept'⟩

/-- The default of `swapAt(_:_:)` swaps two elements. -/
theorem rearranges (assignable : Assignable collection list index) :
    Rearranges collection.toCollection collection.swapAt list index where
  listed := assignable.listed
  swaps _ _ _ i_lt j_lt := (assignable.swapAt i_lt j_lt).1
  keeps _ _ _ i_lt j_lt := (assignable.swapAt i_lt j_lt).2

end Assignable

theorem offsets_assignable [Inhabited Element] :
    Assignable (@offsetMutableCollection Element _) id fun _ i => i where
  listed := listed_offsets
  setSubscript _ _ _ _ := by simp [offsetMutableCollection]
  keeps _ _ _ _ := rfl

end USwift
