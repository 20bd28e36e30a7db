import USwift.Collections.Traversal
import USwift.Library.Swaps

/-!
# Reversed collections

`ReversedCollection`, whose index names the element before an index of its base, and the
in-place `reverse()` with its two cursors.
-/

namespace USwift

open Iteration Positions Swaps

/-- A view of a collection from its end. -/
structure ReversedCollection (Base : Type) where
  _base : Base

namespace ReversedCollection

section Operations

variable {word : WordSize} {Base BaseIndex Element : Type}

/-- The index of a reversed collection, whose element is the one before the base index. -/
structure Index (BaseIndex : Type) where
  base : BaseIndex

/-- The iterator of a reversed collection. -/
structure Iterator (Base BaseIndex : Type) where
  _base : Base
  _position : BaseIndex

variable (base : BidirectionalCollection word Base BaseIndex Element)

/-- `init(_base:)` of the iterator. -/
def Iterator.init (_base : Base) : Option (Iterator Base BaseIndex) := do
  let _position ← base.endIndex _base
  return ⟨_base, _position⟩

/-- `next()`. -/
def Iterator.next (self : Iterator Base BaseIndex) :
    Option (Option (Element × Iterator Base BaseIndex)) := do
  let start ← base.startIndex self._base
  if base.equal self._position start then return none
  else
    let _position ← base.indexBefore self._base self._position
    let element ← base.subscript self._base _position
    return some (element, ⟨self._base, _position⟩)

/-- `makeIterator()`. -/
def makeIterator (self : ReversedCollection Base) : Option (Iterator Base BaseIndex) :=
  Iterator.init base self._base

/-- `startIndex`. -/
def startIndex (self : ReversedCollection Base) : Option (Index BaseIndex) :=
  (base.endIndex self._base).map Index.mk

/-- `endIndex`. -/
def endIndex (self : ReversedCollection Base) : Option (Index BaseIndex) :=
  (base.startIndex self._base).map Index.mk

/-- `index(after:)`. -/
def indexAfter (self : ReversedCollection Base) (i : Index BaseIndex) :
    Option (Index BaseIndex) :=
  (base.indexBefore self._base i.base).map Index.mk

/-- `index(before:)`. -/
def indexBefore (self : ReversedCollection Base) (i : Index BaseIndex) :
    Option (Index BaseIndex) :=
  (base.indexAfter self._base i.base).map Index.mk

/-- `index(_:offsetBy:)`. -/
def indexOffsetBy (self : ReversedCollection Base) (i : Index BaseIndex) (n : Value word .int) :
    Option (Index BaseIndex) :=
  (base.indexOffsetBy self._base i.base (0 - n)).map Index.mk

/-- `index(_:offsetBy:limitedBy:)`. -/
def indexLimited (self : ReversedCollection Base) (i : Index BaseIndex) (n : Value word .int)
    (limit : Index BaseIndex) : Option (Option (Index BaseIndex)) := do
  let result ← base.indexLimited self._base i.base (0 - n) limit.base
  return result.map Index.mk

/-- `distance(from:to:)`. -/
def distance (self : ReversedCollection Base) (start _end : Index BaseIndex) :
    Option (Value word .int) :=
  base.distance self._base _end.base start.base

/-- `subscript(_:)`. -/
def subscript (self : ReversedCollection Base) (position : Index BaseIndex) : Option Element := do
  let before ← base.indexBefore self._base position.base
  base.subscript self._base before

/-- A reversed collection as a collection, whose indices are compared the other way round. -/
def collection : BidirectionalCollection word (ReversedCollection Base) (Index BaseIndex) Element
    where
  startIndex := startIndex base
  endIndex := endIndex base
  indexAfter := indexAfter base
  indexBefore := indexBefore base
  indexOffsetBy := indexOffsetBy base
  indexLimited := indexLimited base
  distance := distance base
  subscript := subscript base
  equal lhs rhs := base.equal lhs.base rhs.base
  less lhs rhs := base.less rhs.base lhs.base

/-- `reversed()` of a reversed collection. -/
def reversed (self : ReversedCollection Base) : Base :=
  self._base

end Operations

end ReversedCollection

namespace BidirectionalCollection

section Operations

variable {word : WordSize} {Elements Index Element : Type}

/-- `reversed()`. -/
def reversed (elements : Elements) : ReversedCollection Elements :=
  ⟨elements⟩

variable (collection : BidirectionalCollection word Elements Index Element)
  (setSubscript : Elements → Index → Element → Option Elements)

/-- `swapAt(_:_:)`. -/
def swapAt (elements : Elements) (i j : Index) : Option Elements := do
  if collection.equal i j then return elements
  else
    let tmp ← collection.subscript elements i
    let element ← collection.subscript elements j
    let elements ← setSubscript elements i element
    setSubscript elements j tmp

/-- The loop of `reverse()`, for at most a number of rounds. -/
def reverseLoop : ℕ → Elements → Index → Index → Option Elements
  | 0, _, _, _ => none
  | fuel + 1, elements, f, l =>
      if collection.less f l then do
        let elements ← collection.swapAt setSubscript elements f l
        let f ← collection.indexAfter elements f
        let l ← collection.indexBefore elements l
        reverseLoop fuel elements f l
      else some elements

/-- `reverse()`. -/
def reverse (fuel : ℕ) (elements : Elements) : Option Elements := do
  let isEmpty ← collection.isEmpty elements
  if isEmpty then return elements
  else
    let f ← collection.startIndex elements
    let _end ← collection.endIndex elements
    let l ← collection.indexBefore elements _end
    collection.reverseLoop setSubscript fuel elements f l

end Operations

end BidirectionalCollection

section Results

variable {word : WordSize} {Base BaseIndex Element : Type}
  {base : BidirectionalCollection word Base BaseIndex Element} {_base : Base}
  {list : List Element} {index : ℕ → BaseIndex}

theorem toInt_negate {n : Value word .int} (negatable : Negatable n) :
    toInt word .int (0 - n) = -toInt word .int n := by
  have low : TwosComplement.minimum true word.bits ≤ toInt word .int n := minimum_le_toInt n
  have high : toInt word .int n ≤ TwosComplement.maximum true word.bits := toInt_le_maximum n
  have bounds := int_bounds word
  rw [Negatable] at negatable
  have zero := toInt_zero word .int
  have negated := toInt_int_sub (a := 0) (b := n) (by omega) (by omega)
  rw [negated, zero, zero_sub]

theorem negatable_negate {n : Value word .int} (negatable : Negatable n) :
    Negatable (0 - n) := by
  have high : toInt word .int n ≤ TwosComplement.maximum true word.bits := toInt_le_maximum n
  have bounds := int_bounds word
  rw [Negatable, toInt_negate negatable]
  omega

/-- A walk and its mirror image meet the limit together. -/
theorem meets_mirror {size i limit : ℕ} {n : ℤ} (i_le : i ≤ size) (limit_le : limit ≤ size) :
    Meets ((size - i : ℕ) : ℤ) (-n) ((size - limit : ℕ) : ℤ) ↔ Meets i n limit := by
  rw [meets_iff, meets_iff]
  rcases lt_trichotomy n 0 with negative | rfl | positive
  · rw [if_pos (by omega), if_neg (by omega)]
    omega
  · simp
    omega
  · rw [if_neg (by omega), if_pos positive]
    omega

/-- The mirror image of an offset goes the other way. -/
theorem mirror_offset {size i j : ℕ} {n : Value word .int} (i_le : i ≤ size) (j_le : j ≤ size)
    (negatable : Negatable n) (apart : (j : ℤ) = i + toInt word .int n) :
    ((size - j : ℕ) : ℤ) = ((size - i : ℕ) : ℤ) + toInt word .int (0 - n) := by
  rw [toInt_negate negatable]
  omega

namespace ReversedCollection

/-- The index of a position of the reversed list. -/
def place (size : ℕ) (index : ℕ → BaseIndex) (position : ℕ) : Index BaseIndex :=
  ⟨index (size - position)⟩

/-- A reversed collection has the elements of its base in the opposite order. -/
theorem collection_traversed (traversed : Traversed True Negatable base _base list index) :
    Traversed True Negatable (collection base) ⟨_base⟩ list.reverse (place list.length index) := by
  constructor
  · change (base.endIndex _base).map Index.mk = _
    rw [traversed.endIndex, Option.map_some, place, Nat.sub_zero]
  · change (base.startIndex _base).map Index.mk = _
    rw [traversed.startIndex, Option.map_some, place, List.length_reverse, Nat.sub_self]
  · intro i j i_le j_le
    rw [List.length_reverse] at i_le j_le
    change base.equal (index _) (index _) = true ↔ _
    rw [traversed.equal (Nat.sub_le _ _) (Nat.sub_le _ _)]
    omega
  · intro i j i_le j_le
    rw [List.length_reverse] at i_le j_le
    change base.less (index _) (index _) = true ↔ _
    rw [traversed.less (Nat.sub_le _ _) (Nat.sub_le _ _)]
    omega
  · intro i inside
    rw [List.length_reverse] at inside
    have before : list.length - 1 - i < list.length := by omega
    have step : list.length - i = list.length - 1 - i + 1 := by omega
    change subscript base ⟨_base⟩ (place list.length index i) = _
    rw [subscript, place, step, traversed.indexBefore trivial before, List.getElem_reverse]
    exact traversed.subscript before
  · intro i inside
    rw [List.length_reverse] at inside
    have before : list.length - (i + 1) < list.length := by omega
    have step : list.length - i = list.length - (i + 1) + 1 := by omega
    change (base.indexBefore _base (index (list.length - i))).map Index.mk = _
    rw [step, traversed.indexBefore trivial before, Option.map_some, place]
  · intro _ i inside
    rw [List.length_reverse] at inside
    have before : list.length - (i + 1) < list.length := by omega
    have step : list.length - i = list.length - (i + 1) + 1 := by omega
    change (base.indexAfter _base (index (list.length - (i + 1)))).map Index.mk = _
    rw [traversed.indexAfter before, Option.map_some, place, step]
  · intro i j i_le j_le _
    rw [List.length_reverse] at i_le j_le
    change base.distance _base (index (list.length - j)) (index (list.length - i)) = _
    rw [traversed.distance (Nat.sub_le _ _) (Nat.sub_le _ _) (Or.inr trivial)]
    have same : ((list.length - i : ℕ) : ℤ) - ((list.length - j : ℕ) : ℤ) = (j : ℤ) - i := by
      omega
    rw [same]
  · intro i j n i_le j_le negatable _ apart
    rw [List.length_reverse] at i_le j_le
    have there := mirror_offset i_le j_le negatable apart
    change (base.indexOffsetBy _base (index (list.length - i)) (0 - n)).map Index.mk = _
    rw [traversed.indexOffsetBy (Nat.sub_le _ _) (Nat.sub_le _ _) (negatable_negate negatable)
      (Or.inr trivial) there, Option.map_some, place]
  · intro i limit n i_le limit_le negatable _ meets
    rw [List.length_reverse] at i_le limit_le
    have mirrored := (meets_mirror i_le limit_le).mpr meets
    rw [← toInt_negate negatable] at mirrored
    change indexLimited base ⟨_base⟩ (place list.length index i) n _ = _
    rw [indexLimited, place, place, traversed.limited_met (Nat.sub_le _ _) (Nat.sub_le _ _)
      (negatable_negate negatable) (Or.inr trivial) mirrored]
    rfl
  · intro i j limit n i_le j_le limit_le negatable _ clear apart
    rw [List.length_reverse] at i_le j_le limit_le
    have mirrored := (meets_mirror i_le limit_le).not.mpr clear
    have there := mirror_offset i_le j_le negatable apart
    rw [← toInt_negate negatable] at mirrored
    change indexLimited base ⟨_base⟩ (place list.length index i) n _ = _
    rw [indexLimited, place, place, traversed.limited_unmet (Nat.sub_le _ _) (Nat.sub_le _ _)
      (Nat.sub_le _ _) (negatable_negate negatable) (Or.inr trivial) mirrored there]
    rfl

theorem Iterator.delivers_take (traversed : Traversed True Negatable base _base list index)
    {count : ℕ} (inside : count ≤ list.length) :
    Delivers (Iterator.next base) ⟨_base, index count⟩ (list.take count).reverse := by
  induction count with
  | zero =>
      have ended := (traversed.equal (Nat.zero_le _) (Nat.zero_le _)).mpr rfl
      change Iterator.next base ⟨_base, index 0⟩ = some none
      rw [Iterator.next, traversed.startIndex]
      simp [ended]
  | succ count shorter =>
      have going : ¬ base.equal (index (count + 1)) (index 0) = true := by
        rw [traversed.equal inside (Nat.zero_le _)]
        omega
      rw [List.take_succ_eq_append_getElem inside, List.reverse_append, List.reverse_singleton,
        List.singleton_append]
      refine ⟨⟨_base, index count⟩, ?_, shorter (by omega)⟩
      rw [Iterator.next, traversed.startIndex]
      simp [going, traversed.indexBefore trivial inside, traversed.subscript inside]

/-- Iterating a reversed collection delivers the reversed list. -/
theorem Iterator.delivers (traversed : Traversed True Negatable base _base list index) :
    ∃ iterator, makeIterator base ⟨_base⟩ = some iterator ∧
      Delivers (Iterator.next base) iterator list.reverse := by
  have walked := Iterator.delivers_take traversed (Nat.le_refl list.length)
  rw [List.take_length] at walked
  refine ⟨⟨_base, index list.length⟩, ?_, walked⟩
  rw [makeIterator, Iterator.init, traversed.endIndex]
  rfl

end ReversedCollection

/--
Assigning an element of a collection replaces one of its list, and leaves its indices. The
relation says which lists the states of the collection stand for.
-/
structure Assigns (base : BidirectionalCollection word Base BaseIndex Element)
    (setSubscript : Base → BaseIndex → Element → Option Base)
    (represents : Base → List Element → Prop) (index : ℕ → BaseIndex) : Prop where
  traversed : ∀ {_base : Base} {list : List Element}, represents _base list →
    Traversed True Negatable base _base list index
  assign : ∀ {_base : Base} {list : List Element}, represents _base list →
    ∀ {i : ℕ} (element : Element), i < list.length →
      ∃ later, setSubscript _base (index i) element = some later ∧
        represents later (list.set i element)

namespace Assigns

variable {setSubscript : Base → BaseIndex → Element → Option Base}
  {represents : Base → List Element → Prop}

theorem swapAt (assigns : Assigns base setSubscript represents index)
    (represented : represents _base list) {i j : ℕ} (i_lt : i < list.length)
    (j_lt : j < list.length) :
    ∃ later, base.swapAt setSubscript _base (index i) (index j) = some later ∧
      represents later (swap list i j) := by
  have traversed := assigns.traversed represented
  by_cases same : i = j
  · subst same
    have equal := (traversed.equal i_lt.le i_lt.le).mpr rfl
    refine ⟨_base, ?_, ?_⟩
    · rw [BidirectionalCollection.swapAt, if_pos equal]
      rfl
    · rw [swap_self]
      exact represented
  · have differ := (traversed.equal i_lt.le j_lt.le).not.mpr same
    rcases assigns.assign represented list[j] i_lt with ⟨middle, first, half⟩
    have inside : j < (list.set i list[j]).length := by
      rw [List.length_set]
      exact j_lt
    rcases assigns.assign half list[i] inside with ⟨later, second, swapped⟩
    refine ⟨later, ?_, ?_⟩
    · rw [BidirectionalCollection.swapAt, if_neg differ, traversed.subscript i_lt,
        traversed.subscript j_lt]
      simp only [Option.bind_eq_bind, Option.bind_some, first, second]
    · rw [swap_eq i_lt j_lt]
      exact swapped

/-- The elements outside the cursors have changed their places, and those between have not. -/
theorem reverseLoop (assigns : Assigns base setSubscript represents index)
    {front middle back : List Element} {fuel last : ℕ}
    (represented : represents _base (front ++ middle ++ back))
    (cursor : last + 1 = front.length + middle.length) (enough : middle.length < fuel) :
    ∃ later, base.reverseLoop setSubscript fuel _base (index front.length) (index last) =
        some later ∧ represents later (front ++ middle.reverse ++ back) := by
  induction fuel generalizing _base front middle back last with
  | zero => omega
  | succ fuel further =>
      have traversed := assigns.traversed represented
      have size : (front ++ middle ++ back).length =
          front.length + middle.length + back.length := by
        simp only [List.length_append]
      have front_le : front.length ≤ (front ++ middle ++ back).length := by omega
      have last_le : last ≤ (front ++ middle ++ back).length := by omega
      have less := traversed.less front_le last_le
      rw [BidirectionalCollection.reverseLoop]
      rcases middle with _ | ⟨x, rest⟩
      · -- The cursors have passed each other between two elements.
        rw [List.length_nil] at cursor
        rw [if_neg (by rw [less]; omega)]
        exact ⟨_base, rfl, represented⟩
      · rcases List.eq_nil_or_concat' rest with rfl | ⟨between, y, rfl⟩
        · -- The cursors meet at one element.
          simp only [List.length_cons, List.length_nil] at cursor
          rw [if_neg (by rw [less]; omega)]
          exact ⟨_base, rfl, represented⟩
        · simp only [List.length_cons, List.length_append, List.length_nil] at cursor enough
          have place : last = front.length + 1 + between.length := by omega
          have shape : front ++ x :: (between ++ [y]) ++ back =
              front ++ x :: between ++ y :: back := by simp
          rw [shape] at represented size
          simp only [List.length_cons, List.length_append, List.length_nil] at size
          have front_lt : front.length < (front ++ x :: between ++ y :: back).length := by simp
          have last_lt : last < (front ++ x :: between ++ y :: back).length := by
            simp
            omega
          rcases assigns.swapAt represented front_lt last_lt with ⟨later, swapped, kept⟩
          rw [place, swap_apart] at kept
          have after := assigns.traversed kept
          have inner : front ++ y :: between ++ x :: back =
              (front ++ [y]) ++ between ++ (x :: back) := by simp
          have total : (front ++ y :: between ++ x :: back).length =
              front.length + between.length + back.length + 2 := by
            simp
            omega
          rw [inner] at kept
          have inward : front.length + between.length + 1 =
              (front ++ [y]).length + between.length := by
            simp
            omega
          rcases further kept inward (by omega) with ⟨result, looped, reversed⟩
          refine ⟨result, ?_, ?_⟩
          · have stepped : last = front.length + between.length + 1 := by omega
            rw [if_pos (less.mpr (by omega)), swapped]
            simp only [Option.bind_eq_bind, Option.bind_some]
            rw [after.indexAfter (by omega), Option.bind_some, stepped,
              after.indexBefore trivial (by omega), Option.bind_some]
            rw [List.length_append, List.length_singleton] at looped
            exact looped
          · have result_shape : front ++ (x :: (between ++ [y])).reverse ++ back =
                front ++ [y] ++ between.reverse ++ x :: back := by simp
            rw [result_shape]
            exact reversed

/-- Reversing a collection in place reverses its list. -/
theorem reverse (assigns : Assigns base setSubscript represents index)
    (represented : represents _base list) {fuel : ℕ} (enough : list.length < fuel) :
    ∃ later, base.reverse setSubscript fuel _base = some later ∧
      represents later list.reverse := by
  have traversed := assigns.traversed represented
  rw [BidirectionalCollection.reverse, traversed.isEmpty, Option.bind_eq_bind, Option.bind_some]
  by_cases empty : list = []
  · subst empty
    exact ⟨_base, rfl, represented⟩
  · rcases Nat.exists_eq_succ_of_ne_zero (List.length_pos_of_ne_nil empty).ne' with ⟨last, size⟩
    rw [List.isEmpty_eq_false_iff.mpr empty, traversed.startIndex, traversed.endIndex]
    simp only [Option.bind_eq_bind, Option.bind_some, Bool.false_eq_true, if_false]
    rw [size, Nat.succ_eq_add_one, traversed.indexBefore trivial (by omega), Option.bind_some]
    have whole : represents _base ([] ++ list ++ []) := by simpa using represented
    have cursor : last + 1 = ([] : List Element).length + list.length := by
      simp
      omega
    have looped := assigns.reverseLoop whole cursor enough
    simpa using looped

end Assigns

/--
Of any bidirectional collection, the reversed collection is walked by index and iterated as
the reversed list, and its operations move as many of its indices as single steps do, except
that an offset has to have a negation. Reversing it again, as a collection or by its own
`reversed()`, gives the original. Where the elements can be assigned, reversing in place
arranges the collection as the reversed list, and twice as the original.
-/
theorem reversed_reverses {fuel : ℕ}
    (traversed : Traversed True Negatable base _base list index) (enough : list.length < fuel) :
    Traversed True Negatable (ReversedCollection.collection base)
        (BidirectionalCollection.reversed _base) list.reverse
        (ReversedCollection.place list.length index) ∧
      (∃ start, (ReversedCollection.collection base).startIndex
          (BidirectionalCollection.reversed _base) = some start ∧
        Delivers ((ReversedCollection.collection base).walk
          (BidirectionalCollection.reversed _base)) start list.reverse) ∧
      (∀ i < list.length, ((ReversedCollection.collection base).indexAfter
          (BidirectionalCollection.reversed _base)
            (ReversedCollection.place list.length index i)).bind
          ((ReversedCollection.collection base).indexBefore
            (BidirectionalCollection.reversed _base)) =
        some (ReversedCollection.place list.length index i)) ∧
      (∃ iterator, (BidirectionalCollection.reversed _base).makeIterator base = some iterator ∧
        Delivers (ReversedCollection.Iterator.next base) iterator list.reverse) ∧
      (BidirectionalCollection.reversed _base).reversed = _base ∧
      Traversed True Negatable (ReversedCollection.collection (ReversedCollection.collection base))
        (BidirectionalCollection.reversed (BidirectionalCollection.reversed _base)) list
        (ReversedCollection.place list.length (ReversedCollection.place list.length index)) ∧
      ∀ setSubscript represents, Assigns base setSubscript represents index →
        represents _base list →
        ∃ later again, base.reverse setSubscript fuel _base = some later ∧
          represents later list.reverse ∧
          base.reverse setSubscript fuel later = some again ∧ represents again list := by
  have reversed := ReversedCollection.collection_traversed traversed
  refine ⟨reversed, reversed.delivers, ?_, ReversedCollection.Iterator.delivers traversed, rfl,
    ?_, ?_⟩
  · intro i inside
    exact reversed.before_after trivial (by rwa [List.length_reverse])
  · have twice := ReversedCollection.collection_traversed reversed
    rwa [List.reverse_reverse, List.length_reverse] at twice
  · intro setSubscript represents assigns represented
    rcases assigns.reverse represented enough with ⟨later, first, backwards⟩
    have same : list.reverse.length < fuel := by rwa [List.length_reverse]
    rcases assigns.reverse backwards same with ⟨again, second, original⟩
    rw [List.reverse_reverse] at original
    exact ⟨later, again, first, backwards, second, original⟩

/-- Assigning an element of a list, with no result outside its bounds. -/
def setBounded (list : List Element) (i : ℕ) (element : Element) : Option (List Element) :=
  if i < list.length then some (list.set i element) else none

theorem boundedList_assigns (word : WordSize) :
    Assigns (boundedList word) (@setBounded Element) Eq id where
  traversed := by
    rintro list _ rfl
    exact (boundedList_traversed word list).mono id fun _ _ => trivial
  assign := by
    rintro list _ rfl i element inside
    exact ⟨_, if_pos inside, rfl⟩

/-- Three numbers, as a view from the end and reversed in place. -/
theorem reversed_reverses_three :
    let list := [1, 2, 3]
    let base : BidirectionalCollection .word16 (List ℕ) ℕ ℕ := boundedList .word16
    Traversed True Negatable (ReversedCollection.collection base)
        (BidirectionalCollection.reversed list) [3, 2, 1] (ReversedCollection.place 3 id) ∧
      ∃ later again, base.reverse setBounded 4 list = some later ∧ later = [3, 2, 1] ∧
        base.reverse setBounded 4 later = some again ∧ again = [1, 2, 3] := by
  have enough : [1, 2, 3].length < 4 := by decide
  have holds := reversed_reverses
    ((boundedList_traversed .word16 [1, 2, 3]).mono id fun _ _ => trivial) enough
  exact ⟨holds.1, holds.2.2.2.2.2.2 setBounded Eq (boundedList_assigns .word16) rfl⟩

end Results

end USwift
