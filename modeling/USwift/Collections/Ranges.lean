import USwift.Collections.RandomAccess
import USwift.Integer.Strideable
import USwift.Library.Iteration

/-!
# Ranges as collections

The collections `Range` and `ClosedRange` of integers and the iterator that they share.
A range ends where its position equals its upper bound; a closed range has an index
of its own behind its upper bound. Neither operator compares its bounds.
-/

namespace USwift

open Iteration

section Collections

/-- What a collection supplies to its default iterator. -/
structure Collection (Elements Index Element : Type) where
  startIndex : Elements → Index
  endIndex : Elements → Index
  indexAfter : Elements → Index → Index
  subscript : Elements → Index → Element
  equal : Index → Index → Bool

structure IndexingIterator (Elements Index : Type) where
  _elements : Elements
  _position : Index

variable {Elements Index Element : Type}

def IndexingIterator.init (collection : Collection Elements Index Element) (_elements : Elements) :
    IndexingIterator Elements Index :=
  ⟨_elements, collection.startIndex _elements⟩

/-- `next()`. -/
def IndexingIterator.next (collection : Collection Elements Index Element)
    (self : IndexingIterator Elements Index) :
    Option (Element × IndexingIterator Elements Index) :=
  if collection.equal self._position (collection.endIndex self._elements) then none
  else
    let element := collection.subscript self._elements self._position
    some (element,
      { self with _position := collection.indexAfter self._elements self._position })

end Collections

section Ranges

variable (word : WordSize) (type : IntegerType)

/-- `..<`, whose check of the bounds is commented out. -/
def halfOpen {Bound : Type} (minimum maximum : Bound) : Range Bound :=
  ⟨minimum, maximum⟩

/-- `...`, whose check of the bounds is commented out. -/
def closed {Bound : Type} (minimum maximum : Bound) : ClosedRange Bound :=
  ⟨minimum, maximum⟩

/-- `contains(_:)`. -/
def Range.contains (self : Range (Value word type)) (element : Value word type) : Bool :=
  !less word type element self.lowerBound && less word type element self.upperBound

/-- `Range` as a collection, whose elements are its indices. -/
def Range.collection :
    Collection (Range (Value word type)) (Value word type) (Value word type) where
  startIndex := Range.lowerBound
  endIndex := Range.upperBound
  indexAfter _ i := advanced word type i 1
  subscript _ position := position
  equal lhs rhs := lhs == rhs

/-- `contains(_:)`. -/
def ClosedRange.contains (self : ClosedRange (Value word type)) (element : Value word type) :
    Bool :=
  !less word type element self.lowerBound && !less word type self.upperBound element

inductive ClosedRange.Index (Bound : Type) where
  | pastEnd
  | inRange (x : Bound)

/-- `==`. -/
def ClosedRange.Index.equal {Bound : Type} [BEq Bound] :
    ClosedRange.Index Bound → ClosedRange.Index Bound → Bool
  | .inRange l, .inRange r => l == r
  | .pastEnd, .pastEnd => true
  | _, _ => false

/-- `ClosedRange` as a collection. The checks of the index past the end have no effect. -/
def ClosedRange.collection : Collection (ClosedRange (Value word type))
    (ClosedRange.Index (Value word type)) (Value word type) where
  startIndex self := .inRange self.lowerBound
  endIndex _ := .pastEnd
  indexAfter self
    | .inRange x => if x == self.upperBound then .pastEnd else .inRange (advanced word type x 1)
    | .pastEnd => .pastEnd
  subscript self
    | .inRange x => x
    | .pastEnd => self.upperBound
  equal := ClosedRange.Index.equal

end Ranges

section Results

variable {word : WordSize} {type : IntegerType}

/-- A list has the values of a kind in increasing order, each of them once. -/
def ListsIncreasing (contains : Value word type → Bool) (elements : List (Value word type)) :
    Prop :=
  elements.Pairwise (fun x y => toInt word type x < toInt word type y) ∧
    ∀ x, x ∈ elements ↔ contains x = true

/-- Iterating `a ..< b` ends and produces what the range contains. -/
def HalfOpenIterates (a b : Value word type) : Prop :=
  ∃ elements, Yields (IndexingIterator.next (Range.collection word type))
      (.init (Range.collection word type) (halfOpen a b)) elements ∧
    ListsIncreasing ((halfOpen a b).contains word type) elements

/-- Iterating `a ... b` ends and produces what the range contains. -/
def ClosedIterates (a b : Value word type) : Prop :=
  ∃ elements, Yields (IndexingIterator.next (ClosedRange.collection word type))
      (.init (ClosedRange.collection word type) (closed a b)) elements ∧
    ListsIncreasing ((closed a b).contains word type) elements

theorem halfOpen_contains_iff {a b x : Value word type} :
    (halfOpen a b).contains word type x = true ↔
      toInt word type a ≤ toInt word type x ∧ toInt word type x < toInt word type b := by
  rw [halfOpen, Range.contains, Bool.and_eq_true, less_iff, Bool.not_eq_true', ← Bool.not_eq_true,
    less_iff, not_lt]

theorem closed_contains_iff {a b x : Value word type} :
    (closed a b).contains word type x = true ↔
      toInt word type a ≤ toInt word type x ∧ toInt word type x ≤ toInt word type b := by
  rw [closed, ClosedRange.contains, Bool.and_eq_true, Bool.not_eq_true', ← Bool.not_eq_true,
    less_iff, not_lt, Bool.not_eq_true', ← Bool.not_eq_true, less_iff, not_lt]

/-- A number of successors of a value. -/
def successors (a : Value word type) (count : ℕ) : List (Value word type) :=
  (List.range count).map fun k => (fun value => advanced word type value 1)^[k] a

theorem listsIncreasing_successors {a b : Value word type} {count : ℕ}
    {contains : Value word type → Bool}
    (within : toInt word type a + count ≤ toInt word type b + 1)
    (contains_iff : ∀ x, contains x = true ↔
      toInt word type a ≤ toInt word type x ∧ toInt word type x < toInt word type a + count) :
    ListsIncreasing contains (successors a count) := by
  have value {k : ℕ} (k_lt : k < count) :
      toInt word type ((fun value => advanced word type value 1)^[k] a) = toInt word type a + k :=
    toInt_iterate_advanced_one (y := b) (by omega)
  constructor
  · rw [successors, List.pairwise_map]
    refine List.Pairwise.imp_of_mem ?_ List.pairwise_lt_range
    intro j k j_mem k_mem j_lt
    rw [value (List.mem_range.mp j_mem), value (List.mem_range.mp k_mem)]
    omega
  · intro x
    rw [contains_iff, successors, List.mem_map]
    constructor
    · rintro ⟨k, k_mem, rfl⟩
      have k_lt := List.mem_range.mp k_mem
      rw [value k_lt]
      omega
    · rintro ⟨low, high⟩
      refine ⟨(toInt word type x - toInt word type a).toNat, List.mem_range.mpr (by omega), ?_⟩
      apply toInt_injective
      rw [value (by omega)]
      omega

theorem successors_succ (a : Value word type) (count : ℕ) :
    successors a (count + 1) = a :: successors (advanced word type a 1) count := by
  rw [successors, List.range_succ_eq_map, List.map_cons, List.map_map]
  rfl

/-- The elements of a range, which come back round to an upper bound below the lower one. -/
def Range.elements (range : Range (Value word type)) : List (Value word type) :=
  successors range.lowerBound (BitVec.toNat (range.upperBound - range.lowerBound))

theorem Range.yields_successors {range : Range (Value word type)} {x : Value word type}
    {count : ℕ} (bounded : count < 2 ^ type.bitWidth word)
    (remaining : range.upperBound = x + BitVec.ofNat _ count) :
    Yields (IndexingIterator.next (Range.collection word type)) ⟨range, x⟩
      (successors x count) := by
  induction count generalizing x with
  | zero =>
      have ended : range.upperBound = x := remaining.trans (BitVec.add_zero x)
      refine .done ?_
      simp [IndexingIterator.next, Range.collection, ended]
  | succ count rest =>
      have before : x ≠ range.upperBound := by
        intro ended
        have none : BitVec.ofNat (type.bitWidth word) (count + 1) = 0 := by
          rw [← ended] at remaining
          exact (BitVec.self_eq_add_right).mp remaining
        have zero : BitVec.toNat (0 : Value word type) = 0 := BitVec.toNat_zero
        rw [← none, BitVec.toNat_ofNat, Nat.mod_eq_of_lt bounded] at zero
        omega
      have following : range.upperBound = advanced word type x 1 + BitVec.ofNat _ count := by
        rw [advanced_one, remaining, Nat.add_comm, BitVec.ofNat_add, BitVec.add_assoc]
        rfl
      rw [successors_succ]
      refine .step ?_ (rest (by omega) following)
      simp [IndexingIterator.next, Range.collection, before]

/-- A range, whatever its bounds are, yields its elements. -/
theorem Range.yields_elements (range : Range (Value word type)) :
    Yields (IndexingIterator.next (Range.collection word type))
      (.init (Range.collection word type) range) range.elements := by
  apply yields_successors (BitVec.isLt _)
  rw [BitVec.ofNat_toNat, BitVec.setWidth_eq, BitVec.add_comm]
  exact (BitVec.sub_add_cancel _ _).symm

theorem Range.elements_of_le {range : Range (Value word type)}
    (ordered : toInt word type range.lowerBound ≤ toInt word type range.upperBound) :
    range.elements = successors range.lowerBound
      (toInt word type range.upperBound - toInt word type range.lowerBound).toNat := by
  have congruent := TwosComplement.value_sub_modEq type.isSigned range.upperBound range.lowerBound
  have unsigned : TwosComplement.value false (range.upperBound - range.lowerBound) ≡
      TwosComplement.value type.isSigned (range.upperBound - range.lowerBound)
        [ZMOD 2 ^ type.bitWidth word] := by
    have extended := TwosComplement.value_extend_modEq type.isSigned false (type.bitWidth word)
      (range.upperBound - range.lowerBound)
    rwa [TwosComplement.extend_self] at extended
  have low := minimum_le_toInt range.lowerBound
  have high := toInt_le_maximum range.upperBound
  have spread := TwosComplement.maximum_eq type.isSigned (type.bitWidth_pos word)
  have bounded : BitVec.toNat (range.upperBound - range.lowerBound) < 2 ^ type.bitWidth word :=
    BitVec.isLt _
  have value : (BitVec.toNat (range.upperBound - range.lowerBound) : ℤ) =
      toInt word type range.upperBound - toInt word type range.lowerBound :=
    TwosComplement.eq_of_modEq_of_sign (unsigned.trans congruent) (by omega) (by omega)
      (by exact_mod_cast bounded) (by omega) (by omega)
  rw [Range.elements, ← value, Int.toNat_natCast]

theorem yields_closed {range : ClosedRange (Value word type)} {x : Value word type} {count : ℕ}
    (remaining : toInt word type x + count = toInt word type range.upperBound) :
    Yields (IndexingIterator.next (ClosedRange.collection word type)) ⟨range, .inRange x⟩
      (successors x (count + 1)) := by
  induction count generalizing x with
  | zero =>
      have ended : x = range.upperBound := toInt_injective (by simpa using remaining)
      have last : IndexingIterator.next (ClosedRange.collection word type) ⟨range, .inRange x⟩ =
          some (x, ⟨range, .pastEnd⟩) := by
        simp [IndexingIterator.next, ClosedRange.collection, ClosedRange.Index.equal, ended]
      refine .step last (.done ?_)
      simp [IndexingIterator.next, ClosedRange.collection, ClosedRange.Index.equal]
  | succ count rest =>
      have before : x ≠ range.upperBound := by
        rintro rfl
        omega
      have successor := toInt_advanced_one (x := x) (y := range.upperBound) (by omega)
      rw [successors_succ]
      refine .step ?_ (rest (x := advanced word type x 1) (by omega))
      simp [IndexingIterator.next, ClosedRange.collection, ClosedRange.Index.equal, before]

theorem halfOpenIterates_iff (a b : Value word type) :
    HalfOpenIterates a b ↔ toInt word type a ≤ toInt word type b := by
  constructor
  · rintro ⟨elements, yields, lists⟩
    by_contra reversed
    have differ : a ≠ b := by
      rintro rfl
      exact reversed le_rfl
    -- Nothing is contained, but the lower bound is produced.
    have produced : a ∈ elements := by
      have first : IndexingIterator.next (Range.collection word type)
          (.init (Range.collection word type) (halfOpen a b)) =
            some (a, ⟨halfOpen a b, advanced word type a 1⟩) := by
        simp [IndexingIterator.next, IndexingIterator.init, Range.collection, halfOpen, differ]
      exact yields.mem_of_next first
    rw [lists.2, halfOpen_contains_iff] at produced
    omega
  · intro ordered
    refine ⟨_, (halfOpen a b).yields_elements, ?_⟩
    have listed : (halfOpen a b).elements =
        successors a (toInt word type b - toInt word type a).toNat := Range.elements_of_le ordered
    rw [listed]
    apply listsIncreasing_successors (b := b) (by omega)
    intro x
    rw [halfOpen_contains_iff]
    omega

theorem closedIterates_iff (a b : Value word type) :
    ClosedIterates a b ↔ toInt word type a ≤ toInt word type b := by
  constructor
  · rintro ⟨elements, yields, lists⟩
    by_contra reversed
    have produced : a ∈ elements := by
      have first : IndexingIterator.next (ClosedRange.collection word type)
          (.init (ClosedRange.collection word type) (closed a b)) =
            some (a, ⟨closed a b, (ClosedRange.collection word type).indexAfter (closed a b)
              (.inRange a)⟩) := by
        simp [IndexingIterator.next, IndexingIterator.init, ClosedRange.collection, closed,
          ClosedRange.Index.equal]
      exact yields.mem_of_next first
    rw [lists.2, closed_contains_iff] at produced
    omega
  · intro ordered
    refine ⟨successors a ((toInt word type b - toInt word type a).toNat + 1), ?_, ?_⟩
    · have remaining : toInt word type a + (toInt word type b - toInt word type a).toNat =
          toInt word type (closed a b).upperBound := by
        simp only [closed]
        omega
      exact yields_closed remaining
    · apply listsIncreasing_successors (b := b) (by omega)
      intro x
      rw [closed_contains_iff]
      omega

/-- The ranges are iterated as they should be exactly where their bounds are in order. -/
theorem ranges_iterate_iff (word : WordSize) (type : IntegerType) (a b : Value word type) :
    (HalfOpenIterates a b ↔ toInt word type a ≤ toInt word type b) ∧
      (ClosedIterates a b ↔ toInt word type a ≤ toInt word type b) :=
  ⟨halfOpenIterates_iff a b, closedIterates_iff a b⟩

/-- With the bounds 5 and 3 both ranges contain nothing and produce 5. -/
theorem reversed_uint8_ranges :
    ¬ @HalfOpenIterates .word16 .uint8 5 3 ∧ ¬ @ClosedIterates .word16 .uint8 5 3 := by
  rw [halfOpenIterates_iff, closedIterates_iff]
  decide

end Results

end USwift
