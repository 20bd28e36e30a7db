import USwift.Collections.ArrayBuffer

/-!
# Arrays and their slices

The range subscripts of `Array` and `ArraySlice` pass their bounds on as a closed
range, and `relative(to:)` makes a half-open range of it that ends one index later.
Every slice is one element too long, however it was made.
-/

namespace USwift

open Iteration RandomAccess

/-- `ArraySlice`. -/
structure ArraySlice (word : WordSize) where
  buffer : SliceBuffer word
  deriving DecidableEq

/-- `Array`. -/
structure Array where
  buffer : ContiguousArrayBuffer
  deriving DecidableEq

section Operations

variable {word : WordSize} {Element : Type} (heap : Heap word Element)
  (outOfBounds : Index word → Index word → Index word → Index word)

namespace ArraySlice

def startIndex (slice : ArraySlice word) : Index word := slice.buffer.startIndex

def endIndex (slice : ArraySlice word) : Index word := slice.buffer.endIndex

def count (slice : ArraySlice word) : Value word .int := slice.buffer.count

def indexAfter (_slice : ArraySlice word) (i : Index word) : Index word := i + 1

def indexLimited (_slice : ArraySlice word) (i : Index word) (distance : Value word .int)
    (limit : Index word) : Option (Index word) :=
  indexOffsetLimited i distance limit

/-- `subscript(index:)`. -/
def subscript (slice : ArraySlice word) (index : Index word) : Except Failure Element :=
  match checkValidSubscript outOfBounds slice.buffer.startIndex slice.buffer.endIndex index with
  | .error failure => .error failure
  | .ok index => slice.buffer.getElement heap index

/-- `subscript(bounds:)`. The checks of the bounds are preconditions, which do nothing. -/
def subscriptRange (slice : ArraySlice word) (bounds : Range (Index word)) : ArraySlice word :=
  let closed : ClosedRange (Index word) := ⟨bounds.lowerBound, bounds.upperBound⟩
  ⟨slice.buffer.subscriptRange (closed.relative bufferIndexAfter)⟩

/-- `ArraySlice` as a `RandomAccessCollection`. -/
def collection : RandomAccess word (ArraySlice word) (ArraySlice word) Element where
  startIndex := startIndex
  endIndex := endIndex
  count := count
  indexAfter := indexAfter
  indexLimited := indexLimited
  subscript := subscript heap outOfBounds
  subscriptRange := subscriptRange

end ArraySlice

namespace Array

def startIndex (_array : Array) : Index word := 0

def count (array : Array) : Value word .int := array.buffer.count heap

def endIndex (array : Array) : Index word := count heap array

def indexAfter (_array : Array) (i : Index word) : Index word := i + 1

def indexLimited (_array : Array) (i : Index word) (distance : Value word .int)
    (limit : Index word) : Option (Index word) :=
  indexOffsetLimited i distance limit

/-- `subscript(index:)`. -/
def subscript (array : Array) (index : Index word) : Except Failure Element :=
  match checkValidSubscript outOfBounds 0 (array.buffer.count heap) index with
  | .error failure => .error failure
  | .ok index => array.buffer.getElement heap index

/-- `subscript(bounds:)`. The checks of the bounds are preconditions, which do nothing. -/
def subscriptRange (array : Array) (bounds : Range (Index word)) : ArraySlice word :=
  let closed : ClosedRange (Index word) := ⟨bounds.lowerBound, bounds.upperBound⟩
  ⟨array.buffer.subscriptRange (closed.relative bufferIndexAfter)⟩

/-- `Array` as a `RandomAccessCollection`. -/
def collection : RandomAccess word Array (ArraySlice word) Element where
  startIndex := startIndex
  endIndex := endIndex heap
  count := count heap
  indexAfter := indexAfter
  indexLimited := indexLimited
  subscript := subscript heap outOfBounds
  subscriptRange := subscriptRange

end Array

end Operations

variable {word : WordSize} {Element : Type} {heap : Heap word Element}
  {outOfBounds : Index word → Index word → Index word → Index word}

theorem succ_mod_ne {bits : ℕ} (large : 1 < bits) (x : ℕ) :
    (x + 1) % 2 ^ bits % 2 ^ (bits - 1) ≠ x := by
  intro same
  have half : 2 ^ 1 ≤ 2 ^ (bits - 1) := Nat.pow_le_pow_right (by decide) (by omega)
  have bounded := Nat.mod_lt ((x + 1) % 2 ^ bits) (show 0 < 2 ^ (bits - 1) by omega)
  rw [Nat.mod_mod_of_dvd _ (Nat.pow_dvd_pow 2 (Nat.sub_le bits 1))] at same bounded
  rcases Nat.lt_or_ge (x + 1) (2 ^ (bits - 1)) with inside | outside
  · rw [Nat.mod_eq_of_lt inside] at same
    omega
  · have last : x + 1 = 2 ^ (bits - 1) := by omega
    rw [last, Nat.mod_self] at same
    omega

theorem add_mod_ne {modulus x y : ℕ} (bounded : x < modulus) (positive : 0 < y)
    (smaller : y < modulus) : (x + y) % modulus ≠ x := by
  intro same
  rcases Nat.lt_or_ge (x + y) modulus with inside | outside
  · rw [Nat.mod_eq_of_lt inside] at same
    omega
  · rw [Nat.mod_eq_sub_mod outside, Nat.mod_eq_of_lt (by omega)] at same
    omega

theorem toNat_endIndex_relative (owner : ℕ) (address : ElementPointer) (native : Bool)
    (bounds : Range (Index word)) :
    BitVec.toNat (SliceBuffer.ofIndices owner address
      ((⟨bounds.lowerBound, bounds.upperBound⟩ : ClosedRange (Index word)).relative
        bufferIndexAfter) native).endIndex =
      (BitVec.toNat bounds.upperBound + 1) % 2 ^ word.bits % 2 ^ (word.bits - 1) := by
  rw [SliceBuffer.toNat_endIndex_ofIndices]
  cases word <;> rfl

theorem endIndex_relative_ne (owner : ℕ) (address : ElementPointer) (native : Bool)
    (bounds : Range (Index word)) :
    (SliceBuffer.ofIndices owner address
      ((⟨bounds.lowerBound, bounds.upperBound⟩ : ClosedRange (Index word)).relative
        bufferIndexAfter) native).endIndex ≠ bounds.upperBound := by
  intro same
  have cut := toNat_endIndex_relative owner address native bounds
  rw [same] at cut
  exact succ_mod_ne (by cases word <;> decide) _ cut.symm

theorem ArraySlice.misplaces :
    Misplaces (ArraySlice.collection heap outOfBounds) (ArraySlice.collection heap outOfBounds) :=
  fun slice bounds => endIndex_relative_ne slice.buffer.owner slice.buffer.subscriptBaseAddress
    slice.buffer.hasNativeBuffer bounds

theorem Array.misplaces :
    Misplaces (Array.collection heap outOfBounds) (ArraySlice.collection heap outOfBounds) :=
  fun array bounds => endIndex_relative_ne array.buffer.storage array.buffer.firstElementAddress
    true bounds

section Draining

variable {slice final : ArraySlice word} {elements : List Element}

theorem ArraySlice.of_runs
    (runs : Runs (ArraySlice.collection heap outOfBounds).popped slice elements final) :
    final.startIndex = slice.startIndex + BitVec.ofNat _ elements.length ∧
      BitVec.toNat final.endIndex =
        (BitVec.toNat slice.endIndex + elements.length) % 2 ^ (word.bits - 1) := by
  induction runs with
  | refl slice =>
      refine ⟨by simp, ?_⟩
      exact (Nat.mod_eq_of_lt slice.buffer.toNat_endIndex_lt).symm
  | @step slice later final element elements advanced rest ih =>
      have later_eq : later = slice.subscriptRange ⟨slice.startIndex + 1, slice.endIndex⟩ :=
        popped_eq_some advanced
      have later_end : BitVec.toNat later.endIndex =
          (BitVec.toNat slice.endIndex + 1) % 2 ^ (word.bits - 1) := by
        have cut := toNat_endIndex_relative slice.buffer.owner slice.buffer.subscriptBaseAddress
          slice.buffer.hasNativeBuffer ⟨slice.startIndex + 1, slice.endIndex⟩
        rw [Nat.mod_mod_of_dvd _ (Nat.pow_dvd_pow 2 (Nat.sub_le word.bits 1))] at cut
        rw [later_eq]
        exact cut
      rcases ih with ⟨start_eq, end_eq⟩
      constructor
      · rw [start_eq, later_eq, List.length_cons, Nat.add_comm elements.length 1, BitVec.ofNat_add,
          ← BitVec.add_assoc]
        rfl
      · rw [end_eq, later_end, List.length_cons, Nat.mod_add_mod, Nat.add_assoc,
          Nat.add_comm 1]

/-- Draining a slice that holds an element never ends with `nil`. -/
theorem ArraySlice.drains_iff
    (counted : Counted (ArraySlice.collection heap outOfBounds) slice) :
    Drains (ArraySlice.collection heap outOfBounds) slice ↔
      (ArraySlice.collection heap outOfBounds).isEmpty slice = true := by
  have low : 0 ≤ toInt word .int slice.startIndex := counted.nonnegative
  have ordered : toInt word .int slice.startIndex ≤ toInt word .int slice.endIndex :=
    counted.ordered
  constructor
  · rintro ⟨elements, final, length_eq, -, runs, ended⟩
    have final_empty : final.startIndex = final.endIndex :=
      beq_iff_eq.mp (popFirst_eq_none_iff.mp ended)
    rcases ArraySlice.of_runs runs with ⟨start_eq, end_eq⟩
    have bounded : BitVec.toNat slice.endIndex < 2 ^ (word.bits - 1) :=
      slice.buffer.toNat_endIndex_lt
    have length_nat : BitVec.toNat slice.startIndex + elements.length =
        BitVec.toNat slice.endIndex := by
      have length_int : (elements.length : ℤ) = toInt word .int slice.endIndex -
        toInt word .int slice.startIndex := length_eq
      zify
      rw [← toInt_eq_toNat low, ← toInt_eq_toNat (low.trans ordered), length_int]
      omega
    -- The start arrives where the end was, which the end has left unless nothing was taken.
    have arrived : BitVec.toNat final.startIndex = BitVec.toNat slice.endIndex := by
      rw [start_eq, ← length_nat]
      refine (BitVec.toNat_add _ _).trans ?_
      rw [BitVec.toNat_ofNat, Nat.add_mod_mod, length_nat]
      exact Nat.mod_eq_of_lt (BitVec.isLt _)
    rw [final_empty, end_eq] at arrived
    have none : elements.length = 0 := by
      by_contra some
      exact add_mod_ne bounded (by omega) (by omega) arrived
    apply beq_iff_eq.mpr
    apply BitVec.eq_of_toNat_eq
    rw [none] at length_nat
    exact length_nat
  · intro empty
    have same : slice.startIndex = slice.endIndex := beq_iff_eq.mp empty
    refine ⟨[], slice, ?_, ?_, .refl slice, popFirst_eq_none_iff.mpr empty⟩
    · have zero : (ArraySlice.collection heap outOfBounds).startIndex slice =
        (ArraySlice.collection heap outOfBounds).endIndex slice := same
      rw [zero]
      simp
    · intro offset inside
      exact absurd inside (Nat.not_lt_zero offset)

end Draining

/-- An end that is not negative is not cut. -/
theorem SliceBuffer.endIndex_ofIndices {owner : ℕ} {address : ElementPointer} {native : Bool}
    {indices : Range (Index word)} (nonnegative : 0 ≤ toInt word .int indices.upperBound) :
    (SliceBuffer.ofIndices owner address indices native).endIndex = indices.upperBound := by
  have high := toInt_le_maximum indices.upperBound
  have largest : TwosComplement.maximum IntegerType.int.isSigned
      (IntegerType.int.bitWidth word) = ((2 ^ (word.bits - 1) : ℕ) : ℤ) - 1 := by
    cases word <;> decide
  apply BitVec.eq_of_toNat_eq
  rw [SliceBuffer.toNat_endIndex_ofIndices]
  rw [toInt_eq_toNat nonnegative] at high
  exact Nat.mod_eq_of_lt (by omega)

theorem ArraySlice.subscript_inside {slice : ArraySlice word} {i : Index word}
    (nonnegative : 0 ≤ toInt word .int slice.startIndex)
    (low : toInt word .int slice.startIndex ≤ toInt word .int i)
    (high : toInt word .int i < toInt word .int slice.endIndex) :
    slice.subscript heap outOfBounds i = slice.buffer.getElement heap i := by
  have inside : checkValidSubscript outOfBounds slice.buffer.startIndex slice.buffer.endIndex i =
    .ok i := checkValidSubscript_inside nonnegative low high
  rw [subscript, inside]

theorem Array.subscript_inside {array : Array} {i : Index word}
    (low : 0 ≤ toInt word .int i)
    (high : toInt word .int i < toInt word .int (array.endIndex heap)) :
    array.subscript heap outOfBounds i = array.buffer.getElement heap i := by
  have zero := toInt_zero word .int
  have inside : checkValidSubscript outOfBounds 0 (array.buffer.count heap) i = .ok i :=
    checkValidSubscript_inside zero.ge (zero.le.trans low) high
  rw [subscript, inside]

section ClosedRanges

variable {bounds : Range (Index word)}

theorem Array.isRange_closed {array : Array} (low : 0 ≤ toInt word .int bounds.lowerBound)
    (ordered : toInt word .int bounds.lowerBound ≤ toInt word .int bounds.upperBound)
    (high : toInt word .int bounds.upperBound < toInt word .int (array.endIndex heap)) :
    IsRange (Array.collection heap outOfBounds) (ArraySlice.collection heap outOfBounds) array
      ⟨bounds.lowerBound, bounds.upperBound + 1⟩ (array.subscriptRange bounds) := by
  have next := toInt_succ high (low.trans ordered)
  have end_eq : (array.subscriptRange bounds).endIndex = bounds.upperBound + 1 :=
    SliceBuffer.endIndex_ofIndices (by
      show 0 ≤ toInt word .int (bounds.upperBound + 1)
      omega)
  refine ⟨rfl, end_eq, ?_, ?_⟩
  · intro i above below
    refine (ArraySlice.subscript_inside low above (by rwa [end_eq])).trans ?_
    exact (Array.subscript_inside (low.trans above) (by simp only at below; omega)).symm
  · intro i _ below
    have inside :
        toInt word .int i < toInt word .int (array.subscriptRange bounds).endIndex := below
    have goal : toInt word .int i < toInt word .int (array.endIndex heap) := by
      rw [end_eq] at inside
      omega
    exact goal

theorem ArraySlice.isRange_closed {slice : ArraySlice word}
    (nonnegative : 0 ≤ toInt word .int slice.startIndex)
    (low : toInt word .int slice.startIndex ≤ toInt word .int bounds.lowerBound)
    (ordered : toInt word .int bounds.lowerBound ≤ toInt word .int bounds.upperBound)
    (high : toInt word .int bounds.upperBound < toInt word .int slice.endIndex) :
    IsRange (ArraySlice.collection heap outOfBounds) (ArraySlice.collection heap outOfBounds) slice
      ⟨bounds.lowerBound, bounds.upperBound + 1⟩ (slice.subscriptRange bounds) := by
  have next := toInt_succ high (nonnegative.trans (low.trans ordered))
  have end_eq : (slice.subscriptRange bounds).endIndex = bounds.upperBound + 1 :=
    SliceBuffer.endIndex_ofIndices (by
      show 0 ≤ toInt word .int (bounds.upperBound + 1)
      omega)
  refine ⟨rfl, end_eq, ?_, ?_⟩
  · intro i above below
    refine (ArraySlice.subscript_inside (nonnegative.trans low) above (by rwa [end_eq])).trans ?_
    exact (ArraySlice.subscript_inside nonnegative (low.trans above)
      (by simp only at below; omega)).symm
  · intro i _ below
    have inside :
        toInt word .int i < toInt word .int (slice.subscriptRange bounds).endIndex := below
    have goal : toInt word .int i < toInt word .int slice.endIndex := by
      rw [end_eq] at inside
      omega
    exact goal

end ClosedRanges

/-- No slice is the range that was asked for, and only an empty one drains. -/
theorem slicing_fails (word : WordSize) (Element : Type) (heap : Heap word Element)
    (outOfBounds : Index word → Index word → Index word → Index word) :
    let arrays := Array.collection heap outOfBounds
    let slices := ArraySlice.collection heap outOfBounds
    (∀ array bounds, ¬ IsRange arrays slices array bounds (array.subscriptRange bounds)) ∧
    (∀ slice bounds, ¬ IsRange slices slices slice bounds (slice.subscriptRange bounds)) ∧
    (∀ array first chain last, ¬ IsRange arrays slices array last
      (slices.sliced (array.subscriptRange first) (chain ++ [last]))) ∧
    (∀ slice chain last, ¬ IsRange slices slices slice last
      (slices.sliced slice (chain ++ [last]))) ∧
    (∀ array, Counted arrays array → ∀ k, 0 ≤ toInt word .int k → ∀ part : Part,
      ¬ IsSubList arrays slices array
        (part.lower 0 (toInt word .int (array.endIndex heap)) (toInt word .int k))
        (part.upper 0 (toInt word .int (array.endIndex heap)) (toInt word .int k))
        (part.take arrays array k)) ∧
    (∀ slice, Counted slices slice → ∀ k, 0 ≤ toInt word .int k → ∀ part : Part,
      ¬ IsSubList slices slices slice
        (part.lower (toInt word .int slice.startIndex) (toInt word .int slice.endIndex)
          (toInt word .int k))
        (part.upper (toInt word .int slice.startIndex) (toInt word .int slice.endIndex)
          (toInt word .int k))
        (part.take slices slice k)) ∧
    ∀ slice, Counted slices slice → (Drains slices slice ↔ slices.isEmpty slice = true) := by
  intro arrays slices
  refine ⟨?_, ?_, ?_, ?_, ?_, ?_, ?_⟩
  · intro array bounds
    exact Array.misplaces.not_isRange array bounds array
  · intro slice bounds
    exact ArraySlice.misplaces.not_isRange slice bounds slice
  · intro array first chain last
    rw [sliced_concat]
    exact ArraySlice.misplaces.not_isRange _ last array
  · intro slice chain last
    rw [sliced_concat]
    exact ArraySlice.misplaces.not_isRange _ last slice
  · intro array counted k nonnegative part
    have wrong := Array.misplaces.not_isSubList counted nonnegative part
    have start_eq : toInt word .int (arrays.startIndex array) = 0 :=
      toInt_zero word .int
    rwa [start_eq] at wrong
  · intro slice counted k nonnegative part
    exact ArraySlice.misplaces.not_isSubList counted nonnegative part
  · intro slice counted
    exact ArraySlice.drains_iff counted


/-- Asked for the first two of three elements, an array returns all of them. -/
theorem three_elements_sliced :
    let heap : Heap .word16 ℕ := fun _ => ⟨3, [some 10, some 20, some 30]⟩
    let arrays := Array.collection heap fun index _ _ => index
    let slices := ArraySlice.collection heap fun index _ _ => index
    let array : Array := ⟨⟨0⟩⟩
    let bounds : Range (Index .word16) := ⟨0, 2⟩
    Counted arrays array ∧ arrays.endIndex array = 3 ∧
      slices.endIndex (array.subscriptRange bounds) = 3 ∧
      slices.subscript (array.subscriptRange bounds) 2 = .ok 30 ∧
      ¬ IsRange arrays slices array bounds (array.subscriptRange bounds) := by
  intro heap arrays slices array bounds
  refine ⟨⟨by decide, by decide, by decide, rfl⟩, by decide, by decide, by decide, ?_⟩
  intro range
  exact absurd range.endIndex_eq (by decide)

end USwift
