import USwift.Collections.ArrayStorage
import USwift.Collections.Ranges
import USwift.Integer.Division
import USwift.Library.Loops
import USwift.Library.RingBuffers

/-!
# Filtering a sequence and taking its suffix

`filter` and `suffix` write the elements of a sequence to arrays that are allocated
beforehand for `underestimatedCount` elements, while their loops run to the end of the
sequence. `suffix` uses its array as a ring buffer and copies it to another one when the
oldest element is not the first.
-/

namespace USwift

open ContiguousArrayStorage Loops RingBuffers

/-- A finite sequence, with the elements that its iterator produces. -/
structure Sequence (word : WordSize) (Element : Type) where
  underestimatedCount : Value word .int
  elements : List Element

section Operations

variable {word : WordSize} {Element : Type}
  (outOfBounds : Index word → Index word → Index word → Index word)

/-- A round of the loop of `_filter(_:)`. -/
def filterStep (isIncluded : Element → Bool)
    (state : ContiguousArrayStorage word Element × Value word .int) (element : Element) :
    Except Failure (ContiguousArrayStorage word Element × Value word .int) :=
  let (result, i) := state
  if isIncluded element then do
    let result ← result.assign outOfBounds i element
    return (result, i + 1)
  else return (result, i)

/-- `filter(_:)`. -/
def Sequence.filter (self : Sequence word Element) (isIncluded : Element → Bool) :
    Except Failure (ContiguousArrayStorage word Element) := do
  let (result, _) := uninitialized self.underestimatedCount
  let (result, i) ← self.elements.foldlM (filterStep outOfBounds isIncluded) (result, 0)
  return { result with count := i }

/-- The variables of the loop of `suffix(_:)`. -/
structure Ring (word : WordSize) (Element : Type) where
  ringBuffer : ContiguousArrayStorage word Element
  i : Value word .int
  ringBufferCount : Value word .int

/-- `%`. -/
def remainder (lhs rhs : Value word .int) : Except Failure (Value word .int) :=
  match remainderAssign word .int lhs rhs with
  | some result => .ok result
  | none => .error .undefined

/-- A round of the loop of `suffix(_:)`. -/
def suffixStep (maxLength : Value word .int) (ring : Ring word Element) (element : Element) :
    Except Failure (Ring word Element) :=
  if less word .int ring.ringBufferCount maxLength then do
    let ringBuffer ← ring.ringBuffer.assign outOfBounds ring.ringBufferCount element
    return { ring with ringBuffer, ringBufferCount := ring.ringBufferCount + 1 }
  else do
    let ringBuffer ← ring.ringBuffer.assign outOfBounds ring.i element
    let i ← remainder (ring.i + 1) maxLength
    return { ring with ringBuffer, i }

/-- A round of the two loops that rotate the ring buffer. -/
def rotateStep (ringBuffer : ContiguousArrayStorage word Element)
    (state : ContiguousArrayStorage word Element × Value word .int) (j : Value word .int) :
    Except Failure (ContiguousArrayStorage word Element × Value word .int) := do
  let (rotated, rotatedIndex) := state
  let element ← ringBuffer.element outOfBounds j
  let rotated ← rotated.assign outOfBounds rotatedIndex element
  return (rotated, rotatedIndex + 1)

/-- `suffix(_:)`. -/
def Sequence.suffix (self : Sequence word Element) (maxLength : Value word .int) :
    Except Failure (ContiguousArrayStorage word Element) :=
  if maxLength == 0 then return empty
  else do
    let (ringBuffer, ringBufferCapacity) :=
      uninitialized (minimum maxLength self.underestimatedCount)
    let ring ← self.elements.foldlM (suffixStep outOfBounds maxLength) ⟨ringBuffer, 0, 0⟩
    let startIndex : Value word .int := 0
    let endIndex := ring.ringBuffer.count
    if ring.i != startIndex then do
      let (rotated, _) := uninitialized ringBufferCapacity
      let state ← (Range.mk ring.i endIndex).elements.foldlM
        (rotateStep outOfBounds ring.ringBuffer) (rotated, 0)
      let state ← (Range.mk (0 : Value word .int) ring.i).elements.foldlM
        (rotateStep outOfBounds ring.ringBuffer) state
      return state.1
    else return ring.ringBuffer

end Operations

variable {word : WordSize} {Element : Type}
  {outOfBounds : Index word → Index word → Index word → Index word}

/-- An operation returns an array of the elements of a list. -/
def Returns (result : Except Failure (ContiguousArrayStorage word Element))
    (list : List Element) : Prop :=
  ∃ storage, result = .ok storage ∧ storage.Holds list

theorem toInt_add_one {x limit : Value word .int} {position : ℕ}
    (value : toInt word .int x = position)
    (below : toInt word .int x < toInt word .int limit) :
    toInt word .int (x + 1) = (position + 1 : ℕ) := by
  rw [toInt_succ below (by omega), value]
  push_cast
  rfl

section Filter

variable {self : Sequence word Element} {isIncluded : Element → Bool} {capacity : ℕ}
  {visited : List Element} {element : Element}
  {state : ContiguousArrayStorage word Element × Value word .int}

/-- The array holds what has been included, and the index is behind it. -/
structure FilterInvariant (isIncluded : Element → Bool) (capacity : ℕ) (visited : List Element)
    (state : ContiguousArrayStorage word Element × Value word .int) : Prop where
  filled : state.1.Filled capacity (visited.filter isIncluded)
  position : toInt word .int state.2 = (visited.filter isIncluded).length

theorem FilterInvariant.step (invariant : FilterInvariant isIncluded capacity visited state)
    (room : ((visited ++ [element]).filter isIncluded).length ≤ capacity) :
    ∃ state', filterStep outOfBounds isIncluded state element = .ok state' ∧
      FilterInvariant isIncluded capacity (visited ++ [element]) state' := by
  rcases state with ⟨result, i⟩
  rcases invariant with ⟨filled, position⟩
  rw [List.filter_append] at room
  cases included : isIncluded element with
  | true =>
      rw [List.filter_cons_of_pos included, List.filter_nil, List.length_append] at room
      rcases filled.assign outOfBounds position room element with ⟨result', assigned, filled'⟩
      have below : toInt word .int i < toInt word .int result.count := by
        rw [List.length_singleton] at room
        have count := filled.count
        dsimp only at position count
        omega
      refine ⟨(result', i + 1), ?_, ?_, ?_⟩
      · rw [filterStep, if_pos included, assigned]
        rfl
      · rw [List.filter_append, List.filter_cons_of_pos included, List.filter_nil]
        exact filled'
      · rw [List.filter_append, List.filter_cons_of_pos included, List.filter_nil,
          List.length_append]
        exact toInt_add_one position below
  | false =>
      have excluded : ¬ isIncluded element = true := by rw [included]; exact Bool.false_ne_true
      have same : (visited ++ [element]).filter isIncluded = visited.filter isIncluded := by
        rw [List.filter_append, List.filter_cons_of_neg excluded, List.filter_nil, List.append_nil]
      refine ⟨(result, i), ?_, ?_, ?_⟩
      · rw [filterStep, if_neg excluded]
        rfl
      · rwa [same]
      · rwa [same]

end Filter

section Suffix

/-- A dividend that is not negative is reduced as usual. -/
theorem remainder_of_nonneg {x y : Value word .int} (nonnegative : 0 ≤ toInt word .int x)
    (positive : 0 < toInt word .int y) :
    ∃ result, remainder x y = .ok result ∧
      toInt word .int result = toInt word .int x % toInt word .int y := by
  have defined : ¬ DivisionUndefined word .int x y := defined_of_positive positive
  rcases remainderBuiltin_eq defined with ⟨result, reduced, value⟩
  refine ⟨result, ?_, ?_⟩
  · rw [remainder, remainderAssign_eq_builtin defined, reduced]
  · rw [value, Int.tmod_eq_emod_of_nonneg nonnegative]

variable {maxLength : Value word .int} {size capacity : ℕ} {visited : List Element}
  {element : Element} {ring : Ring word Element}

/-- As long as the ring buffer is not full, it holds all that has been visited. -/
structure Filling (capacity : ℕ) (visited : List Element) (ring : Ring word Element) : Prop where
  filled : ring.ringBuffer.Filled capacity visited
  ringBufferCount : toInt word .int ring.ringBufferCount = visited.length
  i : ring.i = 0

/-- A full ring buffer holds the last elements that have been visited, the oldest one at `i`. -/
structure Full (size : ℕ) (visited : List Element) (ring : Ring word Element) : Prop where
  count : toInt word .int ring.ringBuffer.count = size
  ringBufferCount : toInt word .int ring.ringBufferCount = size
  nonnegative : 0 ≤ toInt word .int ring.i
  inside : toInt word .int ring.i < size
  enough : size ≤ visited.length
  elements : ring.ringBuffer.elements.rotate (toInt word .int ring.i).toNat =
    (visited.rtake size).map some

theorem Full.length_elements (full : Full size visited ring) :
    ring.ringBuffer.elements.length = size := by
  have lengths := congrArg List.length full.elements
  have enough := full.enough
  rw [List.length_rotate, List.length_map, List.rtake, List.length_drop] at lengths
  omega

theorem Filling.full (filling : Filling capacity visited ring) (positive : 0 < visited.length)
    (whole : visited.length = capacity) : Full visited.length visited ring := by
  rcases filling with ⟨filled, ringBufferCount, i⟩
  have zero := toInt_zero word .int
  have holds := filled.holds whole
  have elements := holds.elements
  rw [List.take_of_length_le (by rw [filled.length_elements, whole])] at elements
  rw [← i] at zero
  refine ⟨holds.count, ringBufferCount, zero.ge, by omega, le_rfl, ?_⟩
  rw [zero, rtake_of_length_le le_rfl, Int.toNat_zero, List.rotate_zero, elements]

variable (outOfBounds element) in
theorem Filling.step (filling : Filling capacity visited ring)
    (notYet : visited.length < toInt word .int maxLength) (room : visited.length < capacity) :
    ∃ ring', suffixStep outOfBounds maxLength ring element = .ok ring' ∧
      Filling capacity (visited ++ [element]) ring' := by
  rcases filling with ⟨filled, ringBufferCount, i⟩
  rcases filled.assign outOfBounds ringBufferCount room element with ⟨ringBuffer, assigned, filled'⟩
  have below : less word .int ring.ringBufferCount maxLength = true := by
    rw [less_iff, ringBufferCount]
    exact notYet
  have count := filled.count
  refine ⟨⟨ringBuffer, ring.i, ring.ringBufferCount + 1⟩, ?_, filled', ?_, i⟩
  · rw [suffixStep, if_pos below, assigned]
    rfl
  · rw [List.length_append, List.length_singleton]
    exact toInt_add_one ringBufferCount (less_iff.mp below)

theorem Full.not_below (full : Full size visited ring)
    (limit : toInt word .int maxLength = size) :
    ¬ less word .int ring.ringBufferCount maxLength = true := by
  rw [less_iff, full.ringBufferCount, limit]
  exact lt_irrefl _

theorem Full.step (full : Full size visited ring) (limit : toInt word .int maxLength = size) :
    ∃ ring', suffixStep outOfBounds maxLength ring element = .ok ring' ∧
      Full size (visited ++ [element]) ring' := by
  have length := full.length_elements
  have notBelow := full.not_below limit
  rcases full with ⟨count, ringBufferCount, nonnegative, inside, enough, elements⟩
  have next : toInt word .int (ring.i + 1) = toInt word .int ring.i + 1 :=
    toInt_succ (limit.symm ▸ inside) (by omega)
  rcases remainder_of_nonneg (x := ring.i + 1) (y := maxLength) (by omega) (by omega) with
    ⟨i, reduced, value⟩
  rw [next, limit] at value
  let cells := ring.ringBuffer.elements.set (toInt word .int ring.i).toNat (some element)
  have assigned : ring.ringBuffer.assign outOfBounds ring.i element =
      .ok ⟨ring.ringBuffer.count, cells⟩ :=
    assign_inside nonnegative (count.symm ▸ inside) (length.symm ▸ inside)
  refine ⟨⟨⟨ring.ringBuffer.count, cells⟩, i, ring.ringBufferCount⟩, ?_, count, ringBufferCount,
    ?_, ?_, ?_, ?_⟩
  · rw [suffixStep, if_neg notBelow, assigned]
    simp only [bind, Except.bind, reduced]
    rfl
  · rw [value]
    exact Int.emod_nonneg _ (by omega)
  · rw [value]
    exact Int.emod_lt_of_pos _ (by omega)
  · rw [List.length_append]
    omega
  · have position : (toInt word .int i).toNat =
        ((toInt word .int ring.i).toNat + 1) % cells.length := by
      rw [value, List.length_set, length, Int.toNat_emod (by omega) (by omega),
        Int.toNat_add nonnegative (by decide)]
      rfl
    have oldest : (toInt word .int ring.i).toNat < ring.ringBuffer.elements.length := by omega
    dsimp only
    rw [position, List.rotate_mod, rotate_set _ oldest, elements,
      rtake_append_singleton (by omega) enough, List.map_append, List.map_tail]
    rfl

/-- One of the two phases of the loop. -/
def RingInvariant (size capacity : ℕ) (visited : List Element) (ring : Ring word Element) :
    Prop :=
  (Filling capacity visited ring ∧ visited.length ≤ size) ∨ Full size visited ring

theorem RingInvariant.step {all : List Element}
    (invariant : RingInvariant size (min size all.length) visited ring)
    (limit : toInt word .int maxLength = size) (positive : 0 < size)
    (visits : visited ++ [element] <+: all) :
    ∃ ring', suffixStep outOfBounds maxLength ring element = .ok ring' ∧
      RingInvariant size (min size all.length) (visited ++ [element]) ring' := by
  have length := visits.length_le
  rw [List.length_append, List.length_singleton] at length
  rcases invariant with ⟨filling, short⟩ | full
  · by_cases room : visited.length < size
    · have notYet : (visited.length : ℤ) < toInt word .int maxLength := by omega
      rcases filling.step outOfBounds element notYet (by omega) with ⟨ring', stepped, filling'⟩
      refine ⟨ring', stepped, .inl ⟨filling', ?_⟩⟩
      rw [List.length_append, List.length_singleton]
      exact room
    · have whole : visited.length = size := by omega
      have full : Full size visited ring :=
        whole ▸ filling.full (by omega) (by omega)
      rcases full.step limit with ⟨ring', stepped, full'⟩
      exact ⟨ring', stepped, .inr full'⟩
  · rcases full.step limit with ⟨ring', stepped, full'⟩
    exact ⟨ring', stepped, .inr full'⟩

theorem reads_range {source : ContiguousArrayStorage word Element} {list : List Element}
    {lower upper : Index word} (low : 0 ≤ toInt word .int lower)
    (ordered : toInt word .int lower ≤ toInt word .int upper)
    (high : toInt word .int upper ≤ toInt word .int source.count)
    (length : (list.length : ℤ) = toInt word .int upper - toInt word .int lower)
    (cells : list.map some <+: source.elements.drop (toInt word .int lower).toNat) :
    List.Forall₂ (fun j element => source.element outOfBounds j = .ok element)
      (Range.mk lower upper).elements list := by
  have indices : (Range.mk lower upper).elements = successors lower list.length := by
    rw [Range.elements_of_le ordered, ← length, Int.toNat_natCast]
  rw [indices, List.forall₂_iff_get, successors]
  constructor
  · rw [List.length_map, List.length_range]
  · intro k indices_k list_k
    simp only [List.get_eq_getElem, List.getElem_map, List.getElem_range]
    have value : toInt word .int ((fun value => advanced word .int value 1)^[k] lower) =
        toInt word .int lower + k :=
      toInt_iterate_advanced_one (y := upper) (by omega)
    apply element_inside
    · omega
    · omega
    · rcases cells with ⟨rest, split⟩
      have position : (toInt word .int lower + k).toNat = (toInt word .int lower).toNat + k := by
        omega
      rw [value, position, ← List.getElem?_drop, ← split,
        List.getElem?_append_left (by rwa [List.length_map]), List.getElem?_map,
        List.getElem?_eq_getElem list_k]
      rfl

theorem Full.holds (full : Full size visited ring) (turned : ring.i = 0) :
    ring.ringBuffer.Holds (visited.rtake size) := by
  have length := length_rtake full.enough
  have elements := full.elements
  rw [turned, toInt_zero, Int.toNat_zero, List.rotate_zero] at elements
  refine ⟨by rw [full.count, length], ?_⟩
  rw [elements, List.take_of_length_le]
  rw [List.length_map]

theorem Full.reads (full : Full size visited ring) :
    List.Forall₂ (fun j element => ring.ringBuffer.element outOfBounds j = .ok element)
      ((Range.mk ring.i ring.ringBuffer.count).elements ++
        (Range.mk (0 : Value word .int) ring.i).elements)
      (visited.rtake size) := by
  have length := full.length_elements
  rcases full with ⟨count, -, nonnegative, inside, -, elements⟩
  have zero := toInt_zero word .int
  rw [List.rotate_eq_drop_append_take (by omega)] at elements
  rcases List.map_eq_append_iff.mp elements.symm with ⟨older, newer, split, older_eq, newer_eq⟩
  have older_length := congrArg List.length older_eq
  have newer_length := congrArg List.length newer_eq
  rw [List.length_map, List.length_drop, length] at older_length
  rw [List.length_map, List.length_take, length] at newer_length
  rw [split]
  apply List.rel_append
  · apply reads_range nonnegative
    · omega
    · exact le_rfl
    · omega
    · rw [older_eq]
  · apply reads_range zero.ge
    · omega
    · omega
    · omega
    · rw [newer_eq, zero]
      exact List.take_prefix _ _

end Suffix

/-- Three elements with an underestimate. -/
def threeElements (underestimatedCount : Value .word16 .int) : Sequence .word16 ℕ :=
  ⟨underestimatedCount, [1, 2, 3]⟩

end USwift
