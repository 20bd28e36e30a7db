import USwift.Collections.ArrayBuffer

/-!
# Arrays of fixed size

An array that is allocated with a number of uninitialized elements, is written through
its subscript and never grows. The subscript tests the index against the count in the
storage, and a program may link a function that replaces an index out of bounds.
-/

namespace USwift

namespace ContiguousArrayStorage

variable {word : WordSize} {Element : Type}

/-- `_emptyArrayStorage`. -/
def empty : ContiguousArrayStorage word Element :=
  ⟨0, []⟩

/-- `Array.init(_uninitializedCount:)` with the count that it leaves in its argument. -/
def uninitialized (count : Value word .int) :
    ContiguousArrayStorage word Element × Value word .int :=
  if less word .int 0 count then (⟨count, List.replicate (BitVec.toNat count) none⟩, count)
  else (empty, 0)

section Operations

variable (outOfBounds : Index word → Index word → Index word → Index word)
  (storage : ContiguousArrayStorage word Element)

/-- Assigning through `subscript(index:)`. Releasing what the cell held before is left out. -/
def assign (index : Index word) (element : Element) :
    Except Failure (ContiguousArrayStorage word Element) :=
  match checkValidSubscript outOfBounds 0 storage.count index with
  | .error failure => .error failure
  | .ok index =>
      let position := BitVec.toNat index
      if position < storage.elements.length then
        .ok { storage with elements := storage.elements.set position (some element) }
      else .error .undefined

/-- Reading through `subscript(index:)`. -/
def element (index : Index word) : Except Failure Element :=
  match checkValidSubscript outOfBounds 0 storage.count index with
  | .error failure => .error failure
  | .ok index =>
      match storage.elements[BitVec.toNat index]? with
      | some (some element) => .ok element
      | _ => .error .undefined

end Operations

variable {outOfBounds : Index word → Index word → Index word → Index word}
  {storage : ContiguousArrayStorage word Element} {list : List Element} {capacity : ℕ}

/-- The elements of an array are those of a list. -/
structure Holds (storage : ContiguousArrayStorage word Element) (list : List Element) : Prop where
  count : toInt word .int storage.count = list.length
  elements : storage.elements.take list.length = list.map some

/-- An array of a size whose first cells have been written. -/
structure Filled (storage : ContiguousArrayStorage word Element) (capacity : ℕ)
    (list : List Element) : Prop where
  count : toInt word .int storage.count = capacity
  fits : list.length ≤ capacity
  elements : storage.elements = list.map some ++ List.replicate (capacity - list.length) none

theorem Holds.length_le (holds : storage.Holds list) : list.length ≤ storage.elements.length := by
  have lengths := congrArg List.length holds.elements
  rw [List.length_take, List.length_map] at lengths
  omega

theorem assign_inside {index : Index word} {element : Element}
    (low : 0 ≤ toInt word .int index) (high : toInt word .int index < toInt word .int storage.count)
    (allocated : toInt word .int index < storage.elements.length) :
    storage.assign outOfBounds index element =
      .ok { storage with
        elements := storage.elements.set (toInt word .int index).toNat (some element) } := by
  have inside : checkValidSubscript outOfBounds 0 storage.count index = .ok index :=
    checkValidSubscript_inside (toInt_zero word .int).ge (by rwa [toInt_zero]) high
  have position := toInt_eq_toNat low
  rw [position] at allocated
  rw [assign, inside, position, Int.toNat_natCast]
  simp only
  rw [if_pos (by exact_mod_cast allocated)]

theorem element_inside {index : Index word} {element : Element}
    (low : 0 ≤ toInt word .int index) (high : toInt word .int index < toInt word .int storage.count)
    (there : storage.elements[(toInt word .int index).toNat]? = some (some element)) :
    storage.element outOfBounds index = .ok element := by
  have inside : checkValidSubscript outOfBounds 0 storage.count index = .ok index :=
    checkValidSubscript_inside (toInt_zero word .int).ge (by rwa [toInt_zero]) high
  rw [toInt_eq_toNat low, Int.toNat_natCast] at there
  rw [ContiguousArrayStorage.element, inside]
  simp only [there]

theorem take_written (list : List Element) (rest : List (Option Element)) :
    (list.map some ++ rest).take list.length = list.map some := by
  rw [List.take_append_of_le_length (List.length_map some).ge, ← List.length_map some,
    List.take_length]

theorem Filled.length_elements (filled : storage.Filled capacity list) :
    storage.elements.length = capacity := by
  have fits := filled.fits
  rw [filled.elements, List.length_append, List.length_map, List.length_replicate]
  omega

theorem Filled.holds (filled : storage.Filled capacity list) (full : list.length = capacity) :
    storage.Holds list := by
  refine ⟨by rw [filled.count, full], ?_⟩
  rw [filled.elements, take_written]

theorem set_behind (room : list.length < capacity) (element : Element) :
    (list.map some ++ List.replicate (capacity - list.length) none).set list.length
        (some element) =
      (list ++ [element]).map some ++
        List.replicate (capacity - (list ++ [element]).length) none := by
  have rest : capacity - list.length = capacity - (list ++ [element]).length + 1 := by
    rw [List.length_append, List.length_singleton]
    omega
  have position : list.length = (list.map some).length := (List.length_map some).symm
  rw [position, List.set_append_right _ _ le_rfl, Nat.sub_self, ← position, rest,
    List.replicate_succ, List.set_cons_zero, List.map_append, List.append_assoc]
  rfl

variable (outOfBounds) in
theorem Filled.assign (filled : storage.Filled capacity list) {index : Index word}
    (behind : toInt word .int index = list.length) (room : list.length < capacity)
    (element : Element) :
    ∃ storage', storage.assign outOfBounds index element = .ok storage' ∧
      storage'.Filled capacity (list ++ [element]) := by
  have count := filled.count
  have length := filled.length_elements
  refine ⟨_, assign_inside (by omega) (by omega) (by omega), count, by simp; omega, ?_⟩
  have position : (toInt word .int index).toNat = list.length := by
    rw [behind, Int.toNat_natCast]
  simp only
  rw [filled.elements, position, set_behind room]

end ContiguousArrayStorage

end USwift
