import USwift.Collections.ArrayBuilder
import USwift.Integer.Distance

/-!
# Arrays and slices of a repeated value

`init(repeating:count:)` of `Array` and of `ArraySlice` allocate uninitialized storage, set
the count of their buffer and initialize as many elements through a pointer. The buffer of
a slice has been made of a buffer without elements by then, and it ignores a new count.
-/

namespace USwift

open Loops

variable {word : WordSize} {Element : Type}

/-- The storage objects as the buffers read them. -/
def Memory.heap (memory : Memory word Element) : Heap word Element :=
  fun object => (memory.objects object).contents

section Operations

namespace SliceBuffer

/-- `init()`. -/
def empty : SliceBuffer word :=
  ⟨Memory.emptyArrayStorage, ⟨Memory.emptyArrayStorage, 0⟩, 0, 1⟩

/-- `init(_buffer:shiftedToStartIndex:)`, of a buffer whose indices start at zero. -/
def ofBuffer (memory : Memory word Element) (buffer : ContiguousArrayBuffer)
    (shiftedToStartIndex : Index word) : SliceBuffer word :=
  let shift := (0 : Index word) - shiftedToStartIndex
  .ofIndices buffer.storage (buffer.firstElementAddress.advanced shift)
    (halfOpen shiftedToStartIndex (shiftedToStartIndex + memory.count buffer)) true

/-- The setter of `count`, which returns without an effect. -/
def setCount (buffer : SliceBuffer word) (_newValue : Value word .int) : SliceBuffer word :=
  buffer

def firstElementAddress (buffer : SliceBuffer word) : ElementPointer :=
  buffer.subscriptBaseAddress.advanced buffer.startIndex

end SliceBuffer

variable (memory : Memory word Element)

/-- A round of the loop of `init(repeating:count:)`. -/
def initializeStep (repeatedValue : Element) (state : Memory word Element × ElementPointer)
    (_ : Value word .int) : Except Failure (Memory word Element × ElementPointer) := do
  let memory ← state.1.initializeTo state.2 repeatedValue
  return (memory, state.2.advanced (1 : Value word .int))

/-- The memory and the pointer after a number of rounds of the loop. -/
def initializedAfter (p : ElementPointer) (repeatedValue : Element) (count : Value word .int)
    (rounds : ℕ) : Except Failure (Memory word Element × ElementPointer) :=
  ((halfOpen 0 count).elements.take rounds).foldlM (initializeStep repeatedValue) (memory, p)

namespace Array

/-- `_allocateBufferUninitialized(minimumCapacity:)`. -/
def allocateBufferUninitialized (minimumCapacity : Value word .int) :
    Memory word Element × ContiguousArrayBuffer :=
  memory.uninitializedBuffer 0 minimumCapacity

/-- `init(_uninitializedCount:)`, with the count that it leaves in its argument. -/
def uninitialized (count : Value word .int) :
    Memory word Element × Array × Value word .int :=
  if less word .int 0 count then
    let (memory, buffer) := allocateBufferUninitialized memory count
    (memory.setMutableCount buffer count, ⟨buffer⟩, count)
  else
    let (memory, buffer) := memory.emptyBuffer
    (memory.setMutableCount buffer 0, ⟨buffer⟩, 0)

/-- `init(repeating:count:)`. -/
def repeating (repeatedValue : Element) (count : Value word .int) :
    Except Failure (Memory word Element × Array × Value word .int) := do
  let (memory, self, count) := uninitialized memory count
  let p := self.buffer.firstElementAddress
  let (memory, _) ← (halfOpen 0 count).elements.foldlM (initializeStep repeatedValue) (memory, p)
  return (memory, self, count)

end Array

namespace ArraySlice

/-- `_allocateBufferUninitialized(minimumCapacity:)`. -/
def allocateBufferUninitialized (minimumCapacity : Value word .int) :
    Memory word Element × SliceBuffer word :=
  let (memory, newBuffer) := memory.uninitializedBuffer 0 minimumCapacity
  (memory, .ofBuffer memory newBuffer 0)

/--
`init(_uninitializedCount:)`, with the count that it leaves in its argument. The empty buffer that
it starts with is only a reference where it stays.
-/
def uninitialized (count : Value word .int) :
    Memory word Element × ArraySlice word × Value word .int :=
  if less word .int 0 count then
    let (memory, buffer) := allocateBufferUninitialized memory count
    (memory, ⟨buffer.setCount count⟩, count)
  else (memory.emptyBuffer.1, ⟨.empty⟩, 0)

/-- `init(repeating:count:)`. -/
def repeating (repeatedValue : Element) (count : Value word .int) :
    Except Failure (Memory word Element × ArraySlice word × Value word .int) := do
  let (memory, self, count) := uninitialized memory count
  let p := self.buffer.firstElementAddress
  let (memory, _) ← (halfOpen 0 count).elements.foldlM (initializeStep repeatedValue) (memory, p)
  return (memory, self, count)

end ArraySlice

end Operations

/-- The cells of a size of which some have been initialized with a value. -/
def initializedCells (repeatedValue : Element) (written size : ℕ) : List (Option Element) :=
  List.replicate written (some repeatedValue) ++ List.replicate (size - written) none

/--
Every round of the loop initializes one element, which is inside the storage that has been
allocated and has not been initialized before.
-/
def InitializesOnce (memory : Memory word Element) (p : ElementPointer) (repeatedValue : Element)
    (count : Value word .int) : Prop :=
  ∀ rounds ≤ (toInt word .int count).toNat, ∃ memory',
    initializedAfter memory p repeatedValue count rounds = .ok (memory', ⟨p.object, rounds⟩) ∧
      memory'.cells p.object =
        initializedCells repeatedValue rounds (toInt word .int count).toNat

/-- What a collection that repeats a value has as its indices and its elements. -/
structure Repeats (startIndex endIndex : Index word) (count : Value word .int)
    (subscript : Index word → Except Failure Element) (repeatedValue : Element)
    (requested : Value word .int) : Prop where
  startIndex : startIndex = 0
  endIndex : endIndex = requested
  count : count = requested
  elements : ∀ index, 0 ≤ toInt word .int index →
    toInt word .int index < toInt word .int requested → subscript index = .ok repeatedValue

variable (memory : Memory word Element)
  (outOfBounds : Index word → Index word → Index word → Index word) (repeatedValue : Element)
  (count : Value word .int)

/-- `Array(repeating:count:)` leaves its count and makes an array of that count. -/
def ArrayRepeats : Prop :=
  InitializesOnce (Array.uninitialized memory count).1
      (Array.uninitialized memory count).2.1.buffer.firstElementAddress repeatedValue count ∧
    ∃ memory' array, Array.repeating memory repeatedValue count = .ok (memory', array, count) ∧
      @Repeats word Element array.startIndex (array.endIndex memory'.heap)
        (array.count memory'.heap) (array.subscript memory'.heap outOfBounds) repeatedValue count

/-- `ArraySlice(repeating:count:)` leaves its count and makes a slice of that count. -/
def SliceRepeats : Prop :=
  InitializesOnce (ArraySlice.uninitialized memory count).1
      (ArraySlice.uninitialized memory count).2.1.buffer.firstElementAddress repeatedValue count ∧
    ∃ memory' slice, ArraySlice.repeating memory repeatedValue count = .ok (memory', slice, count) ∧
      Repeats slice.startIndex slice.endIndex slice.count
        (slice.subscript memory'.heap outOfBounds) repeatedValue count

section Loop

variable {memory repeatedValue count} {object written size : ℕ}

theorem length_initializedCells (fits : written ≤ size) :
    (initializedCells repeatedValue written size).length = size := by
  rw [initializedCells, List.length_append, List.length_replicate, List.length_replicate]
  omega

theorem set_initializedCells (room : written < size) :
    (initializedCells repeatedValue written size).set written (some repeatedValue) =
      initializedCells repeatedValue (written + 1) size := by
  have fits : (List.replicate written repeatedValue).length < size := by
    rwa [List.length_replicate]
  have behind := ContiguousArrayStorage.set_behind fits repeatedValue
  rw [← List.replicate_succ'] at behind
  simpa [initializedCells] using behind

/-- The memory in which some elements of an object have been initialized. -/
def initializing (memory : Memory word Element) (repeatedValue : Element)
    (object written size : ℕ) : Memory word Element :=
  memory.setCells object (initializedCells repeatedValue written size)

theorem initializeStep_eq (room : written < size) (index : Value word .int) :
    initializeStep repeatedValue
        (initializing memory repeatedValue object written size, ⟨object, written⟩) index =
      .ok (initializing memory repeatedValue object (written + 1) size,
        ⟨object, (written + 1 : ℕ)⟩) := by
  have cells : (initializing memory repeatedValue object written size).cells object =
      initializedCells repeatedValue written size := Memory.cells_setCells_self
  have inside : written < ((initializing memory repeatedValue object written size).cells
      object).length := by
    rw [cells, length_initializedCells room.le]
    exact room
  have stored : (initializing memory repeatedValue object written size).setCells object
      (initializedCells repeatedValue (written + 1) size) =
        initializing memory repeatedValue object (written + 1) size := Memory.setCells_setCells
  have step : (⟨object, (written : ℤ)⟩ : ElementPointer).advanced (1 : Value word .int) =
      ⟨object, (written + 1 : ℕ)⟩ := by
    rw [ElementPointer.advanced, toInt_one_int]
    rfl
  rw [initializeStep, Memory.initializeTo_eq inside, cells, set_initializedCells room, stored]
  exact congrArg (fun pointer => Except.ok (_, pointer)) step

theorem initialize_rounds (memory : Memory word Element) (repeatedValue : Element) (object : ℕ)
    {values : List (Value word .int)} (fits : written + values.length ≤ size) :
    values.foldlM (initializeStep repeatedValue)
        (initializing memory repeatedValue object written size, ⟨object, written⟩) =
      .ok (initializing memory repeatedValue object (written + values.length) size,
        ⟨object, (written + values.length : ℕ)⟩) := by
  induction values generalizing written with
  | nil => rfl
  | cons value values further =>
      rw [List.length_cons] at fits ⊢
      have rest : written + 1 + values.length ≤ size := by omega
      have place : written + (values.length + 1) = written + 1 + values.length := by omega
      rw [List.foldlM_cons, initializeStep_eq (by omega), place]
      exact further rest

theorem length_rounds (nonnegative : 0 ≤ toInt word .int count) :
    (halfOpen 0 count).elements.length = (toInt word .int count).toNat := by
  have zero := toInt_zero word .int
  have indices : (halfOpen 0 count).elements = successors 0 (toInt word .int count -
      toInt word .int (0 : Value word .int)).toNat := Range.elements_of_le (by
        simp only [halfOpen, zero]
        exact nonnegative)
  rw [indices, successors, List.length_map, List.length_range, zero, Int.sub_zero]

/-- From storage without an element, the loop initializes one element in each round. -/
theorem initializedAfter_eq (repeatedValue : Element) (nonnegative : 0 ≤ toInt word .int count)
    (vacant : memory.cells object = List.replicate (toInt word .int count).toNat none)
    {rounds : ℕ} (within : rounds ≤ (toInt word .int count).toNat) :
    initializedAfter memory ⟨object, 0⟩ repeatedValue count rounds =
      .ok (initializing memory repeatedValue object rounds (toInt word .int count).toNat,
        ⟨object, rounds⟩) := by
  have start : initializing memory repeatedValue object 0 (toInt word .int count).toNat =
      memory := by
    apply Memory.setCells_eq_self
    rw [vacant, initializedCells, List.replicate_zero, List.nil_append, Nat.sub_zero]
  have length : ((halfOpen 0 count).elements.take rounds).length = rounds := by
    rw [List.length_take, length_rounds nonnegative, min_eq_left within]
  have fits : 0 + ((halfOpen 0 count).elements.take rounds).length ≤
      (toInt word .int count).toNat := by
    rw [length, Nat.zero_add]
    exact within
  have runs := initialize_rounds memory repeatedValue object fits
  rw [start, length, Nat.zero_add] at runs
  exact runs

theorem initialized_eq (repeatedValue : Element) (nonnegative : 0 ≤ toInt word .int count)
    (vacant : memory.cells object = List.replicate (toInt word .int count).toNat none) :
    (halfOpen 0 count).elements.foldlM (initializeStep repeatedValue) (memory, ⟨object, 0⟩) =
      .ok (initializing memory repeatedValue object (toInt word .int count).toNat
        (toInt word .int count).toNat, ⟨object, (toInt word .int count).toNat⟩) := by
  have whole := initializedAfter_eq repeatedValue nonnegative vacant le_rfl
  rw [initializedAfter, ← length_rounds nonnegative, List.take_length] at whole
  rw [whole, length_rounds nonnegative]

theorem initializesOnce_of_vacant (nonnegative : 0 ≤ toInt word .int count)
    (vacant : memory.cells object = List.replicate (toInt word .int count).toNat none) :
    InitializesOnce memory ⟨object, 0⟩ repeatedValue count := by
  intro rounds within
  exact ⟨_, initializedAfter_eq repeatedValue nonnegative vacant within, Memory.cells_setCells_self⟩

end Loop

section Results

variable {memory outOfBounds repeatedValue count}

/-- Storage for a positive count without elements. -/
structure Vacant (memory : Memory word Element) (object : ℕ) (counted size : Value word .int) :
    Prop where
  count : memory.count ⟨object⟩ = counted
  cells : memory.cells object = List.replicate (toInt word .int size).toNat none

/-- A buffer that is allocated for a capacity counts no element. -/
theorem uninitializedBuffer_zero (positive : 0 < toInt word .int count) :
    (memory.uninitializedBuffer 0 count).2 = ⟨memory.fresh⟩ ∧
      Vacant (memory.uninitializedBuffer 0 count).1 memory.fresh 0 count := by
  have real : maximum 0 count = count := by
    apply toInt_injective
    rw [toInt_maximum, toInt_zero]
    exact max_eq_right positive.le
  have nonzero : ¬ (count == 0) = true := by
    rw [beq_iff_eq]
    rintro rfl
    rw [toInt_zero] at positive
    omega
  rw [Memory.uninitializedBuffer, real]
  dsimp only
  rw [if_neg nonzero]
  have stored (storage : AllocatedStorage word Element) :
      (memory.store memory.fresh storage).objects memory.fresh = storage :=
    Memory.objects_store_self
  refine ⟨rfl, ?_, ?_⟩
  · exact congrArg (fun storage => storage.countAndCapacity.count) (stored _)
  · rw [toInt_eq_toNat positive.le, Int.toNat_natCast]
    exact congrArg AllocatedStorage.elements (stored _)

/-- What an array is before the loop initializes its elements. -/
theorem Array.uninitialized_eq (wellFormed : memory.WellFormed)
    (nonnegative : 0 ≤ toInt word .int count) :
    ∃ memory' object, Array.uninitialized memory count = (memory', ⟨⟨object⟩⟩, count) ∧
      Vacant memory' object count count := by
  have zero := toInt_zero word .int
  rw [Array.uninitialized]
  by_cases positive : 0 < toInt word .int count
  · rcases @uninitializedBuffer_zero _ _ memory count positive with ⟨buffer_eq, vacant⟩
    rw [if_pos (less_iff.mpr (by rwa [zero])), allocateBufferUninitialized]
    dsimp only
    rw [buffer_eq]
    refine ⟨_, _, rfl, Memory.count_setMutableCount, ?_⟩
    rw [Memory.cells_setMutableCount, vacant.cells]
  · have none : count = 0 := toInt_injective (by omega)
    rw [if_neg (by rwa [less_iff, zero]), none]
    refine ⟨_, _, rfl, Memory.count_setMutableCount, ?_⟩
    rcases @Memory.objects_emptyBuffer _ _ memory Memory.emptyArrayStorage with ⟨-, cells, -⟩
    rw [Memory.cells_setMutableCount, zero]
    exact cells.trans wellFormed.cells

theorem arrayRepeats (wellFormed : memory.WellFormed) (nonnegative : 0 ≤ toInt word .int count) :
    ArrayRepeats memory outOfBounds repeatedValue count := by
  rcases Array.uninitialized_eq wellFormed nonnegative with ⟨memory', object, made, vacant⟩
  have loop := initialized_eq repeatedValue nonnegative vacant.cells
  have start : (⟨object⟩ : ContiguousArrayBuffer).firstElementAddress = ⟨object, 0⟩ := rfl
  refine ⟨?_, initializing memory' repeatedValue object (toInt word .int count).toNat
    (toInt word .int count).toNat, ⟨⟨object⟩⟩, ?_, rfl, ?_, ?_, ?_⟩
  · rw [made]
    exact initializesOnce_of_vacant nonnegative vacant.cells
  · rw [Array.repeating, made]
    dsimp only
    rw [start, loop]
    rfl
  · exact (congrArg ArrayBody.count Memory.countAndCapacity_setCells).trans vacant.count
  · exact (congrArg ArrayBody.count Memory.countAndCapacity_setCells).trans vacant.count
  · intro index low high
    have counted : (⟨object⟩ : ContiguousArrayBuffer).count (initializing memory' repeatedValue
        object (toInt word .int count).toNat (toInt word .int count).toNat).heap = count :=
      (congrArg ArrayBody.count Memory.countAndCapacity_setCells).trans vacant.count
    have cells : ((initializing memory' repeatedValue object (toInt word .int count).toNat
        (toInt word .int count).toNat).heap object).elements =
          initializedCells repeatedValue (toInt word .int count).toNat
            (toInt word .int count).toNat := Memory.cells_setCells_self
    have inside : checkValidSubscript outOfBounds 0 count index = .ok index :=
      checkValidSubscript_inside (toInt_zero word .int).ge (by rwa [toInt_zero]) high
    rw [Array.subscript]
    dsimp only
    rw [counted, inside]
    change (ElementPointer.advanced _ index).pointee _ = _
    rw [start, ElementPointer.advanced, ElementPointer.pointee, zero_add]
    dsimp only
    rw [if_neg (by omega), cells, initializedCells, Nat.sub_self, List.replicate_zero,
      List.append_nil, List.getElem?_replicate_of_lt (by omega)]

/-- A slice buffer of a buffer without elements. -/
theorem SliceBuffer.ofBuffer_eq {object : ℕ} (uncounted : memory.count ⟨object⟩ = 0) :
    (SliceBuffer.ofBuffer memory ⟨object⟩ 0).startIndex = 0 ∧
      (SliceBuffer.ofBuffer memory ⟨object⟩ 0).endIndex = 0 ∧
      (SliceBuffer.ofBuffer memory ⟨object⟩ 0).firstElementAddress = ⟨object, 0⟩ := by
  have none : (0 : Index word) - 0 = 0 := BitVec.sub_zero 0
  have still : (⟨object, 0⟩ : ElementPointer).advanced (0 : Index word) = ⟨object, 0⟩ := by
    rw [ElementPointer.advanced, toInt_zero]
    rfl
  refine ⟨rfl, ?_, ?_⟩
  · apply BitVec.eq_of_toNat_eq
    rw [ofBuffer, toNat_endIndex_ofIndices, halfOpen, uncounted]
    have upper : (0 : Index word) + 0 = 0 := BitVec.add_zero 0
    rw [upper]
    have zero : BitVec.toNat (0 : Index word) = 0 := BitVec.toNat_zero
    rw [zero, Nat.zero_mod]
  · rw [ofBuffer, none]
    change (ElementPointer.advanced (ElementPointer.advanced ⟨object, 0⟩ 0) 0) = _
    rw [still, still]

/-- A slice of a positive count has no elements, although they have been initialized. -/
theorem ArraySlice.repeating_of_pos (positive : 0 < toInt word .int count) :
    ∃ memory' slice, ArraySlice.repeating memory repeatedValue count = .ok (memory', slice, count) ∧
      memory'.cells memory.fresh = initializedCells repeatedValue (toInt word .int count).toNat
        (toInt word .int count).toNat ∧
      slice.startIndex = 0 ∧ slice.endIndex = 0 ∧ slice.count = 0 := by
  rcases @uninitializedBuffer_zero _ _ memory count positive with ⟨buffer_eq, vacant⟩
  rcases SliceBuffer.ofBuffer_eq vacant.count with ⟨first, last, address⟩
  have zero := toInt_zero word .int
  have loop := initialized_eq repeatedValue positive.le vacant.cells
  rw [ArraySlice.repeating, ArraySlice.uninitialized,
    if_pos (less_iff.mpr (by rwa [zero])), allocateBufferUninitialized]
  dsimp only
  rw [buffer_eq, SliceBuffer.setCount, address, loop]
  refine ⟨_, _, rfl, Memory.cells_setCells_self, first, last, ?_⟩
  rw [ArraySlice.count, SliceBuffer.count, first, last]
  exact BitVec.sub_zero 0

theorem sliceRepeats_zero (wellFormed : memory.WellFormed) (empty : toInt word .int count = 0) :
    SliceRepeats memory outOfBounds repeatedValue count := by
  have zero := toInt_zero word .int
  have count_eq : count = 0 := toInt_injective (by omega)
  subst count_eq
  have idle : ¬ less word .int 0 (0 : Value word .int) = true := by
    rw [less_iff]
    omega
  have made : ArraySlice.uninitialized memory 0 =
      (memory.emptyBuffer.1, ⟨.empty⟩, (0 : Value word .int)) := by
    rw [ArraySlice.uninitialized, if_neg idle]
  have still : (SliceBuffer.empty : SliceBuffer word).firstElementAddress =
      ⟨Memory.emptyArrayStorage, 0⟩ := by
    rw [SliceBuffer.firstElementAddress, SliceBuffer.empty, ElementPointer.advanced, zero]
    rfl
  have vacant : memory.emptyBuffer.1.cells Memory.emptyArrayStorage =
      List.replicate (toInt word .int (0 : Value word .int)).toNat none := by
    rcases @Memory.objects_emptyBuffer _ _ memory Memory.emptyArrayStorage with ⟨-, cells, -⟩
    rw [zero]
    exact cells.trans wellFormed.cells
  have last : (SliceBuffer.empty : SliceBuffer word).endIndex = 0 := by
    cases word <;> decide
  have loop := initialized_eq repeatedValue zero.ge vacant
  have repeated : ArraySlice.repeating memory repeatedValue 0 =
      .ok (initializing memory.emptyBuffer.1 repeatedValue Memory.emptyArrayStorage
        (toInt word .int (0 : Value word .int)).toNat
        (toInt word .int (0 : Value word .int)).toNat, ⟨.empty⟩, 0) := by
    rw [ArraySlice.repeating, made]
    dsimp only
    rw [still, loop]
    rfl
  refine ⟨?_, _, _, repeated, rfl, last, ?_, ?_⟩
  · rw [made]
    dsimp only
    rw [still]
    exact initializesOnce_of_vacant zero.ge vacant
  · rw [ArraySlice.count, SliceBuffer.count, last]
    exact BitVec.sub_zero 0
  · intro index low high
    omega

/--
An array repeats a value as often as it is asked to. A slice does so exactly when it is
asked for no element, since the count of its buffer stays zero.
-/
theorem repeating_iff (word : WordSize) (Element : Type) (memory : Memory word Element)
    (wellFormed : memory.WellFormed)
    (outOfBounds : Index word → Index word → Index word → Index word) (repeatedValue : Element)
    (count : Value word .int) (nonnegative : 0 ≤ toInt word .int count) :
    ArrayRepeats memory outOfBounds repeatedValue count ∧
      (ArrayRepeats memory outOfBounds repeatedValue count ∧
          SliceRepeats memory outOfBounds repeatedValue count ↔
        toInt word .int count = 0) := by
  have array : ArrayRepeats memory outOfBounds repeatedValue count :=
    arrayRepeats wellFormed nonnegative
  refine ⟨array, ?_, ?_⟩
  · rintro ⟨-, -, memory', slice, repeated, repeats⟩
    by_contra positive
    rcases @ArraySlice.repeating_of_pos _ _ memory repeatedValue count (by omega) with
      ⟨_, _, made, -, -, -, counted⟩
    rw [made, Except.ok.injEq, Prod.mk.injEq, Prod.mk.injEq] at repeated
    rcases repeated with ⟨-, rfl, -⟩
    rw [← repeats.count, counted, toInt_zero] at positive
    exact positive rfl
  · intro none
    exact ⟨array, sliceRepeats_zero wellFormed none⟩

/-- An array and a slice of no elements, and an array of two. -/
theorem repeating_none :
    (ArrayRepeats Memory.initial (fun index _ _ => index) 7 0 ∧
      SliceRepeats Memory.initial (fun index _ _ => index) 7 0) ∧
    ArrayRepeats Memory.initial (fun index _ _ => index) 7 2 := by
  constructor
  · exact (repeating_iff .word16 ℕ Memory.initial Memory.wellFormed_initial
      (fun index _ _ => index) 7 0 (by decide)).2.mpr (by decide)
  · exact (repeating_iff .word16 ℕ Memory.initial Memory.wellFormed_initial
      (fun index _ _ => index) 7 2 (by decide)).1

/-- A slice of two sevens has a count of zero. -/
theorem repeating_two_sevens :
    ¬ (ArrayRepeats Memory.initial (fun index _ _ => index) 7 2 ∧
      SliceRepeats Memory.initial (fun index _ _ => index) 7 2) := by
  rintro ⟨-, -, memory', slice, repeated, repeats⟩
  rcases @ArraySlice.repeating_of_pos _ _ Memory.initial 7 2 (by decide) with
    ⟨_, _, made, -, -, -, counted⟩
  rw [made, Except.ok.injEq, Prod.mk.injEq, Prod.mk.injEq] at repeated
  rcases repeated with ⟨-, rfl, -⟩
  have same := repeats.count
  rw [counted] at same
  exact absurd same (by decide)

end Results

end USwift
