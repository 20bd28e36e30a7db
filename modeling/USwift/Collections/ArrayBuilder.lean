import USwift.Collections.ArraySlice
import USwift.Collections.Memory
import USwift.Collections.SequenceAlgorithms

/-!
# Copying a sequence to an array

An array is built from a sequence of unknown length in a buffer that is allocated for
the underestimated count, and for twice its capacity whenever it is full. The builder
keeps a pointer to the next cell and the number of cells behind it. Its buffer is one reference
to the storage. At its end the builder is reset to an empty buffer that nothing reads, and it is
up to the compiler whether it keeps the reference of that one.
-/

namespace USwift

open ContiguousArrayStorage Loops

variable {word : WordSize} {Element : Type}

/-- `_growArrayCapacity(_:)`. -/
def growArrayCapacity (capacity : Value word .int) : Value word .int :=
  capacity * 2

/-- `_UnsafePartiallyInitializedContiguousArrayBuffer`. -/
structure PartiallyInitializedBuffer (word : WordSize) where
  result : ContiguousArrayBuffer
  p : ElementPointer
  remainingCapacity : Value word .int

namespace PartiallyInitializedBuffer

section Operations

variable (memory : Memory word Element)

/-- `init(initialCapacity:)`. -/
def init (initialCapacity : Value word .int) :
    Memory word Element × PartiallyInitializedBuffer word :=
  let (memory, result) :=
    if initialCapacity == 0 then memory.emptyBuffer
    else memory.uninitializedBuffer initialCapacity 0
  (memory, ⟨result, result.firstElementAddress, memory.capacity result⟩)

/-- What `add(_:)` does to the elements of a buffer that it replaces. -/
def moveElements (result newResult : ContiguousArrayBuffer) :
    Except Failure (Memory word Element) :=
  if !(0 == memory.count result) then do
    let memory ← memory.moveInitialize newResult.firstElementAddress
      result.firstElementAddress (memory.capacity result)
    return memory.setMutableCount result 0
  else return memory

variable (builder : PartiallyInitializedBuffer word)

/-- The first part of `add(_:)`. The buffer that is replaced is released at its end. -/
def reallocate : Except Failure (Memory word Element × PartiallyInitializedBuffer word) := do
  let result := builder.result
  let newCapacity := maximum (growArrayCapacity (memory.capacity result)) 1
  let (memory, newResult) := memory.uninitializedBuffer newCapacity 0
  let p := newResult.firstElementAddress.advanced (memory.capacity result)
  let remainingCapacity := memory.capacity newResult - memory.capacity result
  let memory ← moveElements memory result newResult
  let memory ← memory.release result
  return (memory, ⟨newResult, p, remainingCapacity⟩)

def addWithExistingCapacity (element : Element) :
    Except Failure (Memory word Element × PartiallyInitializedBuffer word) := do
  let remainingCapacity := builder.remainingCapacity - 1
  let memory ← memory.initializeTo builder.p element
  return (memory, ⟨builder.result, builder.p.advanced (1 : Value word .int), remainingCapacity⟩)

def add (element : Element) :
    Except Failure (Memory word Element × PartiallyInitializedBuffer word) :=
  if builder.remainingCapacity == 0 then do
    let (memory, builder) ← builder.reallocate memory
    builder.addWithExistingCapacity memory element
  else builder.addWithExistingCapacity memory element

/-- `finishWithOriginalCount()`, with the builder that it resets. -/
def finishWithOriginalCount (keepsReset : Bool) :
    Memory word Element × PartiallyInitializedBuffer word × ContiguousArrayBuffer :=
  let (memory, finalResult) :=
    if keepsReset then memory.emptyBuffer else (memory, ⟨Memory.emptyArrayStorage⟩)
  (memory, { builder with result := finalResult, remainingCapacity := 0 }, builder.result)

/-- `finish()`, with the builder that it resets. -/
def finish (keepsReset : Bool) :
    Memory word Element × PartiallyInitializedBuffer word × ContiguousArrayBuffer :=
  let capacity := memory.capacity builder.result
  let memory :=
    if capacity != 0 then
      memory.setMutableCount builder.result (capacity - builder.remainingCapacity)
    else memory
  builder.finishWithOriginalCount memory keepsReset

/-- The end of a builder that has been reset. -/
def endReset (keepsReset : Bool) : Except Failure (Memory word Element) :=
  if keepsReset then memory.release builder.result else .ok memory

end Operations

end PartiallyInitializedBuffer

open PartiallyInitializedBuffer

/-- A round of the first loop of `_copySequenceToContiguousArray(_:)`. -/
def existingStep
    (state : (Memory word Element × PartiallyInitializedBuffer word) × List Element)
    (_ : Value word .int) :
    Except Failure ((Memory word Element × PartiallyInitializedBuffer word) × List Element) :=
  match state with
  | ((memory, builder), element :: iterator) => do
      let added ← builder.addWithExistingCapacity memory element
      return (added, iterator)
  -- What a missing element is unwrapped to has no defined result.
  | (_, []) => .error .undefined

/-- A round of the second loop. -/
def addStep (state : Memory word Element × PartiallyInitializedBuffer word) (element : Element) :
    Except Failure (Memory word Element × PartiallyInitializedBuffer word) :=
  state.2.add state.1 element

section Copying

variable (keepsReset : Bool)

/-- `_copySequenceToContiguousArray(_:)`. -/
def copySequenceToContiguousArray (memory : Memory word Element) (source : Sequence word Element) :
    Except Failure (Memory word Element × ContiguousArrayBuffer) := do
  let initialCapacity := source.underestimatedCount
  let (state, iterator) ← (Range.mk (0 : Value word .int) initialCapacity).elements.foldlM
    existingStep (init memory initialCapacity, source.elements)
  let (memory, builder) ← iterator.foldlM addStep state
  let (memory, builder, finalResult) := builder.finish memory keepsReset
  let memory ← builder.endReset memory keepsReset
  return (memory, finalResult)

/-- `Array.init(_:)` of a sequence. -/
def Array.ofSequence (memory : Memory word Element) (source : Sequence word Element) :
    Except Failure (Memory word Element × Array) := do
  let (memory, _buffer) ← copySequenceToContiguousArray keepsReset memory source
  return (memory, ⟨_buffer⟩)

end Copying

/-- The memory and the builder after a number of rounds of the two loops. -/
def copiedAfter (memory : Memory word Element) (source : Sequence word Element) (rounds : ℕ) :
    Except Failure (Memory word Element × PartiallyInitializedBuffer word) := do
  let existing := (Range.mk (0 : Value word .int) source.underestimatedCount).elements
  let (state, iterator) ← (existing.take rounds).foldlM existingStep
    (init memory source.underestimatedCount, source.elements)
  (iterator.take (rounds - existing.length)).foldlM addStep state

section Invariant

variable {memory : Memory word Element} {builder : PartiallyInitializedBuffer word} {room : ℕ}
  {written : List Element} {shared : HeapObject word}

/-- The builder points behind the elements that have been written, which are all that there is. -/
structure Building (memory : Memory word Element) (builder : PartiallyInitializedBuffer word)
    (room : ℕ) (written : List Element) : Prop where
  allocated : builder.result.storage < memory.fresh
  owned : builder.result.storage ≠ Memory.emptyArrayStorage →
    (memory.objects builder.result.storage).header = ⟨1⟩
  shared : builder.result.storage = Memory.emptyArrayStorage → room = 0
  count : toInt word .int (memory.count builder.result) = room
  capacity : toInt word .int (memory.capacity builder.result) = room
  fits : written.length ≤ room
  cells : memory.cells builder.result.storage =
    written.map some ++ List.replicate (room - written.length) none
  remaining : toInt word .int builder.remainingCapacity = room - written.length
  pointer : builder.p = builder.result.firstElementAddress.advanced
    (memory.capacity builder.result - builder.remainingCapacity)

theorem toInt_written {capacity remaining : Value word .int} {size : ℕ}
    (capacity_eq : toInt word .int capacity = room)
    (remaining_eq : toInt word .int remaining = room - size) (fits : size ≤ room) :
    toInt word .int (capacity - remaining) = size := by
  rw [toInt_index_sub (by omega) (by omega), capacity_eq, remaining_eq]
  omega

theorem advanced_written {buffer : ContiguousArrayBuffer} {capacity remaining : Value word .int}
    {size : ℕ} (capacity_eq : toInt word .int capacity = room)
    (remaining_eq : toInt word .int remaining = room - size) (fits : size ≤ room) :
    buffer.firstElementAddress.advanced (capacity - remaining) = ⟨buffer.storage, size⟩ := by
  rw [ElementPointer.advanced, toInt_written capacity_eq remaining_eq fits,
    ContiguousArrayBuffer.firstElementAddress, zero_add]

theorem Building.pointer_eq (building : Building memory builder room written) :
    builder.p = ⟨builder.result.storage, written.length⟩ :=
  building.pointer.trans (advanced_written building.capacity building.remaining building.fits)

/-- What happens to other objects does not concern the builder. -/
theorem Building.of_objects {memory' : Memory word Element}
    (building : Building memory builder room written)
    (same : memory'.objects builder.result.storage = memory.objects builder.result.storage)
    (fresh : memory.fresh ≤ memory'.fresh) : Building memory' builder room written := by
  have capacity : memory'.capacity builder.result = memory.capacity builder.result :=
    congrArg (fun storage => storage.countAndCapacity.capacity) same
  have count : memory'.count builder.result = memory.count builder.result :=
    congrArg (fun storage => storage.countAndCapacity.count) same
  constructor
  · exact Nat.lt_of_lt_of_le building.allocated fresh
  · intro differ
    exact (congrArg AllocatedStorage.header same).trans (building.owned differ)
  · exact building.shared
  · rw [count]
    exact building.count
  · rw [capacity]
    exact building.capacity
  · exact building.fits
  · exact (congrArg AllocatedStorage.elements same).trans building.cells
  · exact building.remaining
  · rw [capacity]
    exact building.pointer

theorem Building.length_cells (building : Building memory builder room written) :
    (memory.cells builder.result.storage).length = room := by
  have fits := building.fits
  rw [building.cells, List.length_append, List.length_map, List.length_replicate]
  omega

theorem Building.add_existing (building : Building memory builder room written)
    (shares : memory.Shares builder.result shared) (more : written.length < room)
    (element : Element) :
    ∃ memory' builder', builder.addWithExistingCapacity memory element = .ok (memory', builder') ∧
      Building memory' builder' room (written ++ [element]) ∧
      memory'.Shares builder'.result shared := by
  have one : toInt word .int (1 : Value word .int) = 1 := by cases word <;> decide
  have pointer := building.pointer_eq
  let memory' := memory.setCells builder.result.storage
    ((memory.cells builder.result.storage).set written.length (some element))
  have added : memory.initializeTo builder.p element = .ok memory' := by
    rw [pointer]
    exact Memory.initializeTo_eq (by rwa [building.length_cells]) element
  have length : (written ++ [element]).length = written.length + 1 := by
    rw [List.length_append, List.length_singleton]
  have remaining : toInt word .int (builder.remainingCapacity - 1) =
      room - (written ++ [element]).length := by
    have before := building.remaining
    rw [toInt_index_sub (by omega) (by omega), one, before, length]
    omega
  have capacity : toInt word .int (memory'.capacity builder.result) = room := by
    rw [Memory.capacity, Memory.countAndCapacity_setCells]
    exact building.capacity
  have fits : (written ++ [element]).length ≤ room := by omega
  refine ⟨memory', ⟨builder.result, builder.p.advanced (1 : Value word .int),
    builder.remainingCapacity - 1⟩, ?_, ⟨building.allocated, ?_, building.shared, ?_, capacity,
    fits, ?_, remaining, ?_⟩, shares.of_header Memory.emptyHeader_setCells⟩
  · rw [addWithExistingCapacity, added]
    rfl
  · intro differ
    rw [Memory.header_setCells]
    exact building.owned differ
  · rw [Memory.count, Memory.countAndCapacity_setCells]
    exact building.count
  · rw [Memory.cells_setCells_self, building.cells]
    exact set_behind more element
  · refine Eq.trans ?_ (advanced_written capacity remaining fits).symm
    rw [pointer, ElementPointer.advanced, one, length]
    push_cast
    rfl

theorem toInt_growArrayCapacity {capacity : Value word .int}
    (nonnegative : 0 ≤ toInt word .int capacity)
    (bounded : 2 * toInt word .int capacity ≤
      TwosComplement.maximum IntegerType.int.isSigned (IntegerType.int.bitWidth word)) :
    toInt word .int (growArrayCapacity capacity) = 2 * toInt word .int capacity := by
  have least := minimum_int word
  have double : growArrayCapacity capacity = capacity + capacity := BitVec.mul_two
  rw [double, toInt_add (by omega) (by omega)]
  omega

/-- The capacity that the builder asks for when it is full. -/
theorem toInt_grownCapacity {capacity : Value word .int} (known : toInt word .int capacity = room)
    (bounded : 2 * room ≤
      TwosComplement.maximum IntegerType.int.isSigned (IntegerType.int.bitWidth word)) :
    toInt word .int (maximum (growArrayCapacity capacity) 1) = (max (2 * room) 1 : ℕ) := by
  have one : toInt word .int (1 : Value word .int) = 1 := by cases word <;> decide
  rw [toInt_maximum, toInt_growArrayCapacity (by omega) (by omega), known, one]
  push_cast
  rfl

theorem moves_elements {result newResult : ContiguousArrayBuffer} {room' : ℕ}
    (differ : result.storage ≠ newResult.storage)
    (count : toInt word .int (memory.count result) = written.length)
    (capacity : toInt word .int (memory.capacity result) = written.length)
    (full : memory.cells result.storage = written.map some)
    (vacant : memory.cells newResult.storage = List.replicate room' none)
    (fits : written.length ≤ room') :
    ∃ memory', moveElements memory result newResult = .ok memory' ∧
      memory'.fresh = memory.fresh ∧ memory'.count result = 0 ∧
      (∀ object, (memory'.objects object).header = (memory.objects object).header) ∧
      (memory'.objects newResult.storage).countAndCapacity =
        (memory.objects newResult.storage).countAndCapacity ∧
      memory'.cells newResult.storage =
        written.map some ++ List.replicate (room' - written.length) none := by
  by_cases empty : memory.count result = 0
  · rw [empty, toInt_zero] at count
    have none : written = [] := List.length_eq_zero_iff.mp (by omega)
    refine ⟨memory, ?_, rfl, empty, fun _ => rfl, rfl, ?_⟩
    · rw [moveElements, empty]
      rfl
    · rw [vacant, none]
      rfl
  · have counted : BitVec.toNat (memory.capacity result) = written.length := by
      rw [toInt_eq_toNat (by omega)] at capacity
      exact_mod_cast capacity
    have moves : memory.moveInitialize newResult.firstElementAddress result.firstElementAddress
        (memory.capacity result) = .ok _ :=
      Memory.moveInitialize_all differ full vacant fits counted
    have notEmpty : (!(0 == memory.count result)) = true := by
      simpa using Ne.symm empty
    refine ⟨(memory.moving newResult.storage result.storage written [] room').setMutableCount
      result 0, ?_, rfl, Memory.count_setMutableCount, ?_, ?_, ?_⟩
    · rw [moveElements, if_pos notEmpty, moves]
      rfl
    · intro object
      rw [Memory.header_setMutableCount, Memory.moving, Memory.header_setCells,
        Memory.header_setCells]
    · rw [Memory.objects_setMutableCount_of_ne differ.symm, Memory.moving,
        Memory.countAndCapacity_setCells, Memory.countAndCapacity_setCells]
    · rw [Memory.cells_setMutableCount, Memory.moving, Memory.cells_setCells_self]

theorem Building.remaining_eq_zero_iff (building : Building memory builder room written) :
    builder.remainingCapacity = 0 ↔ written.length = room := by
  have remaining := building.remaining
  constructor
  · intro full
    rw [full, toInt_zero] at remaining
    omega
  · intro whole
    apply toInt_injective
    rw [remaining, toInt_zero, whole]
    omega

/-- What `add(_:)` does when it is full, before the buffer that it replaces is released. -/
theorem Building.moves (building : Building memory builder room written)
    (full : builder.remainingCapacity = 0) (bounded : 2 * room ≤
      TwosComplement.maximum IntegerType.int.isSigned (IntegerType.int.bitWidth word)) :
    ∃ memory' builder', builder.reallocate memory = (do
          let memory'' ← memory'.release builder.result
          return (memory'', builder')) ∧
      Building memory' builder' (max (2 * room) 1) written ∧
      builder'.result.storage = memory.fresh ∧ memory'.count builder.result = 0 ∧
      ∀ object < memory.fresh,
        (memory'.objects object).header = (memory.objects object).header := by
  have whole := building.remaining_eq_zero_iff.mp full
  have requested := toInt_grownCapacity building.capacity bounded
  generalize newCapacity_eq :
    maximum (growArrayCapacity (memory.capacity builder.result)) 1 = newCapacity at requested
  have positive : 0 < toInt word .int newCapacity := by omega
  have allocates := memory.uninitializedBuffer_of_pos positive
  rcases allocation : memory.uninitializedBuffer newCapacity 0 with ⟨memory₁, newResult⟩
  rw [allocation] at allocates
  dsimp only at allocates
  have allocated := building.allocated
  have differ : builder.result.storage ≠ newResult.storage := by
    rw [allocates.storage]
    omega
  have building₁ := building.of_objects (allocates.others builder.result.storage differ)
    (by rw [allocates.fresh]; omega)
  have capacity₁ := building₁.capacity
  have cells₁ := building₁.cells
  rw [whole, Nat.sub_self, List.replicate_zero, List.append_nil] at cells₁
  have vacant : memory₁.cells newResult.storage = List.replicate (max (2 * room) 1) none := by
    rw [allocates.cells]
    rw [toInt_eq_toNat (by omega)] at requested
    exact congrArg (List.replicate · none) (by exact_mod_cast requested)
  rcases moves_elements differ (by rw [building₁.count, whole]) (by rw [capacity₁, whole]) cells₁
    vacant (by omega) with ⟨memory₂, moves, fresh₂, count₂, headers₂, body₂, cells₂⟩
  have remaining : toInt word .int (memory₁.capacity newResult - memory₁.capacity builder.result) =
      (max (2 * room) 1 : ℕ) - written.length := by
    rw [toInt_index_sub, allocates.capacity, requested, capacity₁, whole]
    · rw [allocates.capacity]
      omega
    · omega
  have capacity₂ : toInt word .int (memory₂.capacity newResult) = (max (2 * room) 1 : ℕ) := by
    rw [Memory.capacity, body₂]
    exact (congrArg (toInt word .int) allocates.capacity).trans requested
  have fits : written.length ≤ max (2 * room) 1 := by omega
  refine ⟨memory₂, ⟨newResult, newResult.firstElementAddress.advanced
    (memory₁.capacity builder.result), memory₁.capacity newResult -
      memory₁.capacity builder.result⟩, ?_,
    ⟨?_, fun _ => ?_, fun empty => ?_, ?_, capacity₂, fits, cells₂, remaining, ?_⟩,
    allocates.storage, count₂, fun object earlier => ?_⟩
  · rw [PartiallyInitializedBuffer.reallocate]
    simp only [newCapacity_eq, allocation]
    simp only [moves, bind, Except.bind]
  · rw [fresh₂, allocates.storage, allocates.fresh]
    exact Nat.lt_succ_self _
  · rw [headers₂]
    exact allocates.header
  · exact absurd (allocates.storage.symm.trans empty) (Nat.ne_of_gt (Nat.zero_lt_of_lt allocated))
  · rw [Memory.count, body₂]
    exact (congrArg (toInt word .int) allocates.count).trans requested
  · refine Eq.trans ?_ (advanced_written capacity₂ remaining fits).symm
    rw [ElementPointer.advanced, capacity₁, whole]
    simp [ContiguousArrayBuffer.firstElementAddress]
  · rw [headers₂, allocates.others object (by rw [allocates.storage]; omega)]

theorem Building.reallocate (building : Building memory builder room written)
    (shares : memory.Shares builder.result shared) (full : builder.remainingCapacity = 0)
    (allowed : builder.result.storage = Memory.emptyArrayStorage → shared.Outlives)
    (bounded : 2 * room ≤
      TwosComplement.maximum IntegerType.int.isSigned (IntegerType.int.bitWidth word)) :
    ∃ memory' builder', builder.reallocate memory = .ok (memory', builder') ∧
      Building memory' builder' (max (2 * room) 1) written ∧
      memory'.Shares builder'.result shared := by
  rcases building.moves full bounded with
    ⟨memory₁, builder', reallocates, building₁, new, uncounted, headers⟩
  have allocated := building.allocated
  have owned : builder.result.storage ≠ Memory.emptyArrayStorage →
      (memory₁.objects builder.result.storage).header = ⟨1⟩ := fun other =>
    (headers _ allocated).trans (building.owned other)
  have shares₁ := shares.of_header (headers Memory.emptyArrayStorage (Nat.zero_lt_of_lt allocated))
  rcases shares₁.release owned uncounted allowed with
    ⟨memory', released, fresh, outlives, others⟩
  have own : builder'.result.storage ≠ Memory.emptyArrayStorage := by
    rw [new]
    exact Nat.ne_of_gt (Nat.zero_lt_of_lt allocated)
  refine ⟨memory', builder', ?_, building₁.of_objects (others _ (by omega)) fresh.ge,
    ⟨fun empty => absurd empty own, fun _ => outlives⟩⟩
  rw [reallocates, released]
  rfl

/-- The shared storage is given up for the first storage, unless the other references end it. -/
theorem Building.reallocate_undefined (building : Building memory builder room written)
    (shares : memory.Shares builder.result shared)
    (empty : builder.result.storage = Memory.emptyArrayStorage) (ended : ¬ shared.Outlives) :
    builder.reallocate memory = .error .undefined := by
  have allocated := building.allocated
  have nowhere := building.shared empty
  subst nowhere
  have fits := building.fits
  have one : (1 : ℤ) ≤
      TwosComplement.maximum IntegerType.int.isSigned (IntegerType.int.bitWidth word) := by
    cases word <;> decide
  rcases building.moves (building.remaining_eq_zero_iff.mpr (by omega)) (by omega) with
    ⟨memory₁, builder', reallocates, -, -, -, headers⟩
  have shares₁ := shares.of_header (headers Memory.emptyArrayStorage (Nat.zero_lt_of_lt allocated))
  have buffer_eq : builder.result = ⟨Memory.emptyArrayStorage⟩ := by
    rw [← empty]
  have released : memory₁.release builder.result = .error .undefined := by
    rw [buffer_eq]
    exact Memory.release_shared_undefined (shares₁.held empty) ended
  rw [reallocates, released]
  rfl

theorem Building.add (building : Building memory builder room written)
    (shares : memory.Shares builder.result shared)
    (allowed : builder.result.storage = Memory.emptyArrayStorage → shared.Outlives)
    (bounded : 2 * written.length ≤
      TwosComplement.maximum IntegerType.int.isSigned (IntegerType.int.bitWidth word))
    (element : Element) :
    ∃ memory' builder' room', builder.add memory element = .ok (memory', builder') ∧
      Building memory' builder' room' (written ++ [element]) ∧
      memory'.Shares builder'.result shared := by
  by_cases full : builder.remainingCapacity = 0
  · have whole := building.remaining_eq_zero_iff.mp full
    rcases building.reallocate shares full allowed (by rwa [whole] at bounded) with
      ⟨memory₁, builder₁, reallocated, building₁, shares₁⟩
    rcases building₁.add_existing shares₁ (by omega) element with
      ⟨memory', builder', added, building'⟩
    refine ⟨memory', builder', _, ?_, building'⟩
    rw [PartiallyInitializedBuffer.add, full, reallocated]
    exact added
  · have fits := building.fits
    have more : written.length ≠ room := building.remaining_eq_zero_iff.not.mp full
    rcases building.add_existing shares (by omega) element with
      ⟨memory', builder', added, building'⟩
    refine ⟨memory', builder', room, ?_, building'⟩
    rw [PartiallyInitializedBuffer.add, if_neg (by simpa using full)]
    exact added

theorem Building.add_undefined (building : Building memory builder room written)
    (shares : memory.Shares builder.result shared)
    (empty : builder.result.storage = Memory.emptyArrayStorage) (ended : ¬ shared.Outlives)
    (element : Element) : builder.add memory element = .error .undefined := by
  have nowhere := building.shared empty
  have fits := building.fits
  have full := building.remaining_eq_zero_iff.mpr (by omega)
  rw [PartiallyInitializedBuffer.add, full, building.reallocate_undefined shares empty ended]
  rfl

theorem building_init (wellFormed : memory.WellFormed) {initialCapacity : Value word .int}
    (nonnegative : 0 ≤ toInt word .int initialCapacity) :
    Building (init memory initialCapacity).1 (init memory initialCapacity).2
        (toInt word .int initialCapacity).toNat ([] : List Element) ∧
      (init memory initialCapacity).1.Shares (init memory initialCapacity).2.result
        memory.emptyHeader := by
  have zero := toInt_zero word .int
  by_cases none : initialCapacity = 0
  · rw [none, zero, init, if_pos (by rw [beq_self_eq_true])]
    rcases @Memory.objects_emptyBuffer _ _ memory Memory.emptyArrayStorage with ⟨body, cells, -⟩
    have count : toInt word .int
        (memory.emptyBuffer.1.count ⟨Memory.emptyArrayStorage⟩) = 0 := by
      rw [Memory.count, body, ← zero, ← wellFormed.count]
      rfl
    have capacity : toInt word .int
        (memory.emptyBuffer.1.capacity ⟨Memory.emptyArrayStorage⟩) = 0 := by
      rw [Memory.capacity, body, ← zero, ← wellFormed.capacity]
      rfl
    refine ⟨⟨wellFormed.allocated, fun other => absurd rfl other, fun _ => rfl, count, capacity,
      le_rfl, cells.trans wellFormed.cells, capacity, ?_⟩,
      ⟨fun _ => Memory.emptyHeader_emptyBuffer, fun other => absurd rfl other⟩⟩
    exact (@advanced_written word 0 _ _ _ 0 capacity capacity le_rfl).symm
  · have positive : 0 < toInt word .int initialCapacity := by
      have nonzero : toInt word .int initialCapacity ≠ 0 := by
        rw [← zero]
        exact none ∘ toInt_injective
      omega
    have allocates := memory.uninitializedBuffer_of_pos positive
    have value := (Int.toNat_of_nonneg nonnegative).symm
    rw [init, if_neg (by simpa using none)]
    have count := congrArg (toInt word .int) allocates.count
    have capacity := (congrArg (toInt word .int) allocates.capacity).trans value
    have own : (memory.uninitializedBuffer initialCapacity 0).2.storage ≠
        Memory.emptyArrayStorage := by
      have allocated := wellFormed.allocated
      rw [allocates.storage]
      exact Nat.ne_of_gt allocated
    refine ⟨⟨?_, fun _ => allocates.header, fun empty => absurd empty own, count.trans value,
      capacity, Nat.zero_le _, ?_, ?_, ?_⟩, ⟨fun empty => absurd empty own, fun _ => ?_⟩⟩
    · rw [allocates.fresh, allocates.storage]
      exact Nat.lt_succ_self _
    · rw [allocates.cells, toInt_eq_toNat nonnegative]
      rfl
    · rw [capacity, List.length_nil]
      omega
    · exact (@advanced_written word _ _ _ _ 0 capacity (by rw [capacity]; omega)
        (Nat.zero_le _)).symm
    · rw [Memory.emptyHeader, allocates.others _ own.symm, Memory.emptyHeader]

/-- What the end of a copy does with the memory before the builder is reset. -/
theorem Building.counted (building : Building memory builder room written)
    {memory' : Memory word Element} (adjusted : (if memory.capacity builder.result != 0 then
      memory.setMutableCount builder.result
        (memory.capacity builder.result - builder.remainingCapacity) else memory) = memory') :
    (memory'.objects builder.result.storage).contents.Holds written ∧
      memory'.emptyHeader = memory.emptyHeader := by
  have length := building.length_cells
  by_cases empty : memory.capacity builder.result = 0
  · have capacity := building.capacity
    have fits := building.fits
    rw [empty, toInt_zero] at capacity
    have none : written = [] := List.length_eq_zero_iff.mp (by omega)
    rw [if_neg (by simpa using empty)] at adjusted
    subst adjusted
    have count := building.count
    rw [← capacity] at count
    rw [none]
    exact ⟨⟨count, rfl⟩, rfl⟩
  · rw [if_pos (by simpa using empty)] at adjusted
    subst adjusted
    refine ⟨⟨?_, ?_⟩, Memory.emptyHeader_setMutableCount⟩
    · exact (congrArg (toInt word .int) Memory.count_setMutableCount).trans
        (toInt_written building.capacity building.remaining building.fits)
    · have cells : (memory.setMutableCount builder.result
          (memory.capacity builder.result - builder.remainingCapacity)).cells
            builder.result.storage = _ := Memory.cells_setMutableCount.trans building.cells
      exact (congrArg (List.take written.length) cells).trans (take_written _ _)

/-- The end of a builder, when the reference to what it is reset to is left out or may be ended. -/
theorem Building.finishes (building : Building memory builder room written) {keepsReset : Bool}
    (outlives : keepsReset = true → memory.emptyHeader.Outlives) :
    ∃ memory', (builder.finish memory keepsReset).2.1.endReset
        (builder.finish memory keepsReset).1 keepsReset = .ok memory' ∧
      (memory'.objects (builder.finish memory keepsReset).2.2.storage).contents.Holds written := by
  rcases building.counted rfl with ⟨holds, header⟩
  cases keepsReset with
  | false => exact ⟨_, rfl, holds⟩
  | true =>
      have kept := outlives rfl
      rw [← header] at kept
      rcases Memory.release_shared Memory.emptyHeader_emptyBuffer kept with
        ⟨memory', released, -, -, contents, -⟩
      rcases @Memory.objects_emptyBuffer _ _ (if memory.capacity builder.result != 0 then
          memory.setMutableCount builder.result
            (memory.capacity builder.result - builder.remainingCapacity) else memory)
        builder.result.storage with ⟨body, cells, -⟩
      refine ⟨memory', released, ?_⟩
      rw [contents]
      exact ⟨(congrArg (fun body => toInt word .int body.count) body).trans holds.count,
        (congrArg (List.take written.length) cells).trans holds.elements⟩

theorem Building.finish_undefined (building : Building memory builder room written)
    (ended : ¬ memory.emptyHeader.Outlives) :
    (builder.finish memory true).2.1.endReset (builder.finish memory true).1 true =
      .error .undefined := by
  rcases building.counted rfl with ⟨-, header⟩
  rw [← header] at ended
  exact Memory.release_shared_undefined Memory.emptyHeader_emptyBuffer ended

end Invariant

section Loops

variable {memory : Memory word Element} {source : Sequence word Element} {room : ℕ}
  {written : List Element} {shared : HeapObject word} {keepsReset : Bool}

theorem existing_loop {builder : PartiallyInitializedBuffer word}
    (start : Building memory builder room ([] : List Element))
    (shares : memory.Shares builder.result shared)
    (indices : List (Value word .int)) (elements : List Element)
    (enough : indices.length ≤ elements.length) (fits : indices.length ≤ room) :
    ∃ state, indices.foldlM existingStep ((memory, builder), elements) = .ok state ∧
      Building state.1.1 state.1.2 room (elements.take indices.length) ∧
      state.1.1.Shares state.1.2.result shared ∧ state.2 = elements.drop indices.length := by
  have steps : ∀ (visited : List (Value word .int)) index
      (state : (Memory word Element × PartiallyInitializedBuffer word) × List Element),
      (Building state.1.1 state.1.2 room (elements.take visited.length) ∧
        state.1.1.Shares state.1.2.result shared ∧ state.2 = elements.drop visited.length) →
      visited ++ [index] <+: indices →
      ∃ state', existingStep state index = .ok state' ∧
        Building state'.1.1 state'.1.2 room (elements.take (visited ++ [index]).length) ∧
        state'.1.1.Shares state'.1.2.result shared ∧
        state'.2 = elements.drop (visited ++ [index]).length := by
    rintro visited index ⟨⟨memory, builder⟩, iterator⟩ ⟨building, shares, rest⟩ visits
    have length := visits.length_le
    rw [List.length_append, List.length_singleton] at length ⊢
    have more : visited.length < elements.length := by omega
    rcases building.add_existing shares (by rw [List.length_take]; omega)
      elements[visited.length] with ⟨memory', builder', added, building', shares'⟩
    refine ⟨((memory', builder'), elements.drop (visited.length + 1)), ?_, ?_, shares', rfl⟩
    · dsimp only at rest
      rw [rest, List.drop_eq_getElem_cons more, existingStep, added]
      rfl
    · rwa [List.take_succ_eq_append_getElem more]
  exact foldlM_of_invariant steps ⟨start, shares, rfl⟩

/-- If an element follows, the shared storage must be one that the builder can give up. -/
theorem adding_loop {builder : PartiallyInitializedBuffer word}
    (building : Building memory builder room written)
    (shares : memory.Shares builder.result shared) (elements : List Element)
    (allowed : elements ≠ [] → builder.result.storage = Memory.emptyArrayStorage →
      shared.Outlives)
    (bounded : 2 * ((written ++ elements).length - 1) ≤
      TwosComplement.maximum IntegerType.int.isSigned (IntegerType.int.bitWidth word)) :
    ∃ state room', elements.foldlM addStep (memory, builder) = .ok state ∧
      Building state.1 state.2 room' (written ++ elements) ∧
      state.1.Shares state.2.result shared := by
  have steps : ∀ (visited : List Element) element
      (state : Memory word Element × PartiallyInitializedBuffer word),
      (∃ room', Building state.1 state.2 room' (written ++ visited) ∧
        state.1.Shares state.2.result shared ∧
        (elements ≠ [] → state.2.result.storage = Memory.emptyArrayStorage → shared.Outlives)) →
      visited ++ [element] <+: elements →
      ∃ state', addStep state element = .ok state' ∧
        ∃ room', Building state'.1 state'.2 room' (written ++ (visited ++ [element])) ∧
          state'.1.Shares state'.2.result shared ∧
          (elements ≠ [] → state'.2.result.storage = Memory.emptyArrayStorage →
            shared.Outlives) := by
    rintro visited element ⟨memory, builder⟩ ⟨room', building, shares, allowed⟩ visits
    have length := visits.length_le
    rw [List.length_append, List.length_singleton] at length
    rw [List.length_append] at bounded
    have some_ : elements ≠ [] := by
      rintro rfl
      exact absurd length (by simp)
    rcases building.add shares (allowed some_)
      (by rw [List.length_append]; push_cast at bounded ⊢; omega) element with
      ⟨memory', builder', room'', added, building', shares'⟩
    have away : builder'.result.storage ≠ Memory.emptyArrayStorage := by
      intro empty
      have fits := building'.fits
      rw [building'.shared empty, List.length_append, List.length_singleton] at fits
      omega
    rw [List.append_assoc] at building'
    exact ⟨(memory', builder'), added, room'', building', shares',
      fun _ empty => absurd empty away⟩
  have start : ∃ room', Building (memory, builder).1 (memory, builder).2 room' (written ++ []) ∧
      (memory, builder).1.Shares (memory, builder).2.result shared ∧
      (elements ≠ [] → (memory, builder).2.result.storage = Memory.emptyArrayStorage →
        shared.Outlives) := by
    rw [List.append_nil]
    exact ⟨room, building, shares, allowed⟩
  rcases foldlM_of_invariant steps start with ⟨state, runs, room', building', shares', -⟩
  exact ⟨state, room', runs, building', shares'⟩

theorem length_existing (nonnegative : 0 ≤ toInt word .int source.underestimatedCount) :
    ((Range.mk (0 : Value word .int) source.underestimatedCount).elements.length : ℤ) =
      toInt word .int source.underestimatedCount := by
  have zero := toInt_zero word .int
  have indices : (Range.mk (0 : Value word .int) source.underestimatedCount).elements =
      successors 0 (toInt word .int source.underestimatedCount -
        toInt word .int (0 : Value word .int)).toNat := Range.elements_of_le (by rwa [zero])
  rw [indices, successors, List.length_map, List.length_range, zero]
  omega

theorem first_loop (wellFormed : memory.WellFormed)
    (nonnegative : 0 ≤ toInt word .int source.underestimatedCount)
    (legal : toInt word .int source.underestimatedCount ≤ source.elements.length)
    {existing : List (Value word .int)}
    (existing_eq : (Range.mk 0 source.underestimatedCount).elements = existing) (rounds : ℕ) :
    ∃ state, (existing.take rounds).foldlM existingStep
        (init memory source.underestimatedCount, source.elements) = .ok state ∧
      Building state.1.1 state.1.2 (toInt word .int source.underestimatedCount).toNat
        (source.elements.take (min rounds existing.length)) ∧
      state.1.1.Shares state.1.2.result memory.emptyHeader ∧
      state.2 = source.elements.drop (min rounds existing.length) := by
  have length := length_existing nonnegative
  rw [existing_eq] at length
  rcases building_init wellFormed nonnegative with ⟨start, shares⟩
  have taken : (existing.take rounds).length = min rounds existing.length := List.length_take
  have runs := existing_loop start shares (existing.take rounds) source.elements (by omega)
    (by omega)
  rwa [taken] at runs

theorem copiedAfter_builds (wellFormed : memory.WellFormed)
    (nonnegative : 0 ≤ toInt word .int source.underestimatedCount)
    (legal : toInt word .int source.underestimatedCount ≤ source.elements.length)
    (bounded : 2 * (source.elements.length - 1) ≤
      TwosComplement.maximum IntegerType.int.isSigned (IntegerType.int.bitWidth word))
    {rounds : ℕ} (within : rounds ≤ source.elements.length)
    (allowed : 0 < rounds → source.underestimatedCount = 0 → memory.emptyHeader.Outlives) :
    ∃ memory' builder room, copiedAfter memory source rounds = .ok (memory', builder) ∧
      Building memory' builder room (source.elements.take rounds) ∧
      memory'.Shares builder.result memory.emptyHeader := by
  rw [copiedAfter]
  dsimp only
  generalize existing_eq : (Range.mk 0 source.underestimatedCount).elements = existing
  rcases first_loop wellFormed nonnegative legal existing_eq rounds with
    ⟨⟨⟨memory₁, builder₁⟩, iterator⟩, runs, building, shares, rest⟩
  dsimp only at building shares rest
  have all : source.elements.take (min rounds existing.length) ++
      iterator.take (rounds - existing.length) = source.elements.take rounds := by
    rw [rest, ← List.take_add]
    congr 1
    omega
  have given : iterator.take (rounds - existing.length) ≠ [] →
      builder₁.result.storage = Memory.emptyArrayStorage → memory.emptyHeader.Outlives := by
    intro some_ empty
    have none := building.shared empty
    have positive : 0 < rounds - existing.length := by
      rw [Nat.pos_iff_ne_zero]
      intro ended
      rw [ended, List.take_zero] at some_
      exact some_ rfl
    apply allowed (by omega)
    apply toInt_injective
    rw [toInt_zero]
    omega
  rcases adding_loop building shares (iterator.take (rounds - existing.length)) given
    (by rw [all, List.length_take]; omega) with
    ⟨⟨memory', builder'⟩, room', adds, building', shares'⟩
  rw [all] at building'
  refine ⟨memory', builder', room', ?_, building', shares'⟩
  rw [runs]
  exact adds

theorem copySequence_eq (wellFormed : memory.WellFormed)
    (nonnegative : 0 ≤ toInt word .int source.underestimatedCount)
    (legal : toInt word .int source.underestimatedCount ≤ source.elements.length) :
    copySequenceToContiguousArray keepsReset memory source = do
      let (memory, builder) ← copiedAfter memory source source.elements.length
      let memory' ← (builder.finish memory keepsReset).2.1.endReset
        (builder.finish memory keepsReset).1 keepsReset
      return (memory', (builder.finish memory keepsReset).2.2) := by
  have length := length_existing nonnegative
  rw [copySequenceToContiguousArray, copiedAfter]
  dsimp only
  generalize existing_eq : (Range.mk 0 source.underestimatedCount).elements = existing
  rw [existing_eq] at length
  have whole : existing.take source.elements.length = existing :=
    List.take_of_length_le (by omega)
  rcases first_loop wellFormed nonnegative legal existing_eq source.elements.length with
    ⟨⟨state, iterator⟩, runs, -, -, rest⟩
  rw [whole] at runs ⊢
  rw [runs]
  have further : iterator.take (source.elements.length - existing.length) = iterator := by
    dsimp only at rest
    rw [rest]
    exact List.take_of_length_le (by rw [List.length_drop]; omega)
  simp only [bind, Except.bind, further]

/-- With a negative count nothing is allocated, and the first loop runs all the same. -/
theorem copySequence_of_neg (wellFormed : memory.WellFormed)
    (negative : toInt word .int source.underestimatedCount < 0) :
    copySequenceToContiguousArray keepsReset memory source = .error .undefined := by
  have zero := toInt_zero word .int
  have nonzero : source.underestimatedCount ≠ 0 := by
    intro none
    rw [none, zero] at negative
    exact negative.false
  have started : init memory source.underestimatedCount =
      (memory.emptyBuffer.1, ⟨⟨Memory.emptyArrayStorage⟩, ⟨Memory.emptyArrayStorage, 0⟩,
        memory.emptyBuffer.1.capacity ⟨Memory.emptyArrayStorage⟩⟩) := by
    rw [init, if_neg (by simpa using nonzero),
      Memory.uninitializedBuffer_of_nonpos memory negative.le]
    rfl
  have outside (element : Element) :
      memory.emptyBuffer.1.initializeTo ⟨Memory.emptyArrayStorage, 0⟩ element =
        .error .undefined := by
    rcases @Memory.objects_emptyBuffer _ _ memory Memory.emptyArrayStorage with ⟨-, cells, -⟩
    rw [Memory.initializeTo, Memory.cells, cells.trans wellFormed.cells]
    rfl
  have indices : ∃ index more,
      (Range.mk 0 source.underestimatedCount).elements = index :: more := by
    have rounds : BitVec.toNat (source.underestimatedCount - 0) ≠ 0 := by
      have unchanged : source.underestimatedCount - 0 = source.underestimatedCount :=
        BitVec.sub_zero _
      intro none
      rw [unchanged] at none
      exact nonzero (BitVec.eq_of_toNat_eq (none.trans BitVec.toNat_zero.symm))
    rcases Nat.exists_eq_succ_of_ne_zero rounds with ⟨count, count_eq⟩
    rw [Range.elements, count_eq, successors_succ]
    exact ⟨_, _, rfl⟩
  rcases indices with ⟨index, more, indices⟩
  rw [copySequenceToContiguousArray]
  dsimp only
  rw [indices, List.foldlM_cons, started]
  cases source.elements with
  | nil => rfl
  | cons element iterator =>
      rw [existingStep, addWithExistingCapacity, outside]
      rfl

end Loops

/--
The header of the storage of the empty arrays by the references that remain after a copy, which
are those before it, and the result if that has no elements.
-/
def Memory.remainingHeader (memory : Memory word Element) (source : Sequence word Element) :
    HeapObject word :=
  if source.elements.isEmpty then memory.emptyBuffer.1.emptyHeader else memory.emptyHeader

/--
The builder gives up a reference to the storage of the empty arrays, at its end or for the first
storage of its own.
-/
def GivesUp (keepsReset : Bool) (source : Sequence word Element) : Prop :=
  keepsReset = true ∨ source.underestimatedCount = 0 ∧ source.elements ≠ []

section Endings

variable {memory : Memory word Element} {source : Sequence word Element} {keepsReset : Bool}

theorem Memory.remainingHeader_of_pos {rounds : ℕ} (positive : 0 < rounds)
    (within : rounds ≤ source.elements.length) :
    memory.remainingHeader source = memory.emptyHeader := by
  have some_ : source.elements.isEmpty = false := by
    rw [List.isEmpty_eq_false_iff_exists_mem]
    exact List.exists_mem_of_length_pos (by omega)
  rw [Memory.remainingHeader, some_, if_neg Bool.false_ne_true]

/-- The references that remain decide whether the builder can end. -/
theorem Building.remains {builder : PartiallyInitializedBuffer word}
    {memory' : Memory word Element} {room : ℕ}
    (building : Building memory' builder room source.elements)
    (shares : memory'.Shares builder.result memory.emptyHeader)
    (started : source.elements = [] → builder.result.storage = Memory.emptyArrayStorage) :
    memory'.emptyHeader.Outlives ↔ (memory.remainingHeader source).Outlives := by
  rw [Memory.remainingHeader]
  cases elements_eq : source.elements with
  | nil =>
      rw [shares.held (started elements_eq), List.isEmpty_nil, if_pos rfl,
        Memory.emptyHeader_emptyBuffer]
  | cons element rest =>
      have away : builder.result.storage ≠ Memory.emptyArrayStorage := by
        intro empty
        have fits := building.fits
        rw [building.shared empty, elements_eq, List.length_cons] at fits
        omega
      rw [List.isEmpty_cons, if_neg Bool.false_ne_true]
      exact shares.free away

theorem copiedAfter_zero (memory : Memory word Element) (source : Sequence word Element) :
    copiedAfter memory source 0 = .ok (init memory source.underestimatedCount) := by
  rw [copiedAfter, Nat.zero_sub]
  rfl

/-- For no elements the builder refers to the shared storage until it is reset. -/
theorem started_of_nil {builder : PartiallyInitializedBuffer word} {memory' : Memory word Element}
    (nonnegative : 0 ≤ toInt word .int source.underestimatedCount)
    (legal : toInt word .int source.underestimatedCount ≤ source.elements.length)
    (copied : copiedAfter memory source source.elements.length = .ok (memory', builder))
    (none : source.elements = []) : builder.result.storage = Memory.emptyArrayStorage := by
  rw [none, List.length_nil] at legal
  have unestimated : source.underestimatedCount = 0 := by
    apply toInt_injective
    rw [toInt_zero]
    omega
  rw [none, List.length_nil, copiedAfter_zero, unestimated] at copied
  cases copied
  rfl

theorem copySequence_undefined (wellFormed : memory.WellFormed)
    (nonnegative : 0 ≤ toInt word .int source.underestimatedCount)
    (legal : toInt word .int source.underestimatedCount ≤ source.elements.length)
    (bounded : 2 * (source.elements.length - 1) ≤
      TwosComplement.maximum IntegerType.int.isSigned (IntegerType.int.bitWidth word))
    (given : GivesUp keepsReset source) (ended : ¬ (memory.remainingHeader source).Outlives) :
    copySequenceToContiguousArray keepsReset memory source = .error .undefined := by
  by_cases early : 0 < source.elements.length ∧ source.underestimatedCount = 0
  · -- The first element takes the builder away from the shared storage.
    rw [Memory.remainingHeader_of_pos early.1 le_rfl] at ended
    rcases List.exists_cons_of_length_pos early.1 with ⟨element, rest, elements_eq⟩
    rcases building_init wellFormed nonnegative with ⟨building, shares⟩
    have empty : (init memory source.underestimatedCount).2.result.storage =
        Memory.emptyArrayStorage := by
      rw [early.2]
      rfl
    have undefined := building.add_undefined shares empty ended element
    have none : (Range.mk (0 : Value word .int) source.underestimatedCount).elements = [] := by
      have length := length_existing nonnegative
      rw [early.2, toInt_zero] at length
      rw [early.2]
      exact List.length_eq_zero_iff.mp (by omega)
    rw [copySequenceToContiguousArray]
    dsimp only
    rw [none, elements_eq]
    simp only [List.foldlM_nil, pure_bind, List.foldlM_cons, addStep, undefined]
    rfl
  · rcases copiedAfter_builds wellFormed nonnegative legal bounded le_rfl
      (fun positive unestimated => absurd ⟨positive, unestimated⟩ early) with
      ⟨memory', builder, room, copied, building, shares⟩
    have kept : keepsReset = true := by
      rcases given with kept | ⟨unestimated, some_⟩
      · exact kept
      · exact absurd ⟨List.length_pos_of_ne_nil some_, unestimated⟩ early
    subst kept
    rw [List.take_length] at building
    have remains := building.remains shares (started_of_nil nonnegative legal copied)
    have undefined := building.finish_undefined (remains.not.mpr ended)
    rw [copySequence_eq wellFormed nonnegative legal, copied]
    simp only [bind, Except.bind, undefined]

end Endings

/--
The array is built as it should be: after every round the builder points behind the elements
that have been written and the storage holds no others, a full buffer is replaced by one with
the same elements, and the array that is returned has all of them.
-/
structure CopiesInOrder (keepsReset : Bool) (memory : Memory word Element)
    (source : Sequence word Element) : Prop where
  rounds : ∀ rounds ≤ source.elements.length, ∃ memory' builder room,
    copiedAfter memory source rounds = .ok (memory', builder) ∧
      Building memory' builder room (source.elements.take rounds) ∧
      (rounds < source.elements.length → builder.remainingCapacity = 0 → room = rounds ∧
        ∃ memory'' builder', builder.reallocate memory' = .ok (memory'', builder') ∧
          Building memory'' builder' (max (2 * rounds) 1) (source.elements.take rounds))
  result : ∃ memory' buffer,
    copySequenceToContiguousArray keepsReset memory source = .ok (memory', buffer) ∧
      (memory'.objects buffer.storage).contents.Holds source.elements
  array : ∃ memory' array, Array.ofSequence keepsReset memory source = .ok (memory', array) ∧
    (memory'.objects array.buffer.storage).contents.Holds source.elements

/--
A sequence is copied as it should be exactly when it does not underestimate below zero and,
where the builder gives up a reference to the shared empty storage, those that remain do not look
like none to the runtime.
-/
theorem copiesInOrder_iff (word : WordSize) (Element : Type) (keepsReset : Bool)
    (memory : Memory word Element) (wellFormed : memory.WellFormed) (source : Sequence word Element)
    (legal : toInt word .int source.underestimatedCount ≤ source.elements.length)
    (bounded : 2 * (source.elements.length - 1) ≤
      TwosComplement.maximum IntegerType.int.isSigned (IntegerType.int.bitWidth word)) :
    CopiesInOrder keepsReset memory source ↔ 0 ≤ toInt word .int source.underestimatedCount ∧
      (GivesUp keepsReset source → (memory.remainingHeader source).Outlives) := by
  constructor
  · rintro ⟨-, ⟨memory', buffer, copied, -⟩, -⟩
    have nonnegative : 0 ≤ toInt word .int source.underestimatedCount := by
      by_contra negative
      rw [copySequence_of_neg wellFormed (by omega)] at copied
      cases copied
    refine ⟨nonnegative, fun given => ?_⟩
    by_contra ended
    rw [copySequence_undefined wellFormed nonnegative legal bounded given ended] at copied
    cases copied
  · rintro ⟨nonnegative, outlives⟩
    have allowed {rounds : ℕ} (within : rounds ≤ source.elements.length) (positive : 0 < rounds)
        (unestimated : source.underestimatedCount = 0) : memory.emptyHeader.Outlives := by
      have some_ : source.elements ≠ [] := List.ne_nil_of_length_pos (by omega)
      have lasting := outlives (Or.inr ⟨unestimated, some_⟩)
      rwa [Memory.remainingHeader_of_pos positive within] at lasting
    have builds {rounds : ℕ} (within : rounds ≤ source.elements.length) :=
      copiedAfter_builds wellFormed nonnegative legal bounded within (allowed within)
    have copies : ∃ memory' buffer,
        copySequenceToContiguousArray keepsReset memory source = .ok (memory', buffer) ∧
          (memory'.objects buffer.storage).contents.Holds source.elements := by
      rcases builds le_rfl with ⟨memory', builder, room, copied, building, shares⟩
      rw [List.take_length] at building
      have remains := building.remains shares (started_of_nil nonnegative legal copied)
      rcases building.finishes (fun kept => remains.mpr (outlives (Or.inl kept))) with
        ⟨memory'', released, holds⟩
      refine ⟨memory'', (builder.finish memory' keepsReset).2.2, ?_, holds⟩
      rw [copySequence_eq wellFormed nonnegative legal, copied]
      simp only [bind, Except.bind, released]
      rfl
    rcases copies with ⟨memory', buffer, copied, holds⟩
    refine ⟨?_, ⟨memory', buffer, copied, holds⟩, memory', ⟨buffer⟩, ?_, holds⟩
    · intro rounds within
      rcases builds within with ⟨memory', builder, room, copied, building, shares⟩
      refine ⟨memory', builder, room, copied, building, fun more full => ?_⟩
      have length : (source.elements.take rounds).length = rounds := List.length_take_of_le within
      have whole := building.remaining_eq_zero_iff.mp full
      rw [length] at whole
      subst whole
      have given : builder.result.storage = Memory.emptyArrayStorage →
          memory.emptyHeader.Outlives := by
        intro empty
        have start := building.shared empty
        subst start
        rw [copiedAfter_zero] at copied
        cases copied
        have none := (building_init wellFormed nonnegative).1.shared empty
        apply allowed more (Nat.succ_pos _)
        apply toInt_injective
        rw [toInt_zero]
        omega
      rcases building.reallocate shares full given (by omega) with
        ⟨memory'', builder', reallocated, building', -⟩
      exact ⟨rfl, memory'', builder', reallocated, building'⟩
    · rw [Array.ofSequence, copied]
      rfl

/-- Only the storage of the empty arrays is there, without references. -/
def Memory.initial : Memory .word16 ℕ :=
  ⟨fun _ => ⟨⟨-1⟩, ⟨0, 1⟩, []⟩, 1⟩

theorem Memory.wellFormed_initial : Memory.initial.WellFormed :=
  ⟨Nat.zero_lt_one, rfl, rfl, rfl⟩

theorem copies_three_elements : CopiesInOrder true Memory.initial (threeElements 1) :=
  (copiesInOrder_iff .word16 ℕ true Memory.initial Memory.wellFormed_initial (threeElements 1)
    (by decide) (by decide)).mpr ⟨by decide, fun _ => by decide⟩

/--
A count of minus one is not above the length, but the first element is written nowhere. With
another empty array beside it, the builder destroys the shared storage.
-/
theorem copies_below_zero :
    (Memory.initial.WellFormed ∧
      toInt .word16 .int (threeElements (-1)).underestimatedCount ≤
        (threeElements (-1)).elements.length ∧
      2 * ((threeElements (-1)).elements.length - 1 : ℤ) ≤
        TwosComplement.maximum IntegerType.int.isSigned (IntegerType.int.bitWidth .word16) ∧
      ¬ CopiesInOrder false Memory.initial (threeElements (-1))) ∧
    (Memory.initial.emptyBuffer.1.WellFormed ∧
      toInt .word16 .int (threeElements 0).underestimatedCount ≤
        (threeElements 0).elements.length ∧
      2 * ((threeElements 0).elements.length - 1 : ℤ) ≤
        TwosComplement.maximum IntegerType.int.isSigned (IntegerType.int.bitWidth .word16) ∧
      ¬ CopiesInOrder false Memory.initial.emptyBuffer.1 (threeElements 0)) := by
  have another : Memory.initial.emptyBuffer.1.WellFormed := ⟨Nat.zero_lt_one, rfl, rfl, rfl⟩
  refine ⟨⟨Memory.wellFormed_initial, by decide, by decide, ?_⟩, another, by decide, by decide, ?_⟩
  · rintro ⟨-, ⟨memory', buffer, copied, -⟩, -⟩
    rw [copySequence_of_neg Memory.wellFormed_initial (by decide)] at copied
    cases copied
  · rintro ⟨-, ⟨memory', buffer, copied, -⟩, -⟩
    have given : GivesUp false (threeElements 0) := Or.inr ⟨rfl, by decide⟩
    rw [copySequence_undefined another (by decide) (by decide) (by decide) given (by decide)]
      at copied
    cases copied

end USwift
