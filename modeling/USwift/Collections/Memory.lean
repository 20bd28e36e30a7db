import USwift.Collections.ArrayStorage
import USwift.Runtime.RefCount

/-!
# The memory behind array buffers

A storage object starts with the header that the runtime counts its references in, with its
count and with its capacity, which is packed above a flag, and ends with its cells. Allocations
succeed, and an access to a cell that is not there or not in the expected state has no defined
result. All empty arrays share one object, whose references are counted like all others.
-/

namespace USwift

/-- `_ArrayBody`. -/
structure ArrayBody (word : WordSize) where
  count : Value word .int
  _capacityAndFlags : Value word .uint

namespace ArrayBody

variable {word : WordSize}

/-- `init(count:capacity:elementTypeIsBridgedVerbatim:)`. -/
def init (count capacity : Value word .int) (elementTypeIsBridgedVerbatim : Bool) :
    ArrayBody word :=
  ⟨count, maskingShiftLeft word .uint (truncatingIfNeeded word .uint .int capacity) 1 |||
    (if elementTypeIsBridgedVerbatim then 1 else 0)⟩

def capacity (body : ArrayBody word) : Value word .int :=
  truncatingIfNeeded word .int .uint (maskingShiftRight word .uint body._capacityAndFlags 1)

/-- A capacity that is not negative is read as it was packed. -/
theorem capacity_init (count : Value word .int) {capacity : Value word .int}
    (nonnegative : 0 ≤ toInt word .int capacity) (flag : Bool) :
    (init count capacity flag).capacity = capacity := by
  have inside : 1 < IntegerType.uint.bitWidth word := SliceBuffer.one_lt_bitWidth_uint
  have left (x : Value word .uint) : maskingShiftLeft word .uint x 1 = x <<< 1 :=
    maskingShiftLeft_ofNat x inside
  have right (x : Value word .uint) : maskingShiftRight word .uint x 1 = x >>> 1 :=
    maskingShiftRight_ofNat rfl x inside
  have bit : BitVec.toNat (if flag = true then 1 else 0 : Value word .uint) ≤ 1 := by
    cases word <;> cases flag <;> decide
  have small : toInt word .int capacity ≤ 2 ^ (word.bits - 1) - 1 := toInt_le_maximum capacity
  rw [toInt_eq_toNat nonnegative] at small
  rw [ArrayBody.capacity, init, truncatingIfNeeded_int_uint, truncatingIfNeeded_uint_int, left,
    right]
  apply BitVec.eq_of_toNat_eq
  rw [BitVec.toNat_ushiftRight, BitVec.toNat_or, BitVec.toNat_shiftLeft]
  refine (packed_shiftRight _ word.bits_pos bit).trans (Nat.mod_eq_of_lt ?_)
  zify
  omega

end ArrayBody

/-- A storage object with its cells. -/
structure AllocatedStorage (word : WordSize) (Element : Type) where
  header : HeapObject word
  countAndCapacity : ArrayBody word
  elements : List (Option Element)

variable {word : WordSize} {Element : Type}

/-- What an array with this storage observes. -/
def AllocatedStorage.contents (storage : AllocatedStorage word Element) :
    ContiguousArrayStorage word Element :=
  ⟨storage.countAndCapacity.count, storage.elements⟩

/-- The storage objects by their identity, with the identity of the next one. -/
structure Memory (word : WordSize) (Element : Type) where
  objects : ℕ → AllocatedStorage word Element
  fresh : ℕ

namespace Memory

/-- `_emptyArrayStorage`. -/
def emptyArrayStorage : ℕ :=
  0

section Operations

variable (memory : Memory word Element)

/-- The count of a buffer. -/
def count (buffer : ContiguousArrayBuffer) : Value word .int :=
  (memory.objects buffer.storage).countAndCapacity.count

/-- The capacity of a buffer. -/
def capacity (buffer : ContiguousArrayBuffer) : Value word .int :=
  (memory.objects buffer.storage).countAndCapacity.capacity

def store (object : ℕ) (storage : AllocatedStorage word Element) : Memory word Element :=
  { memory with objects := Function.update memory.objects object storage }

/-- The cells of an object. -/
def cells (object : ℕ) : List (Option Element) :=
  (memory.objects object).elements

def setCells (object : ℕ) (cells : List (Option Element)) : Memory word Element :=
  memory.store object { memory.objects object with elements := cells }

/-- `mutableCount` of a buffer. -/
def setMutableCount (buffer : ContiguousArrayBuffer) (newValue : Value word .int) :
    Memory word Element :=
  let storage := memory.objects buffer.storage
  memory.store buffer.storage
    { storage with countAndCapacity := { storage.countAndCapacity with count := newValue } }

/-- The header of the storage of the empty arrays. -/
def emptyHeader : HeapObject word :=
  (memory.objects emptyArrayStorage).header

/-- `swift_retain` of the storage of a buffer. -/
def retain (buffer : ContiguousArrayBuffer) : Memory word Element :=
  let storage := memory.objects buffer.storage
  memory.store buffer.storage { storage with header := swiftRetainN_ storage.header 1 }

/-- `_ContiguousArrayBuffer.init()`, which refers to the storage of the empty arrays. -/
def emptyBuffer : Memory word Element × ContiguousArrayBuffer :=
  (memory.retain ⟨emptyArrayStorage⟩, ⟨emptyArrayStorage⟩)

/-- `_ContiguousArrayBuffer.init(_uninitializedCount:minimumCapacity:)`. -/
def uninitializedBuffer (uninitializedCount minimumCapacity : Value word .int) :
    Memory word Element × ContiguousArrayBuffer :=
  let realMinimumCapacity := maximum uninitializedCount minimumCapacity
  if realMinimumCapacity == 0 then memory.emptyBuffer
  else
    let storage : AllocatedStorage word Element :=
      ⟨⟨1⟩, .init uninitializedCount realMinimumCapacity false,
        List.replicate (BitVec.toNat realMinimumCapacity) none⟩
    ({ memory.store memory.fresh storage with fresh := memory.fresh + 1 }, ⟨memory.fresh⟩)

/-- `pointer.initialize(to:)`. -/
def initializeTo (pointer : ElementPointer) (element : Element) :
    Except Failure (Memory word Element) :=
  let cells := memory.cells pointer.object
  if 0 ≤ pointer.offset ∧ pointer.offset < cells.length then
    .ok (memory.setCells pointer.object (cells.set pointer.offset.toNat (some element)))
  else .error .undefined

/-- `pointer.move()`, with the memory that it leaves. -/
def move (pointer : ElementPointer) : Except Failure (Element × Memory word Element) :=
  let cells := memory.cells pointer.object
  if pointer.offset < 0 then .error .undefined
  else
    match cells[pointer.offset.toNat]? with
    | some (some element) =>
        .ok (element, memory.setCells pointer.object (cells.set pointer.offset.toNat none))
    | _ => .error .undefined

/-- A round of `Builtin.takeArrayFrontToBack`. -/
def moveStep (target source : ElementPointer) (memory : Memory word Element) (i : ℕ) :
    Except Failure (Memory word Element) := do
  let (element, memory) ← memory.move { source with offset := source.offset + i }
  memory.initializeTo { target with offset := target.offset + i } element

/-- `moveInitialize(from:count:)` between two storage objects. -/
def moveInitialize (target source : ElementPointer) (count : Value word .int) :
    Except Failure (Memory word Element) :=
  (List.range (BitVec.toNat count)).foldlM (moveStep target source) memory

/--
`swift_release` of the storage of a buffer. Storage that is destroyed deinitializes as many
elements as it counts and is freed. The storage of the empty arrays has no metadata to be
destroyed by.
-/
def release (buffer : ContiguousArrayBuffer) : Except Failure (Memory word Element) :=
  let storage := memory.objects buffer.storage
  match swiftReleaseN_ storage.header 1 with
  | (header, .returned) => .ok (memory.store buffer.storage { storage with header := header })
  | (_, .fatalError) => .error .trap
  | (header, .destroyed) =>
      let counted := BitVec.toNat storage.countAndCapacity.count
      if buffer.storage ≠ emptyArrayStorage ∧ counted ≤ storage.elements.length ∧
          (storage.elements.take counted).all Option.isSome then
        .ok (memory.store buffer.storage { storage with header := header, elements := [] })
      else .error .undefined

end Operations

variable {memory : Memory word Element} {object object' : ℕ}

section Store

variable {storage storage' : AllocatedStorage word Element}

@[simp]
theorem objects_store_self : (memory.store object storage).objects object = storage := by
  rw [store]
  exact Function.update_self ..

theorem objects_store_of_ne (differ : object' ≠ object) :
    (memory.store object storage).objects object' = memory.objects object' := by
  rw [store]
  exact Function.update_of_ne differ ..

@[simp]
theorem store_store :
    (memory.store object storage).store object storage' = memory.store object storage' := by
  rw [store, store, store, Function.update_idem]

theorem store_comm (differ : object ≠ object') :
    (memory.store object storage).store object' storage' =
      (memory.store object' storage').store object storage := by
  rw [store, store, store, store, Function.update_comm differ]

end Store

section Cells

variable {cells cells' : List (Option Element)}

@[simp]
theorem cells_setCells_self : (memory.setCells object cells).cells object = cells := by
  rw [setCells, Memory.cells, objects_store_self]

theorem cells_setCells_of_ne (differ : object' ≠ object) :
    (memory.setCells object cells).cells object' = memory.cells object' := by
  rw [setCells, Memory.cells, objects_store_of_ne differ, Memory.cells]

@[simp]
theorem setCells_setCells :
    (memory.setCells object cells).setCells object cells' = memory.setCells object cells' := by
  rw [setCells, setCells, setCells, objects_store_self, store_store]

theorem setCells_comm (differ : object ≠ object') :
    (memory.setCells object cells).setCells object' cells' =
      (memory.setCells object' cells').setCells object cells := by
  rw [setCells, setCells, setCells, setCells, objects_store_of_ne differ,
    objects_store_of_ne differ.symm, store_comm differ]

theorem setCells_eq_self (same : memory.cells object = cells) :
    memory.setCells object cells = memory := by
  have stored : Function.update memory.objects object (memory.objects object) = memory.objects :=
    Function.update_eq_self ..
  rw [setCells, ← same, Memory.cells, store, stored]

@[simp]
theorem countAndCapacity_setCells :
    ((memory.setCells object cells).objects object').countAndCapacity =
      (memory.objects object').countAndCapacity := by
  by_cases same : object' = object
  · rw [same, setCells, objects_store_self]
  · rw [setCells, objects_store_of_ne same]

@[simp]
theorem header_setCells :
    ((memory.setCells object cells).objects object').header = (memory.objects object').header := by
  by_cases same : object' = object
  · rw [same, setCells, objects_store_self]
  · rw [setCells, objects_store_of_ne same]

end Cells

theorem initializeTo_eq {position : ℕ} (inside : position < (memory.cells object).length)
    (element : Element) :
    memory.initializeTo ⟨object, position⟩ element =
      .ok (memory.setCells object ((memory.cells object).set position (some element))) := by
  rw [initializeTo]
  exact if_pos ⟨Int.natCast_nonneg position, Int.ofNat_lt.mpr inside⟩

theorem move_eq {position : ℕ} {element : Element}
    (there : (memory.cells object)[position]? = some (some element)) :
    memory.move ⟨object, position⟩ =
      .ok (element, memory.setCells object ((memory.cells object).set position none)) := by
  rw [move]
  dsimp only
  rw [if_neg (Int.natCast_nonneg position).not_gt, Int.toNat_natCast, there]

section Counts

variable {buffer : ContiguousArrayBuffer} {newValue : Value word .int}

@[simp]
theorem count_setMutableCount :
    (memory.setMutableCount buffer newValue).count buffer = newValue := by
  rw [setMutableCount, count, objects_store_self]

theorem objects_setMutableCount_of_ne (differ : object ≠ buffer.storage) :
    (memory.setMutableCount buffer newValue).objects object = memory.objects object := by
  rw [setMutableCount, objects_store_of_ne differ]

@[simp]
theorem cells_setMutableCount :
    (memory.setMutableCount buffer newValue).cells object = memory.cells object := by
  by_cases same : object = buffer.storage
  · rw [same, setMutableCount, cells, objects_store_self, cells]
  · rw [cells, objects_setMutableCount_of_ne same, cells]

@[simp]
theorem header_setMutableCount :
    ((memory.setMutableCount buffer newValue).objects object).header =
      (memory.objects object).header := by
  by_cases same : object = buffer.storage
  · rw [same, setMutableCount, objects_store_self]
  · rw [objects_setMutableCount_of_ne same]

end Counts

section References

variable {buffer : ContiguousArrayBuffer} {shared : HeapObject word}

@[simp]
theorem emptyHeader_emptyBuffer :
    memory.emptyBuffer.1.emptyHeader = swiftRetainN_ memory.emptyHeader 1 := by
  rw [emptyBuffer, retain, emptyHeader, objects_store_self, emptyHeader]

@[simp]
theorem emptyHeader_setCells {cells : List (Option Element)} :
    (memory.setCells object cells).emptyHeader = memory.emptyHeader :=
  header_setCells

@[simp]
theorem emptyHeader_setMutableCount {newValue : Value word .int} :
    (memory.setMutableCount buffer newValue).emptyHeader = memory.emptyHeader :=
  header_setMutableCount

/-- Another empty buffer changes nothing but the references to the shared storage. -/
theorem objects_emptyBuffer (object : ℕ) :
    (memory.emptyBuffer.1.objects object).countAndCapacity =
        (memory.objects object).countAndCapacity ∧
      (memory.emptyBuffer.1.objects object).elements = (memory.objects object).elements ∧
      (object ≠ emptyArrayStorage →
        memory.emptyBuffer.1.objects object = memory.objects object) := by
  by_cases same : object = emptyArrayStorage
  · subst same
    rw [emptyBuffer, retain, objects_store_self]
    exact ⟨rfl, rfl, fun differ => absurd rfl differ⟩
  · have kept : memory.emptyBuffer.1.objects object = memory.objects object := by
      rw [emptyBuffer, retain]
      exact objects_store_of_ne same
    rw [kept]
    exact ⟨rfl, rfl, fun _ => rfl⟩

/-- The only reference to a buffer that counts no elements, whatever its cells are. -/
theorem release_single (owned : (memory.objects buffer.storage).header = ⟨1⟩)
    (differ : buffer.storage ≠ emptyArrayStorage) (uncounted : memory.count buffer = 0) :
    ∃ memory', memory.release buffer = .ok memory' ∧ memory'.fresh = memory.fresh ∧
      ∀ object, object ≠ buffer.storage → memory'.objects object = memory.objects object := by
  have none : BitVec.toNat (memory.objects buffer.storage).countAndCapacity.count = 0 := by
    rw [count] at uncounted
    rw [uncounted]
    exact BitVec.toNat_zero
  have last : swiftReleaseN_ (⟨1⟩ : HeapObject word) 1 = (⟨0⟩, .destroyed) := by
    cases word <;> rfl
  let freed : AllocatedStorage word Element :=
    { memory.objects buffer.storage with header := ⟨0⟩, elements := [] }
  have released : memory.release buffer = .ok (memory.store buffer.storage freed) := by
    simp only [release, owned, last, none]
    exact if_pos ⟨differ, Nat.zero_le _, rfl⟩
  exact ⟨_, released, rfl, fun object other => objects_store_of_ne other⟩

/-- A reference to the shared storage, given up while the others do not look like none. -/
theorem release_shared (held : memory.emptyHeader = swiftRetainN_ shared 1)
    (outlives : shared.Outlives) :
    ∃ memory', memory.release ⟨emptyArrayStorage⟩ = .ok memory' ∧
      memory'.fresh = memory.fresh ∧ memory'.emptyHeader.Outlives ∧
      (∀ object, (memory'.objects object).contents = (memory.objects object).contents) ∧
      ∀ object, object ≠ emptyArrayStorage → memory'.objects object = memory.objects object := by
  rcases release_retain shared with ⟨left, released, lasts⟩
  rw [if_pos outlives] at released
  rw [emptyHeader] at held
  let storage : AllocatedStorage word Element :=
    { memory.objects emptyArrayStorage with header := left }
  have returns : memory.release ⟨emptyArrayStorage⟩ =
      .ok (memory.store emptyArrayStorage storage) := by
    simp only [release, held, released]
    rfl
  refine ⟨_, returns, rfl, ?_, fun object => ?_, fun object other => objects_store_of_ne other⟩
  · rw [emptyHeader, objects_store_self]
    exact lasts outlives
  · by_cases same : object = emptyArrayStorage
    · rw [same, objects_store_self]
      rfl
    · rw [objects_store_of_ne same]

theorem release_shared_undefined (held : memory.emptyHeader = swiftRetainN_ shared 1)
    (ended : ¬ shared.Outlives) :
    memory.release ⟨emptyArrayStorage⟩ = .error .undefined := by
  rcases release_retain shared with ⟨left, released, -⟩
  rw [if_neg ended] at released
  rw [emptyHeader] at held
  simp only [release, held, released]
  exact if_neg fun destroyed => destroyed.1 rfl

/--
The reference that a buffer may be to the shared storage is the only one that an operation has
taken, or it has been given up.
-/
structure Shares (memory : Memory word Element) (buffer : ContiguousArrayBuffer)
    (shared : HeapObject word) : Prop where
  held : buffer.storage = emptyArrayStorage → memory.emptyHeader = swiftRetainN_ shared 1
  free : buffer.storage ≠ emptyArrayStorage → (memory.emptyHeader.Outlives ↔ shared.Outlives)

theorem Shares.of_header {memory' : Memory word Element} (shares : memory.Shares buffer shared)
    (same : memory'.emptyHeader = memory.emptyHeader) : memory'.Shares buffer shared where
  held empty := same.trans (shares.held empty)
  free other := by
    rw [same]
    exact shares.free other

/-- A buffer without counted elements is given up, if it may be. -/
theorem Shares.release (shares : memory.Shares buffer shared)
    (owned : buffer.storage ≠ emptyArrayStorage → (memory.objects buffer.storage).header = ⟨1⟩)
    (uncounted : memory.count buffer = 0)
    (allowed : buffer.storage = emptyArrayStorage → shared.Outlives) :
    ∃ memory', memory.release buffer = .ok memory' ∧ memory'.fresh = memory.fresh ∧
      (memory'.emptyHeader.Outlives ↔ shared.Outlives) ∧
      ∀ object, object ≠ buffer.storage → memory'.objects object = memory.objects object := by
  by_cases empty : buffer.storage = emptyArrayStorage
  · rcases release_shared (shares.held empty) (allowed empty) with
      ⟨memory', released, fresh, outlives, -, others⟩
    refine ⟨memory', ?_, fresh, iff_of_true outlives (allowed empty), ?_⟩
    · rw [← released, ← empty]
    · rw [empty]
      exact others
  · rcases release_single (owned empty) empty uncounted with ⟨memory', released, fresh, others⟩
    refine ⟨memory', released, fresh, ?_, others⟩
    rw [emptyHeader, others emptyArrayStorage (Ne.symm empty)]
    exact shares.free empty

end References

section Moving

variable {target source : ℕ} {moved left : List Element} {element : Element} {room : ℕ}

/-- The memory in which some elements have been moved and the others are left. -/
def moving (memory : Memory word Element) (target source : ℕ) (moved left : List Element)
    (room : ℕ) : Memory word Element :=
  (memory.setCells source (List.replicate moved.length none ++ left.map some)).setCells target
    (moved.map some ++ List.replicate (room - moved.length) none)

theorem moveStep_moving (differ : source ≠ target) (fits : moved.length < room) :
    moveStep ⟨target, 0⟩ ⟨source, 0⟩ (memory.moving target source moved (element :: left) room)
        moved.length =
      .ok (memory.moving target source (moved ++ [element]) left room) := by
  have there : ((memory.moving target source moved (element :: left) room).cells
      source)[moved.length]? = some (some element) := by
    rw [moving, cells_setCells_of_ne differ, cells_setCells_self]
    simp
  have emptied : (memory.moving target source moved (element :: left) room).setCells source
      (((memory.moving target source moved (element :: left) room).cells source).set
        moved.length none) =
      (memory.setCells source
        (List.replicate (moved ++ [element]).length none ++ left.map some)).setCells target
          (moved.map some ++ List.replicate (room - moved.length) none) := by
    have cells : (List.replicate moved.length none ++ (element :: left).map some).set
        moved.length none = List.replicate (moved ++ [element]).length none ++ left.map some := by
      rw [List.set_append_right _ _ List.length_replicate.le, List.length_replicate, Nat.sub_self,
        List.length_append, List.length_singleton, List.replicate_succ', List.append_assoc]
      rfl
    rw [moving, cells_setCells_of_ne differ, cells_setCells_self, cells, setCells_comm differ,
      setCells_setCells, setCells_comm differ.symm]
  rw [moveStep]
  dsimp only
  rw [zero_add, move_eq there, emptied]
  refine (initializeTo_eq ?_ element).trans ?_
  · rw [cells_setCells_self]
    simp [fits]
  · rw [cells_setCells_self, ContiguousArrayStorage.set_behind fits, setCells_setCells, moving]

theorem moveInitialize_moving (differ : source ≠ target)
    (fits : moved.length + left.length ≤ room) :
    (List.range' moved.length left.length).foldlM (moveStep ⟨target, 0⟩ ⟨source, 0⟩)
        (memory.moving target source moved left room) =
      .ok (memory.moving target source (moved ++ left) [] room) := by
  induction left generalizing moved with
  | nil =>
      rw [List.append_nil]
      rfl
  | cons element left further =>
      rw [List.length_cons] at fits
      have following : (moved ++ [element]).length + left.length ≤ room := by
        rw [List.length_append, List.length_singleton]
        omega
      have moves := further following
      rw [List.length_append, List.length_singleton, List.append_assoc] at moves
      rw [List.length_cons, List.range'_succ, List.foldlM_cons,
        moveStep_moving differ (by omega)]
      exact moves

theorem moveInitialize_all (differ : source ≠ target)
    (full : memory.cells source = left.map some)
    (vacant : memory.cells target = List.replicate room none)
    (fits : left.length ≤ room) {count : Value word .int}
    (counted : BitVec.toNat count = left.length) :
    memory.moveInitialize ⟨target, 0⟩ ⟨source, 0⟩ count =
      .ok (memory.moving target source left [] room) := by
  have start : memory.moving target source [] left room = memory := by
    have unmoved : memory.setCells source (left.map some) = memory := setCells_eq_self full
    rw [moving, List.length_nil, List.replicate_zero, List.nil_append, unmoved]
    exact setCells_eq_self vacant
  have moves := @moveInitialize_moving _ _ memory target source [] left room differ (by simpa)
  rw [start] at moves
  rw [moveInitialize, counted, List.range_eq_range']
  exact moves

end Moving

/-- The storage of the empty arrays is there and has no cells. -/
structure WellFormed (memory : Memory word Element) : Prop where
  allocated : emptyArrayStorage < memory.fresh
  count : memory.count ⟨emptyArrayStorage⟩ = 0
  capacity : memory.capacity ⟨emptyArrayStorage⟩ = 0
  cells : memory.cells emptyArrayStorage = []

/-- What allocating a buffer with a count above zero leads to. -/
structure Allocates (memory memory' : Memory word Element) (buffer : ContiguousArrayBuffer)
    (requested : Value word .int) : Prop where
  storage : buffer.storage = memory.fresh
  fresh : memory'.fresh = memory.fresh + 1
  header : (memory'.objects buffer.storage).header = ⟨1⟩
  count : memory'.count buffer = requested
  capacity : memory'.capacity buffer = requested
  cells : memory'.cells buffer.storage = List.replicate (BitVec.toNat requested) none
  others : ∀ object, object ≠ buffer.storage → memory'.objects object = memory.objects object

theorem uninitializedBuffer_of_pos (memory : Memory word Element) {count : Value word .int}
    (positive : 0 < toInt word .int count) :
    Allocates memory (memory.uninitializedBuffer count 0).1
      (memory.uninitializedBuffer count 0).2 count := by
  have zero := toInt_zero word .int
  have real : maximum count 0 = count := by
    apply toInt_injective
    rw [toInt_maximum, zero]
    exact max_eq_left positive.le
  have nonzero : ¬ (count == 0) = true := by
    rw [beq_iff_eq]
    rintro rfl
    omega
  rw [uninitializedBuffer, real]
  dsimp only
  rw [if_neg nonzero]
  let storage : AllocatedStorage word Element :=
    ⟨⟨1⟩, .init count count false, List.replicate (BitVec.toNat count) none⟩
  have stored : (memory.store memory.fresh storage).objects memory.fresh = storage :=
    objects_store_self
  have body := congrArg AllocatedStorage.countAndCapacity stored
  refine ⟨rfl, rfl, congrArg AllocatedStorage.header stored, ?_, ?_, ?_, ?_⟩
  · exact congrArg ArrayBody.count body
  · exact (congrArg ArrayBody.capacity body).trans (ArrayBody.capacity_init count positive.le false)
  · exact congrArg AllocatedStorage.elements stored
  · intro object differ
    exact objects_store_of_ne differ

theorem uninitializedBuffer_of_nonpos (memory : Memory word Element) {count : Value word .int}
    (nonpositive : toInt word .int count ≤ 0) :
    memory.uninitializedBuffer count 0 = memory.emptyBuffer := by
  have real : maximum count 0 = 0 := by
    apply toInt_injective
    rw [toInt_maximum, toInt_zero]
    exact max_eq_right nonpositive
  rw [uninitializedBuffer, real]
  rfl

end Memory

end USwift
