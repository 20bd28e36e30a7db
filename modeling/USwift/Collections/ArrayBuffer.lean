import USwift.Collections.RandomAccess

/-!
# Array buffers

An array owns a storage object on the heap, in which its count stands before its
elements. A slice keeps the owner alive and holds the address from which indices
count, its first index, and its end packed above a flag.
-/

namespace USwift

variable {word : WordSize} {Element : Type}

/-- `_ContiguousArrayStorage`. The elements past the initialized ones are missing. -/
structure ContiguousArrayStorage (word : WordSize) (Element : Type) where
  count : Value word .int
  elements : List (Option Element)

/-- The storage objects by their identity. -/
abbrev Heap (word : WordSize) (Element : Type) : Type :=
  ℕ → ContiguousArrayStorage word Element

/-- An address in a storage object, counted in elements from its first one. -/
structure ElementPointer where
  object : ℕ
  offset : ℤ
  deriving DecidableEq

namespace ElementPointer

/-- `pointer + n`. -/
def advanced (pointer : ElementPointer) (n : Value word .int) : ElementPointer :=
  { pointer with offset := pointer.offset + toInt word .int n }

/-- Reading the memory that a pointer points to. -/
def pointee (heap : Heap word Element) (pointer : ElementPointer) : Except Failure Element :=
  if pointer.offset < 0 then .error .undefined
  else
    match (heap pointer.object).elements[pointer.offset.toNat]? with
    | some (some element) => .ok element
    | _ => .error .undefined

end ElementPointer

/-- `index(after:)` of the buffers. For an `Int`, every branch of `advanced(by: 1)` adds. -/
def bufferIndexAfter (i : Index word) : Index word :=
  i + 1

/--
`_checkValidSubscript(_:)` with the bounds of its buffer. The function that a program may
link for indices out of bounds replaces the index before it is tested.
-/
def checkValidSubscript
    (outOfBounds : Index word → Index word → Index word → Index word)
    (lower upper index : Index word) : Except Failure (Index word) :=
  let checked :=
    if less word .int index lower || upper == 0 then outOfBounds index lower upper
    else if !less word .int index upper then outOfBounds index lower upper
    else index
  if less word .int checked lower || !less word .int checked upper then .error .trap
  else .ok checked

/-- `_SliceBuffer`. -/
structure SliceBuffer (word : WordSize) where
  owner : ℕ
  subscriptBaseAddress : ElementPointer
  startIndex : Index word
  endIndexAndFlags : Value word .uint
  deriving DecidableEq

namespace SliceBuffer

/-- `init(owner:subscriptBaseAddress:indices:hasNativeBuffer:)`. -/
def ofIndices (owner : ℕ) (subscriptBaseAddress : ElementPointer) (indices : Range (Index word))
    (hasNativeBuffer : Bool) : SliceBuffer word :=
  let bufferFlag : Value word .uint := if hasNativeBuffer then 1 else 0
  ⟨owner, subscriptBaseAddress, indices.lowerBound,
    smartShiftLeft word .uint (truncatingIfNeeded word .uint .int indices.upperBound)
      (1 : Value word .int) ||| bufferFlag⟩

def hasNativeBuffer (buffer : SliceBuffer word) : Bool :=
  buffer.endIndexAndFlags &&& 1 != 0

def endIndex (buffer : SliceBuffer word) : Index word :=
  truncatingIfNeeded word .int .uint
    (smartShiftRight word .uint buffer.endIndexAndFlags (1 : Value word .int))

def count (buffer : SliceBuffer word) : Value word .int :=
  buffer.endIndex - buffer.startIndex

def getElement (heap : Heap word Element) (buffer : SliceBuffer word) (i : Index word) :
    Except Failure Element :=
  (buffer.subscriptBaseAddress.advanced i).pointee heap

/-- `subscript(bounds:)`. -/
def subscriptRange (buffer : SliceBuffer word) (bounds : Range (Index word)) : SliceBuffer word :=
  ofIndices buffer.owner buffer.subscriptBaseAddress bounds buffer.hasNativeBuffer

end SliceBuffer

/-- `_ContiguousArrayBuffer`. -/
structure ContiguousArrayBuffer where
  storage : ℕ
  deriving DecidableEq

namespace ContiguousArrayBuffer

def count (heap : Heap word Element) (buffer : ContiguousArrayBuffer) : Value word .int :=
  (heap buffer.storage).count

def firstElementAddress (buffer : ContiguousArrayBuffer) : ElementPointer :=
  ⟨buffer.storage, 0⟩

def getElement (heap : Heap word Element) (buffer : ContiguousArrayBuffer) (i : Index word) :
    Except Failure Element :=
  (buffer.firstElementAddress.advanced i).pointee heap

/-- `subscript(bounds:)`. -/
def subscriptRange (buffer : ContiguousArrayBuffer) (bounds : Range (Index word)) :
    SliceBuffer word :=
  .ofIndices buffer.storage buffer.firstElementAddress bounds true

end ContiguousArrayBuffer

theorem checkValidSubscript_inside
    {outOfBounds : Index word → Index word → Index word → Index word}
    {lower upper index : Index word}
    (nonnegative : 0 ≤ toInt word .int lower) (low : toInt word .int lower ≤ toInt word .int index)
    (high : toInt word .int index < toInt word .int upper) :
    checkValidSubscript outOfBounds lower upper index = .ok index := by
  have above : less word .int index lower = false := by
    rw [Bool.eq_false_iff, ne_eq, less_iff]
    omega
  have below : less word .int index upper = true := less_iff.mpr high
  have nonzero : (upper == 0) = false := by
    rw [beq_eq_false_iff_ne]
    rintro rfl
    rw [toInt_zero] at high
    omega
  rw [checkValidSubscript, above, below, nonzero]
  simp [above, below]

theorem truncatingIfNeeded_uint_int (x : Value word .int) :
    truncatingIfNeeded word .uint .int x = x := by
  cases word <;> rfl

theorem truncatingIfNeeded_int_uint (x : Value word .uint) :
    truncatingIfNeeded word .int .uint x = x := by
  cases word <;> rfl

theorem packed_shiftRight (x : ℕ) {flag bits : ℕ} (positive : 0 < bits) (bit : flag ≤ 1) :
    (x <<< 1 % 2 ^ bits ||| flag) >>> 1 = x % 2 ^ (bits - 1) := by
  have double : 2 ^ bits = 2 * 2 ^ (bits - 1) := by
    rw [← pow_succ', Nat.sub_add_cancel positive]
  have none : flag >>> 1 = 0 := by
    rw [Nat.shiftRight_eq_div_pow]
    omega
  rw [Nat.shiftRight_or_distrib, none, Nat.or_zero, Nat.shiftLeft_eq, Nat.shiftRight_eq_div_pow,
    pow_one, double, Nat.mul_comm x 2, Nat.mul_mod_mul_left]
  exact Nat.mul_div_cancel_left _ (by decide)

namespace SliceBuffer

theorem one_lt_bitWidth_uint : 1 < IntegerType.uint.bitWidth word := by
  cases word <;> decide

theorem toNat_endIndex (buffer : SliceBuffer word) :
    BitVec.toNat buffer.endIndex = BitVec.toNat buffer.endIndexAndFlags >>> 1 := by
  have shifted : smartShiftRight word .uint buffer.endIndexAndFlags (1 : Value word .int) =
      buffer.endIndexAndFlags >>> 1 := smartShiftRight_ofNat rfl _ one_lt_bitWidth_uint
  rw [endIndex, truncatingIfNeeded_int_uint, shifted]
  exact BitVec.toNat_ushiftRight _ _

/-- No slice ends behind the largest `Int`. -/
theorem toNat_endIndex_lt (buffer : SliceBuffer word) :
    BitVec.toNat buffer.endIndex < 2 ^ (word.bits - 1) := by
  have double : 2 ^ word.bits = 2 * 2 ^ (word.bits - 1) := by
    rw [← pow_succ', Nat.sub_add_cancel word.bits_pos]
  have bounded : BitVec.toNat buffer.endIndexAndFlags < 2 ^ word.bits := BitVec.isLt _
  rw [toNat_endIndex, Nat.shiftRight_eq_div_pow]
  omega

theorem toNat_endIndex_ofIndices (owner : ℕ) (address : ElementPointer)
    (indices : Range (Index word)) (native : Bool) :
    BitVec.toNat (ofIndices owner address indices native).endIndex =
      BitVec.toNat indices.upperBound % 2 ^ (word.bits - 1) := by
  have shifted (x : Value word .uint) :
      smartShiftLeft word .uint x (1 : Value word .int) = x <<< 1 :=
    smartShiftLeft_ofNat x one_lt_bitWidth_uint
  have bit : BitVec.toNat (if native = true then 1 else 0 : Value word .uint) ≤ 1 := by
    cases word <;> cases native <;> decide
  rw [toNat_endIndex, ofIndices, truncatingIfNeeded_uint_int, shifted]
  rw [BitVec.toNat_or, BitVec.toNat_shiftLeft]
  exact packed_shiftRight _ word.bits_pos bit

end SliceBuffer

end USwift
