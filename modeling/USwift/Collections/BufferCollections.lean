import USwift.Collections.CopyContents
import USwift.Collections.Slices
import USwift.Collections.WriteBack

/-!
# Buffers as mutable collections

`UnsafeMutableBufferPointer` stores its elements in memory. Assigning one of them leaves the
buffer pointer itself as it is, and is seen through every copy and every slice of it. The
setter of its own range subscript compares the two regions before it copies.
-/

namespace USwift

open Splices

section Operations

variable {word : WordSize} {Element Byte : Type} (layout : Layout Element Byte)

/--
`UnsafeMutableBufferPointer` with the memory it points to. Where there is no base address,
its subscript has no meaning, and here it reads and writes nothing.
-/
def UnsafeMutableBufferPointer.collection :
    MutableCollection (BufferPointer word × Bytes word Byte) ℤ Element where
  startIndex _ := 0
  endIndex self := self.1.count
  indexAfter _ i := i + 1
  subscript self i :=
    match self.1.elementAddress layout.stride i with
    | .ok address => self.2.pointee layout address
    | .error _ => layout.value fun _ => none
  equal lhs rhs := lhs == rhs
  setSubscript self i newValue :=
    match self.1.elementAddress layout.stride i with
    | .ok address => (self.1, self.2.put address layout newValue)
    | .error _ => self

/-- `subscript(bounds:)` when it is assigned to, whose checks have no effect. -/
def UnsafeMutableBufferPointer.setSubscriptRange (self : BufferPointer word) (bounds : Range ℤ)
    (newValue : Slice (BufferPointer word) ℤ) (memory : Bytes word Byte) :
    Except Failure (Bytes word Byte) :=
  if !(newValue._startIndex == newValue._endIndex) then do
    let _position ← self.start
    let from_ ← newValue._base.start
    return memory.update layout.stride
      (_position.advanced layout.stride (BitVec.ofInt _ bounds.lowerBound))
      (from_.advanced layout.stride (BitVec.ofInt _ newValue._startIndex))
      (BitVec.ofInt _ (newValue._endIndex - newValue._startIndex))
  else .ok memory

end Operations

section Specification

variable {word : WordSize} {Element Byte : Type} (layout : Layout Element Byte)

/-- A buffer holds a list, of which every copy of it sees the same elements. -/
def BufferPointer.Represents (buffer : BufferPointer word)
    (self_ : BufferPointer word × Bytes word Byte) (list elements : List Element) : Prop :=
  self_.1 = buffer ∧ elements = list ∧ (list.length : ℤ) = buffer.count ∧
    ∀ base ∈ buffer.baseAddress, self_.2.Holds layout base list

end Specification

section Results

variable {word : WordSize} {Element Byte : Type} {layout : Layout Element Byte}
  {memory : Bytes word Byte} {base : Address word} {front list elements back : List Element}
  {buffer other : BufferPointer word} {self_ : BufferPointer word × Bytes word Byte}

/-- Storing an element at its place replaces it and leaves the bytes of the others. -/
theorem Bytes.Holds.put (holds : memory.Holds layout base list) {i : ℕ} (inside : i < list.length)
    (fits : base.toNat + list.length * layout.stride ≤ 2 ^ word.bits) (element : Element) :
    (memory.put (base.element layout.stride i) layout element).Holds layout base
      (list.set i element) := by
  have room := Nat.mul_le_mul_right layout.stride (Nat.succ_le_of_lt inside)
  have positive := layout.stride_pos
  rw [Nat.succ_mul] at room
  intro j j_lt k k_lt
  rw [List.length_set] at j_lt
  have room' := Nat.mul_le_mul_right layout.stride (Nat.succ_le_of_lt j_lt)
  rw [Nat.succ_mul] at room'
  have here : (base + BitVec.ofNat word.bits (j * layout.stride + k) - base).toNat =
      j * layout.stride + k := by
    rw [BitVec.add_comm, BitVec.add_sub_cancel, BitVec.toNat_ofNat,
      Nat.mod_eq_of_lt (by omega)]
  have distance := @Address.toNat_sub_add word base
    (base + BitVec.ofNat word.bits (j * layout.stride + k)) (i * layout.stride) (by omega)
  rw [here] at distance
  rw [Bytes.put, Bytes.store, Address.element, distance, List.getElem_set]
  rcases Nat.lt_trichotomy j i with before | same | behind
  · have gap := Nat.mul_le_mul_right layout.stride (Nat.succ_le_of_lt before)
    rw [Nat.succ_mul] at gap
    rw [if_neg (by omega : ¬ i * layout.stride ≤ _), if_neg (by omega), if_neg (by omega)]
    exact holds j j_lt k k_lt
  · subst same
    rw [if_pos (by omega : j * layout.stride ≤ _), Nat.add_sub_cancel_left, if_pos k_lt,
      if_pos rfl]
  · have gap := Nat.mul_le_mul_right layout.stride (Nat.succ_le_of_lt behind)
    rw [Nat.succ_mul] at gap
    rw [if_pos (by omega : i * layout.stride ≤ _), if_neg (by omega), if_neg (by omega)]
    exact holds j j_lt k k_lt

theorem Address.element_element (stride i j : ℕ) :
    (base.element stride i).element stride j = base.element stride (i + j) := by
  rw [element, element, element, BitVec.add_assoc, ← BitVec.ofNat_add, Nat.add_mul]

theorem Bytes.Holds.part (holds : memory.Holds layout base (front ++ list ++ back)) :
    memory.Holds layout (base.element layout.stride front.length) list := by
  intro i inside k k_lt
  have stored := holds (front.length + i) (by simp only [List.length_append]; omega) k k_lt
  rw [getElem_middle inside] at stored
  rw [← stored, Address.element, BitVec.add_assoc, ← BitVec.ofNat_add, Nat.add_mul, Nat.add_assoc]

/-- Storing a list over a part of another one replaces that part. -/
theorem Bytes.Holds.holding (holds : memory.Holds layout base list)
    (fits : base.toNat + list.length * layout.stride ≤ 2 ^ word.bits) {lower : ℕ}
    (inside : lower + elements.length ≤ list.length) :
    (memory.holding layout (base.element layout.stride lower) elements).Holds layout base
      (splice list lower (lower + elements.length) elements) := by
  induction elements using List.reverseRecOn with
  | nil =>
      rw [List.length_nil, Nat.add_zero, splice_nil, Bytes.holding_nil]
      exact holds
  | append_singleton elements element before =>
      rw [List.length_append, List.length_singleton] at inside
      have room := Nat.mul_le_mul_right layout.stride
        (by omega : elements.length + 1 ≤ list.length)
      have size := @length_splice _ list elements lower (lower + elements.length)
        (Nat.le_add_right _ _) (by omega)
      have length : (splice list lower (lower + elements.length) elements).length =
          list.length := by omega
      have later := (before (by omega)).put (by omega : lower + elements.length < _)
        (by rw [length]; exact fits) element
      rw [← Address.element_element, Bytes.put_holding (by omega),
        splice_set element (by omega)] at later
      rw [List.length_append, List.length_singleton]
      exact later

namespace BufferPointer.Represents

/-- The address of an element that a buffer has. -/
theorem address (represented : buffer.Represents layout self_ list elements)
    (valid : buffer.Valid layout) {i : ℕ} (inside : i < list.length) :
    ∃ base ∈ buffer.baseAddress, self_.2.Holds layout base list ∧
      base.toNat + list.length * layout.stride ≤ 2 ^ word.bits ∧
      self_.1.elementAddress layout.stride i = .ok (base.element layout.stride i) := by
  rcases represented with ⟨same, -, counted, holds⟩
  rcases valid.exists_baseAddress (by omega : 0 < buffer.count) with ⟨base, located⟩
  have fits := valid.fits base located
  have length : buffer.count.toNat = list.length := by omega
  rw [length] at fits
  refine ⟨base, located, holds base located, fits, ?_⟩
  rw [same]
  exact elementAddress_eq valid located (by omega)

theorem listed (represented : buffer.Represents layout self_ list elements)
    (valid : buffer.Valid layout) :
    Listed (UnsafeMutableBufferPointer.collection layout).toCollection self_ list
      fun i => (i : ℤ) := by
  constructor
  · rfl
  · rcases represented with ⟨same, -, counted, -⟩
    change self_.1.count = _
    rw [same, counted]
  · intro i j _ _
    change ((i : ℤ) == (j : ℤ)) = true ↔ _
    rw [beq_iff_eq, Int.natCast_inj]
  · intro i _
    rfl
  · intro i inside
    rcases represented.address valid inside with ⟨base, _, holds, _, found⟩
    simp only [UnsafeMutableBufferPointer.collection, found]
    exact holds.pointee_element inside

theorem setSubscript (represented : buffer.Represents layout self_ list elements)
    (valid : buffer.Valid layout) {i : ℕ} (inside : i < list.length) (element : Element) :
    buffer.Represents layout
      ((UnsafeMutableBufferPointer.collection layout).setSubscript self_ i element)
      (list.set i element) (list.set i element) := by
  rcases represented.address valid inside with ⟨base, located, holds, fits, found⟩
  rcases represented with ⟨same, -, counted, -⟩
  simp only [UnsafeMutableBufferPointer.collection, found]
  refine ⟨same, rfl, ?_, ?_⟩
  · rw [List.length_set]
    exact counted
  · intro base' located'
    have same' := Option.mem_unique located located'
    subst same'
    exact holds.put inside fits element

end BufferPointer.Represents

/-- A buffer and a copy of it, to which the same elements belong. -/
theorem BufferPointer.assignsBeside (valid : buffer.Valid layout) :
    AssignsBeside (UnsafeMutableBufferPointer.collection layout)
      (UnsafeMutableBufferPointer.collection layout).toCollection buffer
      (buffer.Represents layout) (fun i => (i : ℤ)) fun i => (i : ℤ) where
  listed represented := represented.listed valid
  sliced := by
    rintro ⟨_, memory⟩ list elements represented
    rcases represented with ⟨rfl, rfl, counted, holds⟩
    exact Represents.listed ⟨rfl, rfl, counted, holds⟩ valid
  assign := by
    intro self_ list elements i represented inside element
    have later := represented.setSubscript valid inside element
    rcases represented with ⟨-, rfl, -, -⟩
    exact ⟨_, List.length_set, later⟩

theorem BufferPointer.sharesStorage (valid : buffer.Valid layout) :
    SharesStorage (UnsafeMutableBufferPointer.collection layout) (buffer.Represents layout)
      (fun i => (i : ℤ)) some where
  same := by
    rintro self_ list elements i j ⟨-, rfl, -, -⟩ _ ⟨⟩
    rfl
  assign := by
    intro self_ list elements i represented inside element
    have later := represented.setSubscript valid inside element
    rcases represented with ⟨-, rfl, -, -⟩
    have stored : elements.mapIdx (fun j kept => if some j = some i then element else kept) =
        elements.set i element := by
      apply List.ext_getElem
      · rw [List.length_mapIdx, List.length_set]
      · intro j _ _
        rw [List.getElem_mapIdx, List.getElem_set]
        simp only [Option.some_inj, eq_comm]
    rw [stored]
    exact later

/-- The address of a part of a buffer, and its room. -/
theorem BufferPointer.Valid.part (valid : buffer.Valid layout) (located : base ∈ buffer.baseAddress)
    {start size : ℕ} (nonempty : 0 < size) (inside : start + size ≤ buffer.count.toNat) :
    base.advanced layout.stride (BitVec.ofInt _ start) = base.element layout.stride start ∧
      (base.element layout.stride start).toNat + size * layout.stride ≤ 2 ^ word.bits := by
  have region := valid.fits base located
  have room := Nat.mul_le_mul_right layout.stride inside
  have some_ := Nat.mul_pos nonempty layout.stride_pos
  rw [Nat.add_mul] at room
  have inside' : base.toNat + start * layout.stride < 2 ^ word.bits := by omega
  refine ⟨Address.advanced_element (valid.nonzero base located) inside', ?_⟩
  rw [Address.element, Address.toNat_add inside']
  omega

/--
The setter of a buffer itself replaces the range by what the slice holds when it is called, even
where both of them share storage.
-/
theorem UnsafeMutableBufferPointer.setSubscriptRange_replaces (valid : buffer.Valid layout)
    (valid' : other.Valid layout) (counted : list.length = buffer.count)
    (counted' : (front ++ elements ++ back).length = other.count)
    (holds : ∀ base ∈ buffer.baseAddress, memory.Holds layout base list)
    (holds' : ∀ base ∈ other.baseAddress, memory.Holds layout base (front ++ elements ++ back))
    {lower upper : ℕ} (ordered : lower ≤ upper) (inside : upper ≤ list.length)
    (whole : elements.length = upper - lower) :
    ∃ memory', setSubscriptRange layout buffer ⟨lower, upper⟩
        (.init other ⟨front.length, (front.length + elements.length : ℕ)⟩) memory = .ok memory' ∧
      ∀ base ∈ buffer.baseAddress,
        memory'.Holds layout base (splice list lower upper elements) := by
  have end_eq : lower + elements.length = upper := by omega
  rw [setSubscriptRange, Slice.init]
  simp only
  by_cases empty : elements = []
  · subst empty
    rw [List.length_nil, Nat.add_zero] at end_eq
    refine ⟨memory, ?_, ?_⟩
    · simp
    · rw [← end_eq, splice_nil]
      exact holds
  · have some_ := List.length_pos_iff.mpr empty
    rw [List.length_append, List.length_append] at counted'
    rcases valid.exists_baseAddress (by omega : 0 < buffer.count) with ⟨base, located⟩
    rcases valid'.exists_baseAddress (by omega : 0 < other.count) with ⟨source, located'⟩
    have few : (elements.length : ℤ) < 2 ^ (word.bits - 1) := by
      have representable := valid.representable
      omega
    have number : toInt word .int (BitVec.ofInt _
        (((front.length + elements.length : ℕ) : ℤ) - front.length)) = elements.length := by
      rw [Nat.cast_add, add_sub_cancel_left, BitVec.ofInt_natCast]
      exact toInt_ofNat (by exact_mod_cast few)
    rcases valid.part located some_ (by omega : lower + elements.length ≤ _) with ⟨placed, fits⟩
    rcases valid'.part located' some_ (by omega : front.length + elements.length ≤ _) with
      ⟨placed', fits'⟩
    refine ⟨memory.holding layout (base.element layout.stride lower) elements, ?_, ?_⟩
    · rw [if_pos (by simpa using some_.ne'), BufferPointer.start_eq located,
        BufferPointer.start_eq located', ← Bytes.update_holding number
          (holds' source located').part fits fits', ← placed, ← placed']
      rfl
    · intro base' located''
      have same := Option.mem_unique located located''
      subst same
      have region := valid.fits base located
      have size : buffer.count.toNat = list.length := by omega
      rw [size] at region
      rw [← end_eq]
      exact (holds base located).holding region (by omega)

end Results

end USwift
