import USwift.Collections.ContentsUpdates

/-!
# Initializing buffers from sequences

`initialize(from:)` of `UnsafeMutableBufferPointer` is `_copyContents(initializing:)` of its
source, which is a loop by default and a copy of the stored elements for buffers and arrays.
`Array` and `ArraySlice` copy all of their elements, whether or not there are enough slots.
-/

namespace USwift

open Iteration

section Operations

variable {word : WordSize} {Element Byte : Type} (layout : Layout Element Byte)

/-- `pointee`. -/
def Bytes.pointee (memory : Bytes word Byte) (pointer : Address word) : Element :=
  layout.value (memory.load pointer)

section Sequences

variable {Iterator : Type} (next : Iterator → Option (Element × Iterator))

/-- The loop of the default of `_copyContents(initializing:)`, over the indices that are left. -/
def copyLoop (endIndex : ℤ) :
    List ℕ → Iterator → Address word → Bytes word Byte → Updated word Byte Iterator
  | [], it, _, memory => ⟨memory, it, endIndex⟩
  | idx :: indices, it, ptr, memory =>
      match next it with
      | none => ⟨memory, it, idx⟩
      | some (x, it) =>
          copyLoop endIndex indices it (ptr.advanced layout.stride 1) (memory.put ptr layout x)

/-- The default of `_copyContents(initializing:)`, for the iterator of a sequence. -/
def Sequence.copyContents (it : Iterator) (buffer : BufferPointer word)
    (memory : Bytes word Byte) : Updated word Byte Iterator :=
  match buffer.baseAddress with
  | none => ⟨memory, it, 0⟩
  | some ptr => copyLoop layout next buffer.count (List.range buffer.count.toNat) it ptr memory

end Sequences

section Buffers

/-- `UnsafeBufferPointer.Iterator`. -/
structure BufferIterator (word : WordSize) where
  _position : Option (Address word)
  _end : Option (Address word)

/-- `next()` of `UnsafeBufferPointer.Iterator`. -/
def BufferIterator.next (memory : Bytes word Byte) (self : BufferIterator word) :
    Option (Element × BufferIterator word) :=
  match self._position with
  | none => none
  | some start =>
      if self._end = some start then none
      else
        let result := memory.pointee layout start
        some (result, { self with _position := some (start.advanced layout.stride 1) })

/-- `makeIterator()` of `UnsafeBufferPointer`. -/
def UnsafeBufferPointer.makeIterator (self : BufferPointer word) : BufferIterator word :=
  match self.baseAddress with
  | none => ⟨none, none⟩
  | some start => ⟨some start, some (start.advanced layout.stride (BitVec.ofInt _ self.count))⟩

/-- `_copyContents(initializing:)` of `UnsafeBufferPointer`. -/
def UnsafeBufferPointer.copyContents (self destination : BufferPointer word)
    (memory : Bytes word Byte) : Except Failure (Updated word Byte (BufferIterator word)) :=
  if !(self.count == 0) && !(destination.count == 0) then do
    let s ← self.start
    let d ← destination.start
    let n := min destination.count self.count
    return ⟨memory.initializeFrom d s layout.stride (BitVec.ofInt _ n),
      ⟨some (s.advanced layout.stride (BitVec.ofInt _ n)),
        some (s.advanced layout.stride (BitVec.ofInt _ self.count))⟩, n⟩
  else .ok ⟨memory, UnsafeBufferPointer.makeIterator layout self, 0⟩

end Buffers

section Arrays

/-- The buffer of an array or of a slice, with the address that its indices count from. -/
structure ElementBuffer (word : WordSize) where
  subscriptBaseAddress : Address word
  startIndex : ℤ
  endIndex : ℤ

namespace ElementBuffer

/-- `count`. -/
def count (self : ElementBuffer word) : ℤ :=
  self.endIndex - self.startIndex

/-- `firstElementAddress`. -/
def firstElementAddress (stride : ℕ) (self : ElementBuffer word) : Address word :=
  self.subscriptBaseAddress.advanced stride (BitVec.ofInt _ self.startIndex)

/-- The elements of a buffer in memory, by the indices that pass the check of its subscript. -/
def collection (memory : Bytes word Byte) : Collection (ElementBuffer word) ℤ Element where
  startIndex := startIndex
  endIndex := endIndex
  indexAfter _ i := i + 1
  subscript self i :=
    memory.pointee layout
      (self.subscriptBaseAddress.advanced layout.stride (BitVec.ofInt _ i))
  equal lhs rhs := lhs == rhs

/-- `makeIterator()`. -/
def makeIterator (self : ElementBuffer word) : IndexingIterator (ElementBuffer word) ℤ :=
  ⟨self, self.startIndex⟩

end ElementBuffer

/-- `_copyContents(initializing:)` of `_ContiguousArrayBuffer`, whose indices start at zero. -/
def ContiguousArrayBuffer.copyContents (self : ElementBuffer word) (buffer : BufferPointer word)
    (memory : Bytes word Byte) :
    Except Failure (Updated word Byte (IndexingIterator (ElementBuffer word) ℤ)) :=
  if buffer.count > 0 then do
    let c := min self.count buffer.count
    let base ← buffer.start
    return ⟨memory.initializeFrom base (self.firstElementAddress layout.stride) layout.stride
      (BitVec.ofInt _ c), ⟨self, c⟩, c⟩
  else .ok ⟨memory, self.makeIterator, 0⟩

/--
`_copyContents(initializing:)` of `Array` and of `ArraySlice`, whose buffers are all contiguous.
The check of the count is a precondition, which does nothing.
-/
def ElementBuffer.copyContents (self : ElementBuffer word) (buffer : BufferPointer word)
    (memory : Bytes word Byte) : Updated word Byte (IndexingIterator (ElementBuffer word) ℤ) :=
  if self.startIndex == self.endIndex then ⟨memory, self.makeIterator, 0⟩
  else
    match buffer.baseAddress with
    | none => ⟨memory, self.makeIterator, 0⟩
    | some p =>
        ⟨memory.initializeFrom p (self.firstElementAddress layout.stride) layout.stride
          (BitVec.ofInt _ self.count), ⟨self, self.endIndex⟩, 0 + self.count⟩

/-- `_copyContents(initializing:)` of `Array`, whose indices start at zero. -/
def Array.copyContents (self : ElementBuffer word) :
    BufferPointer word → Bytes word Byte →
      Updated word Byte (IndexingIterator (ElementBuffer word) ℤ) :=
  ElementBuffer.copyContents layout self

/-- `_copyContents(initializing:)` of `ArraySlice`. -/
def ArraySlice.copyContents (self : ElementBuffer word) :
    BufferPointer word → Bytes word Byte →
      Updated word Byte (IndexingIterator (ElementBuffer word) ℤ) :=
  ElementBuffer.copyContents layout self

end Arrays

end Operations

section Specification

variable {word : WordSize} {Element Byte : Type} (layout : Layout Element Byte)

/-- The slots have the first elements of a list, and the iterator produces exactly the others. -/
structure Updated.Initializes {Iterator : Type} (updated : Updated word Byte Iterator)
    (next : Bytes word Byte → Iterator → Option (Element × Iterator))
    (buffer : BufferPointer word) (list : List Element) (memory : Bytes word Byte) : Prop where
  memory : updated.memory = buffer.filled layout list memory
  index : updated.index = min buffer.count list.length
  unwritten : Yields (next updated.memory) updated.unwritten (list.drop buffer.count.toNat)

/-- The elements of a list are stored in a region that does not overlap the slots of a buffer. -/
structure Bytes.Stores (memory : Bytes word Byte) (buffer : BufferPointer word)
    (base : Address word) (list : List Element) : Prop where
  nonzero : base ≠ 0
  representable : list.length < 2 ^ (word.bits - 1)
  fits : base.toNat + list.length * layout.stride ≤ 2 ^ word.bits
  holds : memory.Holds layout base list
  apart : ∀ start ∈ buffer.baseAddress,
    start.toNat + buffer.count.toNat * layout.stride ≤ base.toNat ∨
      base.toNat + list.length * layout.stride ≤ start.toNat

/-- A buffer of stored elements, which may be without a base address if there are none. -/
structure BufferPointer.Stores (source buffer : BufferPointer word) (list : List Element)
    (memory : Bytes word Byte) : Prop where
  count : source.count = list.length
  empty : source.baseAddress = none → list = []
  stored : ∀ base ∈ source.baseAddress, memory.Stores layout buffer base list

/-- A buffer of an array or of a slice with stored elements, the first of which is not null. -/
structure ElementBuffer.Stores (source : ElementBuffer word) (buffer : BufferPointer word)
    (list : List Element) (memory : Bytes word Byte) : Prop where
  count : source.count = list.length
  located : source.subscriptBaseAddress +
    BitVec.ofInt _ source.startIndex * BitVec.ofNat word.bits layout.stride ≠ 0
  stored : memory.Stores layout buffer (source.firstElementAddress layout.stride) list

end Specification

section Results

variable {word : WordSize} {Element Byte : Type} {layout : Layout Element Byte}
  {list : List Element} {memory : Bytes word Byte} {buffer : BufferPointer word}
  {base : Address word}

/-- Going on by one element inside a region. -/
theorem Address.element_succ {stride i : ℕ} (nonzero : base ≠ 0)
    (inside : base.toNat + (i + 1) * stride < 2 ^ word.bits) :
    (base.element stride i).advanced stride 1 = base.element stride (i + 1) := by
  rw [Nat.succ_mul] at inside
  have place : (base.element stride i).toNat = base.toNat + i * stride :=
    Address.toNat_add (by omega)
  have away := Address.element_ne_zero nonzero (show base.toNat + i * stride < _ by omega)
  have one : (1 : Value word .int) = BitVec.ofInt _ (1 : ℕ) := (BitVec.ofInt_natCast _ 1).symm
  rw [one, Address.advanced_element away (by omega), Address.element, Address.element,
    Address.element, Nat.one_mul, Nat.succ_mul, BitVec.ofNat_add, BitVec.add_assoc]

/-- Going to the end of a region that ends with the memory. -/
theorem Address.advanced_wrapped {stride n : ℕ}
    (wrapped : base.toNat + n * stride = 2 ^ word.bits) :
    base.advanced stride (BitVec.ofInt _ n) = base := by
  have offset := @distance_eq word stride n
  have null : base + BitVec.ofNat word.bits (n * stride) = 0 := by
    apply BitVec.eq_of_toNat_eq
    rw [BitVec.toNat_add, BitVec.toNat_ofNat, Nat.add_mod_mod, wrapped, Nat.mod_self]
    rfl
  simp only [advanced, offset, null]
  exact if_pos BEq.rfl

/-- Reading an element of a list that lies in memory. -/
theorem Bytes.Holds.pointee_element (holds : memory.Holds layout base list) {i : ℕ}
    (inside : i < list.length) :
    memory.pointee layout (base.element layout.stride i) = list[i] := by
  apply layout.value_eq
  intro k k_lt
  rw [Bytes.load, Address.element, BitVec.add_assoc, ← BitVec.ofNat_add]
  exact holds i inside k k_lt

theorem Bytes.Holds.take (holds : memory.Holds layout base list) (count : ℕ) :
    memory.Holds layout base (list.take count) := by
  intro i inside k k_lt
  rw [List.length_take] at inside
  rw [List.getElem_take]
  exact holds i (by omega) k k_lt

section Sequences

variable {Iterator : Type} {next : Iterator → Option (Element × Iterator)} {it : Iterator}

/-- From any index on, the loop stores what is left of the list in the slots that are left. -/
theorem copyLoop_eq {remaining i : ℕ} {ptr : Address word} (nonzero : base ≠ 0)
    (fits : base.toNat + (i + remaining) * layout.stride ≤ 2 ^ word.bits)
    (place : 0 < remaining → ptr = base.element layout.stride i)
    (yields : Yields next it (list.drop i)) (i_le : i ≤ list.length) :
    ∃ updated, copyLoop layout next (i + remaining : ℕ) (List.range' i remaining) it ptr
        (memory.holding layout base (list.take i)) = updated ∧
      updated.memory = memory.holding layout base (list.take (i + remaining)) ∧
      updated.index = min ((i + remaining : ℕ) : ℤ) list.length ∧
      Yields next updated.unwritten (list.drop (i + remaining)) := by
  induction remaining generalizing i it ptr with
  | zero =>
      refine ⟨_, rfl, rfl, ?_, yields⟩
      rw [Nat.add_zero, List.range'_zero, copyLoop]
      simp only
      omega
  | succ remaining shorter =>
      rw [List.range'_succ, copyLoop]
      by_cases ended : i = list.length
      · rw [ended, List.drop_length] at yields
        have stopped := yields.nil_inv
        rw [stopped]
        refine ⟨_, rfl, ?_, ?_, ?_⟩
        · rw [ended, List.take_length, List.take_of_length_le (by omega)]
        · simp only
          omega
        · rw [List.drop_of_length_le (by omega)]
          exact yields
      · have inside : i < list.length := by omega
        have shift : i + (remaining + 1) = i + 1 + remaining := by omega
        rw [List.drop_eq_getElem_cons inside] at yields
        rcases yields.cons_inv with ⟨later, pulled, rest⟩
        have length : (list.take i).length = i := List.length_take_of_le i_le
        have room := Nat.mul_le_mul_right layout.stride (show i + 1 ≤ i + (remaining + 1) by omega)
        have stored := @Bytes.put_holding word _ _ layout memory base (list.take i) list[i] (by
          rw [length]
          omega)
        rw [length, List.take_append_getElem inside] at stored
        rw [pulled]
        simp only
        rw [place (Nat.succ_pos _), stored, shift]
        rw [shift] at fits
        apply shorter fits _ rest inside
        intro more
        apply Address.element_succ nonzero
        have beyond := Nat.mul_le_mul_right layout.stride
          (show i + 1 + 1 ≤ i + 1 + remaining by omega)
        have positive := layout.stride_pos
        rw [Nat.succ_mul] at beyond
        omega

theorem Sequence.copyContents_initializes (valid : buffer.Valid layout)
    (yields : Yields next it list) :
    (Sequence.copyContents layout next it buffer memory).Initializes layout (fun _ => next)
      buffer list memory := by
  have number := Int.toNat_of_nonneg valid.nonnegative
  cases located : buffer.baseAddress with
  | none =>
      have none_ := valid.empty located
      rw [Sequence.copyContents, located]
      refine ⟨?_, ?_, ?_⟩
      · rw [BufferPointer.filled, located]
      · rw [none_]
        simp
      · rw [none_]
        exact yields
  | some base =>
      have region := valid.fits base located
      have loops := @copyLoop_eq word _ _ layout list memory base _ next it buffer.count.toNat 0
        base (valid.nonzero base located) (by rwa [Nat.zero_add])
        (fun _ => (Address.element_zero _).symm) yields (Nat.zero_le _)
      rw [Nat.zero_add, List.take_zero, Bytes.holding_nil, number, ← List.range_eq_range'] at loops
      rcases loops with ⟨updated, loops, written, index, rest⟩
      rw [Sequence.copyContents, located]
      simp only
      rw [loops]
      refine ⟨?_, index, rest⟩
      rw [BufferPointer.filled, located]
      exact written

end Sequences

section Bulk

variable (valid : buffer.Valid layout) (stores : memory.Stores layout buffer base list)

include valid stores

/-- A bulk copy of as many elements as there are slots. -/
theorem initializeFrom_filled {start : Address word} (located : start ∈ buffer.baseAddress)
    {count : ℤ} (counted : count = min buffer.count list.length) :
    memory.initializeFrom start base layout.stride (BitVec.ofInt _ count) =
      buffer.filled layout list memory := by
  have nonnegative := valid.nonnegative
  have region := valid.fits start located
  have region' := stores.fits
  have apart := stores.apart start located
  have representable := stores.representable
  have length : (list.take buffer.count.toNat).length = min buffer.count.toNat list.length :=
    List.length_take
  have number : count = ((list.take buffer.count.toNat).length : ℕ) := by
    rw [length]
    omega
  have counted' : toInt word .int (BitVec.ofInt _ count) =
      (list.take buffer.count.toNat).length := by
    rw [number, BitVec.ofInt_natCast]
    exact toInt_ofNat (show _ < 2 ^ (word.bits - 1) by omega)
  have slots := Nat.mul_le_mul_right layout.stride
    (show (list.take buffer.count.toNat).length ≤ buffer.count.toNat by omega)
  have elements := Nat.mul_le_mul_right layout.stride
    (show (list.take buffer.count.toNat).length ≤ list.length by omega)
  rw [BufferPointer.filled, located]
  exact Bytes.initializeFrom_holding counted' (stores.holds.take _) (by omega) (by omega)
    (by omega)

/-- The elements are still stored when the slots have been filled. -/
theorem Bytes.Stores.filled :
    (buffer.filled layout list memory).Stores layout buffer base list := by
  refine { stores with holds := ?_ }
  intro i inside k k_lt
  have region := stores.fits
  have room := Nat.mul_le_mul_right layout.stride (Nat.succ_le_of_lt inside)
  rw [Nat.succ_mul] at room
  rw [filled_outside, stores.holds i inside k k_lt]
  intro start located
  have apart := stores.apart start located
  have slots := Nat.mul_le_mul_right layout.stride
    (Nat.min_le_left buffer.count.toNat list.length)
  have place : (base + BitVec.ofNat word.bits (i * layout.stride + k)).toNat =
      base.toNat + (i * layout.stride + k) := Address.toNat_add (by omega)
  by_contra within
  have both := (Address.sub_lt_iff
    (show start.toNat + min buffer.count.toNat list.length * layout.stride ≤ 2 ^ word.bits by
      have fits := valid.fits start located
      omega)).mp (not_le.mp within)
  rw [Address.Within, place] at both
  omega

end Bulk

theorem filled_none (none_ : buffer.count = 0) : buffer.filled layout list memory = memory := by
  funext a
  apply filled_outside
  intro start _
  simp [none_]

section Buffers

/-- Pulling the elements of a region from any one of them on. -/
theorem BufferIterator.yields (nonzero : base ≠ 0)
    (inside : base.toNat + list.length * layout.stride < 2 ^ word.bits)
    (holds : memory.Holds layout base list) {i : ℕ} (i_le : i ≤ list.length) :
    Yields (BufferIterator.next layout memory)
      ⟨some (base.element layout.stride i), some (base.element layout.stride list.length)⟩
      (list.drop i) := by
  induction remaining : list.length - i generalizing i with
  | zero =>
      have here : i = list.length := by omega
      rw [here, List.drop_length]
      apply Yields.done
      simp [BufferIterator.next]
  | succ remaining fewer =>
      have before : i < list.length := by omega
      have room := Nat.mul_le_mul_right layout.stride (Nat.succ_le_of_lt before)
      have positive := layout.stride_pos
      rw [Nat.succ_mul] at room
      have differ : base.element layout.stride list.length ≠ base.element layout.stride i := by
        intro same
        have place := congrArg BitVec.toNat same
        rw [Address.element, Address.element, Address.toNat_add inside,
          Address.toNat_add (by omega)] at place
        omega
      have step : (base.element layout.stride i).advanced layout.stride 1 =
          base.element layout.stride (i + 1) :=
        Address.element_succ nonzero (by
          rw [Nat.succ_mul]
          omega)
      rw [List.drop_eq_getElem_cons before]
      apply Yields.step _ (fewer before (by omega))
      simp only [BufferIterator.next, Option.some_inj, differ, if_false]
      rw [holds.pointee_element before, step]

/-- An iterator that starts at its end, or that cannot arrive there, misses the elements. -/
theorem BufferIterator.not_yields (nonzero : base ≠ 0)
    (wrapped : base.toNat + list.length * layout.stride = 2 ^ word.bits) {i : ℕ}
    (inside : i < list.length) :
    ¬ Yields (BufferIterator.next layout memory)
      ⟨some (base.element layout.stride i), some base⟩ (list.drop i) := by
  induction remaining : list.length - i generalizing i with
  | zero => omega
  | succ remaining fewer =>
      intro yields
      have positive := layout.stride_pos
      have room := Nat.mul_le_mul_right layout.stride (Nat.succ_le_of_lt inside)
      rw [Nat.succ_mul] at room
      have place : (base.element layout.stride i).toNat = base.toNat + i * layout.stride :=
        Address.toNat_add (by omega)
      rw [List.drop_eq_getElem_cons inside] at yields
      rcases yields.cons_inv with ⟨later, pulled, rest⟩
      by_cases stopped : base = base.element layout.stride i
      · simp [BufferIterator.next, ← stopped] at pulled
      · simp only [BufferIterator.next, Option.some_inj, stopped, if_false, Prod.mk.injEq] at pulled
        rcases pulled with ⟨_, moved⟩
        by_cases more : i + 1 < list.length
        · have beyond := Nat.mul_le_mul_right layout.stride (Nat.succ_le_of_lt more)
          rw [Nat.succ_mul] at beyond
          rw [← moved, Address.element_succ nonzero (by omega)] at rest
          exact fewer more (by omega) rest
        · -- The pointer behind the last element would be null, so that it stays where it is.
          have last : list.length = i + 1 := by omega
          have one : (1 : Value word .int) = BitVec.ofInt _ (1 : ℕ) :=
            (BitVec.ofInt_natCast _ 1).symm
          rw [last, Nat.succ_mul] at wrapped
          rw [← moved, one, Address.advanced_wrapped (by omega),
            List.drop_of_length_le last.le] at rest
          have ended := rest.nil_inv
          simp [BufferIterator.next, stopped] at ended

/-- An iterator arrives at the end of a region, unless it is the end of the memory. -/
theorem BufferIterator.yields_iff (stores : memory.Stores layout buffer base list) {i : ℕ}
    (i_le : i ≤ list.length) :
    Yields (BufferIterator.next layout memory)
        ⟨some (base.advanced layout.stride (BitVec.ofInt _ i)),
          some (base.advanced layout.stride (BitVec.ofInt _ (list.length : ℤ)))⟩ (list.drop i) ↔
      (base.toNat + list.length * layout.stride = 2 ^ word.bits → i = list.length) := by
  have fits := stores.fits
  have room := Nat.mul_le_mul_right layout.stride i_le
  rcases Nat.lt_or_eq_of_le fits with inside | wrapped
  · rw [Address.advanced_element stores.nonzero inside,
      Address.advanced_element stores.nonzero (by omega)]
    refine iff_of_true ?_ fun wrapped => absurd wrapped (by omega)
    exact BufferIterator.yields stores.nonzero inside stores.holds i_le
  · rw [Address.advanced_wrapped wrapped]
    constructor
    · intro yields _
      by_contra differ
      have before : i < list.length := by omega
      have further := Nat.mul_le_mul_right layout.stride (Nat.succ_le_of_lt before)
      have positive := layout.stride_pos
      rw [Nat.succ_mul] at further
      rw [Address.advanced_element stores.nonzero (by omega)] at yields
      exact BufferIterator.not_yields stores.nonzero wrapped before yields
    · intro ended
      rw [ended wrapped, Address.advanced_wrapped wrapped, List.drop_length]
      apply Yields.done
      simp [BufferIterator.next]

/-- Both ways leave the iterator where the slots end, also if there is nothing to copy. -/
theorem UnsafeBufferPointer.copyContents_eq {source : BufferPointer word}
    (valid : buffer.Valid layout) (stores : source.Stores layout buffer list memory)
    (located : base ∈ source.baseAddress) :
    UnsafeBufferPointer.copyContents layout source buffer memory =
      .ok ⟨buffer.filled layout list memory,
        ⟨some (base.advanced layout.stride
            (BitVec.ofInt _ (min buffer.count.toNat list.length : ℕ))),
          some (base.advanced layout.stride (BitVec.ofInt _ (list.length : ℤ)))⟩,
        (min buffer.count.toNat list.length : ℕ)⟩ := by
  have nonnegative := valid.nonnegative
  have counted := stores.count
  have stored := stores.stored base located
  by_cases some_ : source.count ≠ 0 ∧ buffer.count ≠ 0
  · have test : (!(source.count == 0) && !(buffer.count == 0)) = true := by
      simpa using some_
    have number : min buffer.count source.count = (min buffer.count.toNat list.length : ℕ) := by
      omega
    rcases valid.exists_baseAddress (by omega) with ⟨start, located'⟩
    rw [UnsafeBufferPointer.copyContents, if_pos test, BufferPointer.start_eq located,
      BufferPointer.start_eq located', ← initializeFrom_filled valid stored located' rfl,
      ← counted, number]
    rfl
  · have test : ¬ (!(source.count == 0) && !(buffer.count == 0)) = true := by
      simpa using some_
    have none_ : min buffer.count.toNat list.length = 0 := by omega
    have same : buffer.filled layout list memory = memory := by
      funext a
      apply filled_outside
      intro start _
      rw [none_, Nat.zero_mul]
      exact Nat.zero_le _
    rw [UnsafeBufferPointer.copyContents, if_neg test, UnsafeBufferPointer.makeIterator, located,
      same, none_, counted, Address.advanced_element stored.nonzero (by
        rw [Nat.zero_mul]
        exact base.isLt), Address.element_zero]
    rfl

/-- A buffer that ends with the memory is only copied as a whole. -/
theorem UnsafeBufferPointer.initializes_iff {source : BufferPointer word}
    (valid : buffer.Valid layout) (stores : source.Stores layout buffer list memory) :
    (∃ updated, UnsafeBufferPointer.copyContents layout source buffer memory = .ok updated ∧
      updated.Initializes layout (BufferIterator.next layout) buffer list memory) ↔
      ∀ base ∈ source.baseAddress,
        base.toNat + list.length * layout.stride = 2 ^ word.bits → list.length ≤ buffer.count := by
  have nonnegative := valid.nonnegative
  have counted := stores.count
  cases located : source.baseAddress with
  | none =>
      have ended := stores.empty located
      subst ended
      have stopped : source.count = 0 := counted
      refine iff_of_true ⟨⟨memory, ⟨none, none⟩, 0⟩, ?_, ?_, ?_, ?_⟩ (by simp)
      · rw [UnsafeBufferPointer.copyContents, stopped, UnsafeBufferPointer.makeIterator, located]
        rfl
      · exact filled_nil.symm
      · simp only [List.length_nil, Nat.cast_zero]
        omega
      · rw [List.drop_nil]
        exact Yields.done rfl
  | some base =>
      have stored := stores.stored base located
      have calls := UnsafeBufferPointer.copyContents_eq valid stores located
      have i_le := Nat.min_le_right buffer.count.toNat list.length
      have arrives := BufferIterator.yields_iff (stored.filled valid) i_le
      rw [← List.drop_eq_drop_min] at arrives
      constructor
      · rintro ⟨updated, runs, initializes⟩ _ ⟨⟩ wrapped
        rw [calls] at runs
        cases runs
        have whole := arrives.mp initializes.unwritten wrapped
        omega
      · intro fits
        refine ⟨_, calls, rfl, ?_, arrives.mpr ?_⟩
        · simp only
          omega
        · intro wrapped
          have whole := fits base rfl wrapped
          omega

end Buffers

section Arrays

variable {source : ElementBuffer word} (valid : buffer.Valid layout)
  (stores : source.Stores layout buffer list memory)

theorem ElementBuffer.subscript_address {first : Address word}
    (first_eq : source.firstElementAddress layout.stride = first)
    (located : source.subscriptBaseAddress +
      BitVec.ofInt _ source.startIndex * BitVec.ofNat word.bits layout.stride ≠ 0)
    (nonzero : first ≠ 0) {i : ℕ} (inside : first.toNat + i * layout.stride < 2 ^ word.bits) :
    source.subscriptBaseAddress.advanced layout.stride
        (BitVec.ofInt _ (source.startIndex + i)) = first.element layout.stride i := by
  have moved : first = source.subscriptBaseAddress +
      BitVec.ofInt _ source.startIndex * BitVec.ofNat word.bits layout.stride := by
    rw [← first_eq, firstElementAddress]
    simp only [Address.advanced]
    exact if_neg (by simpa using located)
  have sum : source.subscriptBaseAddress + BitVec.ofInt (IntegerType.int.bitWidth word)
      (source.startIndex + i) * BitVec.ofNat word.bits layout.stride =
        first.element layout.stride i := by
    rw [Address.element, ← Address.distance_eq, moved, BitVec.ofInt_add, BitVec.add_assoc]
    exact congrArg (_ + ·) BitVec.add_mul
  have away := Address.element_ne_zero nonzero inside
  simp only [Address.advanced, sum]
  exact if_neg (by simpa using away)

/-- The elements of a buffer are numbered from its start index on. -/
theorem ElementBuffer.listed (located : source.subscriptBaseAddress +
      BitVec.ofInt _ source.startIndex * BitVec.ofNat word.bits layout.stride ≠ 0)
    (counted : source.count = list.length)
    (stored : memory.Stores layout buffer (source.firstElementAddress layout.stride) list) :
    Listed (ElementBuffer.collection layout memory) source list
      fun i => source.startIndex + i := by
  constructor
  · simp [collection]
  · simp only [collection]
    rw [count] at counted
    omega
  · simp [collection]
  · intro i _
    simp only [collection]
    push_cast
    omega
  · intro i inside
    have fits := stored.fits
    have room := Nat.mul_le_mul_right layout.stride (Nat.succ_le_of_lt inside)
    have positive := layout.stride_pos
    rw [Nat.succ_mul] at room
    simp only [collection]
    rw [ElementBuffer.subscript_address rfl located stored.nonzero (by omega),
      stored.holds.pointee_element inside]

variable (valid : buffer.Valid layout) (stores : source.Stores layout buffer list memory)

include valid stores

/-- The elements are numbered when the slots have been filled, too. -/
theorem ElementBuffer.Stores.listed_filled :
    Listed (ElementBuffer.collection layout (buffer.filled layout list memory)) source list
      fun i => source.startIndex + i :=
  ElementBuffer.listed stores.located stores.count (stores.stored.filled valid)

/-- The elements from an index on, when the slots have been filled. -/
theorem ElementBuffer.Stores.yields_filled {i : ℕ} (i_le : i ≤ list.length) {position : ℤ}
    (place : position = source.startIndex + i) :
    Yields (IndexingIterator.next
        (ElementBuffer.collection layout (buffer.filled layout list memory)))
      ⟨source, position⟩ (list.drop i) := by
  rw [place]
  exact (stores.listed_filled valid).yields_drop i_le

theorem ContiguousArrayBuffer.copyContents_initializes (zero : source.startIndex = 0) :
    ∃ updated, ContiguousArrayBuffer.copyContents layout source buffer memory = .ok updated ∧
      updated.Initializes layout
        (fun memory => IndexingIterator.next (ElementBuffer.collection layout memory)) buffer list
        memory := by
  have counted := stores.count
  have nonnegative := valid.nonnegative
  rw [ContiguousArrayBuffer.copyContents]
  split
  · rename_i some_
    rcases valid.exists_baseAddress some_ with ⟨start, located⟩
    have length : min source.count buffer.count = min buffer.count list.length := by omega
    rw [BufferPointer.start_eq located]
    refine ⟨_, rfl, initializeFrom_filled valid stores.stored located length, length, ?_⟩
    simp only
    rw [initializeFrom_filled valid stores.stored located length, List.drop_eq_drop_min]
    apply stores.yields_filled valid (Nat.min_le_right _ _)
    omega
  · rename_i none_
    have ended : buffer.count = 0 := by omega
    refine ⟨_, rfl, (filled_none ended).symm, ?_, ?_⟩
    · simp only
      omega
    · have walked := stores.yields_filled valid (Nat.zero_le _)
        (show source.startIndex = source.startIndex + (0 : ℕ) by simp)
      rw [filled_none ended] at walked
      rw [ended]
      exact walked

/-- All elements are copied, if there is a slot for every one or no base address at all. -/
theorem ElementBuffer.initializes_iff :
    (ElementBuffer.copyContents layout source buffer memory).Initializes layout
        (fun memory => IndexingIterator.next (ElementBuffer.collection layout memory)) buffer list
        memory ↔
      list.length ≤ buffer.count ∨ buffer.baseAddress = none := by
  have counted := stores.count
  have nonnegative := valid.nonnegative
  rw [ElementBuffer.count] at counted
  have untouched := stores.yields_filled valid (Nat.zero_le _)
    (show source.startIndex = source.startIndex + (0 : ℕ) by simp)
  rw [ElementBuffer.copyContents]
  split
  · rename_i empty
    have same : source.startIndex = source.endIndex := by simpa using empty
    have ended : list = [] := List.length_eq_zero_iff.mp (by omega)
    subst ended
    refine iff_of_true ⟨filled_nil.symm, ?_, ?_⟩ (Or.inl nonnegative)
    · simp only [List.length_nil]
      omega
    · rw [filled_nil] at untouched
      rw [List.drop_nil]
      exact untouched
  · cases located : buffer.baseAddress with
    | none =>
        have ended := valid.empty located
        refine iff_of_true ⟨(filled_none ended).symm, ?_, ?_⟩ (Or.inr rfl)
        · simp only
          omega
        · rw [filled_none ended] at untouched
          rw [ended]
          exact untouched
    | some start =>
        simp only
        constructor
        · intro initializes
          have index := initializes.index
          simp only [ElementBuffer.count] at index
          omega
        · rintro (fits | nowhere)
          · have length : source.count = min buffer.count list.length := by
              rw [ElementBuffer.count]
              omega
            have copied := initializeFrom_filled valid stores.stored located length
            refine ⟨copied, ?_, ?_⟩
            · simp only
              omega
            · simp only
              rw [copied, List.drop_of_length_le (by omega), ← List.drop_length (l := list)]
              apply stores.yields_filled valid le_rfl
              omega
          · cases nowhere

end Arrays

section Implementations

/--
The loop and `_ContiguousArrayBuffer` fill the slots that there are. A buffer that ends with the
memory is only copied as a whole, because the pointer to its end is null, and `Array` and
`ArraySlice` copy all of their elements over the end of a buffer.
-/
theorem copyContents_initializes_iff (valid : buffer.Valid layout) :
    (∀ (Iterator : Type) (next : Iterator → Option (Element × Iterator)) (it : Iterator),
      Yields next it list →
        (Sequence.copyContents layout next it buffer memory).Initializes layout (fun _ => next)
          buffer list memory) ∧
    (∀ contents : BufferPointer word, contents.Stores layout buffer list memory →
      ((∃ updated,
        UnsafeBufferPointer.copyContents layout contents buffer memory = .ok updated ∧
          updated.Initializes layout (BufferIterator.next layout) buffer list memory) ↔
        ∀ base ∈ contents.baseAddress,
          base.toNat + list.length * layout.stride = 2 ^ word.bits →
            list.length ≤ buffer.count)) ∧
    (∀ array : ElementBuffer word, array.Stores layout buffer list memory →
      array.startIndex = 0 →
        (∃ updated, ContiguousArrayBuffer.copyContents layout array buffer memory = .ok updated ∧
          updated.Initializes layout
            (fun memory => IndexingIterator.next (ElementBuffer.collection layout memory)) buffer
            list memory) ∧
        ((Array.copyContents layout array buffer memory).Initializes layout
            (fun memory => IndexingIterator.next (ElementBuffer.collection layout memory)) buffer
            list memory ↔
          list.length ≤ buffer.count ∨ buffer.baseAddress = none)) ∧
    (∀ slice : ElementBuffer word, slice.Stores layout buffer list memory →
      ((ArraySlice.copyContents layout slice buffer memory).Initializes layout
          (fun memory => IndexingIterator.next (ElementBuffer.collection layout memory)) buffer
          list memory ↔
        list.length ≤ buffer.count ∨ buffer.baseAddress = none)) := by
  refine ⟨?_, ?_, ?_, ?_⟩
  · intro Iterator next it yields
    exact Sequence.copyContents_initializes valid yields
  · intro contents pointed
    exact UnsafeBufferPointer.initializes_iff valid pointed
  · intro array stores zero
    exact ⟨ContiguousArrayBuffer.copyContents_initializes valid stores zero,
      ElementBuffer.initializes_iff valid stores⟩
  · intro slice stores
    exact ElementBuffer.initializes_iff valid stores

end Implementations

/-- Two pairs in memory, apart from slots at the address 0x100. -/
theorem stores_pairs {count : ℤ} (small : count ≤ 3) :
    Bytes.Stores .pair (Bytes.holding .pair 0x200 [(1, 2), (3, 4)] fun _ => some 0)
      (⟨some 0x100, count⟩ : BufferPointer .word16) 0x200 [((1, 2) : ℕ × ℕ), (3, 4)] := by
  refine ⟨by decide, by decide, by decide, by decide, ?_⟩
  rintro start ⟨⟩
  left
  have slots := Nat.mul_le_mul_right 2 (show count.toNat ≤ 3 by omega)
  change 0x100 + count.toNat * 2 ≤ 0x200
  omega

/-- Two pairs of a sequence, and a slice of two pairs in memory, copied to three slots. -/
theorem copyContents_initializes_pairs :
    (Sequence.copyContents .pair (IndexingIterator.next offsetCollection)
      ⟨[((1, 2) : ℕ × ℕ), (3, 4)], 0⟩ (⟨some 0x100, 3⟩ : BufferPointer .word16)
      fun _ => some 0).Initializes .pair (fun _ => IndexingIterator.next offsetCollection)
        ⟨some 0x100, 3⟩ [((1, 2) : ℕ × ℕ), (3, 4)] (fun _ => some 0) ∧
    (ArraySlice.copyContents .pair ⟨0x1F0, 8, 10⟩ (⟨some 0x100, 3⟩ : BufferPointer .word16)
      (Bytes.holding .pair 0x200 [(1, 2), (3, 4)] fun _ => some 0)).Initializes .pair
        (fun memory => IndexingIterator.next (ElementBuffer.collection .pair memory))
        ⟨some 0x100, 3⟩ [((1, 2) : ℕ × ℕ), (3, 4)]
        (Bytes.holding .pair 0x200 [(1, 2), (3, 4)] fun _ => some 0) := by
  have valid : BufferPointer.Valid (.pair : Layout (ℕ × ℕ) ℕ)
      (⟨some 0x100, 3⟩ : BufferPointer .word16) :=
    ⟨by decide, by decide, by simp, by rintro _ ⟨⟩; decide, by rintro _ ⟨⟩; decide⟩
  have stored := @stores_pairs 3 (by decide)
  have stores : ElementBuffer.Stores .pair (⟨0x1F0, 8, 10⟩ : ElementBuffer .word16) _ _ _ :=
    ⟨rfl, by decide, stored⟩
  constructor
  · exact (copyContents_initializes_iff valid).1 _ _ _ (listed_offsets _).yields
  · refine ((copyContents_initializes_iff valid).2.2.2 _ stores).mpr (Or.inl ?_)
    decide

/-- An array of two pairs, copied to one slot: the second pair is stored behind the buffer. -/
theorem not_copyContents_initializes :
    let buffer : BufferPointer .word16 := ⟨some 0x100, 1⟩
    let memory := Bytes.holding .pair 0x200 [((1, 2) : ℕ × ℕ), (3, 4)] fun _ => some 0
    buffer.Valid (.pair : Layout (ℕ × ℕ) ℕ) ∧
      ElementBuffer.Stores .pair ⟨0x200, 0, 2⟩ buffer [(1, 2), (3, 4)] memory ∧
      (Array.copyContents .pair ⟨0x200, 0, 2⟩ buffer memory).memory 0x102 = some 3 ∧
      memory 0x102 = some 0 ∧
      ¬ (Array.copyContents .pair ⟨0x200, 0, 2⟩ buffer memory).Initializes .pair
        (fun memory => IndexingIterator.next (ElementBuffer.collection .pair memory)) buffer
        [(1, 2), (3, 4)] memory := by
  intro buffer memory
  refine ⟨⟨by decide, by decide, by simp [buffer], ?_, ?_⟩,
    ⟨rfl, by decide, stores_pairs (by decide)⟩, rfl, by decide, ?_⟩
  · rintro _ ⟨⟩
    decide
  · rintro _ ⟨⟩
    decide
  · intro initializes
    have index := initializes.index
    exact absurd index (by decide)

end Results

end USwift
