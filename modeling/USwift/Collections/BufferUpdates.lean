import USwift.Collections.BufferPointers
import USwift.Collections.Listed

/-!
# Updating buffers from sequences

`update(from:)` of `UnsafeMutableBufferPointer` and of `MutableSpan`, and
`initializeMemory(as:from:)` of `UnsafeMutableRawBufferPointer`, write the elements of an
iterator to the slots of a buffer until one of both ends. The raw buffer finds its slots by a
stride over pointers, whose end lies before the base address by almost a stride if the buffer
is empty.
-/

namespace USwift

open Iteration

section Pointers

variable {word : WordSize}

/-- `StrideToIterator` over raw pointers. -/
structure PointerStride (word : WordSize) where
  _end : Address word
  _stride : Value word .int
  current : Address word

/-- `StrideToIterator.next()`. -/
def PointerStride.next (self : PointerStride word) : Option (Address word × PointerStride word) :=
  let result := self.current
  if (if less word .int 0 self._stride then !result.less self._end
      else !self._end.less result) then none
  else some (result, { self with current := result.advanced 1 self._stride })

/-- `_position` and `_end`, of which `init(start:count:)` sets both or neither. -/
structure RawBufferPointer (word : WordSize) where
  bounds : Option (Address word × Address word)

/-- `count`. -/
def RawBufferPointer.count (self : RawBufferPointer word) : Value word .int :=
  match self.bounds with
  | some (_position, _end) => _end - _position
  | none => 0

end Pointers

section Operations

variable {word : WordSize} {Element Byte Iterator : Type} (layout : Layout Element Byte)
  (next : Iterator → Option (Element × Iterator))

/-- What is left by an update: the memory, the iterator and the index behind the last element. -/
structure Updated (word : WordSize) (Byte Iterator : Type) where
  memory : Bytes word Byte
  unwritten : Iterator
  index : ℤ

namespace BufferPointer

/-- `_unsafelyUnwrappedUnchecked` of the base address. -/
def start (self : BufferPointer word) : Except Failure (Address word) :=
  match self.baseAddress with
  | some base => .ok base
  | none => .error .undefined

/-- The address that the subscript of `UnsafeMutablePointer` uses. -/
def elementAddress (stride : ℕ) (self : BufferPointer word) (i : ℤ) :
    Except Failure (Address word) := do
  let base ← self.start
  return base.advanced stride (BitVec.ofInt _ i)

/-- `_unsafeAddressOfElement(unchecked:)` of `MutableSpan`. -/
def unsafeAddressOfElement (stride : ℕ) (self : BufferPointer word) (position : ℤ) :
    Except Failure (Address word) := do
  let base ← self.start
  let elementOffset : Value word .int := BitVec.ofInt _ position * BitVec.ofNat word.bits stride
  return base.advanced 1 elementOffset

end BufferPointer

/-- The loop of both `update(from:)`, which differ in how they find the address of an element. -/
def updateLoop (address : ℤ → Except Failure (Address word)) (count index : ℤ)
    (iterator : Iterator) (memory : Bytes word Byte) :
    Except Failure (Updated word Byte Iterator) :=
  if index < count then
    match next iterator with
    | none => .ok ⟨memory, iterator, index⟩
    | some (element, iterator) => do
        let pointer ← address index
        updateLoop address count (index + 1) iterator (memory.put pointer layout element)
  else .ok ⟨memory, iterator, index⟩
termination_by (count - index).toNat

/-- `update(from:)` of `UnsafeMutableBufferPointer`. -/
def UnsafeMutableBufferPointer.update (self : BufferPointer word) (source : Iterator)
    (memory : Bytes word Byte) : Except Failure (Updated word Byte Iterator) :=
  if self.count == 0 then .ok ⟨memory, source, 0⟩
  else updateLoop layout next (self.elementAddress layout.stride) self.count 0 source memory

/-- `update(from:)` of `MutableSpan`. -/
def MutableSpan.update (self : BufferPointer word) (source : Iterator)
    (memory : Bytes word Byte) : Except Failure (Updated word Byte Iterator) :=
  updateLoop layout next (self.unsafeAddressOfElement layout.stride) self.count 0 source memory

/-- The loop of `initializeMemory(as:from:)`, for at most a number of rounds. -/
def initializeLoop :
    ℕ → PointerStride word → Iterator → ℤ → Bytes word Byte →
      Option (Updated word Byte Iterator)
  | 0, _, _, _, _ => none
  | fuel + 1, places, it, idx, memory =>
      match places.next with
      | none => some ⟨memory, it, idx⟩
      | some (p, places) =>
          match next it with
          | none => some ⟨memory, it, idx⟩
          | some (x, it) =>
              initializeLoop fuel places it (idx + layout.stride) (memory.put p layout x)

/-- `initializeMemory(as:from:)`, with the memory, `unwritten` and `initialized`. -/
def RawBufferPointer.initializeMemory (fuel : ℕ) (self : RawBufferPointer word)
    (source : Iterator) (memory : Bytes word Byte) :
    Option (Bytes word Byte × Iterator × BufferPointer word) :=
  let elementStride : Value word .int := BitVec.ofNat _ layout.stride
  match self.bounds with
  | none => some (memory, source, ⟨none, 0⟩)
  | some (base, _) => do
      let _end := ((base.advanced 1 self.count).advanced 1 (-elementStride)).advanced 1 1
      let reached ← initializeLoop layout next fuel ⟨_end, elementStride, base⟩ source 0 memory
      return (reached.memory, reached.unwritten, ⟨some base, reached.index / layout.stride⟩)

end Operations

section Specification

variable {word : WordSize} {Element Byte Iterator : Type} (layout : Layout Element Byte)
  (next : Iterator → Option (Element × Iterator))

/-- A memory with the first elements of a list in the slots of a buffer. -/
def BufferPointer.filled (self : BufferPointer word) (list : List Element)
    (memory : Bytes word Byte) : Bytes word Byte :=
  match self.baseAddress with
  | some base => memory.holding layout base (list.take self.count.toNat)
  | none => memory

/-- The first elements of a list are in the slots of a buffer, and the iterator has the others. -/
structure Updated.Fills (updated : Updated word Byte Iterator) (buffer : BufferPointer word)
    (list : List Element) (memory : Bytes word Byte) : Prop where
  memory : updated.memory = buffer.filled layout list memory
  index : updated.index = min buffer.count list.length
  unwritten : buffer.count < list.length →
    Yields next updated.unwritten (list.drop buffer.count.toNat)

/-- The slots of a raw buffer, without the bytes of a slot that does not fit. -/
def RawBufferPointer.slots (self : RawBufferPointer word) : BufferPointer word :=
  ⟨self.bounds.map Prod.fst, toInt word .int self.count / layout.stride⟩

/-- A raw buffer whose bytes are counted by an `Int`, at least one stride above the null pointer. -/
structure RawBufferPointer.Valid (raw : RawBufferPointer word) : Prop where
  stride_lt : layout.stride < 2 ^ (word.bits - 1)
  ordered : ∀ bounds ∈ raw.bounds, bounds.1.toNat ≤ bounds.2.toNat
  representable : ∀ bounds ∈ raw.bounds,
    bounds.2.toNat - bounds.1.toNat < 2 ^ (word.bits - 1)
  high : ∀ bounds ∈ raw.bounds, layout.stride ≤ bounds.1.toNat

/-- What `initializeMemory(as:from:)` returns, with the index behind the last element. -/
def Updated.ofResult (result : Bytes word Byte × Iterator × BufferPointer word) :
    Updated word Byte Iterator :=
  ⟨result.1, result.2.1, result.2.2.count⟩

/-- The slots of a raw buffer are filled, and the buffer that is returned starts with the first. -/
def RawBufferPointer.InitializesMemory (raw : RawBufferPointer word) (source : Iterator)
    (list : List Element) (memory : Bytes word Byte) : Prop :=
  ∀ fuel : ℕ, (raw.slots layout).count + 1 < fuel →
    ∃ result, raw.initializeMemory layout next fuel source memory = some result ∧
      (Updated.ofResult result).Fills layout next (raw.slots layout) list memory ∧
      result.2.2.baseAddress = (raw.slots layout).baseAddress

end Specification

section Results

variable {word : WordSize} {Element Byte Iterator : Type} {layout : Layout Element Byte}
  {next : Iterator → Option (Element × Iterator)} {list : List Element}
  {iterator : Iterator} {memory : Bytes word Byte} {base : Address word}

section Loop

variable {address : ℤ → Except Failure (Address word)} {count i : ℕ}

/-- From any slot on, the loop writes what is left of the list to what is left of the slots. -/
theorem updateLoop_eq
    (addresses : ∀ k < count, address k = .ok (base.element layout.stride k))
    (fits : count * layout.stride ≤ 2 ^ word.bits) (yields : Yields next iterator (list.drop i))
    (i_le : i ≤ count) (i_le' : i ≤ list.length) :
    ∃ updated, updateLoop layout next address count i iterator
        (memory.holding layout base (list.take i)) = .ok updated ∧
      updated.memory = memory.holding layout base (list.take count) ∧
      updated.index = min count list.length ∧
      (count < list.length → Yields next updated.unwritten (list.drop count)) := by
  induction remaining : count - i generalizing i iterator with
  | zero =>
      have full : i = count := by omega
      subst full
      rw [updateLoop, if_neg (lt_irrefl _)]
      refine ⟨_, rfl, rfl, ?_, fun _ => yields⟩
      simp only
      omega
  | succ remaining fewer =>
      have room : i < count := by omega
      rw [updateLoop, if_pos (by omega)]
      by_cases ended : i = list.length
      · rw [ended, List.drop_length] at yields
        rw [yields.nil_inv]
        refine ⟨_, rfl, ?_, ?_, ?_⟩
        · rw [ended, List.take_length, List.take_of_length_le (by omega)]
        · simp only
          omega
        · omega
      · have inside : i < list.length := by omega
        rw [List.drop_eq_getElem_cons inside] at yields
        rcases yields.cons_inv with ⟨later, pulled, rest⟩
        have length : (list.take i).length = i := List.length_take_of_le i_le'
        have next_fits : (i + 1) * layout.stride ≤ 2 ^ word.bits :=
          (Nat.mul_le_mul_right _ room).trans fits
        have stored := @Bytes.put_holding word _ _ layout memory base (list.take i) list[i] (by
          rwa [length])
        rw [length, List.take_append_getElem inside] at stored
        rcases fewer rest room inside (by omega) with ⟨updated, loops, filled⟩
        refine ⟨updated, ?_, filled⟩
        push_cast at loops
        rw [pulled]
        simp only
        rw [addresses i room, ← loops, ← stored]
        rfl

end Loop

section Typed

variable {buffer : BufferPointer word} {source : Iterator}

/-- A loop over the slots of a buffer, if it finds the address of every slot. -/
theorem updateLoop_fills (valid : buffer.Valid layout) (yields : Yields next source list)
    {address : ℤ → Except Failure (Address word)}
    (addresses : ∀ base ∈ buffer.baseAddress, ∀ k < buffer.count.toNat,
      address k = .ok (base.element layout.stride k)) :
    ∃ updated, updateLoop layout next address buffer.count 0 source memory = .ok updated ∧
      updated.Fills layout next buffer list memory := by
  have number := Int.toNat_of_nonneg valid.nonnegative
  cases located : buffer.baseAddress with
  | none =>
      have none_ := valid.empty located
      rw [updateLoop, none_, if_neg (lt_irrefl _)]
      refine ⟨_, rfl, ?_, ?_, ?_⟩
      · simp only [BufferPointer.filled, located]
      · simp only [none_]
        omega
      · intro _
        rw [none_]
        exact yields
  | some base =>
      have region := valid.fits base located
      have runs := @updateLoop_eq _ _ _ _ layout next list source memory base address
        buffer.count.toNat 0 (addresses base located) (by omega) yields (by omega) (by omega)
      rw [List.take_zero, Bytes.holding_nil, Nat.cast_zero, number] at runs
      rcases runs with ⟨updated, loops, written, index, rest⟩
      refine ⟨updated, loops, ?_, ?_, ?_⟩
      · rw [written]
        simp only [BufferPointer.filled, located]
      · rw [index, Nat.cast_min, number]
      · intro more
        exact rest (by omega)

theorem BufferPointer.start_eq {base : Address word} (located : base ∈ buffer.baseAddress) :
    buffer.start = .ok base := by
  rw [start, located]

theorem elementAddress_eq (valid : buffer.Valid layout) {base : Address word}
    (located : base ∈ buffer.baseAddress) {k : ℕ} (inside : k < buffer.count.toNat) :
    buffer.elementAddress layout.stride k = .ok (base.element layout.stride k) := by
  have region := valid.fits base located
  have room := Nat.mul_le_mul_right layout.stride (Nat.succ_le_of_lt inside)
  have positive := layout.stride_pos
  rw [Nat.succ_mul] at room
  have placed := Address.advanced_element (valid.nonzero base located)
    (show base.toNat + k * layout.stride < 2 ^ word.bits by omega)
  rw [BufferPointer.elementAddress, BufferPointer.start_eq located, ← placed]
  rfl

theorem unsafeAddressOfElement_eq (valid : buffer.Valid layout) {base : Address word}
    (located : base ∈ buffer.baseAddress) {k : ℕ} (inside : k < buffer.count.toNat) :
    buffer.unsafeAddressOfElement layout.stride k = .ok (base.element layout.stride k) := by
  have one : BitVec.ofInt (IntegerType.int.bitWidth word) k *
      BitVec.ofNat word.bits layout.stride * BitVec.ofNat word.bits 1 =
        BitVec.ofInt (IntegerType.int.bitWidth word) k * BitVec.ofNat word.bits layout.stride :=
    BitVec.mul_one _
  have same (base : Address word) :
      base.advanced 1 (BitVec.ofInt _ k * BitVec.ofNat word.bits layout.stride) =
        base.advanced layout.stride (BitVec.ofInt _ k) := by
    simp only [Address.advanced, one]
  rw [← elementAddress_eq valid located inside, BufferPointer.unsafeAddressOfElement,
    BufferPointer.elementAddress, BufferPointer.start_eq located]
  exact congrArg Except.ok (same base)

theorem UnsafeMutableBufferPointer.update_fills (valid : buffer.Valid layout)
    (yields : Yields next source list) :
    ∃ updated, UnsafeMutableBufferPointer.update layout next buffer source memory = .ok updated ∧
      updated.Fills layout next buffer list memory := by
  rw [UnsafeMutableBufferPointer.update]
  have loops := @updateLoop_fills _ _ _ _ _ next list memory _ _ valid yields _
    fun base located k inside => elementAddress_eq valid located inside
  split
  · rename_i none_
    have none_ : buffer.count = 0 := by simpa using none_
    rw [updateLoop, none_, if_neg (lt_irrefl _)] at loops
    exact loops
  · exact loops

theorem MutableSpan.update_fills (valid : buffer.Valid layout) (yields : Yields next source list) :
    ∃ updated, MutableSpan.update layout next buffer source memory = .ok updated ∧
      updated.Fills layout next buffer list memory :=
  updateLoop_fills valid yields fun _ located _ inside =>
    unsafeAddressOfElement_eq valid located inside

end Typed

section Raw

variable {raw : RawBufferPointer word} {source : Iterator} {limit : Address word}
  {count capacity fuel i : ℕ}

/-- Striding over the slots of a region of bytes, up to the last slot that fits. -/
theorem PointerStride.next_eq (stride_lt : layout.stride < 2 ^ (word.bits - 1))
    (inside : base.toNat + count < 2 ^ word.bits) (low : layout.stride ≤ base.toNat)
    (limited : limit.toNat = base.toNat + count - layout.stride + 1)
    (i_le : i * layout.stride ≤ count) :
    PointerStride.next ⟨limit, BitVec.ofNat _ layout.stride, base.element layout.stride i⟩ =
      if (i + 1) * layout.stride ≤ count then
        some (base.element layout.stride i,
          ⟨limit, BitVec.ofNat _ layout.stride, base.element layout.stride (i + 1)⟩)
      else none := by
  have positive := layout.stride_pos
  have upward : less word .int 0 (BitVec.ofNat _ layout.stride) = true := by
    rw [less_iff, toInt_zero, toInt_ofNat stride_lt]
    omega
  have place : (base.element layout.stride i).toNat = base.toNat + i * layout.stride :=
    Address.toNat_add (by omega)
  have test : (!(base.element layout.stride i).less limit) = true ↔
      ¬ (i + 1) * layout.stride ≤ count := by
    rw [Bool.not_eq_true', ← Bool.not_eq_true, Address.less_iff, place, limited, Nat.succ_mul]
    omega
  simp only [PointerStride.next, upward, if_true, test]
  by_cases more : (i + 1) * layout.stride ≤ count
  · have away : base.element layout.stride i ≠ 0 := by
      intro null
      rw [null] at place
      change 0 = _ at place
      omega
    rw [Nat.succ_mul] at more
    have behind := @Address.advanced_element word (base.element layout.stride i) 1 layout.stride
      away (by omega)
    have step : (base.element layout.stride i).element 1 layout.stride =
        base.element layout.stride (i + 1) := by
      rw [Address.element, Address.element, Address.element, Nat.mul_one, Nat.succ_mul,
        BitVec.ofNat_add, BitVec.add_assoc]
    rw [BitVec.ofInt_natCast, step] at behind
    rw [Nat.succ_mul, if_neg (not_not.mpr more), if_pos more, behind]
  · rw [if_pos more, if_neg more]

/-- From any slot on, the loop writes what is left of the list to the slots that fit. -/
theorem initializeLoop_eq (stride_lt : layout.stride < 2 ^ (word.bits - 1))
    (inside : base.toNat + count < 2 ^ word.bits) (low : layout.stride ≤ base.toNat)
    (limited : limit.toNat = base.toNat + count - layout.stride + 1)
    (yields : Yields next iterator (list.drop i)) (i_le : i ≤ count / layout.stride)
    (i_le' : i ≤ list.length) (enough : count / layout.stride - i < fuel) :
    ∃ updated, initializeLoop layout next fuel
        ⟨limit, BitVec.ofNat _ layout.stride, base.element layout.stride i⟩ iterator
        (i * layout.stride : ℕ) (memory.holding layout base (list.take i)) = some updated ∧
      updated.memory = memory.holding layout base (list.take (count / layout.stride)) ∧
      updated.index = (min (count / layout.stride) list.length * layout.stride : ℕ) ∧
      (count / layout.stride < list.length →
        Yields next updated.unwritten (list.drop (count / layout.stride))) := by
  have positive := layout.stride_pos
  induction fuel generalizing i iterator with
  | zero => omega
  | succ fuel fewer =>
      have place := (Nat.le_div_iff_mul_le positive).mp i_le
      rw [initializeLoop, PointerStride.next_eq stride_lt inside low limited place]
      by_cases room : (i + 1) * layout.stride ≤ count
      · have room' : i + 1 ≤ count / layout.stride := (Nat.le_div_iff_mul_le positive).mpr room
        rw [if_pos room]
        by_cases ended : i = list.length
        · rw [ended, List.drop_length] at yields
          rw [yields.nil_inv]
          refine ⟨_, rfl, ?_, ?_, ?_⟩
          · rw [ended, List.take_length, List.take_of_length_le (by omega)]
          · rw [ended, Nat.min_eq_right (by omega)]
          · omega
        · have more : i < list.length := by omega
          rw [List.drop_eq_getElem_cons more] at yields
          rcases yields.cons_inv with ⟨later, pulled, rest⟩
          have length : (list.take i).length = i := List.length_take_of_le i_le'
          have stored := @Bytes.put_holding word _ _ layout memory base (list.take i) list[i] (by
            rw [length]
            omega)
          rw [length, List.take_append_getElem more] at stored
          rcases fewer rest room' more (by omega) with ⟨updated, loops, filled⟩
          refine ⟨updated, ?_, filled⟩
          rw [Nat.succ_mul, Nat.cast_add] at loops
          rw [pulled, ← loops, ← stored]
      · have full : i = count / layout.stride := by
          by_contra less
          exact room ((Nat.le_div_iff_mul_le positive).mp (by omega))
        rw [if_neg room, ← full]
        refine ⟨_, rfl, rfl, ?_, fun _ => yields⟩
        rw [Nat.min_eq_left i_le']

/-- A stride that does not exceed an address fits in a word. -/
theorem toNat_stride (low : layout.stride ≤ base.toNat) :
    (BitVec.ofNat word.bits layout.stride).toNat = layout.stride := by
  have high := base.isLt
  rw [BitVec.toNat_ofNat, Nat.mod_eq_of_lt (by omega)]

theorem toNat_sub_stride (low : layout.stride ≤ base.toNat) :
    (base - BitVec.ofNat word.bits layout.stride).toNat = base.toNat - layout.stride := by
  have size := toNat_stride low
  rw [Address.toNat_sub (by omega), size]

section Limit

variable {first last : Address word} (ordered : first.toNat ≤ last.toNat)
  (low : layout.stride ≤ first.toNat)

include ordered low

theorem advanced_count (representable : last.toNat - first.toNat < 2 ^ (word.bits - 1)) :
    toInt word .int (last - first) = (last.toNat - first.toNat : ℕ) ∧
      first.advanced 1 (last - first) = last := by
  have positive := layout.stride_pos
  have high := last.isLt
  have size : last - first = BitVec.ofNat word.bits (last.toNat - first.toNat) := by
    apply BitVec.eq_of_toNat_eq
    rw [Address.toNat_sub ordered, BitVec.toNat_ofNat, Nat.mod_eq_of_lt (by omega)]
  have nonzero : first ≠ 0 := by
    rintro rfl
    change layout.stride ≤ 0 at low
    omega
  have moved := @Address.advanced_element word first 1 (last.toNat - first.toNat) nonzero (by omega)
  rw [BitVec.ofInt_natCast, Address.element, Nat.mul_one, ← size] at moved
  constructor
  · rw [size]
    exact toInt_ofNat representable
  · rw [moved, BitVec.add_comm, BitVec.sub_add_cancel]

/-- Going back by a stride from the end, which fails if it arrives at the null pointer. -/
theorem advanced_back :
    last.advanced 1 (-BitVec.ofNat word.bits layout.stride) =
      if last.toNat = layout.stride then last else last - BitVec.ofNat word.bits layout.stride := by
  have high := last.isLt
  have moved : last + -BitVec.ofNat word.bits layout.stride * BitVec.ofNat word.bits 1 =
      last - BitVec.ofNat word.bits layout.stride := by
    rw [BitVec.sub_eq_add_neg]
    exact congrArg (last + ·) (BitVec.mul_one _)
  have null : (last - BitVec.ofNat word.bits layout.stride == 0) = true ↔
      last.toNat = layout.stride := by
    rw [beq_iff_eq]
    constructor
    · intro zero
      have back := toNat_sub_stride (low.trans ordered)
      rw [zero] at back
      change 0 = _ at back
      omega
    · intro same
      have equal : last = BitVec.ofNat word.bits layout.stride :=
        BitVec.eq_of_toNat_eq (same.trans (toNat_stride same.ge).symm)
      rw [← equal]
      exact BitVec.sub_self _
  simp only [Address.advanced, moved, null]

/-- The end of the stride, which lies one byte behind the last place where a slot may start. -/
theorem toNat_limit (stride_lt : layout.stride < 2 ^ (word.bits - 1)) :
    ((last.advanced 1 (-BitVec.ofNat word.bits layout.stride)).advanced 1 1).toNat =
      if last.toNat = layout.stride then layout.stride + 1
      else last.toNat - layout.stride + 1 := by
  have positive := layout.stride_pos
  have high := last.isLt
  have half : 2 ^ word.bits = 2 * 2 ^ (word.bits - 1) := by
    rw [← pow_succ', Nat.sub_add_cancel word.bits_pos]
  have one : (1 : Value word .int) = BitVec.ofInt _ (1 : ℕ) := (BitVec.ofInt_natCast _ 1).symm
  rw [advanced_back ordered low]
  split
  · rename_i same
    have away : last ≠ 0 := by
      rintro rfl
      change 0 = _ at same
      omega
    rw [one, Address.advanced_element away (by omega), Address.element,
      Address.toNat_add (by omega), same]
  · rename_i differ
    have back := toNat_sub_stride (low.trans ordered)
    have away : last - BitVec.ofNat word.bits layout.stride ≠ 0 := by
      intro null
      rw [null] at back
      change 0 = _ at back
      omega
    rw [one, Address.advanced_element away (by omega), Address.element,
      Address.toNat_add (by omega), back]

end Limit

/-- The call strides over as many slots as fit in a number of bytes that gives the same end. -/
theorem initializeMemory_eq {first last : Address word}
    (stride_lt : layout.stride < 2 ^ (word.bits - 1)) (ordered : first.toNat ≤ last.toNat)
    (low : layout.stride ≤ first.toNat)
    (representable : last.toNat - first.toNat < 2 ^ (word.bits - 1))
    (inside : first.toNat + count < 2 ^ word.bits)
    (limited : ((last.advanced 1 (-BitVec.ofNat word.bits layout.stride)).advanced 1 1).toNat =
      first.toNat + count - layout.stride + 1)
    (yields : Yields next source list) (enough : count / layout.stride < fuel) :
    ∃ result, RawBufferPointer.initializeMemory layout next fuel ⟨some (first, last)⟩ source
        memory = some result ∧
      result.1 = memory.holding layout first (list.take (count / layout.stride)) ∧
      result.2.2 = ⟨some first, (min (count / layout.stride) list.length : ℕ)⟩ ∧
      (count / layout.stride < list.length →
        Yields next result.2.1 (list.drop (count / layout.stride))) := by
  have behind := (advanced_count ordered low representable).2
  have loops := @initializeLoop_eq word Element Byte Iterator layout next list source memory first _
    count fuel 0 stride_lt inside low limited yields (Nat.zero_le _) (Nat.zero_le _) enough
  rw [Address.element_zero, Nat.zero_mul, List.take_zero, Bytes.holding_nil] at loops
  rcases loops with ⟨updated, runs, written, index, rest⟩
  have slots : updated.index / layout.stride = (min (count / layout.stride) list.length : ℕ) := by
    rw [index, Nat.cast_mul]
    exact Int.mul_ediv_cancel _ (by have := layout.stride_pos; omega)
  refine ⟨(updated.memory, updated.unwritten, ⟨some first, updated.index / layout.stride⟩), ?_,
    written, ?_, rest⟩
  · simp only [RawBufferPointer.initializeMemory, RawBufferPointer.count, behind]
    rw [Nat.cast_zero] at runs
    rw [runs]
    rfl
  · rw [slots]

/-- A buffer without a base address gets nothing. -/
theorem initializesMemory_none (yields : Yields next source list) :
    (⟨none⟩ : RawBufferPointer word).InitializesMemory layout next source list memory := by
  intro fuel _
  have none_ : (RawBufferPointer.slots layout (⟨none⟩ : RawBufferPointer word)).count = 0 := by
    rw [RawBufferPointer.slots, RawBufferPointer.count, toInt_zero]
    exact Int.zero_ediv _
  refine ⟨_, rfl, ⟨rfl, ?_, ?_⟩, rfl⟩
  · rw [none_]
    simp [Updated.ofResult]
  · intro _
    rw [none_]
    exact yields

section Located

variable {first last : Address word}
  (valid : (⟨some (first, last)⟩ : RawBufferPointer word).Valid layout)
  (yields : Yields next source list)

include valid

theorem slots_eq : (⟨some (first, last)⟩ : RawBufferPointer word).slots layout =
    ⟨some first, ((last.toNat - first.toNat) / layout.stride : ℕ)⟩ := by
  have counted := (advanced_count (valid.ordered _ rfl) (valid.high _ rfl)
    (valid.representable _ rfl)).1
  rw [RawBufferPointer.slots, RawBufferPointer.count, counted, Int.natCast_ediv]
  rfl

include yields

/-- The end of the stride lies in the last slot that fits. -/
theorem initializesMemory_of_ne (differ : last.toNat ≠ layout.stride) :
    (⟨some (first, last)⟩ : RawBufferPointer word).InitializesMemory layout next source list
      memory := by
  have ordered : first.toNat ≤ last.toNat := valid.ordered _ rfl
  have low : layout.stride ≤ first.toNat := valid.high _ rfl
  have high := last.isLt
  have limit := toNat_limit ordered low valid.stride_lt
  rw [if_neg differ] at limit
  intro fuel enough
  rw [slots_eq valid] at enough ⊢
  simp only at enough
  rcases @initializeMemory_eq word _ _ _ _ _ _ memory source (last.toNat - first.toNat) fuel first
    last valid.stride_lt ordered low (valid.representable _ rfl) (by omega) (by omega) yields
    (by omega) with ⟨result, runs, written, initialized, rest⟩
  refine ⟨result, runs, ⟨written, ?_, ?_⟩, ?_⟩
  · rw [Updated.ofResult, initialized]
    simp
  · intro more
    exact rest (Int.ofNat_lt.mp more)
  · rw [initialized]

/-- The end of the stride is the one of a buffer with one slot, but there is none. -/
theorem initializesMemory_of_eq (same : last.toNat = layout.stride) :
    (⟨some (first, last)⟩ : RawBufferPointer word).InitializesMemory layout next source list
      memory ↔ list = [] := by
  have ordered : first.toNat ≤ last.toNat := valid.ordered _ rfl
  have low : layout.stride ≤ first.toNat := valid.high _ rfl
  have limit := toNat_limit ordered low valid.stride_lt
  have stride_lt := valid.stride_lt
  have half : 2 ^ word.bits = 2 * 2 ^ (word.bits - 1) := by
    rw [← pow_succ', Nat.sub_add_cancel word.bits_pos]
  have whole : layout.stride / layout.stride = 1 := Nat.div_self layout.stride_pos
  have none_ : (last.toNat - first.toNat) / layout.stride = 0 := by
    rw [show last.toNat - first.toNat = 0 by omega, Nat.zero_div]
  have slots := slots_eq valid
  rw [none_] at slots
  rw [if_pos same] at limit
  have calls (fuel : ℕ) (enough : 1 < fuel) := @initializeMemory_eq word _ _ _ _ _ _ memory source
    layout.stride fuel first last stride_lt ordered low (valid.representable _ rfl) (by omega)
    (by omega) yields (by rwa [whole])
  rw [whole] at calls
  constructor
  · intro initializes
    rcases initializes 2 (by
      rw [slots]
      exact (by decide : ((0 : ℕ) : ℤ) + 1 < (2 : ℕ))) with ⟨result, runs, fills, _⟩
    rcases calls 2 (by decide) with ⟨result', runs', _, initialized, _⟩
    have same := Option.some_inj.mp (runs.symm.trans runs')
    have index := fills.index
    rw [slots, Updated.ofResult, same, initialized] at index
    simp only at index
    apply List.length_eq_zero_iff.mp
    omega
  · intro ended
    subst ended
    intro fuel enough
    rw [slots] at enough ⊢
    simp only at enough
    rcases calls fuel (by omega) with ⟨result, runs, written, initialized, rest⟩
    refine ⟨result, runs, ⟨written, ?_, ?_⟩, ?_⟩
    · rw [Updated.ofResult, initialized]
      simp
    · simp
    · rw [initialized]

end Located

/-- An empty raw buffer that lies exactly one stride above the null pointer gets an element. -/
theorem initializesMemory_iff (valid : raw.Valid layout) (yields : Yields next source list) :
    raw.InitializesMemory layout next source list memory ↔
      ¬ (raw.bounds = some (BitVec.ofNat _ layout.stride, BitVec.ofNat _ layout.stride) ∧
        list ≠ []) := by
  rcases raw with ⟨_ | ⟨first, last⟩⟩
  · exact iff_of_true (initializesMemory_none yields) (by simp)
  · have low : layout.stride ≤ first.toNat := valid.high _ rfl
    have ordered : first.toNat ≤ last.toNat := valid.ordered _ rfl
    have size := toNat_stride (low.trans ordered)
    by_cases same : last.toNat = layout.stride
    · have equal : last = BitVec.ofNat word.bits layout.stride :=
        BitVec.eq_of_toNat_eq (same.trans size.symm)
      have equal' : first = last := BitVec.eq_of_toNat_eq (by omega)
      rw [initializesMemory_of_eq valid yields same, equal', equal]
      simp
    · refine iff_of_true (initializesMemory_of_ne valid yields same) ?_
      rintro ⟨placed, _⟩
      rw [Option.some_inj, Prod.mk.injEq] at placed
      rw [placed.2, size] at same
      exact same rfl

/--
Every slot gets an element as long as there is one, and nothing else is written, except in a
raw buffer without bytes that lies exactly one stride above the null pointer.
-/
theorem updates_fill_iff {buffer : BufferPointer word} (valid : buffer.Valid layout)
    (valid' : raw.Valid layout) (yields : Yields next source list) :
    (∃ updated, UnsafeMutableBufferPointer.update layout next buffer source memory = .ok updated ∧
      updated.Fills layout next buffer list memory) ∧
    (∃ updated, MutableSpan.update layout next buffer source memory = .ok updated ∧
      updated.Fills layout next buffer list memory) ∧
    (raw.InitializesMemory layout next source list memory ↔
      ¬ (raw.bounds = some (BitVec.ofNat _ layout.stride, BitVec.ofNat _ layout.stride) ∧
        list ≠ [])) :=
  ⟨UnsafeMutableBufferPointer.update_fills valid yields, MutableSpan.update_fills valid yields,
    initializesMemory_iff valid' yields⟩

/-- Three pairs for two slots, and for five bytes. -/
theorem updates_fill_pairs :
    RawBufferPointer.InitializesMemory .pair (IndexingIterator.next offsetCollection)
      (⟨some (0x200, 0x205)⟩ : RawBufferPointer .word16)
      (.init offsetCollection [(1, 2), (3, 4), (5, 6)]) [(1, 2), (3, 4), (5, 6)]
      (fun _ => some 0) := by
  have valid : BufferPointer.Valid (.pair : Layout (ℕ × ℕ) ℕ)
      (⟨some 0x100, 2⟩ : BufferPointer .word16) :=
    ⟨by decide, by decide, by simp, by rintro _ ⟨⟩; decide, by rintro _ ⟨⟩; decide⟩
  have valid' : RawBufferPointer.Valid (.pair : Layout (ℕ × ℕ) ℕ)
      (⟨some (0x200, 0x205)⟩ : RawBufferPointer .word16) :=
    ⟨by decide, by rintro _ ⟨⟩; decide, by rintro _ ⟨⟩; decide, by rintro _ ⟨⟩; decide⟩
  refine (updates_fill_iff valid valid' (listed_offsets _).yields).2.2.mpr ?_
  rintro ⟨same, _⟩
  exact absurd same (by decide)

/-- A buffer without bytes at the address 2 gets a pair. -/
theorem not_initializesMemory_empty :
    RawBufferPointer.Valid (.pair : Layout (ℕ × ℕ) ℕ) (⟨some (2, 2)⟩ : RawBufferPointer .word16) ∧
      (RawBufferPointer.initializeMemory .pair (IndexingIterator.next offsetCollection) 3
        (⟨some (2, 2)⟩ : RawBufferPointer .word16) (.init offsetCollection [(7, 8)])
        (fun _ => some 0)).map (fun result => (result.1 2, result.1 3, result.2.2.count)) =
          some (some 7, some 8, 1) ∧
      ¬ RawBufferPointer.InitializesMemory .pair (IndexingIterator.next offsetCollection)
        (⟨some (2, 2)⟩ : RawBufferPointer .word16) (.init offsetCollection [(7, 8)]) [(7, 8)]
        (fun _ => some 0) := by
  refine ⟨⟨by decide, ?_, ?_, ?_⟩, by decide, ?_⟩
  · rintro _ ⟨⟩
    decide
  · rintro _ ⟨⟩
    decide
  · rintro _ ⟨⟩
    decide
  · intro initializes
    rcases initializes 3 (by decide) with ⟨result, runs, fills, _⟩
    have counted : result.2.2.count = 1 := by
      have mapped := congrArg (Option.map fun result => result.2.2.count) runs
      rw [Option.map_some] at mapped
      exact (Option.some_inj.mp mapped).symm
    have index := fills.index
    rw [Updated.ofResult, counted] at index
    change 1 = min (RawBufferPointer.slots (.pair : Layout (ℕ × ℕ) ℕ)
      (⟨some (2, 2)⟩ : RawBufferPointer .word16)).count 1 at index
    exact absurd index (by decide)

end Raw

end Results

end USwift
