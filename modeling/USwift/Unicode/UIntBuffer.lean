import USwift.Integer.Shift
import USwift.Library.Iteration
import USwift.Library.Packing

/-!
# Buffers of code units

`_UIntBuffer` keeps a few units of 8 or 16 bits in a 32-bit word, the first unit
lowest, together with the number of bits in use. Every buffer that is built by
its operations is the packing of a list of units.
-/

namespace USwift

open Packing

/-- `_UIntBuffer`. -/
structure UIntBuffer (word : WordSize) (element : IntegerType) where
  storage : Value word .uint32
  bitCount : Value word .uint8
  deriving DecidableEq

namespace UIntBuffer

variable {word : WordSize} {element : IntegerType}

/-- `init()`. -/
def empty : UIntBuffer word element := ⟨0, 0⟩

/-- `_elementWidth`. -/
def elementWidth (word : WordSize) (element : IntegerType) : Value word .uint8 :=
  truncatingIfNeeded word .uint8 .int (bitWidthInt word element)

/-- `_fullShiftLeft(_:)`, two masking shifts by the halves of the amount. -/
def fullShiftLeft {type other : IntegerType} (x : Value word type) (n : Value word other) :
    Value word type :=
  let upper := maskingShiftRight word other (n + 1) 1
  let lower := maskingShiftRight word other n 1
  maskingShiftLeft word type
    (maskingShiftLeft word type x (truncatingIfNeeded word type other upper))
    (truncatingIfNeeded word type other lower)

/-- `_fullShiftRight(_:)`. -/
def fullShiftRight {type other : IntegerType} (x : Value word type) (n : Value word other) :
    Value word type :=
  let upper := maskingShiftRight word other (n + 1) 1
  let lower := maskingShiftRight word other n 1
  maskingShiftRight word type
    (maskingShiftRight word type x (truncatingIfNeeded word type other upper))
    (truncatingIfNeeded word type other lower)

/-- `_lowBits(_:)` of `UInt32`. -/
def lowBits {other : IntegerType} (n : Value word other) : Value word .uint32 :=
  ~~~fullShiftLeft (~~~(0 : Value word .uint32)) n

/-- `isEmpty`, which compares the start index with the end index. -/
def isEmpty (buffer : UIntBuffer word element) : Bool :=
  buffer.bitCount == 0

/-- `index(after:)`. -/
def indexAfter (element : IntegerType) (i : Value word .uint8) : Value word .uint8 :=
  i + elementWidth word element

/-- `distance(from:to:)`. -/
def distance (element : IntegerType) (i j : Value word .uint8) : Value word .int :=
  BitVec.sdiv (truncatingIfNeeded word .int .uint8 j - truncatingIfNeeded word .int .uint8 i)
    (bitWidthInt word element)

/-- `count`. -/
def count (buffer : UIntBuffer word element) : Value word .int :=
  distance element 0 buffer.bitCount

/-- `capacity`. -/
def capacity (word : WordSize) (element : IntegerType) : Value word .int :=
  BitVec.sdiv (bitWidthInt word .uint32) (bitWidthInt word element)

/-- `subscript`. -/
def subscript (buffer : UIntBuffer word element) (i : Value word .uint8) : Value word element :=
  truncatingIfNeeded word element .uint32
    (maskingShiftRight word .uint32 buffer.storage (truncatingIfNeeded word .uint32 .uint8 i))

/-- `append(_:)`. -/
def append (buffer : UIntBuffer word element) (newElement : Value word element) :
    UIntBuffer word element :=
  let offset := truncatingIfNeeded word .uint32 .uint8 buffer.bitCount
  let max := truncatingIfNeeded word .uint32 element (~~~0)
  let storage := buffer.storage &&& ~~~maskingShiftLeft word .uint32 max offset
  let storage := storage |||
    maskingShiftLeft word .uint32 (truncatingIfNeeded word .uint32 element newElement) offset
  ⟨storage, buffer.bitCount + elementWidth word element⟩

/-- `replaceSubrange(_:with:)`, given the replacement as a buffer. -/
def replaceSubrange (buffer : UIntBuffer word element) (lowerBound upperBound : Value word .uint8)
    (replacement : UIntBuffer word element) : UIntBuffer word element :=
  let targetCount := distance element lowerBound upperBound
  let growth := replacement.count - targetCount
  let headCount := distance element 0 lowerBound
  let tailOffset := distance element 0 upperBound
  let w := bitWidthInt word element
  let headBits := buffer.storage &&& lowBits (headCount * w : Value word .int)
  let tailBits := fullShiftRight buffer.storage (tailOffset * w : Value word .int)
  let storage := headBits
  let storage := storage ||| maskingShiftLeft word .uint32 replacement.storage
    (truncatingIfNeeded word .uint32 .int (headCount * w))
  let storage := storage ||| maskingShiftLeft word .uint32 tailBits
    (truncatingIfNeeded word .uint32 .int ((tailOffset + growth) * w))
  ⟨storage, truncatingIfNeeded word .uint8 .int
    (truncatingIfNeeded word .int .uint8 buffer.bitCount + growth * w)⟩

/-- `remove(at:)` replaces the element by an empty collection. -/
def remove (buffer : UIntBuffer word element) (position : Value word .uint8) :
    UIntBuffer word element :=
  buffer.replaceSubrange position (indexAfter element position) empty

/-- `Iterator.next()`. -/
def next (buffer : UIntBuffer word element) :
    Option (Value word element × UIntBuffer word element) :=
  if buffer.bitCount == 0 then none
  else
    some (truncatingIfNeeded word element .uint32 buffer.storage,
      ⟨maskingShiftRight word .uint32 buffer.storage
        (truncatingIfNeeded word .uint32 .int (bitWidthInt word element)),
        buffer.bitCount - elementWidth word element⟩)

/-- The buffer of a list of units. -/
def ofUnits (units : List (Value word element)) : UIntBuffer word element :=
  ⟨pack 32 units, BitVec.ofNat 8 (element.bitWidth word * units.length)⟩

/-- The element types that the encodings buffer. -/
inductive Buffered : WordSize → IntegerType → Prop
  | uint8 {word : WordSize} : Buffered word .uint8
  | uint16 {word : WordSize} : Buffered word .uint16

namespace Buffered

variable (buffered : Buffered word element)

include buffered

theorem eight_le_width : 8 ≤ element.bitWidth word := by
  cases buffered with
  | uint8 => exact le_rfl
  | uint16 =>
      rw [IntegerType.bitWidth_uint16]
      decide

theorem width_le : element.bitWidth word ≤ 16 := by
  cases buffered with
  | uint8 =>
      rw [IntegerType.bitWidth_uint8]
      decide
  | uint16 => exact le_rfl

theorem width_lt : element.bitWidth word < 32 :=
  buffered.width_le.trans_lt (by decide)

theorem isSigned_eq : element.isSigned = false := by
  cases buffered with
  | uint8 => rfl
  | uint16 => rfl

theorem toNat_elementWidth :
    BitVec.toNat (elementWidth word element) = element.bitWidth word := by
  cases buffered with
  | uint8 => cases word <;> decide
  | uint16 => cases word <;> decide

end Buffered

theorem truncatingIfNeeded_uint32 (x : Value word .uint32) :
    truncatingIfNeeded word element .uint32 x = x.setWidth (element.bitWidth word) :=
  truncatingIfNeeded_unsigned rfl (by simp) x

theorem truncatingIfNeeded_uint8 {type : IntegerType} (x : Value word .uint8) :
    truncatingIfNeeded word type .uint8 x = x.setWidth (type.bitWidth word) :=
  truncatingIfNeeded_unsigned rfl (by simp) x

theorem halved (word : WordSize) {other : IntegerType} (counts : other = .int ∨ other = .uint8)
    {n : ℕ} (small : n ≤ 33) :
    maskingShiftRight word other (BitVec.ofNat _ n) 1 = BitVec.ofNat _ (n / 2) ∧
      truncatingIfNeeded word .uint32 other (BitVec.ofNat _ (n / 2)) = BitVec.ofNat 32 (n / 2) := by
  have all : ∀ n : Fin 34, maskingShiftRight word other (BitVec.ofNat _ n) 1 =
      BitVec.ofNat _ (n / 2) ∧ truncatingIfNeeded word .uint32 other (BitVec.ofNat _ (n / 2)) =
        BitVec.ofNat 32 (n / 2) := by
    rcases counts with rfl | rfl
    · cases word <;> decide
    · cases word <;> decide
  exact all ⟨n, by omega⟩

theorem fullShift_ofNat {other : IntegerType} (counts : other = .int ∨ other = .uint8)
    (x : Value word .uint32) {n : ℕ} (small : n ≤ 32) :
    fullShiftLeft x (BitVec.ofNat (other.bitWidth word) n) = x <<< n ∧
      fullShiftRight x (BitVec.ofNat (other.bitWidth word) n) = x >>> n := by
  have lower := halved word counts (show n ≤ 33 by omega)
  have upper := halved word counts (show n + 1 ≤ 33 by omega)
  have sum : BitVec.ofNat (other.bitWidth word) n + 1 = BitVec.ofNat _ (n + 1) :=
    (BitVec.ofNat_add n 1).symm
  have whole : (n + 1) / 2 + n / 2 = n := by omega
  have upperBelow : (n + 1) / 2 < IntegerType.uint32.bitWidth word := by
    rw [IntegerType.bitWidth_uint32]
    omega
  have lowerBelow : n / 2 < IntegerType.uint32.bitWidth word := by
    rw [IntegerType.bitWidth_uint32]
    omega
  rw [fullShiftLeft, fullShiftRight, sum, lower.1, upper.1, lower.2, upper.2]
  refine ⟨?_, ?_⟩
  · refine (maskingShiftLeft_ofNat _ lowerBelow).trans ?_
    rw [show maskingShiftLeft word .uint32 x (BitVec.ofNat 32 ((n + 1) / 2)) =
      x <<< ((n + 1) / 2) from maskingShiftLeft_ofNat _ upperBelow, ← BitVec.shiftLeft_add, whole]
  · refine (maskingShiftRight_ofNat rfl _ lowerBelow).trans ?_
    rw [show maskingShiftRight word .uint32 x (BitVec.ofNat 32 ((n + 1) / 2)) =
      x >>> ((n + 1) / 2) from maskingShiftRight_ofNat rfl _ upperBelow,
      ← BitVec.shiftRight_add, whole]

theorem toNat_and_lowBits {other : IntegerType} (counts : other = .int ∨ other = .uint8)
    (x : Value word .uint32) {n : ℕ} (small : n ≤ 32) :
    BitVec.toNat (x &&& lowBits (BitVec.ofNat (other.bitWidth word) n)) =
      BitVec.toNat x % 2 ^ n := by
  have masked (x : BitVec 32) :
      x &&& ~~~(BitVec.allOnes 32 <<< n) = (x.setWidth n).setWidth 32 := by
    apply BitVec.eq_of_getLsbD_eq
    intro index index_lt
    rw [BitVec.getLsbD_and, BitVec.getLsbD_not, BitVec.getLsbD_shiftLeft, BitVec.getLsbD_allOnes]
    by_cases low : index < n
    · simp [low, index_lt]
    · simp [low, index_lt, show index - n < 32 by omega]
  have bits := congrArg BitVec.toNat (masked x)
  rw [BitVec.toNat_setWidth, BitVec.toNat_setWidth,
    Nat.mod_eq_of_lt ((Nat.mod_lt _ (by positivity)).trans_le
      (Nat.pow_le_pow_right (by decide) small))] at bits
  have ones : ~~~(0 : Value word .uint32) = BitVec.allOnes 32 :=
    (by decide : ~~~(0#32) = BitVec.allOnes 32)
  rw [lowBits, (fullShift_ofNat counts _ small).1, ones]
  exact bits

section Units

variable {units : List (Value word element)}

theorem toNat_bitCount (fits : element.bitWidth word * units.length ≤ 32) :
    BitVec.toNat (ofUnits units).bitCount = element.bitWidth word * units.length := by
  rw [ofUnits, BitVec.toNat_ofNat, IntegerType.bitWidth_uint8]
  exact Nat.mod_eq_of_lt (by omega)

theorem toNat_offset (fits : element.bitWidth word * units.length ≤ 32) :
    BitVec.toNat (truncatingIfNeeded word .uint32 .uint8 (ofUnits units).bitCount) =
      element.bitWidth word * units.length := by
  rw [truncatingIfNeeded_uint8, BitVec.toNat_setWidth, toNat_bitCount fits,
    IntegerType.bitWidth_uint32]
  exact Nat.mod_eq_of_lt (by omega)

theorem isEmpty_ofUnits (fits : element.bitWidth word * units.length ≤ 32) :
    (ofUnits units).isEmpty = units.isEmpty := by
  have positive := element.bitWidth_pos word
  have zero : (ofUnits units).bitCount = 0 ↔ units = [] := by
    constructor
    · intro none
      have noBits := toNat_bitCount fits
      rw [none] at noBits
      rcases Nat.mul_eq_zero.mp noBits.symm with narrow | short
      · omega
      · exact List.length_eq_zero_iff.mp short
    · rintro rfl
      rfl
  rw [isEmpty, Bool.eq_iff_iff, beq_iff_eq, zero, List.isEmpty_iff]

theorem getLsbD_pack_of_ge (fits : element.bitWidth word * units.length ≤ 32) {index : ℕ}
    (beyond : element.bitWidth word * units.length ≤ index) :
    (pack 32 units).getLsbD index = false := by
  rw [BitVec.getLsbD, toNat_pack fits]
  exact Nat.testBit_lt_two_pow
    ((number_lt units).trans_le (Nat.pow_le_pow_right (by omega) beyond))

theorem elementWidth_eq (word : WordSize) (element : IntegerType) :
    elementWidth word element = BitVec.ofNat 8 (element.bitWidth word) :=
  truncatingIfNeeded_int_ofNat (element.bitWidth_le word)

/-- A new unit is added if its conversion has the right bits above the units before it. -/
theorem append_of_shifted (unit : Value word element)
    (fits : element.bitWidth word * (units.length + 1) ≤ 32)
    (shifted : truncatingIfNeeded word .uint32 element unit <<<
        (element.bitWidth word * units.length) =
      unit.setWidth 32 <<< (element.bitWidth word * units.length)) :
    (ofUnits units).append unit = ofUnits (units ++ [unit]) := by
  have positive := element.bitWidth_pos word
  rw [Nat.mul_succ] at fits
  have room : element.bitWidth word * units.length ≤ 32 := by omega
  have offset := toNat_offset room
  have below : BitVec.toNat (truncatingIfNeeded word .uint32 .uint8 (ofUnits units).bitCount) <
      IntegerType.uint32.bitWidth word := by
    rw [offset, IntegerType.bitWidth_uint32]
    omega
  -- Nothing lies above the units, so clearing the place of the new one changes nothing.
  have cleared (mask : BitVec 32) : pack 32 units &&&
      ~~~(mask <<< (element.bitWidth word * units.length)) = pack 32 units := by
    apply BitVec.eq_of_getLsbD_eq
    intro index index_lt
    rw [BitVec.getLsbD_and, BitVec.getLsbD_not, BitVec.getLsbD_shiftLeft]
    by_cases low : index < element.bitWidth word * units.length
    · simp [low, index_lt]
    · simp [getLsbD_pack_of_ge room (Nat.le_of_not_lt low)]
  have storage : ((ofUnits units).append unit).storage = pack 32 (units ++ [unit]) := by
    rw [append, maskingShiftLeft_of_lt _ below, maskingShiftLeft_of_lt _ below, offset, shifted]
    rw [pack_append_or room, pack_singleton]
    exact congrArg (· ||| _) (cleared _)
  have bits : ((ofUnits units).append unit).bitCount =
      BitVec.ofNat 8 (element.bitWidth word * (units ++ [unit]).length) := by
    rw [append, elementWidth_eq, List.length_append, List.length_singleton, Nat.mul_succ]
    exact (BitVec.ofNat_add _ _).symm
  exact congrArg₂ UIntBuffer.mk storage bits

/-- A new unit must not be extended with its sign, as the 32-bit files do for `UInt16`. -/
theorem append_ofUnits (buffered : Buffered word element)
    (regular : ¬ (word = .word32 ∧ element = .uint16)) (unit : Value word element)
    (fits : element.bitWidth word * (units.length + 1) ≤ 32) :
    (ofUnits units).append unit = ofUnits (units ++ [unit]) := by
  apply append_of_shifted unit fits
  rw [truncatingIfNeeded_unsigned buffered.isSigned_eq regular unit]

theorem consume_ofUnits {dropped : ℕ} (fits : element.bitWidth word * units.length ≤ 32)
    (inside : dropped ≤ units.length) :
    (⟨pack 32 units >>> (element.bitWidth word * dropped),
      (ofUnits units).bitCount - BitVec.ofNat 8 (element.bitWidth word * dropped)⟩ :
        UIntBuffer word element) = ofUnits (units.drop dropped) := by
  have fewer := Nat.mul_le_mul_left (element.bitWidth word) inside
  have bits : (ofUnits units).bitCount - BitVec.ofNat 8 (element.bitWidth word * dropped) =
      BitVec.ofNat 8 (element.bitWidth word * (units.drop dropped).length) := by
    have difference : ((ofUnits units).bitCount -
        BitVec.ofNat 8 (element.bitWidth word * dropped)).toNat =
        (BitVec.ofNat 8 (element.bitWidth word * (units.drop dropped).length)).toNat := by
      rw [BitVec.toNat_sub, toNat_bitCount fits, BitVec.toNat_ofNat, BitVec.toNat_ofNat,
        List.length_drop, Nat.mul_sub, IntegerType.bitWidth_uint8]
      omega
    exact BitVec.eq_of_toNat_eq difference
  rw [bits, pack_drop fits, ofUnits]

theorem next_nil : (ofUnits ([] : List (Value word element))).next = none := rfl

theorem next_cons (narrow : element.bitWidth word < 32) (unit : Value word element)
    (fits : element.bitWidth word * (units.length + 1) ≤ 32) :
    (ofUnits (unit :: units)).next = some (unit, ofUnits units) := by
  have whole : element.bitWidth word * (unit :: units).length ≤ 32 := fits
  have below : element.bitWidth word < IntegerType.uint32.bitWidth word := narrow
  have amount : truncatingIfNeeded word .uint32 .int (bitWidthInt word element) =
      BitVec.ofNat (IntegerType.uint32.bitWidth word) (element.bitWidth word) :=
    truncatingIfNeeded_int_ofNat (element.bitWidth_le word)
  have rest := consume_ofUnits whole (by simp : 1 ≤ (unit :: units).length)
  rw [Nat.mul_one] at rest
  have nonempty := isEmpty_ofUnits whole
  rw [isEmpty] at nonempty
  rw [next, nonempty, amount, maskingShiftRight_ofNat rfl _ below, elementWidth_eq]
  rw [List.isEmpty_cons, if_neg Bool.false_ne_true]
  refine congrArg some (Prod.ext ?_ rest)
  rw [truncatingIfNeeded_uint32]
  exact setWidth_pack_cons unit units narrow.le

/-- A unit of the full width, whose shift by the width does nothing. -/
theorem next_full (full : element.bitWidth word = 32) (unit : Value word element) :
    ∃ rest, (ofUnits [unit]).next = some (unit, rest) ∧ rest.next = none := by
  have nonempty := @isEmpty_ofUnits _ _ [unit] (by simp [full])
  rw [isEmpty] at nonempty
  rw [next, nonempty, List.isEmpty_cons, if_neg Bool.false_ne_true]
  refine ⟨_, congrArg some (Prod.ext ?_ rfl), ?_⟩
  · rw [truncatingIfNeeded_uint32]
    exact setWidth_pack_cons unit [] full.le
  · rw [next, elementWidth_eq]
    simp [ofUnits]

theorem yields_ofUnits (narrow : element.bitWidth word ≤ 32)
    (fits : element.bitWidth word * units.length ≤ 32) :
    Iteration.Yields next (ofUnits units) units := by
  induction units with
  | nil => exact .done next_nil
  | cons unit units shorter =>
      rcases Nat.lt_or_eq_of_le narrow with below | full
      · refine .step (next_cons below unit fits) (shorter ?_)
        exact (Nat.mul_le_mul_left _ (Nat.le_succ _)).trans fits
      · have single : units = [] := by
          rw [full, List.length_cons] at fits
          exact List.length_eq_zero_iff.mp (by omega)
        subst single
        rcases next_full full unit with ⟨rest, taken, ended⟩
        exact .step taken (.done ended)

theorem remove_amounts (buffered : Buffered word element) :
    distance element 0 0 * bitWidthInt word element = BitVec.ofNat _ 0 ∧
      distance element 0 (indexAfter element 0) * bitWidthInt word element =
        BitVec.ofNat _ (element.bitWidth word) ∧
      (distance element 0 (indexAfter element 0) + ((empty : UIntBuffer word element).count -
        distance element 0 (indexAfter element 0))) * bitWidthInt word element =
          BitVec.ofNat _ 0 ∧
      ∀ bits : Fin 33, truncatingIfNeeded word .uint8 .int
        (truncatingIfNeeded word .int .uint8 (BitVec.ofNat 8 bits) +
          ((empty : UIntBuffer word element).count - distance element 0 (indexAfter element 0)) *
            bitWidthInt word element) =
          BitVec.ofNat 8 bits - BitVec.ofNat 8 (element.bitWidth word) := by
  cases buffered with
  | uint8 => cases word <;> decide
  | uint16 => cases word <;> decide

theorem remove_ofUnits (buffered : Buffered word element) (unit : Value word element)
    (fits : element.bitWidth word * (units.length + 1) ≤ 32) :
    (ofUnits (unit :: units)).remove 0 = ofUnits units := by
  have whole : element.bitWidth word * (unit :: units).length ≤ 32 := fits
  have rest := consume_ofUnits whole (by simp : 1 ≤ (unit :: units).length)
  rcases remove_amounts buffered with ⟨head, tail, moved, counted⟩
  have bits := counted ⟨element.bitWidth word * (unit :: units).length, by omega⟩
  have nothing : (lowBits (BitVec.ofNat (IntegerType.int.bitWidth word) 0)) = 0 := by
    rw [lowBits, (fullShift_ofNat (Or.inl rfl) _ (by omega)).1, BitVec.shiftLeft_zero]
    exact BitVec.not_not
  have zero : truncatingIfNeeded word .uint32 .int (BitVec.ofNat _ 0) =
      BitVec.ofNat (IntegerType.uint32.bitWidth word) 0 := truncatingIfNeeded_int_ofNat (by omega)
  have unmoved (x : Value word .uint32) :
      maskingShiftLeft word .uint32 x (BitVec.ofNat _ 0) = x :=
    (maskingShiftLeft_ofNat x (by decide : 0 < 32)).trans (BitVec.shiftLeft_zero x)
  rw [Nat.mul_one] at rest
  rw [List.drop_one, List.tail_cons] at rest
  rw [← rest, remove, replaceSubrange]
  simp only [head, tail, moved, zero, nothing, unmoved]
  refine congrArg₂ UIntBuffer.mk ?_ bits
  rw [(fullShift_ofNat (Or.inl rfl) _ buffered.width_lt.le).2]
  simp [empty, ofUnits]

end Units

theorem less_capacity_iff (buffered : Buffered word element) {units : List (Value word element)}
    (fits : element.bitWidth word * units.length ≤ 32) :
    less word .int (ofUnits units).count (capacity word element) = true ↔
      element.bitWidth word * (units.length + 1) ≤ 32 := by
  cases buffered with
  | uint8 =>
      have all : ∀ length : Fin 5, less word .int
          (distance .uint8 0 (BitVec.ofNat 8 (8 * length))) (capacity word .uint8) = true ↔
            8 * (length.val + 1) ≤ 32 := by
        cases word <;> decide
      rw [IntegerType.bitWidth_uint8] at fits
      exact all ⟨units.length, by omega⟩
  | uint16 =>
      have all : ∀ length : Fin 3, less word .int
          (distance .uint16 0 (BitVec.ofNat 8 (16 * length))) (capacity word .uint16) = true ↔
            16 * (length.val + 1) ≤ 32 := by
        cases word <;> decide
      rw [IntegerType.bitWidth_uint16] at fits
      exact all ⟨units.length, by omega⟩

end UIntBuffer

end USwift
