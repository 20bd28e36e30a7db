import USwift.Library.Splices
import USwift.Unicode.UIntBuffer

/-!
# Runs of unit buffers

A `_UIntBuffer` that is edited by `append`, `removeFirst` and `replaceSubrange` stays the
packing of a list, for every width of its units, as long as no unit is stored with more bits
than it has. The 32-bit files store a large `UInt16` with its sign extended, and what is left
of the sign is found wherever the next operation does not clear it.
-/

namespace USwift

open Packing Splices

namespace UIntBuffer

section Operations

variable {word : WordSize} {element : IntegerType}

/-- `init(containing:)`. -/
def containing (e : Value word element) : UIntBuffer word element :=
  ⟨truncatingIfNeeded word .uint32 element e,
    truncatingIfNeeded word .uint8 .int (bitWidthInt word element)⟩

/-- `removeFirst()`. -/
def removeFirst (buffer : UIntBuffer word element) :
    Value word element × UIntBuffer word element :=
  let result := truncatingIfNeeded word element .uint32 buffer.storage
  let bitCount := buffer.bitCount - elementWidth word element
  let storage := fullShiftRight buffer.storage (elementWidth word element)
  (result, ⟨storage, bitCount⟩)

/-- `index(before:)`. -/
def indexBefore (element : IntegerType) (i : Value word .uint8) : Value word .uint8 :=
  i - elementWidth word element

/-- `index(_:offsetBy:)`. -/
def indexOffsetBy (element : IntegerType) (i : Value word .uint8) (n : Value word .int) :
    Value word .uint8 :=
  let x := truncatingIfNeeded word .int .uint8 i + n * bitWidthInt word element
  truncatingIfNeeded word .uint8 .int x

/-- `init(_:)`, the default that appends the elements of a sequence. -/
def ofElements (elements : List (Value word element)) : UIntBuffer word element :=
  elements.foldl append empty

/-- `replaceSubrange(_:with:)`, whose replacement is given by its elements. -/
def replaceSubrangeWith (buffer : UIntBuffer word element)
    (lowerBound upperBound : Value word .uint8) (replacement : List (Value word element)) :
    UIntBuffer word element :=
  buffer.replaceSubrange lowerBound upperBound (ofElements replacement)

end Operations

section Specification

variable {word : WordSize} {element : IntegerType}

/-- The index of a position. -/
def place (element : IntegerType) (i : ℕ) : Value word .uint8 :=
  BitVec.ofNat 8 (element.bitWidth word * i)

/-- A buffer stands for a list of units, and nothing is stored above them. -/
structure Represents (buffer : UIntBuffer word element) (units : List (Value word element)) :
    Prop where
  bitCount : BitVec.toNat buffer.bitCount = element.bitWidth word * units.length
  high : ∀ i, BitVec.toNat buffer.bitCount ≤ i → buffer.storage.getLsbD i = false
  yields : Iteration.Yields next buffer units
  count : toInt word .int buffer.count = units.length
  endIndex : buffer.bitCount = place element units.length
  subscript : ∀ (i : ℕ) (inside : i < units.length),
    buffer.subscript (place element i) = units[i]
  indexAfter : ∀ i < units.length,
    indexAfter element (place element i : Value word .uint8) = place element (i + 1)
  indexBefore : ∀ i < units.length,
    indexBefore element (place element (i + 1) : Value word .uint8) = place element i
  distance : ∀ i ≤ units.length, ∀ j ≤ units.length,
    toInt word .int (distance element (place element i) (place element j)) = j - i
  indexOffsetBy : ∀ i ≤ units.length, ∀ j ≤ units.length, ∀ n : Value word .int,
    toInt word .int n = j - i → indexOffsetBy element (place element i) n = place element j
  removeFirst : ∀ unit ∈ units.head?, buffer.removeFirst.1 = unit

/-- A way to make a buffer. -/
inductive Start (word : WordSize) (element : IntegerType) where
  | empty
  | containing (e : Value word element)

/-- A way to edit a buffer. -/
inductive Edit (word : WordSize) (element : IntegerType) where
  | append (newElement : Value word element)
  | removeFirst
  | replaceSubrange (lower upper : ℕ) (replacement : List (Value word element))

/-- The new buffer. -/
def Start.buffer : Start word element → UIntBuffer word element
  | .empty => .empty
  | .containing e => .containing e

/-- The list that a new buffer is to stand for. -/
def Start.units : Start word element → List (Value word element)
  | .empty => []
  | .containing e => [e]

/-- The buffer after an edit. -/
def Edit.perform (buffer : UIntBuffer word element) : Edit word element → UIntBuffer word element
  | .append newElement => buffer.append newElement
  | .removeFirst => buffer.removeFirst.2
  | .replaceSubrange lower upper replacement =>
      buffer.replaceSubrangeWith (place element lower) (place element upper) replacement

/-- The list that a buffer is to stand for after an edit. -/
def Edit.units (units : List (Value word element)) : Edit word element → List (Value word element)
  | .append newElement => units ++ [newElement]
  | .removeFirst => units.tail
  | .replaceSubrange lower upper replacement => splice units lower upper replacement

/-- An edit stays within the bounds and the capacity. -/
def Edit.Allowed (units : List (Value word element)) (edit : Edit word element) : Prop :=
  element.bitWidth word * (edit.units units).length ≤ 32 ∧
    match edit with
    | .append _ => True
    | .removeFirst => units ≠ []
    | .replaceSubrange lower upper _ => lower ≤ upper ∧ upper ≤ units.length

/-- Every edit of a run stays within the bounds and the capacity. -/
def Allowed : List (Value word element) → List (Edit word element) → Prop
  | _, [] => True
  | units, edit :: edits => edit.Allowed units ∧ Allowed (edit.units units) edits

/-- A unit that the conversion to the storage extends with its sign. -/
def Extended (unit : Value word element) : Prop :=
  word = .word32 ∧ element = .uint16 ∧ BitVec.msb unit = true

/-- A new buffer is not made of a unit that is extended with its sign. -/
def Start.Plain : Start word element → Prop
  | .empty => True
  | .containing e => ¬ Extended e

/--
An edit does not put a unit that is extended with its sign below bits that are zero, as it
does if the unit is the only new one and comes first, and not all bits above it are ones.
-/
def Edit.Plain (units : List (Value word element)) : Edit word element → Prop
  | .append newElement => units = [] → ¬ Extended newElement
  | .removeFirst => True
  | .replaceSubrange lower upper replacement =>
      lower = 0 → ∀ unit, replacement = [unit] → Extended unit →
        units.drop upper = [BitVec.allOnes _]

/-- Every edit of a run is plain. -/
def Plain : List (Value word element) → List (Edit word element) → Prop
  | _, [] => True
  | units, edit :: edits => edit.Plain units ∧ Plain (edit.units units) edits

/-- Every buffer of a run stands for the list that has been edited in the same way. -/
def RepresentsThroughout (start : Start word element) (edits : List (Edit word element)) : Prop :=
  ∀ performed, performed <+: edits →
    Represents (performed.foldl Edit.perform start.buffer) (performed.foldl Edit.units start.units)

end Specification

section Amounts

variable {word : WordSize} {element : IntegerType}

theorem ofInt_sub {width : ℕ} (x y : ℤ) :
    BitVec.ofInt width (x - y) = BitVec.ofInt width x - BitVec.ofInt width y := by
  rw [Int.sub_eq_add_neg, BitVec.ofInt_add, BitVec.ofInt_neg, BitVec.sub_eq_add_neg]

/-- The positions of a buffer are few, so that their distances can be computed. -/
theorem distance_place (unsigned : element.isSigned = false)
    (narrow : element.bitWidth word ≤ 32) {i j : ℕ} (i_le : element.bitWidth word * i ≤ 32)
    (j_le : element.bitWidth word * j ≤ 32) :
    distance element (place element i : Value word .uint8) (place element j) =
      BitVec.ofInt _ (j - i) := by
  have small {k : ℕ} (fits : element.bitWidth word * k ≤ 32) : k < 5 := by
    have wide : 8 ≤ element.bitWidth word := by cases element <;> cases word <;> decide
    have many := Nat.mul_le_mul_right k wide
    omega
  have all : ∀ i : Fin 5, element.bitWidth word * i ≤ 32 → ∀ j : Fin 5,
      element.bitWidth word * j ≤ 32 →
      distance element (place element i : Value word .uint8) (place element j) =
        BitVec.ofInt _ ((j : ℕ) - (i : ℕ)) := by
    cases element <;> first | contradiction | (cases word <;> decide)
  exact all ⟨i, small i_le⟩ i_le ⟨j, small j_le⟩ j_le

theorem distance_start (unsigned : element.isSigned = false)
    (narrow : element.bitWidth word ≤ 32) {i : ℕ} (fits : element.bitWidth word * i ≤ 32) :
    distance element 0 (place element i : Value word .uint8) = BitVec.ofInt _ i := by
  have start : (place element 0 : Value word .uint8) = 0 := by rw [place, Nat.mul_zero]; rfl
  have whole := distance_place unsigned narrow (show element.bitWidth word * 0 ≤ 32 by omega) fits
  rw [start, Nat.cast_zero, Int.sub_zero] at whole
  exact whole

theorem bitWidthInt_eq (word : WordSize) (element : IntegerType) :
    bitWidthInt word element = BitVec.ofInt _ (element.bitWidth word) := by
  rw [BitVec.ofInt_natCast]
  rfl

/-- A number of positions in bits. -/
theorem ofInt_mul_width {n : ℕ} {i : ℤ} (same : i = n) :
    BitVec.ofInt _ i * bitWidthInt word element = BitVec.ofNat _ (element.bitWidth word * n) := by
  rw [bitWidthInt_eq, ← BitVec.ofInt_mul, same, ← BitVec.ofInt_natCast, Nat.mul_comm, Nat.cast_mul]

theorem place_bits {i : ℕ} (fits : element.bitWidth word * i ≤ 32) :
    truncatingIfNeeded word .int .uint8 (place element i) =
      BitVec.ofInt _ ((element.bitWidth word * i : ℕ) : ℤ) := by
  rw [truncatingIfNeeded_uint8, place, BitVec.ofInt_natCast]
  apply BitVec.eq_of_toNat_eq
  rw [BitVec.toNat_setWidth, BitVec.toNat_ofNat, BitVec.toNat_ofNat, IntegerType.bitWidth_uint8]
  rw [Nat.mod_eq_of_lt (show _ < 2 ^ 8 by omega)]

/-- Moving a place by a number of positions. -/
theorem place_moved {i j : ℕ} {n : Value word .int} (i_le : element.bitWidth word * i ≤ 32)
    (j_le : element.bitWidth word * j ≤ 32) (moved : n = BitVec.ofInt _ (j - i)) :
    truncatingIfNeeded word .uint8 .int
        (truncatingIfNeeded word .int .uint8 (place element i) + n * bitWidthInt word element) =
      place element j := by
  have bits : ((element.bitWidth word * i : ℕ) : ℤ) + (j - i) * element.bitWidth word =
      (element.bitWidth word * j : ℕ) := by
    push_cast
    ring
  rw [place_bits i_le, moved, bitWidthInt_eq, ← BitVec.ofInt_mul, ← BitVec.ofInt_add, bits,
    BitVec.ofInt_natCast]
  exact truncatingIfNeeded_int_ofNat (by omega)

end Amounts

section Lists

variable {word : WordSize} {element : IntegerType} {units : List (Value word element)}

theorem removeFirst_cons (narrow : element.bitWidth word ≤ 32) (unit : Value word element)
    (fits : element.bitWidth word * (unit :: units).length ≤ 32) :
    (ofUnits (unit :: units)).removeFirst = (unit, ofUnits units) := by
  have rest := consume_ofUnits fits (by simp : 1 ≤ (unit :: units).length)
  rw [Nat.mul_one] at rest
  have storage : fullShiftRight (ofUnits (unit :: units)).storage (elementWidth word element) =
      pack 32 (unit :: units) >>> element.bitWidth word := by
    rw [elementWidth_eq]
    exact (@fullShift_ofNat word .uint8 (.inr rfl) (pack 32 (unit :: units)) _ narrow).2
  rw [removeFirst, storage, elementWidth_eq, truncatingIfNeeded_uint32]
  exact Prod.ext (setWidth_pack_cons unit units narrow) rest

theorem subscript_place {i : ℕ} (below : element.bitWidth word * i < 32)
    (buffer : UIntBuffer word element) :
    buffer.subscript (place element i) =
      (buffer.storage >>> (element.bitWidth word * i)).setWidth (element.bitWidth word) := by
  have amount : truncatingIfNeeded word .uint32 .uint8 (place element i) =
      BitVec.ofNat _ (element.bitWidth word * i) := by
    rw [truncatingIfNeeded_uint8, place]
    exact BitVec.setWidth_ofNat_of_le_of_lt (show 8 ≤ 32 by decide) (show _ < 2 ^ 8 by omega)
  have inside : element.bitWidth word * i < IntegerType.uint32.bitWidth word := below
  rw [subscript, amount, maskingShiftRight_ofNat rfl _ inside, truncatingIfNeeded_uint32]

theorem offset_lt (fits : element.bitWidth word * units.length ≤ 32) {i : ℕ}
    (inside : i < units.length) : element.bitWidth word * i < 32 := by
  have positive := element.bitWidth_pos word
  have before : element.bitWidth word * (i + 1) ≤ element.bitWidth word * units.length :=
    Nat.mul_le_mul_left _ inside
  rw [Nat.mul_succ] at before
  omega

theorem subscript_ofUnits (narrow : element.bitWidth word ≤ 32)
    (fits : element.bitWidth word * units.length ≤ 32) {i : ℕ} (inside : i < units.length) :
    (ofUnits units).subscript (place element i) = units[i] := by
  rw [subscript_place (offset_lt fits inside)]
  change BitVec.setWidth _ (pack 32 units >>> _) = _
  rw [pack_drop fits, List.drop_eq_getElem_cons inside, setWidth_pack_cons _ _ narrow]

theorem toInt_ofInt_difference {i j : ℕ} (i_le : i ≤ 32) (j_le : j ≤ 32) :
    toInt word .int (BitVec.ofInt _ (j - i)) = (j : ℤ) - i := by
  have room : (32768 : ℤ) ≤ 2 ^ (word.bits - 1) := by cases word <;> decide
  apply BitVec.toInt_ofInt_eq_self
  · exact IntegerType.bitWidth_pos .int word
  · rw [IntegerType.bitWidth]
    omega
  · rw [IntegerType.bitWidth]
    omega

/-- The packing of a list that fits stands for the list. -/
theorem represents_ofUnits (unsigned : element.isSigned = false)
    (narrow : element.bitWidth word ≤ 32) (fits : element.bitWidth word * units.length ≤ 32) :
    Represents (ofUnits units) units := by
  have positive := element.bitWidth_pos word
  have inside {i : ℕ} (i_le : i ≤ units.length) :
      element.bitWidth word * i ≤ 32 ∧ i ≤ 32 := by
    have below := Nat.mul_le_mul_left (element.bitWidth word) i_le
    have above := Nat.le_mul_of_pos_left i positive
    omega
  constructor
  · exact toNat_bitCount fits
  · intro i beyond
    rw [toNat_bitCount fits] at beyond
    exact getLsbD_pack_of_ge fits beyond
  · exact yields_ofUnits narrow fits
  · have counted := distance_start unsigned narrow fits
    have number := @toInt_ofInt_difference word 0 units.length (by omega) (inside le_rfl).2
    rw [Nat.cast_zero, Int.sub_zero] at number
    rw [count, ← number]
    exact congrArg _ counted
  · rfl
  · intro i i_lt
    exact subscript_ofUnits narrow fits i_lt
  · intro i _
    rw [indexAfter, elementWidth_eq, place, place, Nat.mul_succ, BitVec.ofNat_add]
  · intro i _
    rw [indexBefore, elementWidth_eq, place, place, Nat.mul_succ, BitVec.ofNat_add]
    exact BitVec.add_sub_cancel _ _
  · intro i i_le j j_le
    rw [distance_place unsigned narrow (inside i_le).1 (inside j_le).1]
    exact toInt_ofInt_difference (inside i_le).2 (inside j_le).2
  · intro i i_le j j_le n moved
    apply place_moved (inside i_le).1 (inside j_le).1
    rw [← moved]
    exact BitVec.ofInt_toInt.symm
  · intro unit first
    rcases List.head?_eq_some_iff.mp first with ⟨rest, rfl⟩
    rw [removeFirst_cons narrow unit fits]

/-- A buffer that stands for a list is the packing of the list. -/
theorem Represents.eq_ofUnits {buffer : UIntBuffer word element}
    (represents : Represents buffer units) (narrow : element.bitWidth word ≤ 32)
    (fits : element.bitWidth word * units.length ≤ 32) : buffer = ofUnits units := by
  have positive := element.bitWidth_pos word
  have storage : buffer.storage = pack 32 units := by
    apply BitVec.eq_of_getLsbD_eq
    intro index _
    by_cases low : index < element.bitWidth word * units.length
    · have inside : index / element.bitWidth word < units.length := Nat.div_lt_of_lt_mul low
      have same := represents.subscript _ inside
      rw [← subscript_ofUnits narrow fits inside, subscript_place (offset_lt fits inside),
        subscript_place (offset_lt fits inside)] at same
      have bit := congrArg (fun x => BitVec.getLsbD x (index % element.bitWidth word)) same
      simp only [BitVec.getLsbD_setWidth, BitVec.getLsbD_ushiftRight, Nat.div_add_mod,
        Nat.mod_lt _ positive, decide_true, Bool.true_and] at bit
      exact bit
    · have above := Nat.le_of_not_lt low
      rw [getLsbD_pack_of_ge fits above]
      apply represents.high
      rwa [represents.bitCount]
  exact congrArg₂ UIntBuffer.mk storage represents.endIndex

end Lists

section Replacing

variable {word : WordSize} {element : IntegerType} {units : List (Value word element)}
  {lower upper size : ℕ} {x : Value word .uint32}

/-- A shift by all bits, which the mask turns into no shift, of nothing. -/
theorem shiftLeft_amount {n : ℕ} (n_le : n ≤ 32) (nothing : n = 32 → x = 0) :
    maskingShiftLeft word .uint32 x (truncatingIfNeeded word .uint32 .int (BitVec.ofNat _ n)) =
      x <<< n := by
  have amount : truncatingIfNeeded word .uint32 .int (BitVec.ofNat _ n) = BitVec.ofNat _ n :=
    truncatingIfNeeded_int_ofNat (by omega)
  rw [amount]
  rcases Nat.lt_or_eq_of_le n_le with below | full
  · exact maskingShiftLeft_ofNat x below
  · rw [nothing full, maskingShiftLeft]
    simp

theorem headBits_eq (fits : element.bitWidth word * units.length ≤ 32)
    (inside : lower ≤ units.length) :
    (ofUnits units).storage &&&
        lowBits (BitVec.ofNat (IntegerType.int.bitWidth word) (element.bitWidth word * lower)) =
      pack 32 (units.take lower) := by
  have fewer := Nat.mul_le_mul_left (element.bitWidth word) inside
  have room : element.bitWidth word * (units.take lower).length ≤ 32 := by
    rw [List.length_take_of_le inside]
    omega
  apply BitVec.eq_of_toNat_eq
  rw [toNat_and_lowBits (.inl rfl) _ (by omega), toNat_pack room, number_take]
  change BitVec.toNat (pack 32 units) % _ = _
  rw [toNat_pack fits]

/-- The three parts that replacing a range puts together. -/
theorem replaceSubrange_eq (unsigned : element.isSigned = false)
    (narrow : element.bitWidth word ≤ 32) (fits : element.bitWidth word * units.length ≤ 32)
    (ordered : lower ≤ upper) (inside : upper ≤ units.length)
    (fits' : element.bitWidth word * (lower + size + (units.length - upper)) ≤ 32)
    (nothing : element.bitWidth word * lower = 32 → x = 0) :
    (ofUnits units).replaceSubrange (place element lower) (place element upper)
        ⟨x, place element size⟩ =
      ⟨pack 32 (units.take lower) ||| x <<< (element.bitWidth word * lower) |||
          pack 32 (units.drop upper) <<< (element.bitWidth word * (lower + size)),
        place element (lower + size + (units.length - upper))⟩ := by
  have positive := element.bitWidth_pos word
  have inside' {i : ℕ} (i_le : i ≤ units.length) : element.bitWidth word * i ≤ 32 :=
    (Nat.mul_le_mul_left _ i_le).trans fits
  have inside'' {i : ℕ} (i_le : i ≤ lower + size + (units.length - upper)) :
      element.bitWidth word * i ≤ 32 :=
    (Nat.mul_le_mul_left _ i_le).trans fits'
  have target := distance_place unsigned narrow (inside' (ordered.trans inside)) (inside' inside)
  have head := distance_start unsigned narrow (inside' (ordered.trans inside))
  have tail := distance_start unsigned narrow (inside' inside)
  have counted := @distance_start word _ unsigned narrow _ (inside'' (show size ≤ _ by omega))
  have rest : (upper : ℤ) + (size - (upper - lower)) = (lower + size : ℕ) := by omega
  have place' : (BitVec.ofInt _ upper + (BitVec.ofInt _ size - BitVec.ofInt _ (upper - lower))) *
      bitWidthInt word element = BitVec.ofNat _ (element.bitWidth word * (lower + size)) := by
    rw [← ofInt_sub, ← BitVec.ofInt_add]
    exact ofInt_mul_width rest
  have nothing' : element.bitWidth word * (lower + size) = 32 →
      pack 32 (units.drop upper) = BitVec.ofNat 32 0 := by
    intro full
    have few : units.length ≤ upper := by
      by_contra more
      have larger := Nat.mul_lt_mul_of_pos_left
        (show lower + size < lower + size + (units.length - upper) by omega) positive
      omega
    rw [List.drop_eq_nil_of_le few, pack_nil]
  have moved := @place_moved word _ _ _ (BitVec.ofInt _ size - BitVec.ofInt _ (upper - lower))
    fits fits' (by
      rw [← ofInt_sub]
      congr 1
      omega)
  have whole : fullShiftRight (ofUnits units).storage
      (BitVec.ofNat (IntegerType.int.bitWidth word) (element.bitWidth word * upper)) =
        pack 32 (units.drop upper) := by
    rw [(fullShift_ofNat (.inl rfl) _ (inside' inside)).2]
    exact pack_drop fits upper
  rw [replaceSubrange, count, target, head, tail, counted, ofInt_mul_width rfl,
    ofInt_mul_width rfl, headBits_eq fits (ordered.trans inside), whole,
    shiftLeft_amount (inside' (ordered.trans inside)) nothing, place',
    shiftLeft_amount (inside'' (by omega)) nothing']
  exact congrArg₂ UIntBuffer.mk rfl moved

end Replacing

section Conversions

variable {word : WordSize} {element : IntegerType} {units : List (Value word element)}
  {unit : Value word element}

instance : Decidable (Extended unit) :=
  inferInstanceAs (Decidable (_ ∧ _ ∧ _))

theorem signExtend_eq_iff (x : BitVec 16) :
    x.signExtend 32 = x.setWidth 32 ↔ ¬ x.msb = true := by
  constructor
  · intro same large
    have top := congrArg (fun y => BitVec.getLsbD y 31) same
    simp only [BitVec.getLsbD_signExtend, BitVec.getLsbD_setWidth, large] at top
    rw [BitVec.getLsbD_of_ge x 31 (by decide)] at top
    simp at top
  · intro small
    exact BitVec.signExtend_eq_setWidth_of_msb_false (Bool.not_eq_true _ ▸ small)

theorem signExtend_shiftLeft (x : BitVec 16) :
    x.signExtend 32 <<< 16 = x.setWidth 32 <<< 16 := by
  apply BitVec.eq_of_getLsbD_eq
  intro index index_lt
  by_cases low : index < 16
  · simp [low]
  · have inside : index - 16 < 16 := by omega
    rw [BitVec.getLsbD_shiftLeft, BitVec.getLsbD_shiftLeft, BitVec.getLsbD_signExtend,
      BitVec.getLsbD_setWidth, if_pos inside]

theorem truncatingIfNeeded_signExtend (x : Value .word32 .uint16) :
    truncatingIfNeeded .word32 .uint32 .uint16 x = BitVec.signExtend 32 x :=
  (truncatingIfNeeded_uint16_word32 x).trans (BitVec.setWidth_eq _)

/-- Only a unit that is extended with its sign gets bits that it does not have. -/
theorem converts_iff (unsigned : element.isSigned = false) :
    truncatingIfNeeded word .uint32 element unit = unit.setWidth 32 ↔ ¬ Extended unit := by
  by_cases extends_ : word = .word32 ∧ element = .uint16
  · rcases extends_ with ⟨rfl, rfl⟩
    rw [truncatingIfNeeded_signExtend]
    refine (signExtend_eq_iff unit).trans ?_
    simp [Extended]
  · constructor
    · rintro _ ⟨isWord, isElement, _⟩
      exact extends_ ⟨isWord, isElement⟩
    · intro _
      exact truncatingIfNeeded_unsigned unsigned extends_ unit

theorem signExtend_and (x : BitVec 16) :
    x.signExtend 32 &&& (BitVec.allOnes 16).setWidth 32 =
      x.setWidth 32 &&& (BitVec.allOnes 16).setWidth 32 := by
  apply BitVec.eq_of_getLsbD_eq
  intro index index_lt
  rw [BitVec.getLsbD_and, BitVec.getLsbD_and, BitVec.getLsbD_setWidth, BitVec.getLsbD_setWidth,
    BitVec.getLsbD_allOnes, BitVec.getLsbD_signExtend]
  by_cases low : index < 16
  · rw [if_pos low]
  · simp [low]

/-- What the sign adds is hidden by a unit whose bits are all ones, and by no other one. -/
theorem signExtend_or_iff {x : BitVec 16} (large : x.msb = true) (tail : BitVec 16) :
    x.signExtend 32 ||| tail.setWidth 32 <<< 16 = x.setWidth 32 ||| tail.setWidth 32 <<< 16 ↔
      tail = BitVec.allOnes 16 := by
  constructor
  · intro same
    apply BitVec.eq_of_getLsbD_eq
    intro index index_lt
    have bit := congrArg (fun y => BitVec.getLsbD y (index + 16)) same
    simp only [BitVec.getLsbD_or, BitVec.getLsbD_signExtend, BitVec.getLsbD_setWidth,
      BitVec.getLsbD_shiftLeft, large] at bit
    rw [BitVec.getLsbD_of_ge x (index + 16) (by omega), if_neg (by omega)] at bit
    simp [show index + 16 < 32 by omega] at bit
    rw [BitVec.getLsbD_allOnes, decide_eq_true index_lt]
    exact bit.2
  · rintro rfl
    apply BitVec.eq_of_getLsbD_eq
    intro index index_lt
    rw [BitVec.getLsbD_or, BitVec.getLsbD_or, BitVec.getLsbD_signExtend, BitVec.getLsbD_setWidth,
      BitVec.getLsbD_shiftLeft, BitVec.getLsbD_setWidth, BitVec.getLsbD_allOnes]
    by_cases low : index < 16
    · rw [if_pos low]
    · have inside : index - 16 < 16 := by omega
      simp [index_lt, low, inside, show index - 16 < 32 by omega]

/-- What the sign adds is shifted out above another unit. -/
theorem shifted_of_later (unsigned : element.isSigned = false) {n : ℕ} (later : n ≠ 0)
    (fits : element.bitWidth word * (n + 1) ≤ 32) :
    truncatingIfNeeded word .uint32 element unit <<< (element.bitWidth word * n) =
      unit.setWidth 32 <<< (element.bitWidth word * n) := by
  by_cases plain : Extended unit
  · rcases plain with ⟨rfl, rfl, _⟩
    rw [IntegerType.bitWidth_uint16] at fits
    have one : n = 1 := by omega
    subst one
    rw [truncatingIfNeeded_signExtend]
    exact signExtend_shiftLeft unit
  · rw [(converts_iff unsigned).mpr plain]

/-- A unit is added to an empty buffer as its conversion. -/
theorem empty_append (unit : Value word element) :
    (empty : UIntBuffer word element).append unit =
      ⟨truncatingIfNeeded word .uint32 element unit, place element 1⟩ := by
  have offset : truncatingIfNeeded word .uint32 .uint8 (empty : UIntBuffer word element).bitCount =
      BitVec.ofNat _ 0 := by
    rw [truncatingIfNeeded_uint8]
    rfl
  have whole : 0 < IntegerType.uint32.bitWidth word := IntegerType.bitWidth_pos _ _
  rw [append, offset, maskingShiftLeft_ofNat _ whole, maskingShiftLeft_ofNat _ whole,
    elementWidth_eq]
  refine congrArg₂ UIntBuffer.mk ?_ ?_
  · simp [empty]
  · simp [empty, place]

theorem containing_eq (unit : Value word element) :
    containing unit = (empty : UIntBuffer word element).append unit := by
  rw [empty_append, containing, place, Nat.mul_one]
  exact congrArg₂ UIntBuffer.mk rfl (elementWidth_eq word element)

theorem append_iff (unsigned : element.isSigned = false)
    (fits : element.bitWidth word * (units.length + 1) ≤ 32) :
    (ofUnits units).append unit = ofUnits (units ++ [unit]) ↔ (units = [] → ¬ Extended unit) := by
  by_cases first : units = []
  · subst first
    have converted : (ofUnits []).append unit = ofUnits [unit] ↔
        truncatingIfNeeded word .uint32 element unit = unit.setWidth 32 := by
      have start : (ofUnits [] : UIntBuffer word element) = empty := rfl
      rw [start, empty_append, ofUnits, pack_singleton, List.length_singleton]
      constructor
      · intro same
        exact congrArg storage same
      · intro same
        exact congrArg₂ UIntBuffer.mk same rfl
    rw [List.nil_append, converted, converts_iff unsigned]
    simp
  · have later : units.length ≠ 0 := by simpa using first
    constructor
    · intro _ none
      exact absurd none first
    · intro _
      exact append_of_shifted unit fits (shifted_of_later unsigned later fits)

/-- A second unit takes away what the first one has above itself. -/
theorem append_clears {first : Value word element} (large : Extended first) :
    ((empty : UIntBuffer word element).append first).append unit =
      (ofUnits [first]).append unit := by
  rcases large with ⟨rfl, rfl, _⟩
  have mask :
      ~~~maskingShiftLeft .word32 .uint32 (truncatingIfNeeded .word32 .uint32 .uint16 (~~~0))
      (truncatingIfNeeded .word32 .uint32 .uint8 (place .uint16 1)) =
        (BitVec.allOnes 16).setWidth 32 := by
    decide
  have cleared := signExtend_and first
  rw [← mask, ← pack_singleton] at cleared
  rw [empty_append, truncatingIfNeeded_signExtend]
  exact congrArg₂ UIntBuffer.mk (congrArg (· ||| _) cleared) rfl

theorem foldl_append (unsigned : element.isSigned = false) {more : List (Value word element)}
    (some_ : units ≠ []) (fits : element.bitWidth word * (units ++ more).length ≤ 32) :
    more.foldl append (ofUnits units) = ofUnits (units ++ more) := by
  induction more generalizing units with
  | nil => rw [List.append_nil, List.foldl_nil]
  | cons unit more further =>
      have length : (units ++ unit :: more).length = units.length + 1 + more.length := by
        simp
        omega
      have fits' : element.bitWidth word * (units.length + 1) ≤ 32 := by
        have fewer := Nat.mul_le_mul_left (element.bitWidth word)
          (show units.length + 1 ≤ (units ++ unit :: more).length by omega)
        omega
      have added := (@append_iff word element units unit unsigned fits').mpr
        fun none => absurd none some_
      have rest := @further (units ++ [unit]) (by simp) (by simpa using fits)
      rw [List.foldl_cons, added, rest, List.append_assoc, List.singleton_append]

theorem ofElements_eq (unsigned : element.isSigned = false)
    (fits : element.bitWidth word * units.length ≤ 32)
    (plain : ∀ unit, units = [unit] → ¬ Extended unit) : ofElements units = ofUnits units := by
  have start : (ofUnits [] : UIntBuffer word element) = empty := rfl
  rcases units with _ | ⟨first, _ | ⟨second, rest⟩⟩
  · rfl
  · exact (@append_iff word element [] first unsigned fits).mpr fun _ => plain first rfl
  · rw [List.length_cons, List.length_cons] at fits
    have fits' : element.bitWidth word * (1 + 1) ≤ 32 :=
      (Nat.mul_le_mul_left _ (by omega)).trans fits
    have added : ((empty : UIntBuffer word element).append first).append second =
        ofUnits [first, second] := by
      have second_ := (@append_iff word element [first] second unsigned fits').mpr (by simp)
      by_cases large : Extended first
      · rw [append_clears large, second_, List.singleton_append]
      · have first_ := (@append_iff word element [] first unsigned (by
          rw [List.length_nil, Nat.zero_add]
          exact (Nat.mul_le_mul_left _ (by omega)).trans fits')).mpr fun _ => large
        rw [← start, first_, List.nil_append, second_, List.singleton_append]
    rw [ofElements, List.foldl_cons, List.foldl_cons, added]
    exact foldl_append unsigned (by simp) fits

end Conversions

section Steps

variable {word : WordSize} {element : IntegerType} {units : List (Value word element)}
  {lower upper : ℕ} {replacement : List (Value word element)}

theorem pack_splice (ordered : lower ≤ upper) (inside : upper ≤ units.length)
    (fits : element.bitWidth word * (splice units lower upper replacement).length ≤ 32) :
    pack 32 (splice units lower upper replacement) =
      pack 32 (units.take lower) |||
        pack 32 replacement <<< (element.bitWidth word * lower) |||
        pack 32 (units.drop upper) <<< (element.bitWidth word * (lower + replacement.length)) := by
  have length := @length_splice _ units replacement _ _ ordered inside
  have head : (units.take lower).length = lower := List.length_take_of_le (ordered.trans inside)
  have front : (units.take lower ++ replacement).length = lower + replacement.length := by
    rw [List.length_append, head]
  have room {i : ℕ} (i_le : i ≤ lower + replacement.length) :
      element.bitWidth word * i ≤ 32 :=
    (Nat.mul_le_mul_left _ (by omega)).trans fits
  rw [splice, pack_append_or (by rw [front]; exact room le_rfl), front,
    pack_append_or (by rw [head]; exact room (by omega)), head]

/-- Replacing a range by a buffer of its replacement. -/
theorem replaceSubrange_ofUnits (unsigned : element.isSigned = false)
    (narrow : element.bitWidth word ≤ 32) (fits : element.bitWidth word * units.length ≤ 32)
    (ordered : lower ≤ upper) (inside : upper ≤ units.length)
    (fits' : element.bitWidth word * (splice units lower upper replacement).length ≤ 32)
    {x : Value word .uint32} (nothing : element.bitWidth word * lower = 32 → x = 0) :
    (ofUnits units).replaceSubrange (place element lower) (place element upper)
        ⟨x, place element replacement.length⟩ =
          ofUnits (splice units lower upper replacement) ↔
      pack 32 (units.take lower) ||| x <<< (element.bitWidth word * lower) |||
          pack 32 (units.drop upper) <<< (element.bitWidth word * (lower + replacement.length)) =
        pack 32 (units.take lower) ||| pack 32 replacement <<< (element.bitWidth word * lower) |||
          pack 32 (units.drop upper) <<<
            (element.bitWidth word * (lower + replacement.length)) := by
  have length := @length_splice _ units replacement _ _ ordered inside
  have sizes : (splice units lower upper replacement).length =
      lower + replacement.length + (units.length - upper) := by omega
  rw [replaceSubrange_eq unsigned narrow fits ordered inside (sizes ▸ fits') nothing,
    ← pack_splice ordered inside fits', ofUnits, sizes]
  constructor
  · intro same
    exact congrArg storage same
  · intro same
    exact congrArg₂ UIntBuffer.mk same rfl

/-- A unit in front that is extended with its sign spoils the bits above it, unless they are set. -/
theorem replaceSubrange_extended {unit : Value word element}
    (narrow : element.bitWidth word ≤ 32) (unsigned : element.isSigned = false)
    (large : Extended unit) (fits : element.bitWidth word * units.length ≤ 32)
    (ordered : lower ≤ upper) (inside : upper ≤ units.length)
    (fits' : element.bitWidth word * (splice units lower upper [unit]).length ≤ 32) :
    (ofUnits units).replaceSubrangeWith (place element lower) (place element upper) [unit] =
        ofUnits (splice units lower upper [unit]) ↔
      (lower = 0 → units.drop upper = [BitVec.allOnes _]) := by
  have length := @length_splice _ units [unit] _ _ ordered inside
  have positive := element.bitWidth_pos word
  have single : ofElements [unit] =
      ⟨truncatingIfNeeded word .uint32 element unit, place element [unit].length⟩ :=
    empty_append unit
  rw [List.length_singleton] at length
  have room : element.bitWidth word * (lower + 1) ≤ 32 :=
    (Nat.mul_le_mul_left _ (by omega)).trans fits'
  have nothing : element.bitWidth word * lower = 32 →
      truncatingIfNeeded word .uint32 element unit = 0 := by
    rw [Nat.mul_succ] at room
    omega
  rw [replaceSubrangeWith, single,
    replaceSubrange_ofUnits unsigned narrow fits ordered inside fits' nothing, pack_singleton]
  by_cases front : lower = 0
  · subst front
    rcases large with ⟨rfl, rfl, large⟩
    have tail : 16 * (1 + (units.drop upper).length) ≤ 32 := by
      have sizes : (splice units 0 upper [unit]).length = 1 + (units.drop upper).length := by
        rw [List.length_drop]
        omega
      rwa [sizes] at fits'
    rw [List.take_zero, pack_nil, BitVec.zero_or, BitVec.zero_or, Nat.mul_zero,
      BitVec.shiftLeft_zero, BitVec.shiftLeft_zero, truncatingIfNeeded_signExtend]
    generalize units.drop upper = rest at tail
    rcases rest with _ | ⟨second, rest⟩
    · rw [pack_nil, BitVec.zero_shiftLeft, BitVec.or_zero, BitVec.or_zero]
      refine (signExtend_eq_iff unit).trans ?_
      simp [large]
    · have last : rest = [] := by
        rw [List.length_cons] at tail
        exact List.length_eq_zero_iff.mp (by omega)
      subst last
      rw [pack_singleton]
      refine (signExtend_or_iff large second).trans ?_
      constructor
      · intro ones _
        exact congrArg (fun unit => [unit]) ones
      · intro ones
        exact List.singleton_inj.mp (ones rfl)
  · rw [shifted_of_later unsigned front room]
    exact iff_of_true rfl fun none => absurd none front

/-- An edit acts on the packing of a list as on the list, if and only if it is plain. -/
theorem perform_iff (unsigned : element.isSigned = false) (narrow : element.bitWidth word ≤ 32)
    (fits : element.bitWidth word * units.length ≤ 32) {edit : Edit word element}
    (allowed : edit.Allowed units) :
    edit.perform (ofUnits units) = ofUnits (edit.units units) ↔ edit.Plain units := by
  cases edit with
  | append newElement =>
      have fits' := allowed.1
      rw [Edit.units, List.length_append, List.length_singleton] at fits'
      exact append_iff unsigned fits'
  | removeFirst =>
      rcases List.exists_cons_of_ne_nil allowed.2 with ⟨first, rest, rfl⟩
      rw [Edit.perform, removeFirst_cons narrow first fits]
      exact iff_of_true rfl trivial
  | replaceSubrange lower upper replacement =>
      rcases allowed with ⟨fits', ordered, inside⟩
      change element.bitWidth word * (splice units lower upper replacement).length ≤ 32 at fits'
      by_cases large : ∃ unit, replacement = [unit] ∧ Extended unit
      · rcases large with ⟨unit, rfl, large⟩
        refine (replaceSubrange_extended narrow unsigned large fits ordered inside fits').trans ?_
        simp [Edit.Plain, large]
      · have plain : ∀ unit, replacement = [unit] → ¬ Extended unit := by
          intro unit same extended
          exact large ⟨unit, same, extended⟩
        have length := @length_splice _ units replacement _ _ ordered inside
        have fewer : element.bitWidth word * replacement.length ≤ 32 :=
          (Nat.mul_le_mul_left _ (by omega)).trans fits'
        have nothing : element.bitWidth word * lower = 32 → pack 32 replacement = 0 := by
          intro full
          have none : replacement = [] := by
            apply List.length_eq_zero_iff.mp
            by_contra some_
            have larger := Nat.mul_lt_mul_of_pos_left
              (show lower < (splice units lower upper replacement).length by omega)
              (element.bitWidth_pos word)
            omega
          rw [none, pack_nil]
          rfl
        rw [Edit.perform, Edit.units, replaceSubrangeWith, ofElements_eq unsigned fewer plain]
        refine iff_of_true ?_ fun _ unit same extended => absurd extended (plain unit same)
        exact (replaceSubrange_ofUnits unsigned narrow fits ordered inside fits' nothing).mpr rfl

end Steps

section Runs

variable {word : WordSize} {element : IntegerType} {units : List (Value word element)}
  {edits : List (Edit word element)} {buffer : UIntBuffer word element}

theorem represents_iff (unsigned : element.isSigned = false) (narrow : element.bitWidth word ≤ 32)
    (fits : element.bitWidth word * units.length ≤ 32) :
    Represents buffer units ↔ buffer = ofUnits units := by
  constructor
  · intro represents
    exact represents.eq_ofUnits narrow fits
  · rintro rfl
    exact represents_ofUnits unsigned narrow fits

theorem start_iff (unsigned : element.isSigned = false) (narrow : element.bitWidth word ≤ 32)
    (start : Start word element) : start.buffer = ofUnits start.units ↔ start.Plain := by
  cases start with
  | empty => exact iff_of_true rfl trivial
  | containing e =>
      have added := @append_iff word element [] e unsigned (by simpa using narrow)
      rw [Start.buffer, Start.units, containing_eq]
      refine added.trans ?_
      simp [Start.Plain]

/-- The buffers that come after a buffer that stands for a list. -/
theorem run_iff (unsigned : element.isSigned = false) (narrow : element.bitWidth word ≤ 32)
    (fits : element.bitWidth word * units.length ≤ 32) (allowed : Allowed units edits) :
    (∀ performed, performed <+: edits →
        Represents (performed.foldl Edit.perform (ofUnits units))
          (performed.foldl Edit.units units)) ↔ Plain units edits := by
  induction edits generalizing units with
  | nil =>
      refine iff_of_true ?_ trivial
      intro performed none
      rw [List.prefix_nil.mp none]
      exact represents_ofUnits unsigned narrow fits
  | cons edit edits further =>
      rcases allowed with ⟨now, later⟩
      rw [Plain, ← perform_iff unsigned narrow fits now, ← further now.1 later]
      constructor
      · intro throughout
        have reached := throughout [edit] (List.prefix_iff_eq_append.mpr rfl)
        have next : edit.perform (ofUnits units) = ofUnits (edit.units units) :=
          (represents_iff unsigned narrow now.1).mp reached
        refine ⟨next, ?_⟩
        intro performed before
        have whole := throughout (edit :: performed) (List.cons_prefix_cons.mpr ⟨rfl, before⟩)
        rw [List.foldl_cons, List.foldl_cons, next] at whole
        exact whole
      · rintro ⟨next, throughout⟩ performed before
        rcases performed with _ | ⟨first, performed⟩
        · exact represents_ofUnits unsigned narrow fits
        · rcases List.cons_prefix_cons.mp before with ⟨rfl, before'⟩
          rw [List.foldl_cons, List.foldl_cons, next]
          exact throughout performed before'

/-- A run keeps its lists, if and only if no unit is stored with bits that it does not have. -/
theorem representsThroughout_iff (unsigned : element.isSigned = false)
    (narrow : element.bitWidth word ≤ 32) (start : Start word element)
    (allowed : Allowed start.units edits) :
    RepresentsThroughout start edits ↔ start.Plain ∧ Plain start.units edits := by
  have fits : element.bitWidth word * start.units.length ≤ 32 := by
    cases start with
    | empty => simp [Start.units]
    | containing e => simpa [Start.units] using narrow
  rw [RepresentsThroughout, ← start_iff unsigned narrow, ← run_iff unsigned narrow fits allowed]
  constructor
  · intro throughout
    have first := throughout [] List.nil_prefix
    have begun := (represents_iff unsigned narrow fits).mp first
    refine ⟨begun, ?_⟩
    intro performed before
    rw [← begun]
    exact throughout performed before
  · rintro ⟨begun, throughout⟩
    rw [begun]
    exact throughout

/-- Two bytes are appended, the first one is removed, and two are inserted in front. -/
theorem representsThroughout_bytes :
    @RepresentsThroughout .word32 .uint8 .empty
      [.append 0x41, .append 0xFF, .removeFirst, .replaceSubrange 0 0 [0x80, 0x42]] := by
  have allowed : @Allowed .word32 .uint8 []
      [.append 0x41, .append 0xFF, .removeFirst, .replaceSubrange 0 0 [0x80, 0x42]] := by
    simp [Allowed, Edit.Allowed, Edit.units, splice, IntegerType.bitWidth]
  refine (representsThroughout_iff rfl (by decide) .empty allowed).mpr ⟨trivial, ?_⟩
  simp [Plain, Edit.Plain, Extended]

/-- A large unit is followed by ones, which an insertion after it then reads as the unit. -/
theorem not_representsThroughout_large :
    @Allowed .word32 .uint16 [] [.append 0x8000, .replaceSubrange 1 1 [1]] ∧
      ¬ @RepresentsThroughout .word32 .uint16 .empty [.append 0x8000] ∧
      ((empty : UIntBuffer .word32 .uint16).append 0x8000).storage = 0xFFFF8000 ∧
      (((empty : UIntBuffer .word32 .uint16).append 0x8000).replaceSubrangeWith 16 16
        [1]).subscript 0 = 0xFFFF := by
  refine ⟨?_, ?_, by decide, by decide⟩
  · simp [Allowed, Edit.Allowed, Edit.units, splice, IntegerType.bitWidth]
  · intro throughout
    have stored := (throughout [.append 0x8000] List.prefix_rfl).high 31 (by decide)
    exact absurd stored (by decide)

end Runs

end UIntBuffer

end USwift
