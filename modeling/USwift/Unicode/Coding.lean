import USwift.Library.BitFields
import USwift.Library.EncodingForms
import USwift.Unicode.ValidUTF8Buffer

/-!
# Encoding and decoding of scalars

`decode` and `encode` of the three encodings work on the packed code units of one
scalar: bytes increased by one for UTF-8, up to two units of 16 bits for UTF-16.
They are inverse to each other on the packed forms of the scalars.
-/

namespace USwift

open Packing EncodingForms BitFields

/-- `Unicode.Scalar`. -/
structure UnicodeScalar (word : WordSize) where
  value : Value word .uint32
  deriving DecidableEq

/-- `CollectionOfOne`. -/
structure CollectionOfOne (Element : Type) where
  element : Element
  deriving DecidableEq

variable {word : WordSize}

namespace UTF8

/-- `decode(_:)`. -/
def decode (source : ValidUTF8Buffer word) : UnicodeScalar word :=
  if source.count == 1 then ⟨source.biasedBits - 0x01⟩
  else if source.count == 2 then
    let bits := source.biasedBits - 0x0101
    let value := maskingShiftRight word .uint32 (bits &&& 0x3F00) 8
    let value := value ||| maskingShiftLeft word .uint32 (bits &&& 0x1F) 6
    ⟨value⟩
  else if source.count == 3 then
    let bits := source.biasedBits - 0x010101
    let value := maskingShiftRight word .uint32 (bits &&& 0x3F0000) 16
    let value := value ||| maskingShiftRight word .uint32 (bits &&& 0x3F00) 2
    let value := value ||| maskingShiftLeft word .uint32 (bits &&& 0x0F) 12
    ⟨value⟩
  else
    let bits := source.biasedBits - 0x01010101
    let value := maskingShiftRight word .uint32 (bits &&& 0x3F000000) 24
    let value := value ||| maskingShiftRight word .uint32 (bits &&& 0x3F0000) 10
    let value := value ||| maskingShiftLeft word .uint32 (bits &&& 0x3F00) 4
    let value := value ||| maskingShiftLeft word .uint32 (bits &&& 0x07) 18
    ⟨value⟩

/-- `encode(_:)`. -/
def encode (source : UnicodeScalar word) : Option (ValidUTF8Buffer word) :=
  let c := source.value
  if less word .uint32 c (maskingShiftLeft word .uint32 1 7) then
    some (.containing (truncatingIfNeeded word .uint8 .uint32 c))
  else
    let o := c &&& 0x3F
    let c := maskingShiftRight word .uint32 c 6
    let o := maskingShiftLeft word .uint32 o 8
    if less word .uint32 c (maskingShiftLeft word .uint32 1 5) then some ⟨(o ||| c) + 0x81C1⟩
    else
      let o := o ||| (c &&& 0x3F)
      let c := maskingShiftRight word .uint32 c 6
      let o := maskingShiftLeft word .uint32 o 8
      if less word .uint32 c (maskingShiftLeft word .uint32 1 4) then
        some ⟨(o ||| c) + 0x8181E1⟩
      else
        let o := o ||| (c &&& 0x3F)
        let c := maskingShiftRight word .uint32 c 6
        let o := maskingShiftLeft word .uint32 o 8
        some ⟨(o ||| c) + 0x818181F1⟩

end UTF8

namespace UTF16

/-- `decode(_:)`. -/
def decode (source : UIntBuffer word .uint16) : UnicodeScalar word :=
  let bits := source.storage
  if source.bitCount == 16 then ⟨bits &&& 0xFFFF⟩
  else
    let lower := smartShiftRight word .uint32 bits (16 : Value word .int) &&& 0x03FF
    let upper := smartShiftLeft word .uint32 (bits &&& 0x03FF) (10 : Value word .int)
    let value := 0x10000 + (lower ||| upper)
    ⟨value⟩

/-- `encode(_:)`. -/
def encode (source : UnicodeScalar word) : Option (UIntBuffer word .uint16) :=
  let x := source.value
  if less word .uint32 x (smartShiftLeft word .uint32 1 (16 : Value word .int)) then some ⟨x, 16⟩
  else
    let x1 := x - smartShiftLeft word .uint32 1 (16 : Value word .int)
    let r := 0xDC00 + (x1 &&& 0x3FF)
    let r := maskingShiftLeft word .uint32 r 16
    let r := r ||| (0xD800 + (maskingShiftRight word .uint32 x1 10 &&& 0x3FF))
    some ⟨r, 32⟩

end UTF16

namespace UTF32

/-- `decode(_:)`. -/
def decode (source : CollectionOfOne (Value word .uint32)) : UnicodeScalar word :=
  ⟨source.element⟩

/-- `encode(_:)`. -/
def encode (source : UnicodeScalar word) : Option (CollectionOfOne (Value word .uint32)) :=
  some ⟨source.value⟩

end UTF32

/-- A scalar as the program stores it. -/
def UnicodeScalar.ofScalar (scalar : Scalar) : UnicodeScalar word :=
  ⟨BitVec.ofNat 32 scalar.value⟩

theorem shiftRight_uint32 (x : Value word .uint32) {amount : ℕ} (below : amount < 32) :
    maskingShiftRight word .uint32 x (OfNat.ofNat amount) = x >>> amount :=
  maskingShiftRight_ofNat rfl x below

theorem shiftLeft_uint32 (x : Value word .uint32) {amount : ℕ} (below : amount < 32) :
    maskingShiftLeft word .uint32 x (OfNat.ofNat amount) = x <<< amount :=
  maskingShiftLeft_ofNat x below

theorem smartShiftRight_uint32 (x : Value word .uint32) {amount : ℕ} (below : amount < 32) :
    smartShiftRight word .uint32 x (OfNat.ofNat amount : Value word .int) = x >>> amount :=
  smartShiftRight_ofNat rfl x below

theorem smartShiftLeft_uint32 (x : Value word .uint32) {amount : ℕ} (below : amount < 32) :
    smartShiftLeft word .uint32 x (OfNat.ofNat amount : Value word .int) = x <<< amount :=
  smartShiftLeft_ofNat x below

section Numbers

variable (scalar : Scalar)

theorem number_utf8 :
    number scalar.utf8 =
      if scalar.value < 0x80 then scalar.value
      else if scalar.value < 0x800 then
        0xC0 + scalar.value / 64 + 256 * (0x80 + scalar.value % 64)
      else if scalar.value < 0x10000 then
        0xE0 + scalar.value / 4096 + 256 * (0x80 + scalar.value / 64 % 64) +
          65536 * (0x80 + scalar.value % 64)
      else
        0xF0 + scalar.value / 262144 + 256 * (0x80 + scalar.value / 4096 % 64) +
          65536 * (0x80 + scalar.value / 64 % 64) + 16777216 * (0x80 + scalar.value % 64) := by
  have inside := scalar.inside
  rw [Scalar.utf8]
  split_ifs <;>
    simp (disch := omega) only [number_cons, number_nil, toNat_ofNat_of_lt, Nat.reducePow] <;> omega

theorem length_utf8 :
    scalar.utf8.length =
      if scalar.value < 0x80 then 1
      else if scalar.value < 0x800 then 2
      else if scalar.value < 0x10000 then 3
      else 4 := by
  rw [Scalar.utf8]
  split_ifs <;> rfl

theorem number_ones :
    number (List.replicate scalar.utf8.length (1#8)) =
      if scalar.value < 0x80 then 0x01
      else if scalar.value < 0x800 then 0x0101
      else if scalar.value < 0x10000 then 0x010101
      else 0x01010101 := by
  rw [length_utf8]
  split_ifs <;> rfl

theorem number_utf16 :
    number scalar.utf16 =
      if scalar.value < 0x10000 then scalar.value
      else
        0xD800 + (scalar.value - 0x10000) / 1024 +
          65536 * (0xDC00 + (scalar.value - 0x10000) % 1024) := by
  have inside := scalar.inside
  rw [Scalar.utf16]
  split_ifs <;>
    simp (disch := omega) only [number_cons, number_nil, toNat_ofNat_of_lt, Nat.reducePow] <;> omega

theorem length_utf16 :
    scalar.utf16.length = if scalar.value < 0x10000 then 1 else 2 := by
  rw [Scalar.utf16]
  split_ifs <;> rfl

theorem length_utf8_le : scalar.utf8.length ≤ 4 := by
  rw [length_utf8]
  split_ifs <;> decide

theorem length_utf16_le : scalar.utf16.length ≤ 2 := by
  rw [length_utf16]
  split_ifs <;> decide

theorem noFull_utf8 : ∀ unit ∈ scalar.utf8, unit ≠ 0xFF :=
  Utf8.ne_full_of_wellFormed (utf8_wellFormed scalar)

theorem toNat_ofScalar :
    BitVec.toNat (UnicodeScalar.ofScalar scalar : UnicodeScalar word).value = scalar.value := by
  have inside := scalar.inside
  rw [UnicodeScalar.ofScalar, BitVec.toNat_ofNat, IntegerType.bitWidth_uint32]
  omega

end Numbers

theorem toNat_biasedBits (scalar : Scalar) :
    BitVec.toNat (ValidUTF8Buffer.ofBytes scalar.utf8 : ValidUTF8Buffer word).biasedBits =
      number scalar.utf8 + number (List.replicate scalar.utf8.length (1#8)) := by
  have fits := length_utf8_le scalar
  rw [ValidUTF8Buffer.ofBytes, ← number_map_add_one (by decide) (noFull_utf8 scalar)]
  exact toNat_pack (by rw [List.length_map, IntegerType.bitWidth_uint32]; omega)

theorem less_uint32_iff {x limit : Value word .uint32} (bound : ℕ)
    (value : BitVec.toNat limit = bound) :
    less word .uint32 x limit = true ↔ BitVec.toNat x < bound := by
  rw [less_unsigned_iff rfl, value]

theorem biased_eq {scalar : Scalar} {bits bias : Value word .uint32} (constant : ℕ)
    (known : BitVec.toNat bias = constant)
    (sum : BitVec.toNat bits + constant =
      number scalar.utf8 + number (List.replicate scalar.utf8.length (1#8))) :
    (⟨bits + bias⟩ : ValidUTF8Buffer word) = .ofBytes scalar.utf8 := by
  have biased := @toNat_biasedBits word scalar
  refine congrArg ValidUTF8Buffer.mk (BitVec.eq_of_toNat_eq ?_)
  rw [BitVec.toNat_add, known, sum, ← biased]
  exact Nat.mod_eq_of_lt (BitVec.isLt _)

theorem toNat_low_six {width : ℕ} (wide : 6 ≤ width) (x : BitVec width) :
    (x &&& 0x3F).toNat = x.toNat % 64 := by
  have field : (x &&& 0x3F).toNat = 2 ^ 0 * (x.toNat / 2 ^ 0 % 2 ^ 6) :=
    toNat_and_field x 0 6 (by omega)
  rw [field]
  omega

theorem toNat_collect {o d : BitVec 32} {value : ℕ} (field : d.toNat = value % 64)
    (aligned : o.toNat % 256 = 0) (short : o.toNat < 2 ^ 22) :
    ((o ||| d) <<< 8).toNat = 256 * (o.toNat + value % 64) := by
  rw [BitVec.toNat_shiftLeft, BitVec.or_comm, toNat_or 8 (by omega) aligned, field,
    Nat.shiftLeft_eq]
  omega

theorem toNat_merge {o c : BitVec 32} (aligned : o.toNat % 256 = 0)
    (short : c.toNat < 256) : (o ||| c).toNat = o.toNat + c.toNat := by
  rw [BitVec.or_comm, toNat_or 8 short aligned, Nat.add_comm]

theorem toNat_shiftRight_six {c : BitVec 32} {value : ℕ} (bits : c.toNat = value) :
    (c >>> 6).toNat = value / 64 := by
  rw [BitVec.toNat_ushiftRight, bits, Nat.shiftRight_eq_div_pow]

theorem UTF8.encode_ofScalar (scalar : Scalar) :
    encode (.ofScalar scalar : UnicodeScalar word) = some (.ofBytes scalar.utf8) := by
  have inside := scalar.inside
  have value := @toNat_ofScalar word scalar
  have numbers := number_utf8 scalar
  have ones := number_ones scalar
  rw [encode]
  dsimp only
  generalize (UnicodeScalar.ofScalar scalar : UnicodeScalar word).value = c at value ⊢
  simp only [shiftRight_uint32 _ (by decide : 6 < 32), shiftLeft_uint32 _ (by decide : 8 < 32)]
  have c1 := toNat_shiftRight_six value
  have c2 := (toNat_shiftRight_six c1).trans (Nat.div_div_eq_div_mul _ 64 64)
  have c3 := (toNat_shiftRight_six c2).trans (Nat.div_div_eq_div_mul _ 4096 64)
  have o1 : BitVec.toNat ((c &&& 0x3F) <<< 8) = 2 ^ 8 * (BitVec.toNat c / 2 ^ 0 % 2 ^ 6) :=
    toNat_field_left c 0 6 8 (by decide : 0 + 6 + 8 ≤ 32)
  rw [value] at o1
  have o2 := toNat_collect (toNat_low_six (by decide : 6 ≤ 32) (c >>> 6)) (by rw [o1]; omega)
    (by rw [o1]; omega)
  have o3 := toNat_collect (toNat_low_six (by decide : 6 ≤ 32) (c >>> 6 >>> 6)) (by rw [o2]; omega)
    (by rw [o2]; omega)
  split_ifs with one two three
  · rw [less_uint32_iff 0x80 (by cases word <;> decide), value] at one
    have bytes : scalar.utf8 = [BitVec.ofNat 8 scalar.value] := by
      rw [Scalar.utf8, if_pos one]
    have unit : truncatingIfNeeded word .uint8 .uint32 c = BitVec.ofNat 8 scalar.value := by
      rw [UIntBuffer.truncatingIfNeeded_uint32, ← value]
      rfl
    rw [ValidUTF8Buffer.containing_eq, bytes, unit]
  · rw [less_uint32_iff 0x80 (by cases word <;> decide), value] at one
    rw [less_uint32_iff 0x20 (by cases word <;> decide), c1] at two
    rw [if_neg (by omega), if_pos (by omega)] at numbers ones
    have merged := toNat_merge (c := c >>> 6) (by rw [o1]; omega) (by omega)
    refine congrArg some (biased_eq 0x81C1 rfl ?_)
    rw [merged, o1, c1, numbers, ones]
    omega
  · rw [less_uint32_iff 0x20 (by cases word <;> decide), c1] at two
    rw [less_uint32_iff 0x10 (by cases word <;> decide), c2] at three
    rw [if_neg (by omega), if_neg (by omega), if_pos (by omega)] at numbers ones
    have merged := toNat_merge (c := c >>> 6 >>> 6) (by rw [o2]; omega) (by omega)
    refine congrArg some (biased_eq 0x8181E1 rfl ?_)
    rw [merged, o2, o1, c1, c2, numbers, ones]
    omega
  · rw [less_uint32_iff 0x10 (by cases word <;> decide), c2] at three
    rw [if_neg (by omega), if_neg (by omega), if_neg (by omega)] at numbers ones
    have merged := toNat_merge (c := c >>> 6 >>> 6 >>> 6) (by rw [o3]; omega) (by omega)
    refine congrArg some (biased_eq 0x818181F1 rfl ?_)
    rw [merged, o3, o2, o1, c1, c2, c3, numbers, ones]
    omega

theorem toNat_unbiased (scalar : Scalar) {bias : Value word .uint32}
    (known : BitVec.toNat bias = number (List.replicate scalar.utf8.length (1#8))) :
    BitVec.toNat ((ValidUTF8Buffer.ofBytes scalar.utf8 : ValidUTF8Buffer word).biasedBits - bias) =
      number scalar.utf8 := by
  have biased := @toNat_biasedBits word scalar
  have bounded :=
    BitVec.isLt (ValidUTF8Buffer.ofBytes scalar.utf8 : ValidUTF8Buffer word).biasedBits
  rw [← known] at biased
  have whole : bias ≤ (ValidUTF8Buffer.ofBytes scalar.utf8 : ValidUTF8Buffer word).biasedBits := by
    rw [BitVec.le_def]
    omega
  rw [BitVec.toNat_sub_of_le whole]
  omega

theorem count_beq (scalar : Scalar) {length : ℕ} (small : length ≤ 4) :
    ((ValidUTF8Buffer.ofBytes scalar.utf8 : ValidUTF8Buffer word).count == OfNat.ofNat length) =
      decide (scalar.utf8.length = length) := by
  have fits := length_utf8_le scalar
  have all : ∀ x y : Fin 5, (BitVec.ofNat (IntegerType.int.bitWidth word) x == BitVec.ofNat _ y) =
      decide (x.val = y.val) := by
    cases word <;> decide
  rw [ValidUTF8Buffer.count_ofBytes (noFull_utf8 scalar) fits]
  exact all ⟨_, by omega⟩ ⟨_, by omega⟩

theorem ofScalar_eq {scalar : Scalar} {bits : Value word .uint32}
    (value : BitVec.toNat bits = scalar.value) : (⟨bits⟩ : UnicodeScalar word) = .ofScalar scalar :=
  congrArg UnicodeScalar.mk (BitVec.eq_of_toNat_eq (value.trans (toNat_ofScalar scalar).symm))

section Fields

variable {bits : BitVec 32} {x0 x1 x2 x3 : ℕ}

theorem digits_eq {number : ℕ} (bytes : number = x0 + 256 * x1 + 65536 * x2 + 16777216 * x3)
    (lead : x0 < 256) (tail1 : x1 < 256) (tail2 : x2 < 256) :
    number / 2 ^ 24 = x3 ∧ number / 2 ^ 16 % 256 = x2 ∧ number / 2 ^ 8 % 256 = x1 ∧
      number / 2 ^ 0 % 256 = x0 := by
  omega

theorem field_of_byte {number byte : ℕ} (size : ℕ) (inside : size ≤ 8)
    (digit : number % 256 = byte) : number % 2 ^ size = byte % 2 ^ size := by
  rw [← digit]
  exact (Nat.mod_mod_of_dvd number (pow_dvd_pow 2 inside)).symm

theorem decode_two (bytes : bits.toNat = x0 + 256 * x1) (lead : x0 < 256) (tail : x1 < 256) :
    ((bits &&& 0x3F00) >>> 8 ||| (bits &&& 0x1F) <<< 6).toNat = x1 % 64 + 64 * (x0 % 32) := by
  rcases @digits_eq x0 x1 0 0 _ bytes lead tail (by decide) with ⟨_, _, digit1, digit0⟩
  have field1 : ((bits &&& 0x3F00) >>> 8).toNat = 2 ^ (8 - 8) * (bits.toNat / 2 ^ 8 % 2 ^ 6) :=
    toNat_field_right bits 8 6 8 (by decide) (by decide)
  have field0 : ((bits &&& 0x1F) <<< 6).toNat = 2 ^ (0 + 6) * (bits.toNat / 2 ^ 0 % 2 ^ 5) :=
    toNat_field_left bits 0 5 6 (by decide)
  rw [field_of_byte 6 (by decide) digit1] at field1
  rw [field_of_byte 5 (by decide) digit0] at field0
  rw [toNat_or 6 (by omega) (by omega), field1, field0, Nat.sub_self, pow_zero, Nat.one_mul]
  rfl

theorem decode_three (bytes : bits.toNat = x0 + 256 * x1 + 65536 * x2) (lead : x0 < 256)
    (tail1 : x1 < 256) (tail2 : x2 < 256) :
    ((bits &&& 0x3F0000) >>> 16 ||| (bits &&& 0x3F00) >>> 2 ||| (bits &&& 0x0F) <<< 12).toNat =
      x2 % 64 + 64 * (x1 % 64) + 4096 * (x0 % 16) := by
  rcases @digits_eq x0 x1 x2 0 _ bytes lead tail1 tail2 with ⟨_, digit2, digit1, digit0⟩
  have field2 : ((bits &&& 0x3F0000) >>> 16).toNat =
      2 ^ (16 - 16) * (bits.toNat / 2 ^ 16 % 2 ^ 6) :=
    toNat_field_right bits 16 6 16 (by decide) (by decide)
  have field1 : ((bits &&& 0x3F00) >>> 2).toNat = 2 ^ (8 - 2) * (bits.toNat / 2 ^ 8 % 2 ^ 6) :=
    toNat_field_right bits 8 6 2 (by decide) (by decide)
  have field0 : ((bits &&& 0x0F) <<< 12).toNat = 2 ^ (0 + 12) * (bits.toNat / 2 ^ 0 % 2 ^ 4) :=
    toNat_field_left bits 0 4 12 (by decide)
  rw [field_of_byte 6 (by decide) digit2] at field2
  rw [field_of_byte 6 (by decide) digit1] at field1
  rw [field_of_byte 4 (by decide) digit0] at field0
  have tails : ((bits &&& 0x3F0000) >>> 16 ||| (bits &&& 0x3F00) >>> 2).toNat = _ :=
    toNat_or 6 (by omega) (by omega)
  rw [toNat_or 12 (by omega) (by omega), tails, field2, field1, field0, Nat.sub_self, pow_zero,
    Nat.one_mul]
  rfl

theorem decode_four (bytes : bits.toNat = x0 + 256 * x1 + 65536 * x2 + 16777216 * x3)
    (lead : x0 < 256) (tail1 : x1 < 256) (tail2 : x2 < 256) :
    ((bits &&& 0x3F000000) >>> 24 ||| (bits &&& 0x3F0000) >>> 10 ||| (bits &&& 0x3F00) <<< 4 |||
      (bits &&& 0x07) <<< 18).toNat =
      x3 % 64 + 64 * (x2 % 64) + 4096 * (x1 % 64) + 262144 * (x0 % 8) := by
  rcases digits_eq bytes lead tail1 tail2 with ⟨digit3, digit2, digit1, digit0⟩
  have field3 : ((bits &&& 0x3F000000) >>> 24).toNat =
      2 ^ (24 - 24) * (bits.toNat / 2 ^ 24 % 2 ^ 6) :=
    toNat_field_right bits 24 6 24 (by decide) (by decide)
  have field2 : ((bits &&& 0x3F0000) >>> 10).toNat =
      2 ^ (16 - 10) * (bits.toNat / 2 ^ 16 % 2 ^ 6) :=
    toNat_field_right bits 16 6 10 (by decide) (by decide)
  have field1 : ((bits &&& 0x3F00) <<< 4).toNat = 2 ^ (8 + 4) * (bits.toNat / 2 ^ 8 % 2 ^ 6) :=
    toNat_field_left bits 8 6 4 (by decide)
  have field0 : ((bits &&& 0x07) <<< 18).toNat = 2 ^ (0 + 18) * (bits.toNat / 2 ^ 0 % 2 ^ 3) :=
    toNat_field_left bits 0 3 18 (by decide)
  rw [digit3] at field3
  rw [field_of_byte 6 (by decide) digit2] at field2
  rw [field_of_byte 6 (by decide) digit1] at field1
  rw [field_of_byte 3 (by decide) digit0] at field0
  have two : ((bits &&& 0x3F000000) >>> 24 ||| (bits &&& 0x3F0000) >>> 10).toNat = _ :=
    toNat_or 6 (by omega) (by omega)
  have three : ((bits &&& 0x3F000000) >>> 24 ||| (bits &&& 0x3F0000) >>> 10 |||
      (bits &&& 0x3F00) <<< 4).toNat = _ := toNat_or 12 (by omega) (by omega)
  rw [toNat_or 18 (by omega) (by omega), three, two, field3, field2, field1, field0, Nat.sub_self,
    pow_zero, Nat.one_mul]
  rfl

end Fields

theorem six_bits (value : ℕ) : (0x80 + value % 64) % 64 = value % 64 := by
  omega

theorem three_fields {value : ℕ} (small : value < 0x10000) :
    value % 64 + 64 * (value / 64 % 64) + 4096 * ((0xE0 + value / 4096) % 16) = value := by
  omega

theorem four_fields {value : ℕ} (small : value ≤ 0x10FFFF) :
    value % 64 + 64 * (value / 64 % 64) + 4096 * (value / 4096 % 64) +
      262144 * ((0xF0 + value / 262144) % 8) = value := by
  omega

theorem UTF8.decode_ofBytes (scalar : Scalar) :
    decode (.ofBytes scalar.utf8 : ValidUTF8Buffer word) = .ofScalar scalar := by
  have inside := scalar.inside
  have numbers := number_utf8 scalar
  have ones := number_ones scalar
  have lengths := length_utf8 scalar
  rw [decode, count_beq scalar (by decide), count_beq scalar (by decide),
    count_beq scalar (by decide)]
  simp only [shiftRight_uint32 _ (by decide : 8 < 32), shiftRight_uint32 _ (by decide : 16 < 32),
    shiftRight_uint32 _ (by decide : 2 < 32), shiftRight_uint32 _ (by decide : 24 < 32),
    shiftRight_uint32 _ (by decide : 10 < 32), shiftLeft_uint32 _ (by decide : 6 < 32),
    shiftLeft_uint32 _ (by decide : 12 < 32), shiftLeft_uint32 _ (by decide : 4 < 32),
    shiftLeft_uint32 _ (by decide : 18 < 32), decide_eq_true_eq]
  split_ifs at numbers ones lengths with one two three
  · rw [if_pos lengths]
    have bits := @toNat_unbiased word scalar 0x01 (by rw [ones]; rfl)
    exact ofScalar_eq (bits.trans numbers)
  · rw [if_neg (by omega), if_pos lengths]
    have bits := @toNat_unbiased word scalar 0x0101 (by rw [ones]; rfl)
    refine ofScalar_eq ((decode_two (bits.trans numbers) (by omega) (by omega)).trans ?_)
    rw [six_bits]
    omega
  · rw [if_neg (by omega), if_neg (by omega), if_pos lengths]
    have bits := @toNat_unbiased word scalar 0x010101 (by rw [ones]; rfl)
    refine ofScalar_eq ((decode_three (bits.trans numbers) (by omega) (by omega)
      (by omega)).trans ?_)
    rw [six_bits, six_bits]
    exact three_fields three
  · rw [if_neg (by omega), if_neg (by omega), if_neg (by omega)]
    have bits := @toNat_unbiased word scalar 0x01010101 (by rw [ones]; rfl)
    refine ofScalar_eq ((decode_four (bits.trans numbers) (by omega) (by omega)
      (by omega)).trans ?_)
    rw [six_bits, six_bits, six_bits]
    exact four_fields inside

theorem toNat_storage (scalar : Scalar) :
    BitVec.toNat (UIntBuffer.ofUnits scalar.utf16 : UIntBuffer word .uint16).storage =
      number scalar.utf16 := by
  have short := length_utf16_le scalar
  have fits : 16 * scalar.utf16.length ≤ 32 := by omega
  exact toNat_pack fits

theorem ofUnits_eq {scalar : Scalar} {storage : Value word .uint32} {bitCount : Value word .uint8}
    (value : BitVec.toNat storage = number scalar.utf16)
    (bits : bitCount = BitVec.ofNat 8 (16 * scalar.utf16.length)) :
    (⟨storage, bitCount⟩ : UIntBuffer word .uint16) = .ofUnits scalar.utf16 :=
  congrArg₂ UIntBuffer.mk
    (BitVec.eq_of_toNat_eq (value.trans (toNat_storage scalar).symm)) bits

theorem toNat_surrogates {x1 : BitVec 32} {offset : ℕ} (value : x1.toNat = offset)
    (small : offset < 2 ^ 20) :
    (((0xDC00 : BitVec 32) + (x1 &&& 0x3FF)) <<< 16 |||
      ((0xD800 : BitVec 32) + (x1 >>> 10 &&& 0x3FF))).toNat =
      0xD800 + offset / 1024 + 65536 * (0xDC00 + offset % 1024) := by
  have trail : (x1 &&& 0x3FF).toNat = 2 ^ 0 * (x1.toNat / 2 ^ 0 % 2 ^ 10) :=
    toNat_and_field x1 0 10 (by decide)
  have lead : (x1 >>> 10 &&& 0x3FF).toNat = 2 ^ 0 * ((x1 >>> 10).toNat / 2 ^ 0 % 2 ^ 10) :=
    toNat_and_field (x1 >>> 10) 0 10 (by decide)
  rw [BitVec.toNat_ushiftRight, Nat.shiftRight_eq_div_pow] at lead
  rw [value] at trail lead
  have low : ((0xD800 : BitVec 32) + (x1 >>> 10 &&& 0x3FF)).toNat = 0xD800 + offset / 1024 := by
    have constant : (0xD800 : BitVec 32).toNat = 0xD800 := rfl
    rw [BitVec.toNat_add, lead, constant]
    omega
  have high : (((0xDC00 : BitVec 32) + (x1 &&& 0x3FF)) <<< 16).toNat =
      65536 * (0xDC00 + offset % 1024) := by
    have constant : (0xDC00 : BitVec 32).toNat = 0xDC00 := rfl
    rw [BitVec.toNat_shiftLeft, BitVec.toNat_add, trail, Nat.shiftLeft_eq, constant]
    omega
  rw [BitVec.or_comm, toNat_or 16 (by omega) (by omega), low, high]

theorem UTF16.encode_ofScalar (scalar : Scalar) :
    encode (.ofScalar scalar : UnicodeScalar word) = some (.ofUnits scalar.utf16) := by
  have inside := scalar.inside
  have value := @toNat_ofScalar word scalar
  have numbers := number_utf16 scalar
  have lengths := length_utf16 scalar
  have limit : BitVec.toNat ((1 : Value word .uint32) <<< 16) = 0x10000 := by
    cases word <;> decide
  rw [encode]
  dsimp only
  generalize (UnicodeScalar.ofScalar scalar : UnicodeScalar word).value = x at value ⊢
  simp only [smartShiftLeft_uint32 _ (by decide : 16 < 32),
    shiftLeft_uint32 _ (by decide : 16 < 32), shiftRight_uint32 _ (by decide : 10 < 32)]
  split_ifs with one
  · rw [less_uint32_iff 0x10000 limit, value] at one
    rw [if_pos one] at numbers lengths
    exact congrArg some (ofUnits_eq (value.trans numbers.symm) (by rw [lengths]; rfl))
  · rw [less_uint32_iff 0x10000 limit, value] at one
    rw [if_neg one] at numbers lengths
    have above : (1 : Value word .uint32) <<< 16 ≤ x := by
      rw [BitVec.le_def]
      omega
    have offset : BitVec.toNat (x - (1 : Value word .uint32) <<< 16) = scalar.value - 0x10000 := by
      rw [BitVec.toNat_sub_of_le above, value, limit]
    refine congrArg some (ofUnits_eq ?_ (by rw [lengths]; rfl))
    exact (toNat_surrogates offset (by omega)).trans numbers.symm

theorem decode_surrogates {bits : BitVec 32} {lead trail : ℕ}
    (units : bits.toNat = lead + 65536 * trail) (small : lead < 65536) :
    ((0x10000 : BitVec 32) +
      (bits >>> 16 &&& (0x03FF : BitVec 32) ||| (bits &&& 0x03FF) <<< 10)).toNat =
      0x10000 + trail % 1024 + 1024 * (lead % 1024) := by
  have constant : (0x10000 : BitVec 32).toNat = 0x10000 := rfl
  have lower : (bits >>> 16 &&& 0x03FF).toNat =
      2 ^ 0 * ((bits >>> 16).toNat / 2 ^ 0 % 2 ^ 10) :=
    toNat_and_field (bits >>> 16) 0 10 (by decide)
  have upper : ((bits &&& 0x03FF) <<< 10).toNat =
      2 ^ (0 + 10) * (bits.toNat / 2 ^ 0 % 2 ^ 10) :=
    toNat_field_left bits 0 10 10 (by decide)
  have high : (bits >>> 16).toNat = trail := by
    rw [BitVec.toNat_ushiftRight, Nat.shiftRight_eq_div_pow]
    omega
  have low : bits.toNat / 2 ^ 0 % 2 ^ 10 = lead % 1024 := by omega
  rw [high, pow_zero, Nat.div_one, Nat.one_mul] at lower
  rw [low, Nat.zero_add] at upper
  rw [BitVec.toNat_add, toNat_or 10 (by omega) (by omega), lower, upper, constant]
  omega

theorem UTF16.decode_ofUnits (scalar : Scalar) :
    decode (.ofUnits scalar.utf16 : UIntBuffer word .uint16) = .ofScalar scalar := by
  have inside := scalar.inside
  have storage := @toNat_storage word scalar
  have numbers := number_utf16 scalar
  have lengths := length_utf16 scalar
  have counts : (UIntBuffer.ofUnits scalar.utf16 : UIntBuffer word .uint16).bitCount =
      BitVec.ofNat 8 (16 * scalar.utf16.length) := rfl
  rw [decode, counts]
  dsimp only
  generalize (UIntBuffer.ofUnits scalar.utf16 : UIntBuffer word .uint16).storage = bits at storage ⊢
  simp only [smartShiftRight_uint32 _ (by decide : 16 < 32),
    smartShiftLeft_uint32 _ (by decide : 10 < 32)]
  rw [numbers] at storage
  split_ifs at storage lengths with one
  · rw [lengths]
    refine (if_pos (by decide : (BitVec.ofNat 8 (16 * 1) == 16#8) = true)).trans ?_
    have low : BitVec.toNat (bits &&& 0xFFFF) = 2 ^ 0 * (BitVec.toNat bits / 2 ^ 0 % 2 ^ 16) :=
      toNat_and_field bits 0 16 (by decide : 0 + 16 ≤ 32)
    rw [storage] at low
    exact ofScalar_eq (low.trans (by omega))
  · rw [lengths]
    refine (if_neg (by decide : ¬ (BitVec.ofNat 8 (16 * 2) == 16#8) = true)).trans ?_
    refine ofScalar_eq ((decode_surrogates storage (by omega)).trans ?_)
    omega

end USwift
