import USwift.FloatingPoint.Formats
import USwift.Integer.BitCounts
import USwift.Integer.MaskingShift

/-!
# The members of `Float` and `Float16`

Both types store the word of a format and take it apart with the operations of the integer
types: the pattern is an unsigned integer of the same width, the pattern of the exponent is a
`UInt`, and every amount of a shift is an `Int`. The two files are the same but for the names
of the types.
-/

namespace USwift

open BinaryFormats BinaryFormats.Format FixedWidthInteger

/-- The floating-point types. -/
inductive FloatingPointType where
  | float
  | float16
  deriving DecidableEq, Repr

/-- `FloatingPointSign`. -/
inductive FloatingPointSign where
  | plus
  | minus
  deriving DecidableEq, Repr

namespace FloatingPointType

def format : FloatingPointType → Format
  | float => single
  | float16 => half

/-- `RawSignificand`. -/
abbrev rawSignificand : FloatingPointType → IntegerType
  | float => .uint32
  | float16 => .uint16

theorem bits_eq (type : FloatingPointType) (word : WordSize) :
    type.format.bits = type.rawSignificand.bitWidth word := by
  cases type <;> rfl

theorem rawSignificand_unsigned (type : FloatingPointType) :
    type.rawSignificand.isSigned = false := by
  cases type <;> rfl

end FloatingPointType

/-- The stored word of a value of a floating-point type. -/
abbrev FloatingPoint (type : FloatingPointType) : Type :=
  BitVec type.format.bits

/-- The stored bits of a `RawSignificand`. -/
abbrev RawSignificand (word : WordSize) (type : FloatingPointType) : Type :=
  Value word type.rawSignificand

/-- `FloatingPointSign.init?(rawValue:)`. -/
def FloatingPointSign.ofRawValue (word : WordSize) (rawValue : Value word .int) :
    Option FloatingPointSign :=
  if rawValue == 0 then some .plus
  else if rawValue == 1 then some .minus
  else none

/-- The sign of a word whose first bit is given. -/
def FloatingPointSign.ofBit : Bool → FloatingPointSign
  | true => .minus
  | false => .plus

namespace FloatingPoint

variable (word : WordSize) (type : FloatingPointType)

def exponentBitCount : Value word .int :=
  BitVec.ofNat _ type.format.exponentBits

def significandBitCount : Value word .int :=
  BitVec.ofNat _ type.format.significandBits

/-- `RawSignificand(_:)` of an `Int`. -/
def rawAmount (amount : Value word .int) : RawSignificand word type :=
  truncatingIfNeeded word type.rawSignificand .int amount

def infinityExponent : Value word .uint :=
  maskingShiftLeft word .uint 1 (truncatingIfNeeded word .uint .int (exponentBitCount word type))
    - 1

def exponentBias : Value word .uint :=
  maskingShiftRight word .uint (infinityExponent word type) 1

def significandMask : RawSignificand word type :=
  maskingShiftLeft word type.rawSignificand 1 (rawAmount word type (significandBitCount word type))
    - 1

def quietNaNMask : RawSignificand word type :=
  maskingShiftLeft word type.rawSignificand 1
    (rawAmount word type (significandBitCount word type - 1))

/-- `init(sign:exponentBitPattern:significandBitPattern:)`. -/
def init (sign : FloatingPointSign) (exponentBitPattern : Value word .uint)
    (significandBitPattern : RawSignificand word type) : FloatingPoint type :=
  let signShift := significandBitCount word type + exponentBitCount word type
  let sign : RawSignificand word type := if sign = .minus then 1 else 0
  let exponent := truncatingIfNeeded word type.rawSignificand .uint
    (exponentBitPattern &&& infinityExponent word type)
  let significand := significandBitPattern &&& significandMask word type
  (maskingShiftLeft word type.rawSignificand sign (rawAmount word type signShift) |||
    maskingShiftLeft word type.rawSignificand exponent
      (rawAmount word type (significandBitCount word type)) |||
    significand).cast (type.bits_eq word).symm

variable {type}

def bitPattern (x : FloatingPoint type) : RawSignificand word type :=
  x.cast (type.bits_eq word)

/-- The number that `sign` is made from. -/
def rawSign (x : FloatingPoint type) : Value word .int :=
  truncatingIfNeeded word .int type.rawSignificand
    (maskingShiftRight word type.rawSignificand (bitPattern word x)
      (rawAmount word type (significandBitCount word type + exponentBitCount word type)))

def exponentBitPattern (x : FloatingPoint type) : Value word .uint :=
  truncatingIfNeeded word .uint type.rawSignificand
    (maskingShiftRight word type.rawSignificand (bitPattern word x)
      (rawAmount word type (significandBitCount word type))) &&& infinityExponent word type

def significandBitPattern (x : FloatingPoint type) : RawSignificand word type :=
  bitPattern word x &&& significandMask word type

section Amounts

variable (type)

theorem rawAmount_ofNat {amount : ℕ} (small : amount ≤ 64) :
    rawAmount word type (BitVec.ofNat _ amount) = BitVec.ofNat _ amount :=
  truncatingIfNeeded_int_ofNat small

theorem significandBits_lt_bitWidth :
    type.format.significandBits < type.rawSignificand.bitWidth word := by
  cases word <;> cases type <;> decide

theorem magnitudeBits_lt_bitWidth :
    type.format.magnitudeBits < type.rawSignificand.bitWidth word := by
  cases word <;> cases type <;> decide

theorem bitWidth_raw_le : type.rawSignificand.bitWidth word ≤ 64 :=
  IntegerType.bitWidth_le _ word

theorem rawAmount_significandBitCount :
    rawAmount word type (significandBitCount word type) =
      BitVec.ofNat _ type.format.significandBits := by
  have inside := significandBits_lt_bitWidth word type
  have most := bitWidth_raw_le word type
  exact rawAmount_ofNat word type (by omega)

theorem rawAmount_signShift :
    rawAmount word type (significandBitCount word type + exponentBitCount word type) =
      BitVec.ofNat _ type.format.magnitudeBits := by
  cases word <;> cases type <;> decide

theorem toNat_infinityExponent :
    BitVec.toNat (infinityExponent word type) = 2 ^ type.format.exponentBits - 1 := by
  cases word <;> cases type <;> decide

theorem toNat_exponentBias : BitVec.toNat (exponentBias word type) = type.format.bias := by
  cases word <;> cases type <;> decide

theorem toNat_significandMask :
    BitVec.toNat (significandMask word type) = 2 ^ type.format.significandBits - 1 := by
  cases word <;> cases type <;> decide

theorem toNat_and_infinityExponent (pattern : Value word .uint) :
    BitVec.toNat (pattern &&& infinityExponent word type) =
      BitVec.toNat pattern % 2 ^ type.format.exponentBits := by
  rw [BitVec.toNat_and, toNat_infinityExponent, Nat.and_two_pow_sub_one_eq_mod]

theorem toNat_and_significandMask (pattern : RawSignificand word type) :
    BitVec.toNat (pattern &&& significandMask word type) =
      BitVec.toNat pattern % 2 ^ type.format.significandBits := by
  rw [BitVec.toNat_and, toNat_significandMask, Nat.and_two_pow_sub_one_eq_mod]

end Amounts

variable {word}

theorem toNat_bitPattern (x : FloatingPoint type) : BitVec.toNat (bitPattern word x) = x.toNat :=
  BitVec.toNat_cast _ _

theorem toNat_significandBitPattern (x : FloatingPoint type) :
    BitVec.toNat (significandBitPattern word x) =
      magnitude x % 2 ^ type.format.significandBits := by
  rw [significandBitPattern, toNat_and_significandMask, toNat_bitPattern, magnitude,
    magnitudeBits, Nat.mod_mod_of_dvd _ (pow_dvd_pow 2 (Nat.le_add_left _ _))]

theorem toNat_exponentBitPattern (x : FloatingPoint type) :
    BitVec.toNat (exponentBitPattern word x) =
      magnitude x / 2 ^ type.format.significandBits := by
  have inside := significandBits_lt_bitWidth word type
  have small : x.toNat / 2 ^ type.format.significandBits < 2 ^ 15 := by
    have bound := x.isLt
    apply Nat.div_lt_of_lt_mul
    apply bound.trans_le
    cases type <;> decide
  have wide : 2 ^ 15 ≤ 2 ^ IntegerType.uint.bitWidth word := by cases word <;> decide
  have shifted : BitVec.toNat (maskingShiftRight word type.rawSignificand (bitPattern word x)
      (rawAmount word type (significandBitCount word type))) =
        x.toNat / 2 ^ type.format.significandBits := by
    rw [rawAmount_significandBitCount, maskingShiftRight_ofNat type.rawSignificand_unsigned _
      inside, BitVec.toNat_ushiftRight, toNat_bitPattern, Nat.shiftRight_eq_div_pow]
  rw [exponentBitPattern, toNat_and_infinityExponent,
    toNat_truncatingIfNeeded type.rawSignificand_unsigned (by rwa [shifted])
      (by rw [shifted]; exact small.trans_le wide), shifted, magnitude, magnitudeBits,
    Nat.add_comm type.format.exponentBits, pow_add, Nat.mod_mul_right_div_self]

theorem toInt_rawSign (x : FloatingPoint type) :
    toInt word .int (rawSign word x) = (negative x).toNat := by
  have inside := magnitudeBits_lt_bitWidth word type
  have shifted : BitVec.toNat (maskingShiftRight word type.rawSignificand (bitPattern word x)
      (rawAmount word type (significandBitCount word type + exponentBitCount word type))) =
        (negative x).toNat := by
    rw [rawAmount_signShift, maskingShiftRight_ofNat type.rawSignificand_unsigned _ inside,
      BitVec.toNat_ushiftRight, toNat_bitPattern, Nat.shiftRight_eq_div_pow, toNat_eq x,
      Nat.add_mul_div_right _ _ (Nat.two_pow_pos _), Nat.div_eq_of_lt (magnitude_lt x),
      Nat.zero_add]
  have few : (negative x).toNat ≤ 1 := Bool.toNat_le _
  rw [rawSign, toInt_count, shifted]
  rw [shifted]
  omega

/-- The number that the sign is made from is the raw value of a sign. -/
theorem ofRawValue_rawSign (x : FloatingPoint type) :
    FloatingPointSign.ofRawValue word (rawSign word x) =
      some (FloatingPointSign.ofBit (negative x)) := by
  have number := @toInt_rawSign word type x
  have zero := toInt_zero word .int
  have one := toInt_int_one word
  generalize negative x = minus at number ⊢
  cases minus with
  | false =>
      have same : rawSign word x = 0 := toInt_injective (number.trans zero.symm)
      simp [FloatingPointSign.ofRawValue, same, FloatingPointSign.ofBit]
  | true =>
      have same : rawSign word x = 1 := toInt_injective (number.trans one.symm)
      have nonempty : IntegerType.int.bitWidth word ≠ 0 := (IntegerType.bitWidth_pos _ word).ne'
      simp [FloatingPointSign.ofRawValue, same, FloatingPointSign.ofBit, nonempty]

/-- `sign`, which unwraps the sign of the raw value. -/
def sign (word : WordSize) (x : FloatingPoint type) : FloatingPointSign :=
  (FloatingPointSign.ofRawValue word (rawSign word x)).get (by simp [ofRawValue_rawSign])

theorem sign_eq (x : FloatingPoint type) : sign word x = FloatingPointSign.ofBit (negative x) := by
  simp [sign, ofRawValue_rawSign]

/-- Two fields are less than the bit for the sign. -/
theorem magnitude_of_fields {f : Format} {exponent significand : ℕ}
    (field : exponent < 2 ^ f.exponentBits) (fits : significand < 2 ^ f.significandBits) :
    exponent * 2 ^ f.significandBits + significand < 2 ^ f.magnitudeBits := by
  calc exponent * 2 ^ f.significandBits + significand
      < exponent * 2 ^ f.significandBits + 2 ^ f.significandBits := Nat.add_lt_add_left fits _
    _ = (exponent + 1) * 2 ^ f.significandBits := by rw [Nat.succ_mul]
    _ ≤ 2 ^ f.exponentBits * 2 ^ f.significandBits := Nat.mul_le_mul_right _ field
    _ = 2 ^ f.magnitudeBits := by rw [magnitudeBits, pow_add]

section Init

variable {sign : FloatingPointSign} {exponent : Value word .uint}
  {significand : RawSignificand word type}

theorem toNat_shifted_sign :
    BitVec.toNat (maskingShiftLeft word type.rawSignificand
      (if sign = .minus then 1 else 0 : RawSignificand word type)
      (rawAmount word type (significandBitCount word type + exponentBitCount word type))) =
        (if sign = .minus then 1 else 0) * 2 ^ type.format.magnitudeBits := by
  cases word <;> cases type <;> cases sign <;> decide

theorem toNat_shifted_exponent :
    BitVec.toNat (maskingShiftLeft word type.rawSignificand
      (truncatingIfNeeded word type.rawSignificand .uint (exponent &&& infinityExponent word type))
      (rawAmount word type (significandBitCount word type))) =
        BitVec.toNat exponent % 2 ^ type.format.exponentBits *
          2 ^ type.format.significandBits := by
  have inside := significandBits_lt_bitWidth word type
  have narrow : 2 ^ type.format.exponentBits ≤ 2 ^ 15 ∧
      2 ^ type.format.exponentBits ≤ 2 ^ type.rawSignificand.bitWidth word := by
    cases word <;> cases type <;> decide
  have field := toNat_and_infinityExponent word type exponent
  have fits := Nat.mod_lt (BitVec.toNat exponent) (Nat.two_pow_pos type.format.exponentBits)
  have room : BitVec.toNat exponent % 2 ^ type.format.exponentBits *
      2 ^ type.format.significandBits < 2 ^ type.rawSignificand.bitWidth word := by
    calc _ < 2 ^ type.format.exponentBits * 2 ^ type.format.significandBits :=
          Nat.mul_lt_mul_of_pos_right fits (Nat.two_pow_pos _)
      _ = 2 ^ type.format.magnitudeBits := by rw [magnitudeBits, pow_add]
      _ ≤ _ := Nat.pow_le_pow_right (by decide) (magnitudeBits_lt_bitWidth word type).le
  have converted : BitVec.toNat (truncatingIfNeeded word type.rawSignificand .uint
      (exponent &&& infinityExponent word type)) =
        BitVec.toNat exponent % 2 ^ type.format.exponentBits := by
    rw [← field]
    apply toNat_truncatingIfNeeded rfl
    · omega
    · omega
  rw [rawAmount_significandBitCount, maskingShiftLeft_ofNat _ inside, BitVec.toNat_shiftLeft,
    converted, Nat.shiftLeft_eq, Nat.mod_eq_of_lt room]

theorem toNat_init :
    (init word type sign exponent significand).toNat =
      BitVec.toNat exponent % 2 ^ type.format.exponentBits * 2 ^ type.format.significandBits +
        BitVec.toNat significand % 2 ^ type.format.significandBits +
          (if sign = .minus then 1 else 0) * 2 ^ type.format.magnitudeBits := by
  have low := toNat_and_significandMask word type significand
  have high := @toNat_shifted_exponent word type exponent
  have top := @toNat_shifted_sign word type sign
  have fits := Nat.mod_lt (BitVec.toNat significand)
    (Nat.two_pow_pos type.format.significandBits)
  have field := Nat.mod_lt (BitVec.toNat exponent) (Nat.two_pow_pos type.format.exponentBits)
  have room := magnitude_of_fields field fits
  rw [init, BitVec.toNat_cast, BitVec.or_assoc, BitVec.or_comm, BitVec.or_comm _ (_ &&& _)]
  have lower := BitFields.toNat_or type.format.significandBits (low.trans_lt fits)
    (by rw [high, Nat.mul_mod_left])
  rw [BitFields.toNat_or type.format.magnitudeBits, lower, low, high, top]
  · omega
  · rw [lower, low, high]
    omega
  · rw [top, Nat.mul_mod_left]

/-- The fields of the word that `init(sign:exponentBitPattern:significandBitPattern:)` makes. -/
theorem fields_init :
    magnitude (init word type sign exponent significand) =
        BitVec.toNat exponent % 2 ^ type.format.exponentBits *
          2 ^ type.format.significandBits +
            BitVec.toNat significand % 2 ^ type.format.significandBits ∧
      negative (init word type sign exponent significand) = decide (sign = .minus) := by
  have fits := Nat.mod_lt (BitVec.toNat significand)
    (Nat.two_pow_pos type.format.significandBits)
  have field := Nat.mod_lt (BitVec.toNat exponent) (Nat.two_pow_pos type.format.exponentBits)
  apply fields_of_toNat (magnitude_of_fields field fits)
  rw [toNat_init]
  cases sign <;> rfl

end Init

end FloatingPoint

end USwift
