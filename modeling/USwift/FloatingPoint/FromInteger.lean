import USwift.FloatingPoint.Components
import USwift.Integer.Strideable

/-!
# Floating-point values of integers

`BinaryFloatingPoint._convert(from:)` takes the magnitude of an integer of any type, finds its
first bit, and either shifts the bits into place or cuts off those that have no place. The bits
that are cut off decide about the last bit that is kept, and a carry out of the significand
goes into the exponent.
-/

namespace USwift

open BinaryFormats BinaryFormats.Format FixedWidthInteger

namespace FloatingPoint

section Operations

variable (word : WordSize) (type : FloatingPointType) {source : IntegerType}

/-- The significand of a magnitude before rounding, and the bits that are cut off. -/
structure Cut (word : WordSize) (type : FloatingPointType) (source : IntegerType) where
  significand : RawSignificand word type
  fraction : Value word source
  halfway : Value word source

/-- `significandMask`, which `_convert(from:)` computes again. -/
def convertMask : RawSignificand word type :=
  smartShiftLeft word type.rawSignificand 1 (significandBitCount word type) - 1

/-- The rounding right shift of a magnitude whose first bit is beyond the significand. -/
def cut (magnitude : Value word source) (exponent : Value word .int) : Cut word type source :=
  let shift := exponent - significandBitCount word type
  let halfway := smartShiftLeft word source 1 (shift - 1)
  let mask := 2 * halfway - 1
  { significand := truncatingIfNeeded word type.rawSignificand source
      (smartShiftRight word source magnitude shift) &&& convertMask word type
    fraction := magnitude &&& mask
    halfway := halfway }

/-- Whether the bits that are cut off round the significand up. -/
def Cut.roundsUp {word : WordSize} {type : FloatingPointType} {source : IntegerType}
    (cut : Cut word type source) : Bool :=
  less word source cut.halfway cut.fraction ||
    cut.fraction == cut.halfway && cut.significand &&& 1 == 1

/-- `exponent <= Self.greatestFiniteMagnitude.exponent`. -/
def exponentFits (exponent : Value word .int) : Bool :=
  !less word .int (FloatingPoint.exponent word (greatestFiniteMagnitude word type)) exponent

/-- The value of an exponent and a significand with the sign of the source. -/
def assemble (negative : Bool) (exponent : Value word .int)
    (significand : RawSignificand word type) : FloatingPoint type :=
  init word type (if negative then .minus else .plus)
    (exponentBitPattern word (one type) + truncatingIfNeeded word .uint .int exponent) significand

/-- Infinity with the sign of the source. -/
def overflow (negative : Bool) : FloatingPoint type :=
  if negative then negate (infinity word type) else infinity word type

/-- The end of `_convert(from:)`, which rounds the significand and carries into the exponent. -/
def assembleRounded (negative : Bool) (cut : Cut word type source) (exponent : Value word .int) :
    FloatingPoint type × Bool :=
  if cut.roundsUp then
    let significand := cut.significand + 1
    let carry := BitVec.uaddOverflow cut.significand (1 : RawSignificand word type)
    if carry || less word type.rawSignificand (convertMask word type) significand then
      if !exponentFits word type (exponent + 1) then (overflow word type negative, false)
      else (assemble word type negative (exponent + 1) significand, cut.fraction == 0)
    else (assemble word type negative exponent significand, cut.fraction == 0)
  else (assemble word type negative exponent cut.significand, cut.fraction == 0)

/-- `_convert(from:)` of an integer. -/
def convertInteger (x : Value word source) : FloatingPoint type × Bool :=
  if x == 0 then (0, true)
  else
    let negative := source.isSigned && less word source x 0
    let magnitude := USwift.magnitude word source x
    let exponent := binaryLogarithm word source.magnitude magnitude
    if !exponentFits word type exponent then (overflow word type negative, false)
    else if !less word .int (significandBitCount word type) exponent then
      let shift := significandBitCount word type - exponent
      let significand := genericMaskingShiftLeft word type.rawSignificand
        (truncatingIfNeeded word type.rawSignificand source.magnitude magnitude) shift
      (assemble word type negative exponent significand, true)
    else assembleRounded word type negative (cut word type magnitude exponent) exponent

/-- `init(_:)` of an integer. -/
def ofInteger (x : Value word source) : FloatingPoint type :=
  (convertInteger word type x).1

/-- `init?(exactly:)` of an integer. -/
def ofIntegerExactly (x : Value word source) : Option (FloatingPoint type) :=
  let (value, exact) := convertInteger word type x
  if exact then some value else none

end Operations

variable {word : WordSize} {type : FloatingPointType} {source : IntegerType}

section Limits

theorem exponentFits_iff {exponent : Value word .int} :
    exponentFits word type exponent = true ↔ toInt word .int exponent ≤ type.format.bias := by
  have greatest : toInt word .int
      (FloatingPoint.exponent word (greatestFiniteMagnitude word type)) = type.format.bias := by
    cases word <;> cases type <;> decide
  rw [exponentFits, Bool.not_eq_true', ← Bool.not_eq_true, less_iff, greatest, not_lt]

theorem convertMask_eq (word : WordSize) (type : FloatingPointType) :
    convertMask word type = significandMask word type := by
  cases word <;> cases type <;> decide

end Limits

section Sources

theorem toNat_magnitude (x : Value word source) :
    BitVec.toNat (USwift.magnitude word source x) = (toInt word source x).natAbs := by
  cases signed : source.isSigned with
  | true =>
      have absolute := toInt_magnitude signed x
      have unsigned : source.magnitude.isSigned = false := by cases source <;> rfl
      rw [toInt, TwosComplement.value, unsigned, if_neg Bool.false_ne_true,
        Int.abs_eq_natAbs] at absolute
      exact_mod_cast absolute
  | false =>
      have itself : toInt word source x = BitVec.toNat x := by
        rw [toInt, TwosComplement.value, signed, if_neg Bool.false_ne_true]
      rw [USwift.magnitude, signed, Bool.false_and, if_neg Bool.false_ne_true,
        BitVec.toNat_cast, itself, Int.natAbs_natCast]

theorem negative_iff (x : Value word source) :
    (source.isSigned && less word source x 0) = true ↔ toInt word source x < 0 := by
  rw [Bool.and_eq_true, less_iff, toInt_zero]
  apply and_iff_right_of_imp
  intro below
  by_contra unsigned
  rw [toInt, TwosComplement.value, if_neg unsigned] at below
  omega

/-- A conversion keeps the bits that both types have. -/
theorem truncatingIfNeeded_mod {target : IntegerType} (unsigned : source.isSigned = false)
    (x : Value word source) {bits : ℕ} (inSource : bits ≤ source.bitWidth word)
    (inTarget : bits ≤ target.bitWidth word) :
    BitVec.toNat (truncatingIfNeeded word target source x) % 2 ^ bits =
      BitVec.toNat x % 2 ^ bits := by
  by_cases irregular : word = .word32 ∧ source = .uint16
  · rcases irregular with ⟨rfl, rfl⟩
    rw [truncatingIfNeeded_uint16_word32]
    have width : IntegerType.uint16.bitWidth .word32 = 16 := rfl
    apply Nat.eq_of_testBit_eq
    intro index
    rw [Nat.testBit_mod_two_pow, Nat.testBit_mod_two_pow]
    by_cases inside : index < bits
    · have kept : ((x.signExtend 32).setWidth (target.bitWidth .word32)).getLsbD index =
          x.getLsbD index := by
        rw [BitVec.getLsbD_setWidth, BitVec.getLsbD_signExtend]
        simp [show index < 16 by omega, show index < 32 by omega,
          show index < target.bitWidth .word32 by omega]
      exact congrArg (decide (index < bits) && ·) kept
    · simp [inside]
  · rw [truncatingIfNeeded_unsigned unsigned irregular, BitVec.toNat_setWidth,
      Nat.mod_mod_of_dvd _ (pow_dvd_pow 2 inTarget)]

end Sources

section Values

variable {exponent : Value word .int} {number : ℕ}

/-- The word of an exponent that is not too large, and of the low bits of a significand. -/
theorem fields_assemble (minus : Bool) (significand : RawSignificand word type)
    (value : toInt word .int exponent = number) (small : number ≤ 64)
    (fits : number ≤ type.format.bias) :
    Format.magnitude (assemble word type minus exponent significand) =
      (type.format.bias + number) * 2 ^ type.format.significandBits +
        BitVec.toNat significand % 2 ^ type.format.significandBits ∧
    negative (assemble word type minus exponent significand) = minus := by
  have fields := @fields_init word type (if minus then .minus else .plus)
    (exponentBitPattern word (one type) + truncatingIfNeeded word .uint .int exponent) significand
  have constant := toNat_exponentBitPattern_one word type
  have bias := bias_lt type
  have exponents := type.format.infinityExponent_eq
  have room : 2 ^ 8 ≤ 2 ^ IntegerType.uint.bitWidth word := by cases word <;> decide
  have converted : truncatingIfNeeded word .uint .int exponent = BitVec.ofNat _ number := by
    rw [eq_ofNat_of_toInt small value]
    exact truncatingIfNeeded_int_ofNat small
  have sum : BitVec.toNat (exponentBitPattern word (one type) +
      truncatingIfNeeded word .uint .int exponent) % 2 ^ type.format.exponentBits =
        type.format.bias + number := by
    rw [Format.infinityExponent] at exponents
    rw [converted, BitVec.toNat_add, constant, BitVec.toNat_ofNat, Nat.add_mod_mod,
      Nat.mod_eq_of_lt (show type.format.bias + number < 2 ^ _ by omega),
      Nat.mod_eq_of_lt (by omega)]
  have sign : decide ((if minus then FloatingPointSign.minus else .plus) = .minus) = minus := by
    cases minus <;> rfl
  rw [sum, sign] at fields
  exact fields

/-- A significand whose first bit is at the place that is implied. -/
theorem magnitude_assemble (minus : Bool) {significand : RawSignificand word type} {leading : ℕ}
    (value : toInt word .int exponent = number) (small : number ≤ 64)
    (fits : number ≤ type.format.bias) (low : 2 ^ type.format.significandBits ≤ leading)
    (high : leading < 2 ^ (type.format.significandBits + 1))
    (rest : BitVec.toNat significand % 2 ^ type.format.significandBits =
      leading % 2 ^ type.format.significandBits) :
    Format.magnitude (assemble word type minus exponent significand) =
      type.format.ofInteger number leading := by
  have fields := (fields_assemble minus significand value small fits).1
  rw [pow_succ] at high
  rw [fields, rest, Format.ofInteger, Nat.mod_eq_sub_mod low, Nat.mod_eq_of_lt (by omega)]

theorem fields_overflow (minus : Bool) :
    Format.magnitude (overflow word type minus) = type.format.infinity ∧
      negative (overflow word type minus) = minus := by
  have fields := fields_infinity word type
  have flipped := fields_negate (infinity word type)
  cases minus with
  | false => exact fields
  | true => exact ⟨flipped.1.trans fields.1, by rw [overflow, if_pos rfl, flipped.2, fields.2]; rfl⟩

end Values

section Cuts

variable {exponent : Value word .int} {m : Value word source} {number shift : ℕ}

/-- The parts of a number that is cut after a number of bits. -/
structure Cuts (cut : Cut word type source) (number shift : ℕ) : Prop where
  significand : BitVec.toNat cut.significand =
    number / 2 ^ shift % 2 ^ type.format.significandBits
  fraction : BitVec.toNat cut.fraction = number % 2 ^ shift
  halfway : BitVec.toNat cut.halfway = 2 ^ (shift - 1)

theorem cuts_cut (unsigned : source.isSigned = false)
    (value : toInt word .int exponent = type.format.significandBits + shift)
    (positive : 0 < shift) (inside : type.format.significandBits + shift < source.bitWidth word) :
    Cuts (cut word type m exponent) (BitVec.toNat m) shift := by
  have most := source.bitWidth_le word
  have count := toInt_significandBitCount word type
  have one := toInt_int_one word
  have amount : exponent - significandBitCount word type = BitVec.ofNat _ shift := by
    apply eq_ofNat_of_toInt
    · omega
    · rw [toInt_sub_of_small, value, count]
      · omega
      · omega
      · omega
  have previous : BitVec.ofNat _ shift - (1 : Value word .int) = BitVec.ofNat _ (shift - 1) := by
    have held := @toInt_int_ofNat word shift (by omega)
    apply eq_ofNat_of_toInt
    · omega
    · rw [toInt_sub_of_small, held, one]
      · omega
      · omega
      · omega
  have width : 2 ^ (shift + 1) ≤ 2 ^ source.bitWidth word :=
    Nat.pow_le_pow_right (by decide) (by omega)
  have double : 2 * 2 ^ (shift - 1) = 2 ^ shift := by
    rw [← pow_succ']
    congr 1
    omega
  have half : BitVec.toNat (smartShiftLeft word source 1 (BitVec.ofNat _ (shift - 1)
      : Value word .int)) = 2 ^ (shift - 1) := by
    have unit : BitVec.toNat (1 : Value word source) = 1 := by
      cases word <;> cases source <;> rfl
    rw [smartShiftLeft_ofNat _ (by omega), BitVec.toNat_shiftLeft, unit, Nat.one_shiftLeft]
    exact Nat.mod_eq_of_lt (Nat.pow_lt_pow_right (by decide) (by omega))
  have mask : BitVec.toNat (2 * smartShiftLeft word source 1 (BitVec.ofNat _ (shift - 1)
      : Value word .int) - 1) = 2 ^ shift - 1 := by
    have unit : BitVec.toNat (1 : Value word source) = 1 := by
      cases word <;> cases source <;> rfl
    have two : BitVec.toNat (2 : Value word source) = 2 := by
      cases word <;> cases source <;> rfl
    have doubled : BitVec.toNat (2 * smartShiftLeft word source 1 (BitVec.ofNat _ (shift - 1)
        : Value word .int)) = 2 ^ shift := by
      rw [BitVec.toNat_mul, half, two, double, Nat.mod_eq_of_lt]
      exact Nat.pow_lt_pow_right (by decide) (by omega)
    have least := Nat.two_pow_pos shift
    rw [BitVec.toNat_sub_of_le (BitVec.le_def.mpr (by omega)), doubled, unit]
  rw [cut, amount, previous, convertMask_eq]
  refine ⟨?_, ?_, half⟩
  · have bits := @truncatingIfNeeded_mod word source type.rawSignificand unsigned
      (m >>> shift) _ (show type.format.significandBits ≤ source.bitWidth word by omega)
      (significandBits_lt_bitWidth word type).le
    rw [toNat_and_significandMask, smartShiftRight_ofNat unsigned m (by omega), bits,
      BitVec.toNat_ushiftRight, Nat.shiftRight_eq_div_pow]
  · rw [BitVec.toNat_and, mask, Nat.and_two_pow_sub_one_eq_mod]

theorem Cuts.roundsUp_iff {cut : Cut word type source} (cuts : Cuts cut number shift)
    (unsigned : source.isSigned = false) :
    cut.roundsUp = true ↔ 2 ^ (shift - 1) < number % 2 ^ shift ∨
      number % 2 ^ shift = 2 ^ (shift - 1) ∧ number / 2 ^ shift % 2 = 1 := by
  have positive := type.format.significandBits_pos
  have unit : BitVec.toNat (1 : RawSignificand word type) = 1 := by
    cases word <;> cases type <;> rfl
  have odd : (cut.significand &&& 1 == 1) = true ↔ number / 2 ^ shift % 2 = 1 := by
    rw [beq_iff_eq, ← BitVec.toNat_inj, BitVec.toNat_and, unit, Nat.and_one_is_mod,
      cuts.significand, Nat.mod_mod_of_dvd _ (dvd_pow_self 2 positive.ne')]
  have more : less word source cut.halfway cut.fraction = true ↔
      2 ^ (shift - 1) < number % 2 ^ shift := by
    rw [less_unsigned_iff unsigned, cuts.halfway, cuts.fraction]
  have same : (cut.fraction == cut.halfway) = true ↔ number % 2 ^ shift = 2 ^ (shift - 1) := by
    rw [beq_iff_eq, ← BitVec.toNat_inj, cuts.halfway, cuts.fraction]
  rw [Cut.roundsUp, Bool.or_eq_true, Bool.and_eq_true, odd, more, same]

/-- The bits that are cut off round up as they should. -/
theorem Cuts.rounded_eq {cut : Cut word type source} (cuts : Cuts cut number shift)
    (unsigned : source.isSigned = false) {kept : ℕ} (last : kept % 2 = number / 2 ^ shift % 2) :
    rounded kept (number % 2 ^ shift) (2 ^ (shift - 1)) =
      if cut.roundsUp then kept + 1 else kept := by
  simp only [rounded, cuts.roundsUp_iff unsigned]
  generalize number % 2 ^ shift = low
  generalize 2 ^ (shift - 1) = half
  split_ifs with above rounds tie rounds
  · rfl
  · omega
  · omega
  · omega
  · omega
  · rfl

theorem Cuts.fraction_eq_zero_iff {cut : Cut word type source} (cuts : Cuts cut number shift) :
    (cut.fraction == 0) = true ↔ number % 2 ^ shift = 0 := by
  rw [beq_iff_eq, ← BitVec.toNat_inj, cuts.fraction]
  rfl

theorem Cuts.fraction_ne_zero {cut : Cut word type source} (cuts : Cuts cut number shift)
    (unsigned : source.isSigned = false) (rounds : cut.roundsUp = true) :
    number % 2 ^ shift ≠ 0 := by
  have positive := Nat.two_pow_pos (shift - 1)
  rcases (cuts.roundsUp_iff unsigned).mp rounds with above | tie
  · omega
  · omega

end Cuts

section Conversion

/-- What a conversion owes: the sign, the nearest magnitude, and whether it is the number. -/
structure ConvertsInteger (word : WordSize) (x : Value word source)
    (result : FloatingPoint type × Bool) : Prop where
  sign : negative result.1 = decide (toInt word source x < 0)
  rounds : type.format.RoundsTo (toInt word source x).natAbs (Format.magnitude result.1)
  exact_iff : result.2 = true ↔ Format.magnitude result.1 < type.format.infinity ∧
    type.format.value (Format.magnitude result.1) = (toInt word source x).natAbs

variable {x : Value word source}

theorem negative_eq (word : WordSize) (x : Value word source) :
    (source.isSigned && less word source x 0) = decide (toInt word source x < 0) :=
  Bool.eq_iff_iff.mpr (negative_iff x |>.trans decide_eq_true_iff.symm)

/-- Numbers from the power of two that follows the largest finite value on. -/
theorem converts_overflow (nonzero : (toInt word source x).natAbs ≠ 0)
    (beyond : type.format.bias < (toInt word source x).natAbs.log2) :
    ConvertsInteger word x
      (overflow word type (source.isSigned && less word source x 0), false) := by
  have parts := @fields_overflow word type (source.isSigned && less word source x 0)
  have least := Nat.log2_self_le nonzero
  have large : type.format.value type.format.infinity ≤ (toInt word source x).natAbs := by
    rw [value_infinity]
    exact_mod_cast (Nat.pow_le_pow_right (by decide) beyond).trans least
  constructor
  · exact parts.2.trans (negative_eq word x)
  · rw [parts.1]
    exact roundsTo_infinity large
  · rw [parts.1]
    exact iff_of_false Bool.false_ne_true fun claimed => lt_irrefl _ claimed.1

section Fits

variable {exponent : Value word .int}

/-- Numbers that have a place for all of their bits. -/
theorem converts_short (nonzero : (toInt word source x).natAbs ≠ 0)
    (value : toInt word .int exponent = (toInt word source x).natAbs.log2)
    (inside : (toInt word source x).natAbs.log2 < source.bitWidth word)
    (fits : (toInt word source x).natAbs.log2 ≤ type.format.bias)
    (short : (toInt word source x).natAbs.log2 ≤ type.format.significandBits) :
    ConvertsInteger word x
      (assemble word type (source.isSigned && less word source x 0) exponent
        (genericMaskingShiftLeft word type.rawSignificand
          (truncatingIfNeeded word type.rawSignificand source.magnitude
            (USwift.magnitude word source x)) (significandBitCount word type - exponent)),
        true) := by
  have count := toInt_significandBitCount word type
  have few := significandBits_lt_32 type
  have least := Nat.log2_self_le nonzero
  have most := @Nat.lt_log2_self (toInt word source x).natAbs
  generalize (toInt word source x).natAbs.log2 = e at value inside fits short least most
  rcases value_integer (f := type.format) least most short with ⟨low, high, exact_⟩
  have bits := significandBits_lt_bitWidth word type
  have unsigned : source.magnitude.isSigned = false := by cases source <;> rfl
  have width := source.bitWidth_magnitude word
  have amount : significandBitCount word type - exponent =
      BitVec.ofNat _ (type.format.significandBits - e) := by
    apply eq_ofNat_of_toInt
    · omega
    · rw [toInt_sub_of_small, count, value]
      · omega
      · omega
      · omega
  have rest : BitVec.toNat (genericMaskingShiftLeft word type.rawSignificand
      (truncatingIfNeeded word type.rawSignificand source.magnitude
        (USwift.magnitude word source x)) (significandBitCount word type - exponent)) %
          2 ^ type.format.significandBits =
      (toInt word source x).natAbs * 2 ^ (type.format.significandBits - e) %
        2 ^ type.format.significandBits := by
    have kept := @truncatingIfNeeded_mod word source.magnitude type.rawSignificand unsigned
      (USwift.magnitude word source x) e (by omega) (by omega)
    have split : 2 ^ type.format.significandBits =
        2 ^ e * 2 ^ (type.format.significandBits - e) := by
      rw [← pow_add, Nat.add_sub_cancel' short]
    rw [toNat_magnitude] at kept
    rw [genericMaskingShiftLeft, amount, truncatingIfNeeded_int_ofNat (by omega),
      maskingShiftLeft_ofNat _ (by omega), BitVec.toNat_shiftLeft, Nat.shiftLeft_eq,
      Nat.mod_mod_of_dvd _ (pow_dvd_pow 2 bits.le), split, Nat.mul_mod_mul_right,
      Nat.mul_mod_mul_right, kept]
  have placed := magnitude_assemble (source.isSigned && less word source x 0) value (by omega) fits
    low high rest
  have below := @ofInteger_lt_infinity type.format e _ high fits
  constructor
  · exact (fields_assemble _ _ value (by omega) fits).2.trans (negative_eq word x)
  · rw [placed, ← exact_]
    exact roundsTo_value below.le
  · rw [placed]
    exact iff_of_true rfl ⟨below, exact_⟩

/-- The significand that is rounded, with the carry into the exponent. -/
theorem fields_assembleRounded {cut : Cut word type source.magnitude} {number e : ℕ} (minus : Bool)
    (cuts : Cuts cut number (e - type.format.significandBits))
    (value : toInt word .int exponent = e) (small : e < 64) (fits : e ≤ type.format.bias)
    (long : type.format.significandBits < e)
    (low : 2 ^ type.format.significandBits ≤ number / 2 ^ (e - type.format.significandBits))
    (high : number / 2 ^ (e - type.format.significandBits) <
      2 ^ (type.format.significandBits + 1)) :
    Format.magnitude (assembleRounded word type minus cut exponent).1 =
        (if cut.roundsUp then
          type.format.ofInteger e (number / 2 ^ (e - type.format.significandBits)) + 1
        else type.format.ofInteger e (number / 2 ^ (e - type.format.significandBits))) ∧
      negative (assembleRounded word type minus cut exponent).1 = minus ∧
      ((assembleRounded word type minus cut exponent).2 = true ↔
        number % 2 ^ (e - type.format.significandBits) = 0) := by
  have unsigned : source.magnitude.isSigned = false := by cases source <;> rfl
  have exact_ := cuts.fraction_eq_zero_iff
  have upper := cuts.fraction_ne_zero unsigned
  have bits := significandBits_lt_bitWidth word type
  have field := cuts.significand
  generalize number / 2 ^ (e - type.format.significandBits) = kept at low high field ⊢
  generalize number % 2 ^ (e - type.format.significandBits) = lost at exact_ upper ⊢
  have fraction_lt : BitVec.toNat cut.significand < 2 ^ type.format.significandBits := by
    rw [field]
    exact Nat.mod_lt _ (Nat.two_pow_pos _)
  have width : 2 ^ (type.format.significandBits + 1) ≤ 2 ^ type.rawSignificand.bitWidth word :=
    Nat.pow_le_pow_right (by decide) bits
  rw [pow_succ] at width
  have unit : BitVec.toNat (1 : RawSignificand word type) = 1 := by
    cases word <;> cases type <;> rfl
  have next : BitVec.toNat (cut.significand + 1) = BitVec.toNat cut.significand + 1 := by
    rw [BitVec.toNat_add, unit, Nat.mod_eq_of_lt (by omega)]
  have carries : (BitVec.uaddOverflow cut.significand (1 : RawSignificand word type) ||
      less word type.rawSignificand (convertMask word type) (cut.significand + 1)) = true ↔
        2 ^ type.format.significandBits ≤ BitVec.toNat cut.significand + 1 := by
    have mask := toNat_significandMask word type
    have fits : BitVec.uaddOverflow cut.significand (1 : RawSignificand word type) = false := by
      simp only [BitVec.uaddOverflow, unit, decide_eq_false_iff_not]
      omega
    rw [fits, Bool.false_or, less_unsigned_iff type.rawSignificand_unsigned, convertMask_eq, mask,
      next]
    omega
  rw [assembleRounded]
  by_cases rounds : cut.roundsUp = true
  · have nonzero := upper rounds
    rw [if_pos rounds, if_pos rounds]
    dsimp only
    by_cases carry : 2 ^ type.format.significandBits ≤ BitVec.toNat cut.significand + 1
    · -- The carry out of a significand of ones leaves nothing but the next exponent.
      have ones : BitVec.toNat cut.significand + 1 = 2 ^ type.format.significandBits := by omega
      have carried : type.format.ofInteger e kept + 1 =
          (type.format.bias + (e + 1)) * 2 ^ type.format.significandBits := by
        rw [pow_succ] at high
        rw [field, Nat.mod_eq_sub_mod low, Nat.mod_eq_of_lt (by omega)] at ones
        rw [Format.ofInteger, Nat.add_assoc, ones, ← Nat.succ_mul]
        rfl
      have one := toInt_int_one word
      have successor : toInt word .int (exponent + 1) = (e + 1 : ℕ) := by
        rw [toInt_add_of_small, value, one]
        · rfl
        · omega
        · omega
      rw [if_pos (carries.mpr carry), carried]
      by_cases beyond : type.format.bias < e + 1
      · have tooLarge : exponentFits word type (exponent + 1) = false := by
          rw [← Bool.not_eq_true, exponentFits_iff, successor]
          omega
        have parts := @fields_overflow word type minus
        have exponents := type.format.infinityExponent_eq
        rw [tooLarge, if_pos Bool.not_false]
        refine ⟨?_, parts.2, iff_of_false Bool.false_ne_true nonzero⟩
        rw [parts.1, Format.infinity]
        congr 1
        omega
      · have fitting : exponentFits word type (exponent + 1) = true := by
          rw [exponentFits_iff, successor]
          omega
        have parts := fields_assemble minus (cut.significand + 1) successor (by omega) (by omega)
        rw [next, ones, Nat.mod_self, Nat.add_zero] at parts
        rw [fitting, if_neg (by decide)]
        exact ⟨parts.1, parts.2, exact_⟩
    · rw [if_neg fun claimed => carry (carries.mp claimed)]
      refine ⟨?_, (fields_assemble minus _ value (by omega) fits).2, exact_⟩
      rw [pow_succ] at high
      have room : kept + 1 < 2 ^ (type.format.significandBits + 1) := by
        rw [field, Nat.mod_eq_sub_mod low, Nat.mod_eq_of_lt (by omega)] at carry
        rw [pow_succ]
        omega
      rw [magnitude_assemble minus value (by omega) fits (low.trans (Nat.le_succ _)) room,
        Format.ofInteger, Format.ofInteger, Nat.succ_sub low]
      · rfl
      · rw [next, field, Nat.mod_add_mod]
  · rw [if_neg rounds, if_neg rounds]
    refine ⟨?_, (fields_assemble minus _ value (by omega) fits).2, exact_⟩
    apply magnitude_assemble minus value (by omega) fits low high
    rw [field, Nat.mod_mod]

/-- Numbers with more bits than a significand. -/
theorem converts_long (nonzero : (toInt word source x).natAbs ≠ 0)
    (value : toInt word .int exponent = (toInt word source x).natAbs.log2)
    (inside : (toInt word source x).natAbs.log2 < source.bitWidth word)
    (fits : (toInt word source x).natAbs.log2 ≤ type.format.bias)
    (long : type.format.significandBits < (toInt word source x).natAbs.log2) :
    ConvertsInteger word x
      (assembleRounded word type (source.isSigned && less word source x 0)
        (cut word type (USwift.magnitude word source x) exponent) exponent) := by
  have unsigned : source.magnitude.isSigned = false := by cases source <;> rfl
  have width := source.bitWidth_magnitude word
  have widest := source.bitWidth_le word
  have least := Nat.log2_self_le nonzero
  have most := @Nat.lt_log2_self (toInt word source x).natAbs
  have absolute := @toNat_magnitude word source x
  generalize (toInt word source x).natAbs.log2 = e at value inside fits long least most
  have cuts : Cuts (cut word type (USwift.magnitude word source x) exponent)
      (toInt word source x).natAbs (e - type.format.significandBits) := by
    rw [← absolute]
    apply cuts_cut unsigned
    · omega
    · omega
    · omega
  rcases roundsTo_integer (f := type.format) least most long fits with
    ⟨⟨low, high⟩, rounds, exactly⟩
  have last : type.format.ofInteger e
      ((toInt word source x).natAbs / 2 ^ (e - type.format.significandBits)) % 2 =
        (toInt word source x).natAbs / 2 ^ (e - type.format.significandBits) % 2 := by
    have even : 2 ∣ 2 ^ type.format.significandBits :=
      dvd_pow_self 2 type.format.significandBits_pos.ne'
    rcases even with ⟨half, half_eq⟩
    rw [Format.ofInteger, half_eq, Nat.mul_left_comm]
    omega
  rcases fields_assembleRounded (source.isSigned && less word source x 0) cuts value (by omega) fits
    long low high with ⟨placed, sign, exact_⟩
  rw [← cuts.rounded_eq unsigned last] at placed
  refine ⟨sign.trans (negative_eq word x), ?_, ?_⟩
  · rwa [placed]
  · rw [placed, exact_]
    constructor
    · intro nothing
      refine ⟨Nat.lt_of_le_of_ne rounds.le_infinity ?_, exactly.mpr nothing⟩
      intro infinite
      have same := exactly.mpr nothing
      rw [infinite, value_infinity] at same
      have same : 2 ^ (type.format.bias + 1) = (toInt word source x).natAbs := by
        exact_mod_cast same
      have bound : 2 ^ (e + 1) ≤ 2 ^ (type.format.bias + 1) :=
        Nat.pow_le_pow_right (by decide) (by omega)
      omega
    · intro claimed
      exact exactly.mp claimed.2

end Fits

theorem convertInteger_converts (x : Value word source) :
    ConvertsInteger word x (convertInteger word type x) := by
  rw [convertInteger]
  by_cases zero : x = 0
  · rw [if_pos (beq_iff_eq.mpr zero), zero]
    have nothing := toInt_zero word source
    have word_ : Format.magnitude (0 : FloatingPoint type) = 0 ∧
        negative (0 : FloatingPoint type) = false := by cases type <;> decide
    have positive : 0 < type.format.infinity := by cases type <;> decide
    refine ⟨?_, ?_, ?_⟩
    · rw [nothing, word_.2]
      rfl
    · rw [nothing, word_.1, Int.natAbs_zero, Nat.cast_zero]
      simpa [value_zero] using roundsTo_value (f := type.format) positive.le
    · rw [nothing, word_.1, Int.natAbs_zero, Nat.cast_zero]
      exact iff_of_true rfl ⟨positive, value_zero⟩
  · rw [if_neg (by simpa using zero)]
    dsimp only
    have absolute := @toNat_magnitude word source x
    have some_ : USwift.magnitude word source x ≠ 0 := by
      intro nothing
      rw [nothing] at absolute
      apply zero
      apply toInt_injective
      rw [toInt_zero]
      exact Int.natAbs_eq_zero.mp absolute.symm
    have logarithm := toInt_binaryLogarithm some_
    have inside := log2_lt_bitWidth some_
    have unsigned : source.magnitude.isSigned = false := by cases source <;> rfl
    have width := source.bitWidth_magnitude word
    have most := source.bitWidth_le word
    rw [absolute] at logarithm inside
    rw [← width] at inside
    have nonzero : (toInt word source x).natAbs ≠ 0 := by
      intro nothing
      have same := (Int.natAbs_eq_zero.mp nothing).trans (toInt_zero word source).symm
      exact zero (toInt_injective same)
    generalize binaryLogarithm word source.magnitude (USwift.magnitude word source x) = exponent
      at logarithm ⊢
    by_cases fits : (toInt word source x).natAbs.log2 ≤ type.format.bias
    · have accepted : exponentFits word type exponent = true := by
        rw [exponentFits_iff, logarithm]
        omega
      rw [accepted, if_neg (by decide)]
      have count := toInt_significandBitCount word type
      by_cases short : (toInt word source x).natAbs.log2 ≤ type.format.significandBits
      · have within : (!less word .int (significandBitCount word type) exponent) = true := by
          rw [Bool.not_eq_true', ← Bool.not_eq_true, less_iff, count, logarithm]
          omega
        rw [if_pos within]
        exact converts_short nonzero logarithm inside fits short
      · have beyond : ¬ (!less word .int (significandBitCount word type) exponent) = true := by
          rw [Bool.not_eq_true', ← Bool.not_eq_true, less_iff, count, logarithm]
          omega
        rw [if_neg beyond]
        exact converts_long nonzero logarithm inside fits (Nat.lt_of_not_le short)
    · have refused : exponentFits word type exponent = false := by
        rw [← Bool.not_eq_true, exponentFits_iff, logarithm]
        omega
      rw [refused, if_pos Bool.not_false]
      exact converts_overflow nonzero (Nat.lt_of_not_le fits)

/-- A word stands for an integer. -/
structure Represents (a : ℤ) (y : FloatingPoint type) : Prop where
  finite : Format.magnitude y < type.format.infinity
  value : type.format.value (Format.magnitude y) = a.natAbs
  sign : negative y = decide (a < 0)

theorem ofIntegerExactly_iff {word : WordSize} {type : FloatingPointType} {x : Value word source}
    (y : FloatingPoint type) :
    ofIntegerExactly word type x = some y ↔ Represents (toInt word source x) y := by
  have converts := @convertInteger_converts word type source x
  have exactly : ofIntegerExactly word type x =
      if (convertInteger word type x).2 then some (convertInteger word type x).1 else none := rfl
  have exact_iff := converts.exact_iff
  rw [exactly]
  constructor
  · intro found
    rw [Option.ite_none_right_eq_some, exact_iff, Option.some_inj] at found
    rcases found with ⟨⟨finite, value⟩, rfl⟩
    exact ⟨finite, value, converts.sign⟩
  · intro stands
    -- The word that stands for the integer is the one that it is rounded to.
    have rounds := roundsTo_value (f := type.format) stands.finite.le
    rw [stands.value] at rounds
    have same := converts.rounds.unique rounds
    have word_ : (convertInteger word type x).1 = y :=
      Format.ext same (converts.sign.trans stands.sign.symm)
    rw [← word_] at stands
    rw [if_pos (exact_iff.mpr ⟨stands.finite, stands.value⟩), word_]

/--
The conversion of an integer of any type rounds to nearest, with ties to even and overflow to
infinity, and `init(exactly:)` gives the word that stands for the integer, where there is one.
-/
theorem convertInteger_rounds (word : WordSize) (type : FloatingPointType)
    (x : Value word source) :
    negative (ofInteger word type x) = decide (toInt word source x < 0) ∧
      type.format.RoundsTo (toInt word source x).natAbs
        (Format.magnitude (ofInteger word type x)) ∧
      ∀ y : FloatingPoint type,
        ofIntegerExactly word type x = some y ↔ Represents (toInt word source x) y := by
  have converts := @convertInteger_converts word type source x
  exact ⟨converts.sign, converts.rounds, ofIntegerExactly_iff⟩

end Conversion

end FloatingPoint

end USwift
