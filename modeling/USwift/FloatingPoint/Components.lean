import USwift.FloatingPoint.Members
import USwift.Integer.Exactly

/-!
# Classes, exponents and significands

The class of a value is read off the patterns of its exponent and its significand. A finite
value that is not zero is its sign, a significand between one and two, and a power of two; the
leading bit of a subnormal significand is found by counting zero bits.
-/

namespace USwift

open BinaryFormats BinaryFormats.Format FixedWidthInteger

namespace FloatingPoint

section Constants

variable (word : WordSize) (type : FloatingPointType)

/-- The literal `1`. -/
def one : (type : FloatingPointType) → FloatingPoint type
  | .float => (0x3F800000 : BitVec 32)
  | .float16 => (0x3C00 : BitVec 16)

def infinity : (type : FloatingPointType) → FloatingPoint type
  | .float => (0x7F800000 : BitVec 32)
  | .float16 => init word .float16 .plus (infinityExponent word .float16) 0

def greatestFiniteMagnitude : (type : FloatingPointType) → FloatingPoint type
  | .float => (0x7F7FFFFF : BitVec 32)
  | .float16 =>
      init word .float16 .plus (infinityExponent word .float16 - 1) (significandMask word .float16)

variable {type}

/-- The prefix `-`, which flips the bit for the sign. -/
def negate (x : FloatingPoint type) : FloatingPoint type :=
  x ^^^ Rep.signMask type.format

end Constants

section Operations

variable (word : WordSize) {type : FloatingPointType} (x : FloatingPoint type)

def isFinite : Bool :=
  less word .uint (exponentBitPattern word x) (infinityExponent word type)

def isNormal : Bool :=
  less word .uint 0 (exponentBitPattern word x) && isFinite word x

def isZero : Bool :=
  exponentBitPattern word x == 0 && significandBitPattern word x == 0

def isSubnormal : Bool :=
  exponentBitPattern word x == 0 && significandBitPattern word x != 0

def isInfinite : Bool :=
  !isFinite word x && significandBitPattern word x == 0

def isNaN : Bool :=
  !isFinite word x && significandBitPattern word x != 0

def isSignalingNaN : Bool :=
  isNaN word x && (significandBitPattern word x &&& quietNaNMask word type) == 0

/-- How far the leading bit of a subnormal significand is from the place of an implied one. -/
def subnormalShift : Value word .int :=
  significandBitCount word type -
    binaryLogarithm word type.rawSignificand (significandBitPattern word x)

def exponent : Value word .int :=
  if !isFinite word x then maxValue word .int
  else if isZero word x then minValue word .int
  else
    let provisional := truncatingIfNeeded word .int .uint (exponentBitPattern word x) -
      truncatingIfNeeded word .int .uint (exponentBias word type)
    if isNormal word x then provisional
    else provisional + 1 - subnormalShift word x

def significand : FloatingPoint type :=
  if isNaN word x then x
  else if isNormal word x then
    init word type .plus (exponentBias word type) (significandBitPattern word x)
  else if isSubnormal word x then
    init word type .plus (exponentBias word type)
      (genericMaskingShiftLeft word type.rawSignificand (significandBitPattern word x)
        (subnormalShift word x))
  else init word type .plus (exponentBitPattern word x) 0

def significandWidth : Value word .int :=
  let trailingZeroBits := trailingZeroBitCount word type.rawSignificand
    (significandBitPattern word x)
  if isNormal word x then
    if significandBitPattern word x == 0 then 0
    else significandBitCount word type - trailingZeroBits
  else if isSubnormal word x then
    let leadingZeroBits := leadingZeroBitCount word type.rawSignificand
      (significandBitPattern word x)
    bitWidthInt word type.rawSignificand - (trailingZeroBits + leadingZeroBits + 1)
  else -1

end Operations

variable {word : WordSize} {type : FloatingPointType} {x : FloatingPoint type}

section Constants

theorem fields_negate (x : FloatingPoint type) :
    magnitude (negate x) = magnitude x ∧ negative (negate x) = !negative x := by
  have mask : (Rep.signMask type.format).toNat = 2 ^ type.format.magnitudeBits := by
    cases type <;> decide
  have top : (Rep.signMask type.format).msb = true := by cases type <;> decide
  constructor
  · rw [magnitude, magnitude, negate, BitVec.toNat_xor, mask,
      Nat.xor_mod_two_pow, Nat.mod_self, Nat.xor_zero]
  · rw [negative, negative, negate, BitVec.msb_xor, top, Bool.xor_true]

theorem fields_infinity (word : WordSize) (type : FloatingPointType) :
    magnitude (infinity word type) = type.format.infinity ∧
      negative (infinity word type) = false := by
  cases word <;> cases type <;> decide

theorem toNat_exponentBitPattern_one (word : WordSize) (type : FloatingPointType) :
    BitVec.toNat (exponentBitPattern word (one type)) = type.format.bias := by
  cases word <;> cases type <;> decide

end Constants

section Classes

theorem exponentBitPattern_eq_zero_iff :
    exponentBitPattern word x = 0 ↔ magnitude x < 2 ^ type.format.significandBits := by
  have field := @toNat_exponentBitPattern word type x
  rw [← BitVec.toNat_inj, field]
  exact Nat.div_eq_zero_iff_lt (Nat.two_pow_pos _)

theorem significandBitPattern_eq_zero_iff :
    significandBitPattern word x = 0 ↔ magnitude x % 2 ^ type.format.significandBits = 0 := by
  have field := @toNat_significandBitPattern word type x
  rw [← BitVec.toNat_inj, field]
  rfl

theorem significandBitPattern_ne_zero (word : WordSize) (nonzero : magnitude x ≠ 0)
    (subnormal : magnitude x < 2 ^ type.format.significandBits) :
    significandBitPattern word x ≠ 0 := by
  intro nothing
  rw [significandBitPattern_eq_zero_iff, Nat.mod_eq_of_lt subnormal] at nothing
  exact nonzero nothing

theorem isFinite_iff : isFinite word x = true ↔ magnitude x < type.format.infinity := by
  have field := @toNat_exponentBitPattern word type x
  have top := toNat_infinityExponent word type
  rw [isFinite, less_unsigned_iff rfl, field, top]
  exact Nat.div_lt_iff_lt_mul (Nat.two_pow_pos _)

theorem isNormal_iff : isNormal word x = true ↔
    2 ^ type.format.significandBits ≤ magnitude x ∧ magnitude x < type.format.infinity := by
  have field := @toNat_exponentBitPattern word type x
  rw [isNormal, Bool.and_eq_true, isFinite_iff, less_unsigned_iff rfl, field]
  apply and_congr_left'
  exact Nat.div_pos_iff.trans (and_iff_right (Nat.two_pow_pos _))

theorem isZero_iff : isZero word x = true ↔ magnitude x = 0 := by
  rw [isZero, Bool.and_eq_true, beq_iff_eq, beq_iff_eq, exponentBitPattern_eq_zero_iff,
    significandBitPattern_eq_zero_iff]
  constructor
  · rintro ⟨small, rest⟩
    rwa [Nat.mod_eq_of_lt small] at rest
  · intro nothing
    simp [nothing]

theorem isSubnormal_iff : isSubnormal word x = true ↔
    magnitude x ≠ 0 ∧ magnitude x < 2 ^ type.format.significandBits := by
  rw [isSubnormal, Bool.and_eq_true, beq_iff_eq, bne_iff_ne, exponentBitPattern_eq_zero_iff, Ne,
    significandBitPattern_eq_zero_iff]
  constructor
  · rintro ⟨small, rest⟩
    rw [Nat.mod_eq_of_lt small] at rest
    exact ⟨rest, small⟩
  · rintro ⟨nonzero, small⟩
    rw [Nat.mod_eq_of_lt small]
    exact ⟨small, nonzero⟩

/-- Beyond the largest finite magnitude the significand counts from infinity on. -/
theorem rest_of_infinite (above : ¬ magnitude x < type.format.infinity) :
    magnitude x = type.format.infinity + magnitude x % 2 ^ type.format.significandBits := by
  have split := fields type.format (magnitude x)
  have bound := magnitude_lt x
  have positive := Nat.two_pow_pos type.format.significandBits
  have low : type.format.infinityExponent ≤ magnitude x / 2 ^ type.format.significandBits :=
    (Nat.le_div_iff_mul_le positive).mpr (Nat.le_of_not_lt above)
  have high : magnitude x / 2 ^ type.format.significandBits < 2 ^ type.format.exponentBits := by
    apply Nat.div_lt_of_lt_mul
    rwa [← pow_add, Nat.add_comm]
  have top : magnitude x / 2 ^ type.format.significandBits = type.format.infinityExponent := by
    rw [Format.infinityExponent] at low ⊢
    omega
  rw [top] at split
  exact split.symm

theorem isInfinite_iff : isInfinite word x = true ↔ magnitude x = type.format.infinity := by
  rw [isInfinite, Bool.and_eq_true, Bool.not_eq_true', ← Bool.not_eq_true, isFinite_iff,
    beq_iff_eq, significandBitPattern_eq_zero_iff]
  constructor
  · rintro ⟨above, rest⟩
    have parts := rest_of_infinite above
    omega
  · intro same
    rw [same]
    exact ⟨lt_irrefl _, Nat.mul_mod_left _ _⟩

theorem isNaN_iff : isNaN word x = true ↔ type.format.infinity < magnitude x := by
  rw [isNaN, Bool.and_eq_true, Bool.not_eq_true', ← Bool.not_eq_true, isFinite_iff, bne_iff_ne,
    Ne, significandBitPattern_eq_zero_iff]
  constructor
  · rintro ⟨above, rest⟩
    have parts := rest_of_infinite above
    omega
  · intro above
    have parts := rest_of_infinite (x := x) (by omega)
    exact ⟨by omega, by omega⟩

end Classes

section Exponent

theorem exponentField_lt (x : FloatingPoint type) :
    magnitude x / 2 ^ type.format.significandBits < 2 ^ 8 := by
  have bound := magnitude_lt x
  apply Nat.div_lt_of_lt_mul
  apply bound.trans_le
  cases type <;> decide

theorem toInt_significandBitCount (word : WordSize) (type : FloatingPointType) :
    toInt word .int (significandBitCount word type) = type.format.significandBits := by
  cases word <;> cases type <;> decide

theorem bias_lt (type : FloatingPointType) : type.format.bias < 2 ^ 7 := by
  cases type <;> decide

theorem significandBits_lt_32 (type : FloatingPointType) : type.format.significandBits < 24 := by
  cases type <;> decide

/-- The exponent before it is adjusted for a subnormal significand. -/
theorem toInt_provisional (x : FloatingPoint type) :
    toInt word .int (truncatingIfNeeded word .int .uint (exponentBitPattern word x) -
      truncatingIfNeeded word .int .uint (exponentBias word type)) =
        (magnitude x / 2 ^ type.format.significandBits : ℕ) - type.format.bias := by
  have field := exponentField_lt x
  have bias := bias_lt type
  have pattern := @toNat_exponentBitPattern word type x
  have constant := toNat_exponentBias word type
  have first := @toInt_truncatingIfNeeded word .uint (exponentBitPattern word x) rfl (by omega)
  have second := @toInt_truncatingIfNeeded word .uint (exponentBias word type) rfl (by omega)
  rw [pattern] at first
  rw [constant] at second
  rw [toInt_sub_of_small, first, second]
  · omega
  · omega

/-- The distance of a leading bit from the place of an implied one. -/
theorem toInt_subnormalShift (nonzero : magnitude x ≠ 0)
    (subnormal : magnitude x < 2 ^ type.format.significandBits) :
    toInt word .int (subnormalShift word x) =
      type.format.significandBits - (magnitude x).log2 := by
  have pattern := @toNat_significandBitPattern word type x
  rw [Nat.mod_eq_of_lt subnormal] at pattern
  have some_ := significandBitPattern_ne_zero word nonzero subnormal
  have logarithm := toInt_binaryLogarithm some_
  rw [pattern] at logarithm
  have below : (magnitude x).log2 < type.format.significandBits :=
    (Nat.log2_lt nonzero).mpr subnormal
  have few := significandBits_lt_32 type
  have count := toInt_significandBitCount word type
  rw [subnormalShift, toInt_sub_of_small, count, logarithm]
  · omega
  · omega

theorem toInt_exponent (finite : magnitude x < type.format.infinity) (nonzero : magnitude x ≠ 0) :
    toInt word .int (exponent word x) = type.format.exponent (magnitude x) := by
  have field := exponentField_lt x
  have bias := bias_lt type
  have provisional := @toInt_provisional word type x
  have notZero : ¬ isZero word x = true := fun zero => nonzero (isZero_iff.mp zero)
  rw [exponent, isFinite_iff.mpr finite, if_neg (by decide), if_neg notZero, Format.exponent]
  by_cases normal : 2 ^ type.format.significandBits ≤ magnitude x
  · rw [if_pos (isNormal_iff.mpr ⟨normal, finite⟩), if_neg (Nat.not_lt.mpr normal), provisional]
  · have subnormal := Nat.lt_of_not_le normal
    have shift := @toInt_subnormalShift word type x nonzero subnormal
    have below : (magnitude x).log2 < type.format.significandBits :=
      (Nat.log2_lt nonzero).mpr subnormal
    have few := significandBits_lt_32 type
    have one := toInt_int_one word
    rw [Nat.div_eq_of_lt subnormal] at provisional
    rw [if_neg fun claimed => normal (isNormal_iff.mp claimed).1, if_pos subnormal]
    have next : toInt word .int (truncatingIfNeeded word .int .uint (exponentBitPattern word x) -
        truncatingIfNeeded word .int .uint (exponentBias word type) + 1) =
          1 - type.format.bias := by
      rw [toInt_add_of_small, provisional, one]
      · omega
      · omega
      · omega
    rw [toInt_sub_of_small, next, shift]
    · omega
    · omega
    · omega

end Exponent

section Significand

/-- The words whose significand counts as one and a fraction. -/
theorem value_init_unit (pattern : RawSignificand word type) :
    type.format.value (magnitude (init word type .plus (exponentBias word type) pattern)) =
      (2 ^ type.format.significandBits +
        (BitVec.toNat pattern % 2 ^ type.format.significandBits : ℕ)) *
          2 ^ (-type.format.significandBits : ℤ) := by
  have word_ := (@fields_init word type .plus (exponentBias word type) pattern).1
  have fits := Nat.mod_lt (BitVec.toNat pattern) (Nat.two_pow_pos type.format.significandBits)
  have constant := toNat_exponentBias word type
  have bias : type.format.bias % 2 ^ type.format.exponentBits = type.format.bias ∧
      0 < type.format.bias := by cases type <;> decide
  rw [constant, bias.1] at word_
  rw [word_, value_fields bias.2.ne' fits, sub_self, zero_sub]

/-- The leading bit of a subnormal significand, moved to the place of an implied one. -/
theorem toNat_shifted_subnormal (nonzero : magnitude x ≠ 0)
    (subnormal : magnitude x < 2 ^ type.format.significandBits) :
    2 ^ type.format.significandBits +
        BitVec.toNat (genericMaskingShiftLeft word type.rawSignificand
          (significandBitPattern word x) (subnormalShift word x)) %
            2 ^ type.format.significandBits =
      magnitude x * 2 ^ (type.format.significandBits - (magnitude x).log2) := by
  have pattern := @toNat_significandBitPattern word type x
  rw [Nat.mod_eq_of_lt subnormal] at pattern
  have below : (magnitude x).log2 < type.format.significandBits :=
    (Nat.log2_lt nonzero).mpr subnormal
  have few := significandBits_lt_32 type
  have inside := significandBits_lt_bitWidth word type
  have least := Nat.log2_self_le nonzero
  have most := @Nat.lt_log2_self (magnitude x)
  have shift := @toInt_subnormalShift word type x nonzero subnormal
  generalize (magnitude x).log2 = position at below least most shift ⊢
  have amount : subnormalShift word x =
      BitVec.ofNat _ (type.format.significandBits - position) := by
    apply eq_ofNat_of_toInt
    · omega
    · omega
  have lower : 2 ^ type.format.significandBits ≤
      magnitude x * 2 ^ (type.format.significandBits - position) := by
    calc 2 ^ type.format.significandBits
        = 2 ^ position * 2 ^ (type.format.significandBits - position) := by
          rw [← pow_add, Nat.add_sub_cancel' below.le]
      _ ≤ _ := Nat.mul_le_mul_right _ least
  have upper : magnitude x * 2 ^ (type.format.significandBits - position) <
      2 ^ type.format.significandBits + 2 ^ type.format.significandBits := by
    calc magnitude x * 2 ^ (type.format.significandBits - position)
        < 2 ^ (position + 1) * 2 ^ (type.format.significandBits - position) :=
          Nat.mul_lt_mul_of_pos_right most (Nat.two_pow_pos _)
      _ = 2 ^ (type.format.significandBits + 1) := by
          rw [← pow_add]
          congr 1
          omega
      _ = _ := by rw [pow_succ, Nat.mul_two]
  have room : 2 ^ type.format.significandBits + 2 ^ type.format.significandBits ≤
      2 ^ type.rawSignificand.bitWidth word := by
    rw [← Nat.mul_two, ← pow_succ]
    exact Nat.pow_le_pow_right (by decide) inside
  rw [genericMaskingShiftLeft, amount, truncatingIfNeeded_int_ofNat (by omega),
    maskingShiftLeft_ofNat _ (by omega), BitVec.toNat_shiftLeft, pattern, Nat.shiftLeft_eq,
    Nat.mod_eq_of_lt (upper.trans_le room), Nat.mod_eq_sub_mod lower,
    Nat.mod_eq_of_lt (by omega)]
  omega

/-- The significand of a finite number is positive, and the exponent tells its scale. -/
theorem value_significand (finite : magnitude x < type.format.infinity)
    (nonzero : magnitude x ≠ 0) :
    type.format.value (magnitude x) =
      type.format.value (magnitude (significand word x)) *
        2 ^ toInt word .int (exponent word x) ∧
      negative (significand word x) = false := by
  have notNaN : ¬ isNaN word x = true := by
    rw [isNaN_iff]
    omega
  rw [toInt_exponent finite nonzero, significand, if_neg notNaN]
  by_cases normal : 2 ^ type.format.significandBits ≤ magnitude x
  · rw [if_pos (isNormal_iff.mpr ⟨normal, finite⟩)]
    refine ⟨?_, fields_init.2⟩
    rw [value_init_unit, toNat_significandBitPattern, Nat.mod_mod, value_of_normal normal,
      mul_assoc, ← zpow_add₀ (by norm_num)]
    congr 2
    omega
  · have subnormal := Nat.lt_of_not_le normal
    have below : (magnitude x).log2 < type.format.significandBits :=
      (Nat.log2_lt nonzero).mpr subnormal
    rw [if_neg fun claimed => normal (isNormal_iff.mp claimed).1,
      if_pos (isSubnormal_iff.mpr ⟨nonzero, subnormal⟩)]
    refine ⟨?_, fields_init.2⟩
    have shifted : (2 ^ type.format.significandBits +
        (BitVec.toNat (genericMaskingShiftLeft word type.rawSignificand
          (significandBitPattern word x) (subnormalShift word x)) %
            2 ^ type.format.significandBits : ℕ) : ℚ) =
        magnitude x * 2 ^ (type.format.significandBits - (magnitude x).log2) := by
      exact_mod_cast @toNat_shifted_subnormal word type x nonzero subnormal
    rw [value_init_unit, shifted, value_of_subnormal subnormal, ← zpow_natCast, mul_assoc,
      mul_assoc, ← zpow_add₀ (by norm_num), ← zpow_add₀ (by norm_num)]
    congr 2
    omega

section Width

variable (word)

/-- A power of two has no bits after the leading one. -/
theorem toInt_significandWidth_power (finite : magnitude x < type.format.infinity)
    (normal : 2 ^ type.format.significandBits ≤ magnitude x)
    (whole : significandBitPattern word x = 0) :
    toInt word .int (significandWidth word x) = 0 := by
  rw [significandWidth, if_pos (isNormal_iff.mpr ⟨normal, finite⟩),
    if_pos (beq_iff_eq.mpr whole), toInt_zero]

theorem toInt_significandWidth_normal (finite : magnitude x < type.format.infinity)
    (normal : 2 ^ type.format.significandBits ≤ magnitude x)
    (some_ : significandBitPattern word x ≠ 0) :
    (BitVec.ctz (significandBitPattern word x)).toNat < type.format.significandBits ∧
      toInt word .int (significandWidth word x) =
        type.format.significandBits - (BitVec.ctz (significandBitPattern word x)).toNat := by
  have pattern := @toNat_significandBitPattern word type x
  have count := toInt_significandBitCount word type
  have few := significandBits_lt_32 type
  have trailing := toInt_trailingZeroBitCount (significandBitPattern word x)
  have fits := Nat.mod_lt (magnitude x) (Nat.two_pow_pos type.format.significandBits)
  rcases exists_odd_of_ctz some_ with ⟨odd, isOdd, parts⟩
  rw [pattern] at parts
  have less : (BitVec.ctz (significandBitPattern word x)).toNat < type.format.significandBits := by
    apply (Nat.pow_lt_pow_iff_right (by decide : 1 < 2)).mp
    apply Nat.lt_of_le_of_lt _ fits
    rw [parts]
    exact Nat.le_mul_of_pos_left _ isOdd.pos
  refine ⟨less, ?_⟩
  rw [significandWidth, if_pos (isNormal_iff.mpr ⟨normal, finite⟩), if_neg (by simpa using some_),
    toInt_sub_of_small, count, trailing]
  · omega
  · omega

theorem toInt_significandWidth_subnormal (nonzero : magnitude x ≠ 0)
    (subnormal : magnitude x < 2 ^ type.format.significandBits) :
    (BitVec.ctz (significandBitPattern word x)).toNat ≤ (magnitude x).log2 ∧
      toInt word .int (significandWidth word x) =
        (magnitude x).log2 - (BitVec.ctz (significandBitPattern word x)).toNat := by
  have pattern := @toNat_significandBitPattern word type x
  have some_ := significandBitPattern_ne_zero word nonzero subnormal
  have trailing := toInt_trailingZeroBitCount (significandBitPattern word x)
  have leading := toInt_leadingZeroBitCount (significandBitPattern word x)
  have total := clz_add_log2 some_
  have one := toInt_int_one word
  have most := type.rawSignificand.bitWidth_le word
  have bits := toInt_bitWidthInt word type.rawSignificand
  have notNormal : ¬ isNormal word x = true := by
    rw [isNormal_iff]
    omega
  rcases exists_odd_of_ctz some_ with ⟨odd, isOdd, parts⟩
  rw [pattern, Nat.mod_eq_of_lt subnormal] at parts total
  have less : (BitVec.ctz (significandBitPattern word x)).toNat ≤ (magnitude x).log2 := by
    apply (Nat.le_log2 nonzero).mpr
    rw [parts]
    exact Nat.le_mul_of_pos_left _ isOdd.pos
  refine ⟨less, ?_⟩
  have sum : toInt word .int (trailingZeroBitCount word type.rawSignificand
      (significandBitPattern word x) + leadingZeroBitCount word type.rawSignificand
        (significandBitPattern word x)) =
          (BitVec.ctz (significandBitPattern word x)).toNat +
            (BitVec.clz (significandBitPattern word x)).toNat := by
    rw [toInt_add_of_small, trailing, leading]
    · omega
    · omega
  have counted : toInt word .int (trailingZeroBitCount word type.rawSignificand
      (significandBitPattern word x) + leadingZeroBitCount word type.rawSignificand
        (significandBitPattern word x) + 1) =
          (BitVec.ctz (significandBitPattern word x)).toNat +
            (BitVec.clz (significandBitPattern word x)).toNat + 1 := by
    rw [toInt_add_of_small, sum, one]
    · omega
    · omega
  rw [significandWidth, if_neg notNormal, if_pos (isSubnormal_iff.mpr ⟨nonzero, subnormal⟩),
    toInt_sub_of_small, bits, counted]
  · omega
  · omega
  · omega

end Width

/-- Counted up to the last bit that is set, the significand is odd. -/
theorem value_eq_odd (finite : magnitude x < type.format.infinity) (nonzero : magnitude x ≠ 0) :
    ∃ odd : ℕ, Odd odd ∧ 0 ≤ toInt word .int (significandWidth word x) ∧
      type.format.value (magnitude x) =
        odd * 2 ^ (toInt word .int (exponent word x) -
          toInt word .int (significandWidth word x)) := by
  have pattern := @toNat_significandBitPattern word type x
  rw [toInt_exponent finite nonzero]
  by_cases normal : 2 ^ type.format.significandBits ≤ magnitude x
  · rw [value_of_normal normal]
    by_cases whole : significandBitPattern word x = 0
    · have rest := significandBitPattern_eq_zero_iff.mp whole
      have width := toInt_significandWidth_power word finite normal whole
      refine ⟨1, odd_one, width.ge, ?_⟩
      rw [width, rest, Nat.cast_zero, add_zero, Nat.cast_one, one_mul, sub_zero]
      exact (two_zpow_split _ _).symm
    · rcases exists_odd_of_ctz whole with ⟨odd, isOdd, parts⟩
      rcases toInt_significandWidth_normal word finite normal whole with ⟨less, width⟩
      rw [pattern] at parts
      generalize (BitVec.ctz (significandBitPattern word x)).toNat = zeros at parts less width
      have even : Even (2 ^ (type.format.significandBits - zeros)) :=
        Nat.even_pow.mpr ⟨even_two, by omega⟩
      have leading : 2 ^ type.format.significandBits =
          2 ^ (type.format.significandBits - zeros) * 2 ^ zeros := by
        rw [← pow_add, Nat.sub_add_cancel less.le]
      have sum : (2 ^ type.format.significandBits +
          (magnitude x % 2 ^ type.format.significandBits : ℕ) : ℚ) =
            (2 ^ (type.format.significandBits - zeros) + odd : ℕ) * 2 ^ zeros := by
        exact_mod_cast (congrArg₂ (· + ·) leading parts).trans (Nat.add_mul _ _ _).symm
      refine ⟨_, even.add_odd isOdd, by omega, ?_⟩
      rw [width, sum, mul_assoc, ← zpow_natCast, ← zpow_add₀ (by norm_num)]
      congr 2
      omega
  · have subnormal := Nat.lt_of_not_le normal
    rcases exists_odd_of_ctz (significandBitPattern_ne_zero word nonzero subnormal) with
      ⟨odd, isOdd, parts⟩
    rcases toInt_significandWidth_subnormal word nonzero subnormal with ⟨less, width⟩
    rw [pattern, Nat.mod_eq_of_lt subnormal] at parts
    generalize (BitVec.ctz (significandBitPattern word x)).toNat = zeros at parts less width
    have split : (magnitude x : ℚ) = odd * 2 ^ zeros := by exact_mod_cast parts
    refine ⟨odd, isOdd, by omega, ?_⟩
    rw [value_of_subnormal subnormal, width]
    conv_lhs => rw [split]
    rw [mul_assoc, ← zpow_natCast, ← zpow_add₀ (by norm_num)]
    congr 2
    omega

/--
A finite value that is not zero is a significand from one up to two, scaled by its exponent, and
the significand has as many binary places as its width says, the last of which is set.
-/
theorem significand_exponent (finite : isFinite word x = true) (nonzero : isZero word x = false) :
    negative (significand word x) = false ∧
      (1 ≤ type.format.value (magnitude (significand word x)) ∧
        type.format.value (magnitude (significand word x)) < 2) ∧
      type.format.value (magnitude x) =
        type.format.value (magnitude (significand word x)) *
          2 ^ toInt word .int (exponent word x) ∧
      ∃ places odd : ℕ, toInt word .int (significandWidth word x) = places ∧ Odd odd ∧
        type.format.value (magnitude (significand word x)) * 2 ^ places = odd := by
  have finite := isFinite_iff.mp finite
  have nonzero : magnitude x ≠ 0 := fun nothing => by simp [isZero_iff.mpr nothing] at nonzero
  have two : (2 : ℚ) ≠ 0 := by norm_num
  have bounds := value_bounds (f := type.format) nonzero
  have scaled := @value_significand word type x finite nonzero
  rcases @value_eq_odd word type x finite nonzero with ⟨odd, isOdd, counted, value⟩
  rw [← @toInt_exponent word type x finite nonzero] at bounds
  have positive : (0 : ℚ) < 2 ^ toInt word .int (exponent word x) := by positivity
  refine ⟨scaled.2, ?_, scaled.1, (toInt word .int (significandWidth word x)).toNat, odd, by omega,
    isOdd, ?_⟩
  · rw [scaled.1, zpow_add_one₀ two] at bounds
    constructor
    · nlinarith
    · nlinarith
  · -- Both sides are the value, but for the power of two that the exponent stands for.
    have places := two_zpow_split (toInt word .int (exponent word x))
      (toInt word .int (significandWidth word x)).toNat
    rw [Int.toNat_of_nonneg counted] at places
    have same := scaled.1.symm.trans value
    rw [places, ← mul_assoc] at same
    exact mul_right_cancel₀ (zpow_ne_zero _ two) same

/-- The least subnormal value is a power of two. -/
theorem significand_exponent_least :
    ∃ places odd : ℕ, toInt .word16 .int (significandWidth .word16 (1 : FloatingPoint .float)) =
        places ∧ Odd odd ∧
      FloatingPointType.float.format.value
        (magnitude (significand .word16 (1 : FloatingPoint .float))) * 2 ^ places = odd :=
  (@significand_exponent .word16 .float (1 : BitVec 32) (by decide) (by decide)).2.2.2

end Significand

end FloatingPoint

end USwift
