import USwift.Integer.Shift

/-!
# Counting zero bits

The numbers of leading and trailing zero bits are counted by the LLVM builtins at the width of
the value, and then converted to `Int`. The logarithm to base two is read off the first one.
-/

namespace USwift

namespace FixedWidthInteger

open TwosComplement

section Operations

variable (word : WordSize) (type : IntegerType)

/-- `leadingZeroBitCount`. -/
def leadingZeroBitCount (x : Value word type) : Value word .int :=
  truncatingIfNeeded word .int type (BitVec.clz x)

/-- `trailingZeroBitCount`. -/
def trailingZeroBitCount (x : Value word type) : Value word .int :=
  truncatingIfNeeded word .int type (BitVec.ctz x)

/-- `_binaryLogarithm()` of the fixed-width integers. -/
def binaryLogarithm (x : Value word type) : Value word .int :=
  bitWidthInt word type - (leadingZeroBitCount word type x + 1)

end Operations

variable {word : WordSize} {type : IntegerType}

/-- The narrower `Int` holds every number of at most 15 bits and a sign. -/
theorem int_holds (word : WordSize) :
    TwosComplement.minimum IntegerType.int.isSigned (IntegerType.int.bitWidth word) ≤ -32768 ∧
      32767 ≤
        TwosComplement.maximum IntegerType.int.isSigned (IntegerType.int.bitWidth word) := by
  cases word <;> decide

theorem toInt_add_of_small {x y : Value word .int}
    (low : -32768 ≤ toInt word .int x + toInt word .int y)
    (high : toInt word .int x + toInt word .int y ≤ 32767) :
    toInt word .int (x + y) = toInt word .int x + toInt word .int y := by
  have bounds := int_holds word
  exact toInt_add (bounds.1.trans low) (high.trans bounds.2)

theorem toInt_sub_of_small {x y : Value word .int}
    (low : -32768 ≤ toInt word .int x - toInt word .int y)
    (high : toInt word .int x - toInt word .int y ≤ 32767) :
    toInt word .int (x - y) = toInt word .int x - toInt word .int y := by
  have bounds := int_holds word
  exact toInt_sub (bounds.1.trans low) (high.trans bounds.2)

theorem toInt_int_one (word : WordSize) : toInt word .int (1 : Value word .int) = 1 :=
  @toInt_int_ofNat word 1 (by decide)

section Conversions

variable {source target : IntegerType} {x : Value word source}

/-- A number that is less than the sign bit of a `UInt16` is converted as it is. -/
theorem faithful_of_lt (small : BitVec.toNat x < 2 ^ 15) : Faithful word source target x := by
  apply (faithful_iff word source target x).mpr
  rintro ⟨rfl, rfl, _, large⟩
  have least := (msb_uint16_iff x).mp large
  have unsigned : toInt .word32 .uint16 x = BitVec.toNat x := rfl
  omega

theorem toNat_truncatingIfNeeded (unsigned : source.isSigned = false)
    (small : BitVec.toNat x < 2 ^ 15) (fits : BitVec.toNat x < 2 ^ target.bitWidth word) :
    BitVec.toNat (truncatingIfNeeded word target source x) = BitVec.toNat x := by
  have kept : Faithful word source target x := faithful_of_lt small
  rw [kept, extend, unsigned, if_neg Bool.false_ne_true, BitVec.toNat_setWidth]
  exact Nat.mod_eq_of_lt fits

theorem toInt_truncatingIfNeeded (unsigned : source.isSigned = false)
    (small : BitVec.toNat x < 2 ^ 15) :
    toInt word .int (truncatingIfNeeded word .int source x) = BitVec.toNat x := by
  have kept : Faithful word source .int x := faithful_of_lt small
  have bounds := int_holds word
  have value : toInt word source x = BitVec.toNat x := by
    rw [toInt, TwosComplement.value, unsigned, if_neg Bool.false_ne_true]
  rw [kept.toInt_eq, value]
  · rw [value]
    omega
  · rw [value]
    omega

end Conversions

/-- A count of bits is an `Int`, whatever type it is converted from. -/
theorem toInt_count {x : Value word type} (few : BitVec.toNat x ≤ type.bitWidth word) :
    toInt word .int (truncatingIfNeeded word .int type x) = BitVec.toNat x := by
  have most := type.bitWidth_le word
  have room : type.bitWidth word < 2 ^ (type.bitWidth word - 1) := by
    cases word <;> cases type <;> decide
  have value : toInt word type x = BitVec.toNat x := by
    have held := @toInt_ofNat word type (BitVec.toNat x) (by omega)
    rwa [BitVec.ofNat_toNat, BitVec.setWidth_eq] at held
  have regular : Faithful word type .int x := faithful_of_lt (by omega)
  have bounds := int_holds word
  rw [regular.toInt_eq, value]
  · rw [value]
    omega
  · rw [value]
    omega

theorem toInt_leadingZeroBitCount (x : Value word type) :
    toInt word .int (leadingZeroBitCount word type x) = (BitVec.clz x).toNat := by
  apply toInt_count
  have bound := BitVec.le_def.mp (BitVec.clz_le (x := x))
  rwa [BitVec.natCast_eq_ofNat, BitVec.toNat_ofNat, Nat.mod_eq_of_lt Nat.lt_two_pow_self] at bound

theorem toInt_trailingZeroBitCount (x : Value word type) :
    toInt word .int (trailingZeroBitCount word type x) = (BitVec.ctz x).toNat := by
  apply toInt_count
  have bound := BitVec.le_def.mp (BitVec.clz_le (x := x.reverse))
  rwa [BitVec.natCast_eq_ofNat, BitVec.toNat_ofNat, Nat.mod_eq_of_lt Nat.lt_two_pow_self] at bound

theorem toNat_clz_lt {x : Value word type} (nonzero : x ≠ 0) :
    (BitVec.clz x).toNat < type.bitWidth word := by
  have less := BitVec.lt_def.mp (BitVec.clz_lt_iff_ne_zero.mpr nonzero)
  rwa [BitVec.natCast_eq_ofNat, BitVec.toNat_ofNat, Nat.mod_eq_of_lt Nat.lt_two_pow_self] at less

/-- The leading zero bits leave the bits up to the logarithm. -/
theorem clz_add_log2 {x : Value word type} (nonzero : x ≠ 0) :
    (BitVec.clz x).toNat + (BitVec.toNat x).log2 + 1 = type.bitWidth word := by
  have positive := type.bitWidth_pos word
  have less := toNat_clz_lt nonzero
  have lower := BitVec.two_pow_sub_clz_le_toNat_of_ne_zero positive nonzero
  have upper := BitVec.toNat_lt_two_pow_sub_clz (x := x)
  have some_ : BitVec.toNat x ≠ 0 := by
    intro none_
    exact nonzero (BitVec.eq_of_toNat_eq none_)
  have shape : type.bitWidth word - (BitVec.clz x).toNat =
      type.bitWidth word - 1 - (BitVec.clz x).toNat + 1 := by omega
  rw [shape] at upper
  have logarithm := (Nat.log2_eq_iff some_).mpr ⟨lower, upper⟩
  omega

/-- `_binaryLogarithm()` is the position of the first bit that is set. -/
theorem toInt_binaryLogarithm {x : Value word type} (nonzero : x ≠ 0) :
    toInt word .int (binaryLogarithm word type x) = (BitVec.toNat x).log2 := by
  have most := type.bitWidth_le word
  have sum := clz_add_log2 nonzero
  have counted := toInt_leadingZeroBitCount x
  have width := toInt_bitWidthInt word type
  have one := toInt_int_one word
  have next : toInt word .int (leadingZeroBitCount word type x + 1) =
      (BitVec.clz x).toNat + 1 := by
    rw [toInt_add_of_small, counted, one]
    · omega
    · omega
  rw [binaryLogarithm, toInt_sub_of_small, width, next]
  · omega
  · omega
  · omega

theorem log2_lt_bitWidth {x : Value word type} (nonzero : x ≠ 0) :
    (BitVec.toNat x).log2 < type.bitWidth word := by
  have sum := clz_add_log2 nonzero
  omega

/-- The trailing zero bits are those of a power of two, and leave an odd number. -/
theorem exists_odd_of_ctz {x : Value word type} (nonzero : x ≠ 0) :
    ∃ odd : ℕ, Odd odd ∧ BitVec.toNat x = odd * 2 ^ (BitVec.ctz x).toNat := by
  have low : BitVec.toNat x % 2 ^ (BitVec.ctz x).toNat = 0 := by
    apply Nat.eq_of_testBit_eq
    intro index
    rw [Nat.testBit_mod_two_pow, Nat.zero_testBit]
    by_cases inside : index < (BitVec.ctz x).toNat
    · have clear := BitVec.getLsbD_false_of_lt_ctz inside
      simp only [inside, decide_true, Bool.true_and]
      exact clear
    · simp [inside]
  have bit := BitVec.getLsbD_true_ctz_of_ne_zero nonzero
  refine ⟨BitVec.toNat x / 2 ^ (BitVec.ctz x).toNat, ?_, ?_⟩
  · rw [BitVec.getLsbD, Nat.testBit_eq_decide_div_mod_eq, decide_eq_true_eq] at bit
    exact Nat.odd_iff.mpr bit
  · exact (Nat.div_mul_cancel (Nat.dvd_of_mod_eq_zero low)).symm

end FixedWidthInteger

end USwift
