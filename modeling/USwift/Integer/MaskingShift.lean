import USwift.Integer.Conversion

/-!
# Masking shifts

The operators `&>>` and `&<<` shift by the low bits of their amount, which a constant of
each type selects. An amount that the mask lets through up to the width or above has no
defined result in LLVM.
-/

namespace USwift

open TwosComplement

section Operations

variable (word : WordSize) (type : IntegerType) {other : IntegerType}

/-- `&<<` with an amount of any integer type. -/
def genericMaskingShiftLeft (lhs : Value word type) (rhs : Value word other) : Value word type :=
  maskingShiftLeft word type lhs (truncatingIfNeeded word type other rhs)

/-- `&>>` with an amount of any integer type. -/
def genericMaskingShiftRight (lhs : Value word type) (rhs : Value word other) : Value word type :=
  maskingShiftRight word type lhs (truncatingIfNeeded word type other rhs)

end Operations

variable {word : WordSize} {type other : IntegerType}

/-- The masks reach one bit too far for `Int8` alone. -/
theorem shiftMask_succ (word : WordSize) (type : IntegerType) :
    shiftMask word type + 1 = if type = .int8 then 16 else type.bitWidth word := by
  cases word <;> cases type <;> rfl

theorem shiftMask_succ_dvd (word : WordSize) (type : IntegerType) :
    shiftMask word type + 1 ∣ 2 ^ 8 := by
  cases word <;> cases type <;> decide

/-- A conversion keeps the low eight bits, also the one that extends the sign of a `UInt16`. -/
theorem truncatingIfNeeded_modEq_low (amount : Value word other) :
    toInt word type (truncatingIfNeeded word type other amount) ≡ toInt word other amount
      [ZMOD 2 ^ 8] := by
  have narrow : 8 ≤ type.bitWidth word := by cases type <;> cases word <;> decide
  by_cases irregular : word = .word32 ∧ other = .uint16
  · rcases irregular with ⟨rfl, rfl⟩
    have outer := value_extend_modEq false type.isSigned (type.bitWidth .word32)
      (amount.signExtend 32)
    have inner := value_extend_modEq true false 32 amount
    rw [truncatingIfNeeded_uint16_word32]
    exact ((outer.of_dvd (pow_dvd_pow 2 narrow)).trans
      (inner.of_dvd (pow_dvd_pow 2 (by decide)))).trans
        ((value_modEq_toNat true amount).of_dvd (pow_dvd_pow 2 (by decide)))
  · rw [truncatingIfNeeded_eq_extend ((extendsSign_eq_iff word other).mpr irregular)]
    exact (value_extend_modEq _ _ _ amount).of_dvd (pow_dvd_pow 2 narrow)

/--
What the two shifts owe for an amount: the builtins are handed a number below the width,
and shift by the amount modulo the width.
-/
structure ShiftsModuloWidth (x : Value word type) (amount : ℤ)
    (handed left right : Value word type) : Prop where
  inside : handed.toNat < type.bitWidth word
  left_eq : left = x <<< (amount % type.bitWidth word).toNat
  right_eq : right = shiftRight type.isSigned x (amount % type.bitWidth word).toNat

/-- The shifts by an amount that is congruent to an integer where the mask can see it. -/
theorem shiftsModuloWidth_iff (x handed : Value word type) {amount : ℤ}
    (congruent : toInt word type handed ≡ amount [ZMOD 2 ^ 8]) :
    ShiftsModuloWidth x amount (maskedAmount word type handed)
        (maskingShiftLeft word type x handed) (maskingShiftRight word type x handed) ↔
      ¬ (type = .int8 ∧ 8 ≤ amount % 16) := by
  have masked : ((maskedAmount word type handed).toNat : ℤ) =
      amount % (shiftMask word type + 1 : ℕ) := by
    have stored : (handed.toNat : ℤ) ≡ amount [ZMOD 2 ^ 8] :=
      ((value_modEq_toNat type.isSigned handed).symm.of_dvd
        (pow_dvd_pow 2 (by cases type <;> cases word <;> decide))).trans congruent
    rw [toNat_maskedAmount]
    push_cast
    exact stored.of_dvd (by exact_mod_cast shiftMask_succ_dvd word type)
  have positive : (0 : ℤ) < type.bitWidth word := by exact_mod_cast type.bitWidth_pos word
  have modulus := shiftMask_succ word type
  constructor
  · rintro shifts ⟨rfl, large⟩
    have inside := shifts.inside
    rw [if_pos rfl] at modulus
    rw [modulus] at masked
    push_cast at masked
    have width : IntegerType.int8.bitWidth word = 8 := rfl
    omega
  · intro small
    have handed_eq : (maskedAmount word type handed).toNat =
        (amount % type.bitWidth word).toNat := by
      by_cases int8 : type = .int8
      · subst int8
        rw [if_pos rfl] at modulus
        rw [modulus] at masked
        push_cast at masked
        have eight : (amount % IntegerType.int8.bitWidth word).toNat = (amount % 8).toNat := rfl
        have below : ¬ 8 ≤ amount % 16 := fun large => small ⟨rfl, large⟩
        rw [eight]
        omega
      · rw [if_neg int8] at modulus
        rw [modulus] at masked
        omega
    refine ⟨?_, ?_, ?_⟩
    · have below := Int.emod_lt_of_pos amount positive
      have nonnegative := Int.emod_nonneg amount positive.ne'
      omega
    · rw [maskingShiftLeft, BitVec.shiftLeft_eq', handed_eq]
    · rw [maskingShiftRight, BitVec.sshiftRight', BitVec.ushiftRight_eq', handed_eq]
      rfl

/--
The masking shifts of every type shift by the amount modulo the width, and `Int8` does so
unless the fourth bit of the amount is set.
-/
theorem maskingShifts_iff (word : WordSize) (type other : IntegerType) (x n : Value word type)
    (amount : Value word other) :
    (ShiftsModuloWidth x (toInt word type n) (maskedAmount word type n)
        (maskingShiftLeft word type x n) (maskingShiftRight word type x n) ↔
      ¬ (type = .int8 ∧ 8 ≤ toInt word type n % 16)) ∧
    (ShiftsModuloWidth x (toInt word other amount)
        (maskedAmount word type (truncatingIfNeeded word type other amount))
        (genericMaskingShiftLeft word type x amount)
        (genericMaskingShiftRight word type x amount) ↔
      ¬ (type = .int8 ∧ 8 ≤ toInt word other amount % 16)) :=
  ⟨shiftsModuloWidth_iff x n rfl,
    shiftsModuloWidth_iff x _ (truncatingIfNeeded_modEq_low amount)⟩

/-- `1 &<< 8` of `Int8` hands an amount of eight to a shift of eight bits. -/
theorem int8_shift_by_eight :
    ¬ ∀ (word : WordSize) (type : IntegerType) (x n : Value word type),
      ShiftsModuloWidth x (toInt word type n) (maskedAmount word type n)
        (maskingShiftLeft word type x n) (maskingShiftRight word type x n) := by
  intro shifts
  have inside := (shifts .word16 .int8 1 8).inside
  revert inside
  decide

end USwift
