import USwift.Integer.Comparison

/-!
# Smart shifts

The operators `>>` and `<<` take an amount of any integer type. They clamp it to
the width on both sides, shift the other way for a negative amount, and fill
with the sign where nothing of the value is left.
-/

namespace USwift

open Heterogeneous TwosComplement

section Operators

variable (word : WordSize) (type : IntegerType) {other : IntegerType}

/-- `Self.bitWidth`, an `Int`. -/
def bitWidthInt : Value word .int :=
  BitVec.ofNat _ (type.bitWidth word)

/-- The amount that the generic shifts pass on. -/
def clampedAmount (rhs : Value word other) : Value word .int :=
  if lessThan word rhs (-bitWidthInt word type) then -bitWidthInt word type
  else if greaterThan word rhs (bitWidthInt word type) then bitWidthInt word type
  else truncatingIfNeeded word .int other rhs

/-- What a value shifted right beyond its width leaves. -/
def overshiftRight (lhs : Value word type) : Value word type :=
  if type.isSigned then
    maskingShiftRight word type lhs
      (truncatingIfNeeded word type .int (bitWidthInt word type - 1))
  else 0

/-- `_nonMaskingRightShift(_:_:)`. -/
def nonMaskingRightShift (lhs : Value word type) (rhs : Value word .int) : Value word type :=
  if !less word .int rhs 0 then
    if less word .int rhs (bitWidthInt word type) then
      maskingShiftRight word type lhs (truncatingIfNeeded word type .int rhs)
    else overshiftRight word type lhs
  else if !less word .int (-bitWidthInt word type) rhs then 0
  else maskingShiftLeft word type lhs (truncatingIfNeeded word type .int (-rhs))

/-- `_nonMaskingLeftShift(_:_:)`. -/
def nonMaskingLeftShift (lhs : Value word type) (rhs : Value word .int) : Value word type :=
  if !less word .int rhs 0 then
    if less word .int rhs (bitWidthInt word type) then
      maskingShiftLeft word type lhs (truncatingIfNeeded word type .int rhs)
    else 0
  else if !less word .int (-bitWidthInt word type) rhs then overshiftRight word type lhs
  else maskingShiftRight word type lhs (truncatingIfNeeded word type .int (-rhs))

/-- `>>`. -/
def smartShiftRight (lhs : Value word type) (rhs : Value word other) : Value word type :=
  nonMaskingRightShift word type lhs (clampedAmount word type rhs)

/-- `<<`. -/
def smartShiftLeft (lhs : Value word type) (rhs : Value word other) : Value word type :=
  nonMaskingLeftShift word type lhs (clampedAmount word type rhs)

end Operators

variable {word : WordSize} {type : IntegerType} {amount : ℕ}

theorem toInt_int_ofNat (small : amount ≤ 64) :
    toInt word .int (BitVec.ofNat _ amount) = amount := by
  have room : 64 < 2 ^ (IntegerType.int.bitWidth word - 1) := by cases word <;> decide
  exact toInt_ofNat (by omega)

theorem toInt_bitWidthInt (word : WordSize) (type : IntegerType) :
    toInt word .int (bitWidthInt word type) = type.bitWidth word :=
  toInt_int_ofNat (type.bitWidth_le word)

theorem toInt_neg_bitWidthInt (word : WordSize) (type : IntegerType) :
    toInt word .int (-bitWidthInt word type) = -type.bitWidth word := by
  cases word <;> cases type <;> decide

theorem faithful_int (x : Value word .int) : Faithful word .int type x :=
  (faithful_iff word .int type x).mpr (by simp)

theorem clampedAmount_ofNat (inside : amount ≤ type.bitWidth word) :
    clampedAmount word type (BitVec.ofNat (IntegerType.int.bitWidth word) amount) =
      BitVec.ofNat _ amount := by
  have small := inside.trans (type.bitWidth_le word)
  have positive := type.bitWidth_pos word
  have notBelow : ¬ lessThan word (BitVec.ofNat (IntegerType.int.bitWidth word) amount)
      (-bitWidthInt word type) = true := by
    rw [lessThan_iff (faithful_int _) (faithful_int _), toInt_int_ofNat small,
      toInt_neg_bitWidthInt]
    omega
  have notAbove : ¬ greaterThan word (BitVec.ofNat (IntegerType.int.bitWidth word) amount)
      (bitWidthInt word type) = true := by
    rw [greaterThan, lessThan_iff (faithful_int _) (faithful_int _), toInt_int_ofNat small,
      toInt_bitWidthInt]
    omega
  rw [clampedAmount, if_neg notBelow, if_neg notAbove,
    truncatingIfNeeded_eq_extend ((extendsSign_eq_iff word .int).mpr (by simp)),
    TwosComplement.extend_self]

theorem truncatingIfNeeded_int_ofNat (small : amount ≤ 64) :
    truncatingIfNeeded word type .int (BitVec.ofNat _ amount) =
      BitVec.ofNat (type.bitWidth word) amount := by
  have room : 2 * 64 < 2 ^ IntegerType.int.bitWidth word := by cases word <;> decide
  have value : (BitVec.ofNat (IntegerType.int.bitWidth word) amount).toNat = amount := by
    rw [BitVec.toNat_ofNat]
    exact Nat.mod_eq_of_lt (by omega)
  have nonnegative : (BitVec.ofNat (IntegerType.int.bitWidth word) amount).msb = false := by
    rw [BitVec.msb_eq_false_iff_two_mul_lt, value]
    omega
  rw [truncatingIfNeeded_eq_extend ((extendsSign_eq_iff word .int).mpr (by simp)),
    TwosComplement.extend, if_pos rfl, BitVec.signExtend_eq_setWidth_of_msb_false nonnegative]
  apply BitVec.eq_of_toNat_eq
  rw [BitVec.toNat_setWidth, value, BitVec.toNat_ofNat]

theorem less_amount (inside : amount < type.bitWidth word) :
    (!less word .int (BitVec.ofNat _ amount) 0) = true ∧
      less word .int (BitVec.ofNat _ amount) (bitWidthInt word type) = true := by
  have small := inside.le.trans (type.bitWidth_le word)
  rw [Bool.not_eq_true', ← Bool.not_eq_true, less_iff, less_iff, toInt_int_ofNat small,
    toInt_bitWidthInt, toInt_zero]
  omega

theorem smartShiftRight_ofNat (unsigned : type.isSigned = false) (x : Value word type)
    (inside : amount < type.bitWidth word) :
    smartShiftRight word type x (BitVec.ofNat (IntegerType.int.bitWidth word) amount) =
      x >>> amount := by
  have guards := less_amount inside
  rw [smartShiftRight, clampedAmount_ofNat inside.le, nonMaskingRightShift, if_pos guards.1,
    if_pos guards.2, truncatingIfNeeded_int_ofNat (inside.le.trans (type.bitWidth_le word)),
    maskingShiftRight_ofNat unsigned x inside]

theorem smartShiftLeft_ofNat (x : Value word type) (inside : amount < type.bitWidth word) :
    smartShiftLeft word type x (BitVec.ofNat (IntegerType.int.bitWidth word) amount) =
      x <<< amount := by
  have guards := less_amount inside
  rw [smartShiftLeft, clampedAmount_ofNat inside.le, nonMaskingLeftShift, if_pos guards.1,
    if_pos guards.2, truncatingIfNeeded_int_ofNat (inside.le.trans (type.bitWidth_le word)),
    maskingShiftLeft_ofNat x inside]

section Independence

/-- A function that stands for `&<<` or `&>>` of a type. -/
abbrev MaskingShift (word : WordSize) (type : IntegerType) : Type :=
  Value word type → Value word type → Value word type

/-- `_nonMaskingRightShift(_:_:)`, with any functions in place of `&<<` and `&>>`. -/
def nonMaskingRightShiftWith (left right : MaskingShift word type) (lhs : Value word type)
    (rhs : Value word .int) : Value word type :=
  let overshiftR := if type.isSigned then
    right lhs (truncatingIfNeeded word type .int (bitWidthInt word type - 1)) else 0
  if !less word .int rhs 0 then
    if less word .int rhs (bitWidthInt word type) then
      right lhs (truncatingIfNeeded word type .int rhs)
    else overshiftR
  else if !less word .int (-bitWidthInt word type) rhs then 0
  else left lhs (truncatingIfNeeded word type .int (-rhs))

/-- `_nonMaskingLeftShift(_:_:)`, with any functions in place of `&<<` and `&>>`. -/
def nonMaskingLeftShiftWith (left right : MaskingShift word type) (lhs : Value word type)
    (rhs : Value word .int) : Value word type :=
  let overshiftR := if type.isSigned then
    right lhs (truncatingIfNeeded word type .int (bitWidthInt word type - 1)) else 0
  if !less word .int rhs 0 then
    if less word .int rhs (bitWidthInt word type) then
      left lhs (truncatingIfNeeded word type .int rhs)
    else 0
  else if !less word .int (-bitWidthInt word type) rhs then overshiftR
  else right lhs (truncatingIfNeeded word type .int (-rhs))

theorem nonMaskingRightShift_eq_with (lhs : Value word type) (rhs : Value word .int) :
    nonMaskingRightShift word type lhs rhs =
      nonMaskingRightShiftWith (maskingShiftLeft word type) (maskingShiftRight word type)
        lhs rhs := rfl

theorem nonMaskingLeftShift_eq_with (lhs : Value word type) (rhs : Value word .int) :
    nonMaskingLeftShift word type lhs rhs =
      nonMaskingLeftShiftWith (maskingShiftLeft word type) (maskingShiftRight word type)
        lhs rhs := rfl

/-- A function that shifts as it should by every amount below the width. -/
structure ShiftsInside (left right : MaskingShift word type) : Prop where
  left_eq : ∀ (x : Value word type) (amount : ℕ), amount < type.bitWidth word →
    left x (BitVec.ofNat _ amount) = x <<< amount
  right_eq : ∀ (x : Value word type) (amount : ℕ), amount < type.bitWidth word →
    right x (BitVec.ofNat _ amount) = shiftRight type.isSigned x amount

theorem shiftsInside_masking (word : WordSize) (type : IntegerType) :
    ShiftsInside (maskingShiftLeft word type) (maskingShiftRight word type) where
  left_eq x _ inside := maskingShiftLeft_ofNat x inside
  right_eq x amount inside := by
    have handed := @toNat_maskedAmount_of_lt word type (BitVec.ofNat _ amount)
      (by rwa [toNat_amount inside])
    rw [toNat_amount inside] at handed
    rw [maskingShiftRight, BitVec.sshiftRight', BitVec.ushiftRight_eq', handed]
    rfl

/-- An integer shifted to the right, or to the left into the type by a negative amount. -/
def shiftedRight (word : WordSize) (type : IntegerType) (a amount : ℤ) : ℤ :=
  if 0 ≤ amount then a / 2 ^ amount.toNat
  else wrap type.isSigned (type.bitWidth word) (a * 2 ^ (-amount).toNat)

theorem eq_ofNat_of_toInt {rhs : Value word .int} (small : amount ≤ 64)
    (value : toInt word .int rhs = amount) : rhs = BitVec.ofNat _ amount :=
  toInt_injective (value.trans (toInt_int_ofNat small).symm)

theorem neg_eq_ofNat_of_toInt {rhs : Value word .int} (small : amount ≤ 64)
    (value : toInt word .int rhs = -amount) : -rhs = BitVec.ofNat _ amount := by
  apply eq_ofNat_of_toInt small
  have positive : toInt word .int (BitVec.ofNat _ amount) = amount := toInt_int_ofNat small
  have high := toInt_le_maximum (BitVec.ofNat (IntegerType.int.bitWidth word) amount)
  have least := minimum_le_zero IntegerType.int.isSigned (IntegerType.int.bitWidth word)
  rw [toInt_neg_of_bounds (by omega) (by omega), value, neg_neg]

/-- The amount of an overshift is the last one below the width. -/
theorem overshift_amount (word : WordSize) (type : IntegerType) :
    truncatingIfNeeded word type .int (bitWidthInt word type - 1) =
      BitVec.ofNat _ (type.bitWidth word - 1) := by
  have small := type.bitWidth_le word
  have positive := type.bitWidth_pos word
  have previous : bitWidthInt word type - 1 = BitVec.ofNat _ (type.bitWidth word - 1) := by
    cases word <;> cases type <;> decide
  rw [previous, truncatingIfNeeded_int_ofNat (by omega)]

variable {left right : MaskingShift word type} {lhs : Value word type} {rhs : Value word .int}

namespace ShiftsInside

variable (shifts : ShiftsInside left right)

include shifts

theorem toInt_left (inside : amount < type.bitWidth word) :
    toInt word type (left lhs (BitVec.ofNat _ amount)) =
      wrap type.isSigned (type.bitWidth word) (toInt word type lhs * 2 ^ amount) := by
  rw [shifts.left_eq lhs amount inside]
  exact value_eq_wrap (type.bitWidth_pos word) (value_shiftLeft_modEq _ lhs amount)

theorem toInt_right (inside : amount < type.bitWidth word) :
    toInt word type (right lhs (BitVec.ofNat _ amount)) = toInt word type lhs / 2 ^ amount := by
  rw [shifts.right_eq lhs amount inside]
  exact value_shiftRight _ lhs amount

/-- What an overshift leaves is what a shift by any amount beyond the width leaves. -/
theorem toInt_overshift (beyond : type.bitWidth word ≤ amount) :
    toInt word type (if type.isSigned then
      right lhs (truncatingIfNeeded word type .int (bitWidthInt word type - 1)) else 0) =
        toInt word type lhs / 2 ^ amount := by
  have positive := type.bitWidth_pos word
  have low := minimum_le_toInt lhs
  have high := toInt_le_maximum lhs
  cases signed : type.isSigned with
  | true =>
      rw [signed] at low high
      simp only [minimum, maximum, if_true] at low high
      rw [if_pos rfl, overshift_amount, shifts.toInt_right (by omega),
        ediv_two_pow_of_bounds le_rfl low (by omega),
        ediv_two_pow_of_bounds (by omega : type.bitWidth word - 1 ≤ amount) low (by omega)]
  | false =>
      rw [signed] at low high
      simp only [minimum, maximum, Bool.false_eq_true, if_false] at low high
      rw [if_neg Bool.false_ne_true, toInt_zero,
        ediv_two_pow_of_bounds beyond (by omega) (by omega), if_neg (by omega)]

end ShiftsInside

/-- A shift to the left beyond the width leaves nothing. -/
theorem wrap_mul_two_pow (a : ℤ) (beyond : type.bitWidth word ≤ amount) :
    wrap type.isSigned (type.bitWidth word) (a * 2 ^ amount) = 0 := by
  have nothing : toInt word type 0 ≡ a * 2 ^ amount [ZMOD 2 ^ type.bitWidth word] := by
    rw [toInt_zero]
    exact ((pow_dvd_pow 2 beyond).mul_left a).modEq_zero_int.symm
  rw [← value_eq_wrap (type.bitWidth_pos word) nothing]
  exact toInt_zero word type

theorem not_less_zero_iff : (!less word .int rhs 0) = true ↔ 0 ≤ toInt word .int rhs := by
  rw [Bool.not_eq_true', ← Bool.not_eq_true, less_iff, toInt_zero, not_lt]

theorem less_bitWidthInt_iff : less word .int rhs (bitWidthInt word type) = true ↔
    toInt word .int rhs < type.bitWidth word := by
  rw [less_iff, toInt_bitWidthInt]

theorem not_less_neg_bitWidthInt_iff :
    (!less word .int (-bitWidthInt word type) rhs) = true ↔
      toInt word .int rhs ≤ -type.bitWidth word := by
  rw [Bool.not_eq_true', ← Bool.not_eq_true, less_iff, toInt_neg_bitWidthInt, not_lt]

theorem toInt_nonMaskingRightShiftWith (shifts : ShiftsInside left right) :
    toInt word type (nonMaskingRightShiftWith left right lhs rhs) =
      shiftedRight word type (toInt word type lhs) (toInt word .int rhs) := by
  have most := type.bitWidth_le word
  rw [nonMaskingRightShiftWith, shiftedRight]
  by_cases forward : 0 ≤ toInt word .int rhs
  · rw [if_pos (not_less_zero_iff.mpr forward), if_pos forward]
    by_cases inside : toInt word .int rhs < type.bitWidth word
    · have amount : rhs = BitVec.ofNat _ (toInt word .int rhs).toNat :=
        eq_ofNat_of_toInt (by omega) (by omega)
      rw [if_pos (less_bitWidthInt_iff.mpr inside)]
      conv_lhs => rw [amount]
      rw [truncatingIfNeeded_int_ofNat (by omega), shifts.toInt_right (by omega)]
    · rw [if_neg (less_bitWidthInt_iff.not.mpr inside)]
      exact shifts.toInt_overshift (by omega)
  · rw [if_neg (not_less_zero_iff.not.mpr forward), if_neg forward]
    by_cases beyond : toInt word .int rhs ≤ -type.bitWidth word
    · rw [if_pos (not_less_neg_bitWidthInt_iff.mpr beyond), toInt_zero,
        wrap_mul_two_pow _ (by omega)]
    · have amount : -rhs = BitVec.ofNat _ (-toInt word .int rhs).toNat :=
        neg_eq_ofNat_of_toInt (by omega) (by omega)
      rw [if_neg (not_less_neg_bitWidthInt_iff.not.mpr beyond), amount,
        truncatingIfNeeded_int_ofNat (by omega), shifts.toInt_left (by omega)]

theorem toInt_nonMaskingLeftShiftWith (shifts : ShiftsInside left right) :
    toInt word type (nonMaskingLeftShiftWith left right lhs rhs) =
      shiftedRight word type (toInt word type lhs) (-toInt word .int rhs) := by
  have most := type.bitWidth_le word
  have positive := type.bitWidth_pos word
  rw [nonMaskingLeftShiftWith, shiftedRight, neg_neg]
  by_cases forward : 0 ≤ toInt word .int rhs
  · -- A shift by zero is a shift to either side.
    have turned : (if 0 ≤ -toInt word .int rhs then
          toInt word type lhs / 2 ^ (-toInt word .int rhs).toNat
        else wrap type.isSigned (type.bitWidth word)
          (toInt word type lhs * 2 ^ (toInt word .int rhs).toNat)) =
        wrap type.isSigned (type.bitWidth word)
          (toInt word type lhs * 2 ^ (toInt word .int rhs).toNat) := by
      split_ifs with zero
      · have none : toInt word .int rhs = 0 := by omega
        rw [none, neg_zero, Int.toNat_zero, pow_zero, Int.ediv_one, mul_one,
          wrap_of_bounds positive (minimum_le_toInt lhs) (toInt_le_maximum lhs)]
      · rfl
    rw [turned, if_pos (not_less_zero_iff.mpr forward)]
    by_cases inside : toInt word .int rhs < type.bitWidth word
    · have amount : rhs = BitVec.ofNat _ (toInt word .int rhs).toNat :=
        eq_ofNat_of_toInt (by omega) (by omega)
      rw [if_pos (less_bitWidthInt_iff.mpr inside)]
      conv_lhs => rw [amount]
      rw [truncatingIfNeeded_int_ofNat (by omega), shifts.toInt_left (by omega)]
    · rw [if_neg (less_bitWidthInt_iff.not.mpr inside), toInt_zero,
        wrap_mul_two_pow _ (by omega)]
  · rw [if_neg (not_less_zero_iff.not.mpr forward),
      if_pos (show 0 ≤ -toInt word .int rhs by omega)]
    by_cases beyond : toInt word .int rhs ≤ -type.bitWidth word
    · rw [if_pos (not_less_neg_bitWidthInt_iff.mpr beyond)]
      exact shifts.toInt_overshift (by omega)
    · have amount : -rhs = BitVec.ofNat _ (-toInt word .int rhs).toNat :=
        neg_eq_ofNat_of_toInt (by omega) (by omega)
      rw [if_neg (not_less_neg_bitWidthInt_iff.not.mpr beyond), amount,
        truncatingIfNeeded_int_ofNat (by omega), shifts.toInt_right (by omega)]

/-- The amount is clamped to the width on both sides. -/
theorem toInt_clampedAmount {other : IntegerType} {n : Value word other}
    (regular : Faithful word other .int n) :
    toInt word .int (clampedAmount word type n) =
      max (-(type.bitWidth word : ℤ)) (min (type.bitWidth word : ℤ) (toInt word other n)) := by
  have most := type.bitWidth_le word
  have room : (64 : ℤ) < 2 ^ (IntegerType.int.bitWidth word - 1) := by cases word <;> decide
  have below := lessThan_iff regular (@faithful_int word other (-bitWidthInt word type))
  have above := lessThan_iff (@faithful_int word other (bitWidthInt word type)) regular
  rw [toInt_neg_bitWidthInt] at below
  rw [toInt_bitWidthInt] at above
  rw [clampedAmount, greaterThan]
  by_cases least : toInt word other n < -type.bitWidth word
  · rw [if_pos (below.mpr least), toInt_neg_bitWidthInt]
    omega
  · rw [if_neg (below.not.mpr least)]
    by_cases greatest : (type.bitWidth word : ℤ) < toInt word other n
    · rw [if_pos (above.mpr greatest), toInt_bitWidthInt]
      omega
    · rw [if_neg (above.not.mpr greatest), regular.toInt_eq]
      · omega
      · simp only [minimum, if_true]
        omega
      · simp only [maximum, if_true]
        omega

/-- Beyond the width, every amount shifts a value of the type alike. -/
theorem shiftedRight_clamped (lhs : Value word type) (n : ℤ) :
    shiftedRight word type (toInt word type lhs)
        (max (-(type.bitWidth word : ℤ)) (min (type.bitWidth word : ℤ) n)) =
      shiftedRight word type (toInt word type lhs) n := by
  have low := value_lower type.isSigned lhs
  have high := value_upper type.isSigned lhs
  have positive := type.bitWidth_pos word
  rw [shiftedRight, shiftedRight]
  by_cases least : n < -type.bitWidth word
  · rw [if_neg (by omega), if_neg (by omega), wrap_mul_two_pow _ (by omega),
      wrap_mul_two_pow _ (by omega)]
  · by_cases greatest : (type.bitWidth word : ℤ) < n
    · rw [if_pos (by omega), if_pos (by omega), toInt,
        ediv_two_pow_of_bounds (by omega) low high, ediv_two_pow_of_bounds (by omega) low high]
    · rw [min_eq_right (by omega), max_eq_right (by omega)]

/--
On the 16-bit configuration `>>` gives the integer shifted to the right, `<<` the one shifted
by the negated amount, and neither depends on what a masking shift does for an amount outside
of the width.
-/
theorem smartShifts_word16 (type other : IntegerType) (x : Value .word16 type)
    (n : Value .word16 other) :
    toInt .word16 type (smartShiftRight .word16 type x n) =
      shiftedRight .word16 type (toInt .word16 type x) (toInt .word16 other n) ∧
    toInt .word16 type (smartShiftLeft .word16 type x n) =
      shiftedRight .word16 type (toInt .word16 type x) (-toInt .word16 other n) ∧
    ∀ left right : MaskingShift .word16 type, ShiftsInside left right →
      smartShiftRight .word16 type x n =
          nonMaskingRightShiftWith left right x (clampedAmount .word16 type n) ∧
        smartShiftLeft .word16 type x n =
          nonMaskingLeftShiftWith left right x (clampedAmount .word16 type n) := by
  have clamped := @toInt_clampedAmount .word16 type other n (faithful_word16 n)
  have rightWith {left right : MaskingShift .word16 type} (shifts : ShiftsInside left right) :
      toInt .word16 type
          (nonMaskingRightShiftWith left right x (clampedAmount .word16 type n)) =
        shiftedRight .word16 type (toInt .word16 type x) (toInt .word16 other n) := by
    rw [toInt_nonMaskingRightShiftWith shifts, clamped, shiftedRight_clamped]
  have leftWith {left right : MaskingShift .word16 type} (shifts : ShiftsInside left right) :
      toInt .word16 type
          (nonMaskingLeftShiftWith left right x (clampedAmount .word16 type n)) =
        shiftedRight .word16 type (toInt .word16 type x) (-toInt .word16 other n) := by
    have turned : -max (-(type.bitWidth .word16 : ℤ))
          (min (type.bitWidth .word16 : ℤ) (toInt .word16 other n)) =
        max (-(type.bitWidth .word16 : ℤ))
          (min (type.bitWidth .word16 : ℤ) (-toInt .word16 other n)) := by omega
    rw [toInt_nonMaskingLeftShiftWith shifts, clamped, turned, shiftedRight_clamped]
  have masking := shiftsInside_masking .word16 type
  rw [smartShiftRight, smartShiftLeft, nonMaskingRightShift_eq_with, nonMaskingLeftShift_eq_with]
  refine ⟨rightWith masking, leftWith masking, fun left right shifts => ⟨?_, ?_⟩⟩
  · exact toInt_injective ((rightWith masking).trans (rightWith shifts).symm)
  · exact toInt_injective ((leftWith masking).trans (leftWith shifts).symm)

end Independence

end USwift
