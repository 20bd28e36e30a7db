import USwift.Integer.Division
import USwift.Integer.Exactly
import USwift.Integer.Strideable
import USwift.Library.DoubleWidth

/-!
# Full-width multiplication and division

Every type multiplies and divides in a builtin integer of twice its width. The signed
types extend the sign of what they widen and the others do not, but all of them shift the
product with its sign and widen the lower half of a dividend without one.
-/

namespace USwift

open TwosComplement DoubleWidth

/-- The width of the builtin integers that a type computes in. -/
abbrev doubleWidth : WordSize → IntegerType → ℕ
  | _, .int8 | _, .uint8 => 16
  | _, .int16 | _, .uint16 => 32
  | _, .int32 | _, .uint32 => 64
  | _, .int64 | _, .uint64 => 128
  | .word16, .int | .word16, .uint => 32
  | .word32, .int | .word32, .uint => 64

/-- The constant by which the halves are shifted, a `UInt8`. -/
def fullWidthShift : WordSize → IntegerType → BitVec 8
  | _, .int8 | _, .uint8 => 8
  | _, .int16 | _, .uint16 => 16
  | _, .int32 | _, .uint32 => 32
  | _, .int64 | _, .uint64 => 64
  | .word16, .int | .word16, .uint => 16
  | .word32, .int | .word32, .uint => 32

/--
`Builtin.sdiv` and `Builtin.srem`, or `Builtin.udiv` and `Builtin.urem`, with no results
where LLVM defines none.
-/
def divisionBuiltins {width : ℕ} (signed : Bool) (lhs rhs : BitVec width) :
    Option (BitVec width × BitVec width) :=
  if rhs = 0 ∨ (signed = true ∧ lhs = BitVec.intMin width ∧ rhs = -1) then none
  else some (TwosComplement.quotient signed lhs rhs, TwosComplement.remainder signed lhs rhs)

section Operations

variable (word : WordSize) (type : IntegerType)

/-- `multipliedFullWidth(by:)`, which returns the upper half first. -/
def multipliedFullWidth (self other : Value word type) :
    Value word type × Value word type.magnitude :=
  let lhs_ := extend type.isSigned (doubleWidth word type) self
  let rhs_ := extend type.isSigned (doubleWidth word type) other
  let res := lhs_ * rhs_
  let low := res.truncate (type.magnitude.bitWidth word)
  let shift := (fullWidthShift word type).zeroExtend (doubleWidth word type)
  let shifted := res.sshiftRight' shift
  let high := shifted.truncate (type.bitWidth word)
  (high, low)

/-- `dividingFullWidth(_:)`, whose check of the divisor has no effect. -/
def dividingFullWidth (self : Value word type)
    (dividend : Value word type × Value word type.magnitude) :
    Option (Value word type × Value word type) :=
  let lhsHigh := extend type.isSigned (doubleWidth word type) dividend.1
  let shift := (fullWidthShift word type).zeroExtend (doubleWidth word type)
  let lhsHighShifted := lhsHigh <<< shift
  let lhsLow := dividend.2.zeroExtend (doubleWidth word type)
  let lhs_ := lhsHighShifted ||| lhsLow
  let rhs_ := extend type.isSigned (doubleWidth word type) self
  (divisionBuiltins type.isSigned lhs_ rhs_).map fun results =>
    (results.1.truncate (type.bitWidth word), results.2.truncate (type.bitWidth word))

end Operations

variable {word : WordSize} {type : IntegerType}

theorem doubleWidth_eq (word : WordSize) (type : IntegerType) :
    doubleWidth word type = 2 * type.bitWidth word := by
  cases word <;> cases type <;> rfl

theorem toNat_fullWidthShift (word : WordSize) (type : IntegerType) :
    ((fullWidthShift word type).zeroExtend (doubleWidth word type)).toNat =
      type.bitWidth word := by
  cases word <;> cases type <;> decide

theorem toInt_magnitudeType (x : Value word type.magnitude) :
    toInt word type.magnitude x = BitVec.toNat x := by
  have unsigned : type.magnitude.isSigned = false := by cases type <;> rfl
  rw [toInt, unsigned]
  rfl

/-- The halves of a product put together are the product. -/
theorem multipliedFullWidth_exact (a b : Value word type) :
    toInt word type (multipliedFullWidth word type a b).1 * 2 ^ type.bitWidth word +
        toInt word type.magnitude (multipliedFullWidth word type a b).2 =
      toInt word type a * toInt word type b := by
  have double := doubleWidth_eq word type
  have positive := type.bitWidth_pos word
  have product := value_mul_extend type.isSigned double positive a b
  have high : toInt word type (multipliedFullWidth word type a b).1 =
      toInt word type a * toInt word type b / 2 ^ type.bitWidth word := by
    rw [multipliedFullWidth, BitVec.sshiftRight', toNat_fullWidthShift]
    exact value_upper_half double positive product
  have low : toInt word type.magnitude (multipliedFullWidth word type a b).2 =
      toInt word type a * toInt word type b % 2 ^ type.bitWidth word := by
    rw [toInt_magnitudeType]
    exact toNat_lower double (type.bitWidth_magnitude word) product
  rw [high, low, Int.mul_comm, Int.mul_ediv_add_emod]

/-- A dividend in two halves is divided where the quotient fits. -/
theorem dividingFullWidth_exact (d high : Value word type) (low : Value word type.magnitude)
    {dividend : ℤ} (halves : dividend = toInt word type high * 2 ^ type.bitWidth word +
      toInt word type.magnitude low) (nonzero : d ≠ 0)
    (fits : InRange word type (dividend.tdiv (toInt word type d))) :
    ∃ quotient remainder,
      dividingFullWidth word type d (high, low) = some (quotient, remainder) ∧
      toInt word type quotient = dividend.tdiv (toInt word type d) ∧
      toInt word type remainder = dividend.tmod (toInt word type d) := by
  have double := doubleWidth_eq word type
  have positive := type.bitWidth_pos word
  have narrow : type.bitWidth word < doubleWidth word type := by omega
  have lhs_eq : value type.isSigned (joined type.isSigned (doubleWidth word type) high low) =
      dividend := by
    rw [value_joined type.isSigned double positive high low (type.bitWidth_magnitude word), halves,
      toInt_magnitudeType]
    rfl
  have rhs_eq : value type.isSigned (extend type.isSigned (doubleWidth word type) d) =
      toInt word type d :=
    value_extend_of_bounds d (by omega)
      ((minimum_anti _ narrow.le).trans (minimum_le_toInt d))
      ((toInt_le_maximum d).trans (maximum_mono _ narrow.le))
  have divisor : extend type.isSigned (doubleWidth word type) d ≠ 0 :=
    ne_zero_of_value rhs_eq (toInt_ne_zero nonzero)
  have inRange := not_overflow_of_fits narrow lhs_eq rhs_eq fits.2
  have computed : divisionBuiltins type.isSigned
      (joined type.isSigned (doubleWidth word type) high low)
      (extend type.isSigned (doubleWidth word type) d) = some (_, _) :=
    if_neg (not_or.mpr ⟨divisor, inRange⟩)
  refine ⟨_, _, ?_, value_quotient_setWidth narrow positive lhs_eq rhs_eq fits.1 fits.2,
    value_remainder_setWidth narrow positive lhs_eq rhs_eq (toInt_ne_zero nonzero)
      (minimum_le_toInt d) (toInt_le_maximum d)⟩
  rw [dividingFullWidth, BitVec.shiftLeft_eq', toNat_fullWidthShift]
  exact congrArg (Option.map _) computed

/-- Products of full width are exact, and divided by a factor they give the other one. -/
theorem fullWidth_exact (word : WordSize) (type : IntegerType) :
    (∀ a b : Value word type,
      toInt word type (multipliedFullWidth word type a b).1 * 2 ^ type.bitWidth word +
          toInt word type.magnitude (multipliedFullWidth word type a b).2 =
        toInt word type a * toInt word type b) ∧
    (∀ (d high : Value word type) (low : Value word type.magnitude) (dividend : ℤ),
      dividend = toInt word type high * 2 ^ type.bitWidth word +
        toInt word type.magnitude low →
      d ≠ 0 → InRange word type (dividend.tdiv (toInt word type d)) →
      ∃ quotient remainder,
        dividingFullWidth word type d (high, low) = some (quotient, remainder) ∧
        toInt word type quotient = dividend.tdiv (toInt word type d) ∧
        toInt word type remainder = dividend.tmod (toInt word type d)) ∧
    ∀ a b : Value word type, b ≠ 0 →
      dividingFullWidth word type b (multipliedFullWidth word type a b) = some (a, 0) := by
  refine ⟨multipliedFullWidth_exact, fun d high low dividend => dividingFullWidth_exact d high low,
    fun a b nonzero => ?_⟩
  have divisor := toInt_ne_zero nonzero
  have factor : (toInt word type a * toInt word type b).tdiv (toInt word type b) =
      toInt word type a := Int.mul_tdiv_cancel _ divisor
  have none : (toInt word type a * toInt word type b).tmod (toInt word type b) = 0 :=
    Int.mul_tmod_left _ _
  rcases dividingFullWidth_exact b (multipliedFullWidth word type a b).1
      (multipliedFullWidth word type a b).2 (multipliedFullWidth_exact a b).symm nonzero
      (by rw [factor]; exact inRange_toInt a) with ⟨quotient, remainder, divided, first, second⟩
  rw [factor] at first
  rw [none, ← toInt_zero word type] at second
  rw [toInt_injective first, toInt_injective second] at divided
  exact divided

theorem uint8_product_divided :
    dividingFullWidth .word16 .uint8 7 (multipliedFullWidth .word16 .uint8 200 7) = some (200, 0) :=
  (fullWidth_exact .word16 .uint8).2.2 200 7 (by decide)

end USwift
