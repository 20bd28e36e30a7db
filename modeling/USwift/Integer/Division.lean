import USwift.Integer.Types

/-!
# Division and remainder

The operators `/=` and `%=` of every integer type and their siblings that report
overflow. LLVM gives no meaning to a division by zero or to the minimum divided
by minus one, so each function guards its builtin by hand. The precondition
functions of the default build return, which leaves a guard without a `return`
of its own without effect.
-/

namespace USwift

variable (word : WordSize) (type : IntegerType)

/-- Operands on which the LLVM division builtins have no defined result. -/
def DivisionUndefined (lhs rhs : Value word type) : Prop :=
  rhs = 0 ∨ (type.isSigned = true ∧ lhs = BitVec.intMin _ ∧ rhs = -1)

instance (lhs rhs : Value word type) : Decidable (DivisionUndefined word type lhs rhs) :=
  inferInstanceAs (Decidable (rhs = 0 ∨ _))

/-- `Builtin.sdiv` or `Builtin.udiv`, with no result where LLVM defines none. -/
def divideBuiltin (lhs rhs : Value word type) : Option (Value word type) :=
  if DivisionUndefined word type lhs rhs then none
  else some (if type.isSigned then lhs.sdiv rhs else lhs / rhs)

/-- `Builtin.srem` or `Builtin.urem`, with no result where LLVM defines none. -/
def remainderBuiltin (lhs rhs : Value word type) : Option (Value word type) :=
  if DivisionUndefined word type lhs rhs then none
  else some (if type.isSigned then lhs.srem rhs else lhs % rhs)

/-- The second guard of the signed types. The unsigned ones have no such guard. -/
def overflowGuard (lhs rhs : Value word type) : Bool :=
  type.isSigned && (lhs == minValue word type && rhs == -1)

/-- `/=`, whose guards leave `lhs` as it is. -/
def divideAssign (lhs rhs : Value word type) : Option (Value word type) :=
  if rhs == 0 then some lhs
  else if overflowGuard word type lhs rhs then some lhs
  else divideBuiltin word type lhs rhs

/-- `%=`, whose guards leave `lhs` as it is. -/
def remainderAssign (lhs rhs : Value word type) : Option (Value word type) :=
  match type with
  -- Both guards of `Int64` only call `_preconditionFailure`, which returns.
  | .int64 => remainderBuiltin word .int64 lhs rhs
  | type =>
      if rhs == 0 then some lhs
      else if overflowGuard word type lhs rhs then some lhs
      else remainderBuiltin word type lhs rhs

/-- `dividedReportingOverflow(by:)`. -/
def dividedReportingOverflow (lhs rhs : Value word type) : Option (Value word type × Bool) :=
  if rhs == 0 then some (lhs, true)
  else if overflowGuard word type lhs rhs then some (lhs, true)
  else (divideBuiltin word type lhs rhs).map (·, false)

/-- `remainderReportingOverflow(dividingBy:)`. -/
def remainderReportingOverflow (lhs rhs : Value word type) :
    Option (Value word type × Bool) :=
  if rhs == 0 then some (lhs, true)
  else if overflowGuard word type lhs rhs then some (0, true)
  else (remainderBuiltin word type lhs rhs).map (·, false)

variable {word : WordSize} {type : IntegerType}

theorem minValue_signed (signed : type.isSigned = true) :
    minValue word type = BitVec.intMin _ := by
  revert signed
  cases word <;> cases type <;> decide

theorem overflowGuard_iff {lhs rhs : Value word type} :
    overflowGuard word type lhs rhs = true ↔
      type.isSigned = true ∧ lhs = BitVec.intMin _ ∧ rhs = -1 := by
  rw [overflowGuard, Bool.and_eq_true, Bool.and_eq_true, beq_iff_eq, beq_iff_eq]
  constructor
  · rintro ⟨signed, minimum, minusOne⟩
    exact ⟨signed, minimum.trans (minValue_signed signed), minusOne⟩
  · rintro ⟨signed, minimum, minusOne⟩
    exact ⟨signed, minimum.trans (minValue_signed signed).symm, minusOne⟩

theorem remainderAssign_of_ne_int64 (other : type ≠ .int64) (lhs rhs : Value word type) :
    remainderAssign word type lhs rhs =
      if rhs == 0 then some lhs
      else if overflowGuard word type lhs rhs then some lhs
      else remainderBuiltin word type lhs rhs := by
  cases type with
  | int64 => exact absurd rfl other
  | _ => rfl

theorem divisionUndefined_iff {lhs rhs : Value word type} :
    DivisionUndefined word type lhs rhs ↔
      rhs = 0 ∨ overflowGuard word type lhs rhs = true := by
  rw [DivisionUndefined, overflowGuard_iff]

theorem defined_of_positive {lhs rhs : Value word type} (positive : 0 < toInt word type rhs) :
    ¬ DivisionUndefined word type lhs rhs := by
  rintro (rfl | ⟨signed, -, rfl⟩)
  · rw [toInt_zero] at positive
    exact positive.false
  · revert positive signed
    cases word <;> cases type <;> decide

/-- On operands that the builtin is defined for, no guard of `/=` fires. -/
theorem divideAssign_eq_builtin {lhs rhs : Value word type}
    (defined : ¬ DivisionUndefined word type lhs rhs) :
    divideAssign word type lhs rhs = divideBuiltin word type lhs rhs := by
  rw [divisionUndefined_iff, not_or] at defined
  have nonzero : ¬ (rhs == 0) = true := by
    rw [beq_iff_eq]
    exact defined.1
  rw [divideAssign, if_neg nonzero, if_neg defined.2]

theorem remainderAssign_eq_builtin {lhs rhs : Value word type}
    (defined : ¬ DivisionUndefined word type lhs rhs) :
    remainderAssign word type lhs rhs = remainderBuiltin word type lhs rhs := by
  by_cases int64 : type = .int64
  · subst int64
    rfl
  · rw [divisionUndefined_iff, not_or] at defined
    have nonzero : ¬ (rhs == 0) = true := by
      rw [beq_iff_eq]
      exact defined.1
    rw [remainderAssign_of_ne_int64 int64, if_neg nonzero, if_neg defined.2]

theorem divideBuiltin_eq {lhs rhs : Value word type}
    (defined : ¬ DivisionUndefined word type lhs rhs) :
    ∃ quotient, divideBuiltin word type lhs rhs = some quotient ∧
      toInt word type quotient = (toInt word type lhs).tdiv (toInt word type rhs) :=
  ⟨_, if_neg defined, TwosComplement.value_quotient fun overflow => defined (Or.inr overflow)⟩

/-- Where the remainder builtin is defined it takes the sign of the dividend. -/
theorem remainderBuiltin_eq {lhs rhs : Value word type}
    (defined : ¬ DivisionUndefined word type lhs rhs) :
    ∃ remainder, remainderBuiltin word type lhs rhs = some remainder ∧
      toInt word type remainder = (toInt word type lhs).tmod (toInt word type rhs) :=
  ⟨_, if_neg defined, TwosComplement.value_remainder type.isSigned lhs rhs⟩

/-- The builtin is never reached on undefined operands, and the results are those of division. -/
structure DividesCorrectly (lhs rhs : Value word type) : Prop where
  defined : (divideAssign word type lhs rhs).isSome ∧ (remainderAssign word type lhs rhs).isSome
  division : rhs ≠ 0 → ∃ quotient remainder,
    divideAssign word type lhs rhs = some quotient ∧
    remainderAssign word type lhs rhs = some remainder ∧
    lhs = quotient * rhs + remainder ∧
    (toInt word type remainder).natAbs < (toInt word type rhs).natAbs ∧
    (toInt word type remainder = 0 ∨
      (toInt word type remainder).sign = (toInt word type lhs).sign) ∧
    (dividedReportingOverflow word type lhs rhs).map Prod.fst = some quotient ∧
    (remainderReportingOverflow word type lhs rhs).map Prod.fst = some remainder

theorem toInt_ne_zero {x : Value word type} (nonzero : x ≠ 0) : toInt word type x ≠ 0 := by
  intro isZero
  apply nonzero
  apply @TwosComplement.eq_of_value_modEq _ type.isSigned
  have zero := toInt_zero word type
  rw [toInt] at isZero zero
  rw [isZero, zero]

theorem ofInt_toInt (x : Value word type) :
    BitVec.ofInt (type.bitWidth word) (toInt word type x) = x := by
  rw [toInt, ← TwosComplement.extend_eq_ofInt, TwosComplement.extend_self]

theorem neg_one_ne_zero (type : IntegerType) : (-1 : Value word type) ≠ 0 := by
  cases word <;> cases type <;> decide

theorem not_minimum_smaller (signed : type.isSigned = true) :
    ¬ (toInt word type (BitVec.intMin _)).natAbs < (toInt word type (-1)).natAbs := by
  revert signed
  cases word <;> cases type <;> decide

theorem quotient_mul_add_remainder {lhs rhs quotient remainder : Value word type}
    (quotientValue : toInt word type quotient =
      (toInt word type lhs).tdiv (toInt word type rhs))
    (remainderValue : toInt word type remainder =
      (toInt word type lhs).tmod (toInt word type rhs)) :
    lhs = quotient * rhs + remainder := by
  calc lhs = BitVec.ofInt _ (toInt word type lhs) := (ofInt_toInt lhs).symm
    _ = BitVec.ofInt _ (toInt word type quotient * toInt word type rhs +
          toInt word type remainder) := by
        rw [quotientValue, remainderValue, Int.tdiv_mul_add_tmod]
    _ = quotient * rhs + remainder := by
        rw [BitVec.ofInt_add, BitVec.ofInt_mul, ofInt_toInt, ofInt_toInt, ofInt_toInt]

theorem sign_tmod (a b : ℤ) : a.tmod b = 0 ∨ (a.tmod b).sign = a.sign := by
  rcases Int.le_total 0 a with nonneg | nonpos
  · have low := Int.tmod_nonneg b nonneg
    rcases low.eq_or_lt with zero | positive
    · exact Or.inl zero.symm
    · have dividend : 0 < a := by
        by_contra small
        have : a = 0 := by omega
        simp [this] at positive
      exact Or.inr (by rw [Int.sign_eq_one_of_pos positive, Int.sign_eq_one_of_pos dividend])
  · have high : a.tmod b ≤ 0 := by
      have := Int.tmod_nonneg b (Int.neg_nonneg_of_nonpos nonpos)
      rw [Int.neg_tmod] at this
      omega
    rcases high.eq_or_lt with zero | negative
    · exact Or.inl zero
    · have dividend : a < 0 := by
        by_contra large
        have : a = 0 := by omega
        simp [this] at negative
      exact Or.inr (by
        rw [Int.sign_eq_neg_one_of_neg negative, Int.sign_eq_neg_one_of_neg dividend])

theorem dividesCorrectly_of_defined {lhs rhs : Value word type}
    (defined : ¬ DivisionUndefined word type lhs rhs) : DividesCorrectly lhs rhs := by
  have guards := defined
  rw [divisionUndefined_iff, not_or] at guards
  rcases guards with ⟨nonzero, inRange⟩
  rcases divideBuiltin_eq defined with ⟨quotient, divide, quotientValue⟩
  rcases remainderBuiltin_eq defined with ⟨remainder, takeRemainder, remainderValue⟩
  have zeroTest : ¬ (rhs == 0) = true := by rwa [beq_iff_eq]
  have divided : divideAssign word type lhs rhs = some quotient :=
    (divideAssign_eq_builtin defined).trans divide
  have reduced : remainderAssign word type lhs rhs = some remainder :=
    (remainderAssign_eq_builtin defined).trans takeRemainder
  refine ⟨⟨by simp [divided], by simp [reduced]⟩, fun _ => ?_⟩
  refine ⟨quotient, remainder, divided, reduced, ?_, ?_, ?_, ?_, ?_⟩
  · exact quotient_mul_add_remainder quotientValue remainderValue
  · rw [remainderValue, Int.natAbs_tmod]
    exact Nat.mod_lt _ (Int.natAbs_pos.mpr (toInt_ne_zero nonzero))
  · rw [remainderValue]
    exact sign_tmod _ _
  · rw [dividedReportingOverflow, if_neg zeroTest, if_neg inRange, divide]
    rfl
  · rw [remainderReportingOverflow, if_neg zeroTest, if_neg inRange, takeRemainder]
    rfl

/--
Division behaves as the guards intend exactly when the operands are not the
minimum and minus one, and the divisor of an `Int64` is not zero.
-/
theorem dividesCorrectly_iff (word : WordSize) (type : IntegerType)
    (lhs rhs : Value word type) :
    DividesCorrectly lhs rhs ↔
      ¬ (type.isSigned = true ∧ lhs = BitVec.intMin _ ∧ rhs = -1) ∧
      ¬ (type = .int64 ∧ rhs = 0) := by
  constructor
  · intro correct
    constructor
    · rintro ⟨signed, rfl, rfl⟩
      have guarded : overflowGuard word type (BitVec.intMin _) (-1) = true :=
        overflowGuard_iff.mpr ⟨signed, rfl, rfl⟩
      by_cases int64 : type = .int64
      · subst int64
        have defined := correct.defined.2
        simp [remainderAssign, remainderBuiltin, DivisionUndefined] at defined
      · rcases correct.division (neg_one_ne_zero type) with
          ⟨_, remainder, _, reduced, _, smaller, _⟩
        rw [remainderAssign_of_ne_int64 int64, if_neg (by simpa using neg_one_ne_zero type),
          if_pos guarded, Option.some_inj] at reduced
        subst reduced
        exact not_minimum_smaller signed smaller
    · rintro ⟨rfl, rfl⟩
      have defined := correct.defined.2
      simp [remainderAssign, remainderBuiltin, DivisionUndefined] at defined
  · rintro ⟨inRange, int64⟩
    by_cases defined : DivisionUndefined word type lhs rhs
    · rcases defined with rfl | overflow
      · have zeroTest : ((0 : Value word type) == 0) = true := beq_self_eq_true _
        refine ⟨⟨?_, ?_⟩, fun nonzero => absurd rfl nonzero⟩
        · rw [divideAssign, if_pos zeroTest]
          rfl
        · rw [remainderAssign_of_ne_int64 (fun isInt64 => int64 ⟨isInt64, rfl⟩), if_pos zeroTest]
          rfl
      · exact absurd overflow inRange
    · exact dividesCorrectly_of_defined defined

/-- The remainder of an `Int64` by zero reaches the builtin. -/
theorem not_dividesCorrectly_int64_zero :
    ¬ ∀ (word : WordSize) (type : IntegerType) (lhs rhs : Value word type),
      DividesCorrectly lhs rhs := by
  intro correct
  have defined := (correct .word16 .int64 1 0).defined.2
  revert defined
  decide

end USwift
