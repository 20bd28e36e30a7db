import USwift.Integer.Shift

/-!
# Advancing integers

`BinaryInteger.advanced(by:)` moves a value of any integer type by an `Int`. It
chooses between a subtraction, an addition, and a sum formed in `Int`, and all
three wrap around.
-/

namespace USwift

open Heterogeneous TwosComplement

namespace IntegerType

/-- `Magnitude`. -/
abbrev magnitude : IntegerType → IntegerType
  | int8 | uint8 => uint8
  | int16 | uint16 => uint16
  | int32 | uint32 => uint32
  | int64 | uint64 => uint64
  | int | uint => uint

theorem bitWidth_magnitude (type : IntegerType) (word : WordSize) :
    type.bitWidth word = type.magnitude.bitWidth word := by
  cases type <;> rfl

end IntegerType

section Operations

variable (word : WordSize) (type : IntegerType)

/-- `magnitude`. -/
def magnitude (x : Value word type) : Value word type.magnitude :=
  (if type.isSigned && less word type x 0 then ~~~x + 1 else x).cast
    (type.bitWidth_magnitude word)

/-- `advanced(by:)`. -/
def advanced (x : Value word type) (n : Value word .int) : Value word type :=
  if !type.isSigned then
    if less word .int n 0 then x - truncatingIfNeeded word type .int (-n)
    else x + truncatingIfNeeded word type .int n
  else if less word type x 0 == less word .int n 0 then x + truncatingIfNeeded word type .int n
  else if lessThan word (magnitude word type x) (magnitude word .int n) then
    truncatingIfNeeded word type .int (truncatingIfNeeded word .int type x + n)
  else x + truncatingIfNeeded word type .int n

/-- An unsigned type wider than `Int` is to move by `Int.min`, whose negation wraps around. -/
def MovesBackwards (n : Value word .int) : Prop :=
  type.isSigned = false ∧ word.bits < type.bitWidth word ∧ n = BitVec.intMin _

instance (n : Value word .int) : Decidable (MovesBackwards word type n) :=
  inferInstanceAs (Decidable (_ ∧ _ ∧ _))

/-- The distance by which `advanced(by:)` moves a value. -/
def moved (n : Value word .int) : ℤ :=
  if MovesBackwards word type n then -toInt word .int n else toInt word .int n

end Operations

variable {word : WordSize} {type : IntegerType}

theorem toInt_magnitude (signed : type.isSigned = true) (x : Value word type) :
    toInt word type.magnitude (magnitude word type x) = |toInt word type x| := by
  have unsigned : type.magnitude.isSigned = false := by cases type <;> rfl
  have negative : (type.isSigned && less word type x 0) = x.msb := by
    rw [less_zero, signed, Bool.true_and, Bool.true_and]
  have inside := x.isLt
  have negated : ~~~x + 1 = -x := (BitVec.neg_eq_not_add x).symm
  rw [magnitude, negative, negated, ← BitVec.abs_eq, toInt, toInt, unsigned, signed]
  simp only [value, Bool.false_eq_true, if_false, if_true, BitVec.toNat_cast]
  rw [BitVec.toNat_abs, BitVec.toInt_eq_msb_cond]
  cases x.msb with
  | true =>
      rw [if_pos rfl, if_pos rfl, abs_of_neg (by omega)]
      omega
  | false =>
      rw [if_neg Bool.false_ne_true, if_neg Bool.false_ne_true, abs_of_nonneg (by omega)]

theorem toInt_add_converted_modEq (x : Value word type) (n : Value word .int) :
    toInt word type (x + truncatingIfNeeded word type .int n) ≡
      toInt word type x + toInt word .int n [ZMOD 2 ^ type.bitWidth word] :=
  (value_add_modEq type.isSigned x _).trans ((faithful_int n).modEq.add_left _)

theorem toInt_sub_converted_modEq (x : Value word type) (n : Value word .int) :
    toInt word type (x - truncatingIfNeeded word type .int n) ≡
      toInt word type x - toInt word .int n [ZMOD 2 ^ type.bitWidth word] :=
  (value_sub_modEq type.isSigned x _).trans ((faithful_int n).modEq.sub_left _)

/-- In a type no wider than `Int`, what wraps around in `Int` makes no difference. -/
theorem modEq_of_narrow (narrow : type.bitWidth word ≤ word.bits) {a b : ℤ}
    (congruent : a ≡ b [ZMOD 2 ^ word.bits]) : a ≡ b [ZMOD 2 ^ type.bitWidth word] :=
  congruent.of_dvd (pow_dvd_pow 2 narrow)

theorem neg_toInt_neg_modEq (unsigned : type.isSigned = false) (n : Value word .int) :
    -toInt word .int (-n) ≡ moved word type n [ZMOD 2 ^ type.bitWidth word] := by
  by_cases wide : word.bits < type.bitWidth word
  · rw [moved]
    split
    · next backwards =>
      rw [backwards.2.2, BitVec.neg_intMin]
    · next forwards =>
      have negated : BitVec.toInt (-n) = -BitVec.toInt n :=
        BitVec.toInt_neg_of_ne_intMin fun least => forwards ⟨unsigned, wide, least⟩
      have exact : -toInt word .int (-n) = toInt word .int n := by
        simp [toInt, value, negated]
      rw [exact]
  · rw [moved, if_neg fun backwards => wide backwards.2.1]
    apply modEq_of_narrow (by omega)
    have negated := (value_neg_modEq true n).neg
    rwa [neg_neg] at negated

/-- A value that is smaller than an `Int` of the other sign is added to it in `Int`. -/
theorem toInt_added_in_int_modEq (signed : type.isSigned = true) {x : Value word type}
    {n : Value word .int} (signs : ¬ (toInt word type x < 0 ↔ toInt word .int n < 0))
    (smaller : lessThan word (magnitude word type x) (magnitude word .int n) = true) :
    toInt word type
        (truncatingIfNeeded word type .int (truncatingIfNeeded word .int type x + n)) ≡
      toInt word type x + toInt word .int n [ZMOD 2 ^ type.bitWidth word] := by
  have regular (target : IntegerType) : Faithful word type target x :=
    (faithful_iff word type target x).mpr fun irregular => by
      rw [irregular.2.1] at signed
      exact Bool.false_ne_true signed
  apply (faithful_int _).modEq.trans
  by_cases wide : word.bits < type.bitWidth word
  · have regularMagnitude : Faithful word type.magnitude .uint (magnitude word type x) :=
      (faithful_iff word _ _ _).mpr fun irregular => by
        rw [type.bitWidth_magnitude, irregular.1, irregular.2.1] at wide
        exact absurd wide (by decide)
    have regularBound : Faithful word .uint type.magnitude (magnitude word .int n) :=
      (faithful_iff word _ _ _).mpr (by simp)
    have magnitude_n : toInt word .uint (magnitude word .int n) = |toInt word .int n| :=
      toInt_magnitude rfl n
    rw [lessThan_iff regularMagnitude regularBound, toInt_magnitude signed, magnitude_n] at smaller
    have low : TwosComplement.minimum true word.bits ≤ toInt word .int n := minimum_le_toInt n
    have high : toInt word .int n ≤ TwosComplement.maximum true word.bits :=
      toInt_le_maximum n
    simp only [TwosComplement.minimum, TwosComplement.maximum, if_true] at low high
    have held : toInt word .int (truncatingIfNeeded word .int type x) = toInt word type x := by
      apply (regular .int).toInt_eq <;>
        simp only [TwosComplement.minimum, TwosComplement.maximum, if_true]
      · grind
      · grind
    have added : toInt word .int (truncatingIfNeeded word .int type x + n) =
        toInt word type x + toInt word .int n := by
      rw [toInt_add, held] <;> rw [held] <;>
        simp only [TwosComplement.minimum, TwosComplement.maximum, if_true]
      · grind
      · grind
    rw [added]
  · apply modEq_of_narrow (by omega)
    exact (value_add_modEq true _ n).trans ((regular .int).modEq.add_right _)

/-- `advanced(by:)` adds the distance and wraps around. -/
theorem toInt_advanced_modEq (x : Value word type) (n : Value word .int) :
    toInt word type (advanced word type x n) ≡ toInt word type x + moved word type n
      [ZMOD 2 ^ type.bitWidth word] := by
  rw [advanced]
  cases signed : type.isSigned with
  | false =>
      rw [Bool.not_false, if_pos rfl]
      split
      · apply (toInt_sub_converted_modEq x (-n)).trans
        rw [sub_eq_add_neg]
        exact (neg_toInt_neg_modEq signed n).add_left _
      · next notNegative =>
        rw [moved, if_neg]
        · exact toInt_add_converted_modEq x n
        · intro backwards
          rw [backwards.2.2] at notNegative
          exact notNegative (by cases word <;> decide)
  | true =>
      have forwards : ¬ MovesBackwards word type n := fun backwards => by
        rw [backwards.1] at signed
        exact Bool.false_ne_true signed
      rw [Bool.not_true, if_neg Bool.false_ne_true, moved, if_neg forwards]
      split_ifs with signs smaller
      · exact toInt_add_converted_modEq x n
      · refine toInt_added_in_int_modEq signed ?_ smaller
        intro same
        apply signs
        rw [beq_iff_eq, Bool.eq_iff_iff, less_iff, less_iff, toInt_zero, toInt_zero]
        exact same
      · exact toInt_add_converted_modEq x n

theorem moved_one (word : WordSize) (type : IntegerType) : moved word type 1 = 1 := by
  have notLeast : ¬ MovesBackwards word type 1 := fun backwards => by
    have least := backwards.2.2
    revert least
    cases word <;> decide
  rw [moved, if_neg notLeast]
  cases word <;> decide

theorem advanced_one (x : Value word type) : advanced word type x 1 = x + 1 := by
  have congruent := toInt_advanced_modEq x 1
  have unit : value type.isSigned (1 : Value word type) = 1 := by
    cases type <;> cases word <;> decide
  have added := value_add_modEq type.isSigned x 1
  rw [moved_one] at congruent
  rw [unit] at added
  exact eq_of_value_modEq (congruent.trans added.symm)

theorem toInt_advanced_one {x y : Value word type} (below : toInt word type x < toInt word type y) :
    toInt word type (advanced word type x 1) = toInt word type x + 1 := by
  have congruent := toInt_advanced_modEq x 1
  rw [moved_one] at congruent
  have low := minimum_le_toInt x
  have high := toInt_le_maximum y
  exact eq_of_modEq_of_bounds (type.bitWidth_pos word) congruent (minimum_le_toInt _)
    (toInt_le_maximum _) (by omega) (by omega)

theorem toInt_iterate_advanced_one {x y : Value word type} {k : ℕ}
    (within : toInt word type x + k ≤ toInt word type y) :
    toInt word type ((fun value => advanced word type value 1)^[k] x) = toInt word type x + k := by
  induction k with
  | zero => simp
  | succ k earlier =>
      have before := earlier (by omega)
      rw [Function.iterate_succ_apply', toInt_advanced_one (y := y) (by omega), before]
      omega

end USwift
