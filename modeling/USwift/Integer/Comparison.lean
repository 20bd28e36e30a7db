import USwift.Integer.Conversion

/-!
# Heterogeneous comparison

The comparison operators between values of different integer types, which
convert one operand to the type of the other before they compare. Where the
conversions of the two operands are faithful the operators compare the
mathematical integers. The two configurations differ only through the
conversion of `UInt16` in the 32-bit files.
-/

namespace USwift

namespace Heterogeneous

section Operators

variable (word : WordSize) {self other : IntegerType}

/-- `==`. -/
def equal (lhs : Value word self) (rhs : Value word other) : Bool :=
  let lhsNegative := self.isSigned && less word self lhs 0
  let rhsNegative := other.isSigned && less word other rhs 0
  if lhsNegative != rhsNegative then false
  else if self.bitWidth word < other.bitWidth word then
    truncatingIfNeeded word other self lhs == rhs
  else if self.bitWidth word > other.bitWidth word then
    lhs == truncatingIfNeeded word self other rhs
  else if self.isSigned then truncatingIfNeeded word other self lhs == rhs
  else lhs == truncatingIfNeeded word self other rhs

/-- `!=`. -/
def notEqual (lhs : Value word self) (rhs : Value word other) : Bool :=
  !equal word lhs rhs

/-- `<`. -/
def lessThan (lhs : Value word self) (rhs : Value word other) : Bool :=
  let lhsNegative := self.isSigned && less word self lhs 0
  let rhsNegative := other.isSigned && less word other rhs 0
  if lhsNegative != rhsNegative then lhsNegative
  else if lhs == 0 && rhs == 0 then false
  else
    let rhsAsSelf := truncatingIfNeeded word self other rhs
    let rhsAsSelfNegative := less word self rhsAsSelf 0
    -- Can `rhs` make the round trip through `Self` with its sign?
    if truncatingIfNeeded word other self rhsAsSelf == rhs &&
        rhsNegative == rhsAsSelfNegative then
      less word self lhs rhsAsSelf
    else less word other (truncatingIfNeeded word other self lhs) rhs

/-- `<=`. -/
def lessOrEqual (lhs : Value word self) (rhs : Value word other) : Bool :=
  !lessThan word rhs lhs

/-- `>=`. -/
def greaterOrEqual (lhs : Value word self) (rhs : Value word other) : Bool :=
  !lessThan word lhs rhs

/-- `>`. -/
def greaterThan (lhs : Value word self) (rhs : Value word other) : Bool :=
  lessThan word rhs lhs

end Operators

end Heterogeneous

variable {word : WordSize} {self other : IntegerType}

/-- The conversion of a value to a type is the extension of its own signedness. -/
def Faithful (word : WordSize) (self other : IntegerType) (x : Value word self) : Prop :=
  truncatingIfNeeded word other self x =
    TwosComplement.extend self.isSigned (other.bitWidth word) x

/-- A conversion is faithful except from a large `UInt16` to a wider type in the 32-bit files. -/
theorem faithful_iff (word : WordSize) (self other : IntegerType) (x : Value word self) :
    Faithful word self other x ↔
      ¬ (word = .word32 ∧ self = .uint16 ∧ 16 < other.bitWidth word ∧ x.msb = true) := by
  by_cases exceptional : word = .word32 ∧ self = .uint16
  · rcases exceptional with ⟨rfl, rfl⟩
    rw [Faithful, truncatingIfNeeded_uint16_word32]
    simp only [true_and, TwosComplement.extend, Bool.false_eq_true, if_false]
    constructor
    · rintro unchanged ⟨wide, negative⟩
      have sixteenth := congrArg (fun result => result.getLsbD 16) unchanged
      simp only [BitVec.getLsbD_setWidth, BitVec.getLsbD_signExtend] at sixteenth
      simp [wide, negative] at sixteenth
    · intro harmless
      apply BitVec.eq_of_getLsbD_eq
      intro index index_lt
      rw [BitVec.getLsbD_setWidth, BitVec.getLsbD_signExtend, BitVec.getLsbD_setWidth]
      by_cases low : index < 16
      · simp [low, show index < 32 by omega]
      · have clear : x.msb = false := by
          simpa using fun negative => harmless ⟨by omega, negative⟩
        have outside : x.getLsbD index = false :=
          BitVec.getLsbD_of_ge x index (Nat.le_of_not_lt low)
        simp [low, clear, outside]
  · refine iff_of_true ?_ fun failing => exceptional ⟨failing.1, failing.2.1⟩
    exact truncatingIfNeeded_eq_extend ((extendsSign_eq_iff word self).mpr exceptional) x

theorem msb_uint16_iff (x : Value word .uint16) :
    x.msb = true ↔ 2 ^ 15 ≤ toInt word .uint16 x := by
  have large : x.msb = true ↔ 2 ^ 15 ≤ x.toNat := by
    rw [BitVec.msb_eq_decide, decide_eq_true_eq]
    exact Iff.rfl
  have unsigned : toInt word .uint16 x = x.toNat := rfl
  rw [large, unsigned]
  omega

theorem toInt_lower (x : Value word self) {size : ℕ} (fits : self.bitWidth word ≤ size) :
    -2 ^ size ≤ toInt word self x := by
  have lower := TwosComplement.value_lower self.isSigned x
  have wider : (2 : ℤ) ^ self.bitWidth word ≤ 2 ^ size :=
    pow_le_pow_right₀ (by norm_num) fits
  rw [toInt]
  omega

theorem toInt_upper (x : Value word self) {size : ℕ} (fits : self.bitWidth word ≤ size) :
    toInt word self x < 2 ^ size := by
  have upper := TwosComplement.value_upper self.isSigned x
  have wider : (2 : ℤ) ^ self.bitWidth word ≤ 2 ^ size :=
    pow_le_pow_right₀ (by norm_num) fits
  rw [toInt]
  omega

/-- Congruent values of one sign are equal once the modulus covers both types. -/
theorem toInt_eq_of_modEq {lhs : Value word self} {rhs : Value word other} {size : ℕ}
    (congruent : toInt word self lhs ≡ toInt word other rhs [ZMOD 2 ^ size])
    (sign : toInt word self lhs < 0 ↔ toInt word other rhs < 0)
    (selfFits : self.bitWidth word ≤ size) (otherFits : other.bitWidth word ≤ size) :
    toInt word self lhs = toInt word other rhs :=
  TwosComplement.eq_of_modEq_of_sign congruent sign (toInt_lower lhs selfFits)
    (toInt_upper lhs selfFits) (toInt_lower rhs otherFits) (toInt_upper rhs otherFits)

namespace Faithful

theorem modEq {x : Value word self} (faithful : Faithful word self other x) :
    toInt word other (truncatingIfNeeded word other self x) ≡ toInt word self x
      [ZMOD 2 ^ other.bitWidth word] := by
  rw [faithful]
  exact TwosComplement.value_extend_modEq _ _ _ x

/-- A converted value is a given one exactly when the integers are congruent. -/
theorem eq_iff_modEq {x : Value word self} (faithful : Faithful word self other x)
    (y : Value word other) :
    truncatingIfNeeded word other self x = y ↔
      toInt word self x ≡ toInt word other y [ZMOD 2 ^ other.bitWidth word] := by
  constructor
  · rintro rfl
    exact faithful.modEq.symm
  · intro congruent
    exact TwosComplement.eq_of_value_modEq (faithful.modEq.trans congruent)

/-- Against a value of the same sign and a wider type, conversion decides equality. -/
theorem eq_iff_toInt {x : Value word self} (faithful : Faithful word self other x)
    {y : Value word other} (sign : toInt word self x < 0 ↔ toInt word other y < 0)
    (fits : self.bitWidth word ≤ other.bitWidth word) :
    truncatingIfNeeded word other self x = y ↔ toInt word self x = toInt word other y := by
  rw [faithful.eq_iff_modEq]
  constructor
  · intro congruent
    exact toInt_eq_of_modEq congruent sign fits le_rfl
  · intro same
    rw [same]

theorem toInt_eq {x : Value word self} (faithful : Faithful word self other x)
    (low : TwosComplement.minimum other.isSigned (other.bitWidth word) ≤ toInt word self x)
    (high : toInt word self x ≤ TwosComplement.maximum other.isSigned (other.bitWidth word)) :
    toInt word other (truncatingIfNeeded word other self x) = toInt word self x := by
  rw [faithful]
  exact TwosComplement.value_extend_of_bounds x (other.bitWidth_pos word) low high

end Faithful

/-- The sign test that the operators begin with. -/
theorem negative_iff (x : Value word self) :
    (self.isSigned && less word self x 0) = true ↔ toInt word self x < 0 := by
  rw [less_zero, ← Bool.and_assoc, Bool.and_self]
  exact (TwosComplement.value_neg_iff self.isSigned x).symm

theorem signs_eq_iff (lhs : Value word self) (rhs : Value word other) :
    (self.isSigned && less word self lhs 0) = (other.isSigned && less word other rhs 0) ↔
      (toInt word self lhs < 0 ↔ toInt word other rhs < 0) := by
  rw [← negative_iff lhs, ← negative_iff rhs, Bool.eq_iff_iff]

namespace Heterogeneous

theorem equal_iff {lhs : Value word self} {rhs : Value word other}
    (lhsFaithful : Faithful word self other lhs) (rhsFaithful : Faithful word other self rhs) :
    equal word lhs rhs = true ↔ toInt word self lhs = toInt word other rhs := by
  simp only [equal]
  by_cases sign : toInt word self lhs < 0 ↔ toInt word other rhs < 0
  · have signs := (signs_eq_iff lhs rhs).mpr sign
    have fromLeft (fits : self.bitWidth word ≤ other.bitWidth word) :
        (truncatingIfNeeded word other self lhs == rhs) = true ↔
          toInt word self lhs = toInt word other rhs := by
      rw [beq_iff_eq, lhsFaithful.eq_iff_toInt sign fits]
    have fromRight (fits : other.bitWidth word ≤ self.bitWidth word) :
        (lhs == truncatingIfNeeded word self other rhs) = true ↔
          toInt word self lhs = toInt word other rhs := by
      rw [beq_iff_eq, eq_comm, rhsFaithful.eq_iff_toInt sign.symm fits, eq_comm]
    rw [signs, bne_self_eq_false, if_neg Bool.false_ne_true]
    split_ifs with narrower wider signed
    · exact fromLeft narrower.le
    · exact fromRight wider.le
    · exact fromLeft (by omega)
    · exact fromRight (by omega)
  · rw [if_pos (by simpa using fun signs => sign ((signs_eq_iff lhs rhs).mp signs))]
    constructor
    · intro impossible
      exact absurd impossible (by simp)
    · intro same
      exact absurd (by rw [same]) sign

/--
Where both operands have one sign, an operand that the other's type does not
hold lies beyond every value of that type.
-/
theorem bounds_of_not_held {lhs : Value word self} {rhs : Value word other}
    (sign : toInt word self lhs < 0 ↔ toInt word other rhs < 0)
    (beyond : ¬ (TwosComplement.minimum self.isSigned (self.bitWidth word) ≤
        toInt word other rhs ∧
      toInt word other rhs ≤ TwosComplement.maximum self.isSigned (self.bitWidth word))) :
    TwosComplement.minimum other.isSigned (other.bitWidth word) ≤ toInt word self lhs ∧
      toInt word self lhs ≤ TwosComplement.maximum other.isSigned (other.bitWidth word) := by
  have lhsLow : TwosComplement.minimum self.isSigned (self.bitWidth word) ≤
    toInt word self lhs := TwosComplement.minimum_le_value _ lhs
  have lhsHigh : toInt word self lhs ≤
    TwosComplement.maximum self.isSigned (self.bitWidth word) :=
      TwosComplement.value_le_maximum _ lhs
  have rhsLow : TwosComplement.minimum other.isSigned (other.bitWidth word) ≤
    toInt word other rhs := TwosComplement.minimum_le_value _ rhs
  have rhsHigh : toInt word other rhs ≤
    TwosComplement.maximum other.isSigned (other.bitWidth word) :=
      TwosComplement.value_le_maximum _ rhs
  have selfRange := TwosComplement.minimum_le_zero self.isSigned (self.bitWidth word)
  have otherRange := TwosComplement.minimum_le_zero other.isSigned (other.bitWidth word)
  have selfTop := TwosComplement.maximum_nonneg self.isSigned (self.bitWidth word)
  have otherTop := TwosComplement.maximum_nonneg other.isSigned (other.bitWidth word)
  omega

/-- What remains of `<` once the signs agree and the operands are not both zero. -/
def lessThanOfSign (word : WordSize) {self other : IntegerType} (lhs : Value word self)
    (rhs : Value word other) : Bool :=
  let rhsAsSelf := truncatingIfNeeded word self other rhs
  if truncatingIfNeeded word other self rhsAsSelf == rhs &&
      (other.isSigned && less word other rhs 0) == less word self rhsAsSelf 0 then
    less word self lhs rhsAsSelf
  else less word other (truncatingIfNeeded word other self lhs) rhs

theorem lessThanOfSign_iff {lhs : Value word self} {rhs : Value word other}
    (lhsFaithful : Faithful word self other lhs) (rhsFaithful : Faithful word other self rhs)
    (backFaithful : Faithful word self other (truncatingIfNeeded word self other rhs))
    (sign : toInt word self lhs < 0 ↔ toInt word other rhs < 0) :
    lessThanOfSign word lhs rhs = true ↔ toInt word self lhs < toInt word other rhs := by
  have test : (truncatingIfNeeded word other self (truncatingIfNeeded word self other rhs) ==
      rhs && (other.isSigned && less word other rhs 0) ==
        less word self (truncatingIfNeeded word self other rhs) 0) = true ↔
      truncatingIfNeeded word other self (truncatingIfNeeded word self other rhs) = rhs ∧
        (toInt word other rhs < 0 ↔
          toInt word self (truncatingIfNeeded word self other rhs) < 0) := by
    rw [← signs_eq_iff, less_zero word self, ← Bool.and_assoc self.isSigned, Bool.and_self,
      Bool.and_eq_true, beq_iff_eq, beq_iff_eq]
  rw [lessThanOfSign]
  by_cases returns : truncatingIfNeeded word other self
      (truncatingIfNeeded word self other rhs) = rhs ∧
      (toInt word other rhs < 0 ↔
        toInt word self (truncatingIfNeeded word self other rhs) < 0)
  · rw [if_pos (test.mpr returns), less_iff]
    have held : toInt word self (truncatingIfNeeded word self other rhs) =
        toInt word other rhs := by
      rcases Nat.le_total (self.bitWidth word) (other.bitWidth word) with fits | fits
      · exact (backFaithful.eq_iff_toInt returns.2.symm fits).mp returns.1
      · exact toInt_eq_of_modEq rhsFaithful.modEq returns.2.symm le_rfl fits
    rw [held]
  · rw [if_neg (returns ∘ test.mp), less_iff]
    have beyond : ¬ (TwosComplement.minimum self.isSigned (self.bitWidth word) ≤
          toInt word other rhs ∧
        toInt word other rhs ≤
          TwosComplement.maximum self.isSigned (self.bitWidth word)) := by
      rintro ⟨low, high⟩
      have held := rhsFaithful.toInt_eq low high
      refine returns ⟨?_, by rw [held]⟩
      rw [backFaithful.eq_iff_modEq, held]
    rcases bounds_of_not_held sign beyond with ⟨low, high⟩
    rw [lhsFaithful.toInt_eq low high]

/--
A small `UInt16` in the 32-bit configuration against a wider value whose low
half is large: the round trip goes wrong, and the answer is still right.
-/
theorem lessThanOfSign_iff_uint16 {lhs : Value .word32 .uint16} {rhs : Value .word32 other}
    (lhsFaithful : Faithful .word32 .uint16 other lhs)
    (rhsFaithful : Faithful .word32 other .uint16 rhs)
    (backUnfaithful :
      ¬ Faithful .word32 .uint16 other (truncatingIfNeeded .word32 .uint16 other rhs))
    (sign : toInt .word32 .uint16 lhs < 0 ↔ toInt .word32 other rhs < 0) :
    lessThanOfSign .word32 lhs rhs = true ↔
      toInt .word32 .uint16 lhs < toInt .word32 other rhs := by
  rcases not_not.mp ((faithful_iff _ _ _ _).not.mp backUnfaithful) with
    ⟨_, _, wide, lowHalf⟩
  have small : toInt .word32 .uint16 lhs < 2 ^ 15 := by
    have clear := (faithful_iff _ _ _ _).mp lhsFaithful
    rw [msb_uint16_iff] at clear
    by_contra atLeast
    exact clear ⟨rfl, rfl, wide, by omega⟩
  have nonnegative : 0 ≤ toInt .word32 .uint16 lhs := TwosComplement.value_nonneg lhs
  have large : 2 ^ 15 ≤ toInt .word32 .uint16 (truncatingIfNeeded .word32 .uint16 other rhs) :=
    (msb_uint16_iff _).mp lowHalf
  have above : toInt .word32 .uint16 (truncatingIfNeeded .word32 .uint16 other rhs) ≤
      toInt .word32 other rhs := by
    have congruent : toInt .word32 .uint16 (truncatingIfNeeded .word32 .uint16 other rhs) %
        65536 = toInt .word32 other rhs % 65536 := rhsFaithful.modEq
    have below := toInt_upper (truncatingIfNeeded .word32 .uint16 other rhs) le_rfl
    simp only [IntegerType.bitWidth] at below
    omega
  have ordered : toInt .word32 .uint16 lhs < toInt .word32 other rhs := by omega
  refine iff_of_true ?_ ordered
  rw [lessThanOfSign]
  split_ifs with returns
  · rw [less_iff]
    omega
  · rw [less_iff, lhsFaithful.toInt_eq]
    · exact ordered
    · exact (TwosComplement.minimum_le_zero _ _).trans nonnegative
    · have room : 2 ^ 15 ≤ TwosComplement.maximum other.isSigned (other.bitWidth .word32) := by
        revert wide
        cases other <;> decide
      omega

theorem lessThan_iff {lhs : Value word self} {rhs : Value word other}
    (lhsFaithful : Faithful word self other lhs) (rhsFaithful : Faithful word other self rhs) :
    lessThan word lhs rhs = true ↔ toInt word self lhs < toInt word other rhs := by
  have unfolded : lessThan word lhs rhs =
      if (self.isSigned && less word self lhs 0) != (other.isSigned && less word other rhs 0)
      then self.isSigned && less word self lhs 0
      else if lhs == 0 && rhs == 0 then false else lessThanOfSign word lhs rhs := rfl
  rw [unfolded]
  by_cases sign : toInt word self lhs < 0 ↔ toInt word other rhs < 0
  · rw [(signs_eq_iff lhs rhs).mpr sign, bne_self_eq_false, if_neg Bool.false_ne_true]
    split_ifs with zeros
    · rcases (Bool.and_eq_true _ _).mp zeros with ⟨lhsZero, rhsZero⟩
      rw [eq_of_beq lhsZero, eq_of_beq rhsZero, toInt_zero, toInt_zero]
      simp
    · by_cases backFaithful :
          Faithful word self other (truncatingIfNeeded word self other rhs)
      · exact lessThanOfSign_iff lhsFaithful rhsFaithful backFaithful sign
      · rcases not_not.mp ((faithful_iff _ _ _ _).not.mp backFaithful) with ⟨rfl, rfl, _⟩
        exact lessThanOfSign_iff_uint16 lhsFaithful rhsFaithful backFaithful sign
  · have differ : ¬ (self.isSigned && less word self lhs 0) =
        (other.isSigned && less word other rhs 0) := sign ∘ (signs_eq_iff lhs rhs).mp
    rw [if_pos (by simpa using differ), negative_iff]
    omega

end Heterogeneous

/-- The types whose width does not depend on the configuration. -/
def IntegerType.WordIndependent (type : IntegerType) : Prop :=
  type ≠ .int ∧ type ≠ .uint

instance (type : IntegerType) : Decidable type.WordIndependent :=
  inferInstanceAs (Decidable (type ≠ .int ∧ type ≠ .uint))

/-- The same bits in a program built for the 32-bit configuration. -/
def rebuilt {type : IntegerType} (x : Value .word16 type) : Value .word32 type :=
  x.setWidth (type.bitWidth .word32)

/-- Conversions and comparisons of two values give the same results in both configurations. -/
structure ConfigurationsAgree (left right : IntegerType) (x : Value .word16 left)
    (y : Value .word16 right) : Prop where
  conversion : rebuilt (truncatingIfNeeded .word16 right left x) =
    truncatingIfNeeded .word32 right left (rebuilt x)
  conversionBack : rebuilt (truncatingIfNeeded .word16 left right y) =
    truncatingIfNeeded .word32 left right (rebuilt y)
  equal : Heterogeneous.equal .word16 x y = Heterogeneous.equal .word32 (rebuilt x) (rebuilt y)
  notEqual : Heterogeneous.notEqual .word16 x y =
    Heterogeneous.notEqual .word32 (rebuilt x) (rebuilt y)
  lessThan : Heterogeneous.lessThan .word16 x y =
    Heterogeneous.lessThan .word32 (rebuilt x) (rebuilt y)
  lessOrEqual : Heterogeneous.lessOrEqual .word16 x y =
    Heterogeneous.lessOrEqual .word32 (rebuilt x) (rebuilt y)
  greaterThan : Heterogeneous.greaterThan .word16 x y =
    Heterogeneous.greaterThan .word32 (rebuilt x) (rebuilt y)
  greaterOrEqual : Heterogeneous.greaterOrEqual .word16 x y =
    Heterogeneous.greaterOrEqual .word32 (rebuilt x) (rebuilt y)

/-- A `UInt16` with its top bit set meets a type wider than 16 bits. -/
def LargeUInt16 (self other : IntegerType) (x : Value .word16 self) : Prop :=
  self = .uint16 ∧ 16 < other.bitWidth .word16 ∧ 0x8000 ≤ x.toNat

theorem toInt_rebuilt {type : IntegerType} (independent : type.WordIndependent)
    (x : Value .word16 type) : toInt .word32 type (rebuilt x) = toInt .word16 type x := by
  cases type with
  | int => exact absurd rfl independent.1
  | uint => exact absurd rfl independent.2
  | _ => simp [rebuilt, toInt]

theorem bitWidth_word32 {type : IntegerType} (independent : type.WordIndependent) :
    type.bitWidth .word32 = type.bitWidth .word16 := by
  cases type with
  | int => exact absurd rfl independent.1
  | uint => exact absurd rfl independent.2
  | _ => rfl

theorem faithful_word16 (x : Value .word16 self) : Faithful .word16 self other x :=
  (faithful_iff .word16 self other x).mpr (by simp)

/-- In the 16-bit configuration every operator compares the integers that its operands hold. -/
theorem comparisons_word16 (x : Value .word16 self) (y : Value .word16 other) :
    (Heterogeneous.equal .word16 x y = true ↔ toInt .word16 self x = toInt .word16 other y) ∧
    (Heterogeneous.notEqual .word16 x y = true ↔
      toInt .word16 self x ≠ toInt .word16 other y) ∧
    (Heterogeneous.lessThan .word16 x y = true ↔ toInt .word16 self x < toInt .word16 other y) ∧
    (Heterogeneous.lessOrEqual .word16 x y = true ↔
      toInt .word16 self x ≤ toInt .word16 other y) ∧
    (Heterogeneous.greaterThan .word16 x y = true ↔
      toInt .word16 self x > toInt .word16 other y) ∧
    (Heterogeneous.greaterOrEqual .word16 x y = true ↔
      toInt .word16 self x ≥ toInt .word16 other y) := by
  have equal := Heterogeneous.equal_iff (faithful_word16 x) (faithful_word16 y)
  have less := Heterogeneous.lessThan_iff (faithful_word16 x) (faithful_word16 y)
  have greater := Heterogeneous.lessThan_iff (faithful_word16 y) (faithful_word16 x)
  refine ⟨equal, ?_, less, ?_, greater, ?_⟩
  · rw [Heterogeneous.notEqual, Bool.not_eq_true', Bool.eq_false_iff, ne_eq, equal]
  · rw [Heterogeneous.lessOrEqual, Bool.not_eq_true', Bool.eq_false_iff, ne_eq, greater, not_lt]
  · rw [Heterogeneous.greaterOrEqual, Bool.not_eq_true', Bool.eq_false_iff, ne_eq, less, not_lt]

theorem faithful_rebuilt_iff (selfIndependent : self.WordIndependent)
    (otherIndependent : other.WordIndependent) (x : Value .word16 self) :
    Faithful .word32 self other (rebuilt x) ↔ ¬ LargeUInt16 self other x := by
  rw [faithful_iff, bitWidth_word32 otherIndependent, LargeUInt16]
  by_cases uint16 : self = .uint16
  · subst uint16
    rw [msb_uint16_iff, toInt_rebuilt selfIndependent]
    have unsigned : toInt .word16 .uint16 x = x.toNat := rfl
    rw [unsigned]
    constructor <;> intro fine exceptional <;> apply fine
    · exact ⟨rfl, rfl, exceptional.2.1, by have := exceptional.2.2; omega⟩
    · exact ⟨rfl, exceptional.2.2.1, by have := exceptional.2.2.2; omega⟩
  · simp [uint16]

/-- The configurations convert a value alike exactly when the 32-bit conversion is faithful. -/
theorem conversion_rebuilt_iff (selfIndependent : self.WordIndependent)
    (otherIndependent : other.WordIndependent) (x : Value .word16 self) :
    rebuilt (truncatingIfNeeded .word16 other self x) =
      truncatingIfNeeded .word32 other self (rebuilt x) ↔
      Faithful .word32 self other (rebuilt x) := by
  have reference : rebuilt (truncatingIfNeeded .word16 other self x) =
      TwosComplement.extend self.isSigned (other.bitWidth .word32) (rebuilt x) := by
    have before : toInt .word32 other (rebuilt (truncatingIfNeeded .word16 other self x)) ≡
        toInt .word16 self x [ZMOD 2 ^ other.bitWidth .word32] := by
      rw [toInt_rebuilt otherIndependent, bitWidth_word32 otherIndependent]
      exact (faithful_word16 x).modEq
    have after := TwosComplement.value_extend_modEq self.isSigned other.isSigned
      (other.bitWidth .word32) (rebuilt x)
    have source := toInt_rebuilt selfIndependent x
    rw [toInt] at source
    rw [source] at after
    exact TwosComplement.eq_of_value_modEq (before.trans after.symm)
  rw [reference, Faithful, eq_comm]

/--
The two configurations convert and compare two values alike exactly when
neither is a large `UInt16` that meets a wider type.
-/
theorem configurationsAgree_iff (selfIndependent : self.WordIndependent)
    (otherIndependent : other.WordIndependent) (x : Value .word16 self)
    (y : Value .word16 other) :
    ConfigurationsAgree self other x y ↔
      ¬ LargeUInt16 self other x ∧ ¬ LargeUInt16 other self y := by
  rw [← faithful_rebuilt_iff selfIndependent otherIndependent,
    ← faithful_rebuilt_iff otherIndependent selfIndependent]
  constructor
  · intro agree
    constructor
    · exact (conversion_rebuilt_iff selfIndependent otherIndependent x).mp agree.conversion
    · exact (conversion_rebuilt_iff otherIndependent selfIndependent y).mp agree.conversionBack
  · rintro ⟨xFaithful, yFaithful⟩
    have equal : Heterogeneous.equal .word16 x y =
        Heterogeneous.equal .word32 (rebuilt x) (rebuilt y) := by
      rw [Bool.eq_iff_iff, Heterogeneous.equal_iff (faithful_word16 x) (faithful_word16 y),
        Heterogeneous.equal_iff xFaithful yFaithful, toInt_rebuilt selfIndependent,
        toInt_rebuilt otherIndependent]
    have lessThan : Heterogeneous.lessThan .word16 x y =
        Heterogeneous.lessThan .word32 (rebuilt x) (rebuilt y) := by
      rw [Bool.eq_iff_iff, Heterogeneous.lessThan_iff (faithful_word16 x) (faithful_word16 y),
        Heterogeneous.lessThan_iff xFaithful yFaithful, toInt_rebuilt selfIndependent,
        toInt_rebuilt otherIndependent]
    have greaterThan : Heterogeneous.lessThan .word16 y x =
        Heterogeneous.lessThan .word32 (rebuilt y) (rebuilt x) := by
      rw [Bool.eq_iff_iff, Heterogeneous.lessThan_iff (faithful_word16 y) (faithful_word16 x),
        Heterogeneous.lessThan_iff yFaithful xFaithful, toInt_rebuilt selfIndependent,
        toInt_rebuilt otherIndependent]
    refine ⟨?_, ?_, equal, ?_, lessThan, ?_, greaterThan, ?_⟩
    · exact (conversion_rebuilt_iff selfIndependent otherIndependent x).mpr xFaithful
    · exact (conversion_rebuilt_iff otherIndependent selfIndependent y).mpr yFaithful
    · rw [Heterogeneous.notEqual, Heterogeneous.notEqual, equal]
    · rw [Heterogeneous.lessOrEqual, Heterogeneous.lessOrEqual, greaterThan]
    · rw [Heterogeneous.greaterOrEqual, Heterogeneous.greaterOrEqual, lessThan]

theorem configurationsAgree_small :
    ConfigurationsAgree .uint16 .uint32 0x7FFF#16 0x8000#32 :=
  (@configurationsAgree_iff .uint16 .uint32 (by decide) (by decide) 0x7FFF#16 0x8000#32).mpr
    ⟨fun large => absurd large.2.2 (by decide), fun large => absurd large.1 (by decide)⟩

/-- `0x8000` as a `UInt16` equals `0x8000` as a `UInt32` on AVR and differs from it on ARM. -/
theorem not_configurationsAgree_large :
    ¬ ∀ (left right : IntegerType), left.WordIndependent → right.WordIndependent →
      ∀ (x : Value .word16 left) (y : Value .word16 right),
        ConfigurationsAgree left right x y := by
  intro agree
  have equal := (agree .uint16 .uint32 (by decide) (by decide) 0x8000#16 0x8000#32).equal
  revert equal
  decide

end USwift
