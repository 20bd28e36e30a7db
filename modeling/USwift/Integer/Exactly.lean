import USwift.Integer.Comparison

/-!
# Exact and clamping conversions

`init(exactly:)` refuses a value that the target does not hold and `init(clamping:)`
moves it to the nearest bound. Both compare the source with the bounds of the target,
and the first one leaves out the comparisons that the widths decide.
-/

namespace USwift

open Heterogeneous TwosComplement

section Operations

variable (word : WordSize) (target : IntegerType) {source : IntegerType}

/-- `T.max`, which is `~0` for the unsigned types and `~min` for the signed ones. -/
def maxValue : Value word target :=
  if target.isSigned then ~~~minValue word target else ~~~0

/-- `init(exactly:)` of `UnsignedInteger`. -/
def UnsignedInteger.initExactly (source : IntegerType) (x : Value word source) :
    Option (Value word target) :=
  if source.isSigned && less word source x 0 then none
  else if decide (source.bitWidth word ≥ target.bitWidth word) &&
      greaterThan word x (maxValue word target) then none
  else some (truncatingIfNeeded word target source x)

/-- `init(exactly:)` of `SignedInteger`. -/
def SignedInteger.initExactly (source : IntegerType) (x : Value word source) :
    Option (Value word target) :=
  if source.isSigned && decide (source.bitWidth word > target.bitWidth word) &&
      lessThan word x (minValue word target) then none
  else if (decide (source.bitWidth word > target.bitWidth word) ||
        (decide (source.bitWidth word = target.bitWidth word) && !source.isSigned)) &&
      greaterThan word x (maxValue word target) then none
  else some (truncatingIfNeeded word target source x)

/-- `init(exactly:)`, from the protocol that the target conforms to. -/
def initExactly (x : Value word source) : Option (Value word target) :=
  if target.isSigned then SignedInteger.initExactly word target source x
  else UnsignedInteger.initExactly word target source x

/-- `init(clamping:)`. -/
def initClamping (x : Value word source) : Value word target :=
  if lessThan word x (minValue word target) then minValue word target
  else if greaterThan word x (maxValue word target) then maxValue word target
  else truncatingIfNeeded word target source x

end Operations

variable {word : WordSize} {target source : IntegerType}

theorem toInt_minValue (word : WordSize) (type : IntegerType) :
    toInt word type (minValue word type) = minimum type.isSigned (type.bitWidth word) := by
  cases word <;> cases type <;> decide

theorem toInt_maxValue (word : WordSize) (type : IntegerType) :
    toInt word type (maxValue word type) = maximum type.isSigned (type.bitWidth word) := by
  cases word <;> cases type <;> decide

/-- An integer lies between the bounds of a type. -/
def InRange (word : WordSize) (type : IntegerType) (a : ℤ) : Prop :=
  minimum type.isSigned (type.bitWidth word) ≤ a ∧ a ≤ maximum type.isSigned (type.bitWidth word)

instance (word : WordSize) (type : IntegerType) (a : ℤ) : Decidable (InRange word type a) :=
  inferInstanceAs (Decidable (_ ∧ _))

theorem inRange_toInt (x : Value word source) : InRange word source (toInt word source x) :=
  ⟨minimum_le_toInt x, toInt_le_maximum x⟩

/-- A clamped integer is closer to the given one than every other integer between the bounds. -/
theorem abs_clamped_sub_lt {low high a b : ℤ} (above : low ≤ b) (below : b ≤ high)
    (other : b ≠ max low (min high a)) : |max low (min high a) - a| < |b - a| := by
  rcases abs_cases (max low (min high a) - a) with ⟨left, _⟩ | ⟨left, _⟩ <;>
    rcases abs_cases (b - a) with ⟨right, _⟩ | ⟨right, _⟩ <;> omega

/-- The conversions compare a value with the bounds of the target without a wrong result. -/
structure FaithfulBounds (word : WordSize) (target source : IntegerType) (x : Value word source) :
    Prop where
  value : Faithful word source target x
  least : Faithful word target source (minValue word target)
  greatest : Faithful word target source (maxValue word target)

namespace FaithfulBounds

variable {x : Value word source} (faithful : FaithfulBounds word target source x)

include faithful

theorem lessThan_minValue_iff :
    lessThan word x (minValue word target) = true ↔
      toInt word source x < minimum target.isSigned (target.bitWidth word) := by
  rw [lessThan_iff faithful.value faithful.least, toInt_minValue]

theorem greaterThan_maxValue_iff :
    greaterThan word x (maxValue word target) = true ↔
      maximum target.isSigned (target.bitWidth word) < toInt word source x := by
  rw [greaterThan, lessThan_iff faithful.greatest faithful.value, toInt_maxValue]

/-- An unsigned target needs no comparison with a source that is narrower. -/
theorem unsigned_initExactly (unsigned : target.isSigned = false) :
    UnsignedInteger.initExactly word target source x =
      if InRange word target (toInt word source x) then
        some (truncatingIfNeeded word target source x) else none := by
  have above := faithful.greaterThan_maxValue_iff
  have high := toInt_le_maximum x
  have least : minimum target.isSigned (target.bitWidth word) = 0 := by rw [unsigned]; rfl
  rw [UnsignedInteger.initExactly]
  by_cases negative : toInt word source x < 0
  · rw [if_pos ((negative_iff x).mpr negative), if_neg fun ⟨low, _⟩ => by omega]
  · rw [if_neg ((negative_iff x).not.mpr negative)]
    by_cases narrow : target.bitWidth word ≤ source.bitWidth word
    · simp only [ge_iff_le, narrow, decide_true, Bool.true_and]
      by_cases past : maximum target.isSigned (target.bitWidth word) < toInt word source x
      · rw [if_pos (above.mpr past), if_neg fun ⟨_, inside⟩ => by omega]
      · rw [if_neg (above.not.mpr past), if_pos ⟨by omega, by omega⟩]
    · have fits := maximum_le_of_lt source.isSigned target.isSigned (not_le.mp narrow)
      simp only [ge_iff_le, narrow, decide_false, Bool.false_and, Bool.false_eq_true, if_false]
      rw [if_pos ⟨by omega, by omega⟩]

/-- A signed target compares with its minimum only a signed source that is wider. -/
theorem below_minimum_iff (signed : target.isSigned = true) :
    (source.isSigned && decide (source.bitWidth word > target.bitWidth word) &&
      lessThan word x (minValue word target)) = true ↔
        toInt word source x < minimum target.isSigned (target.bitWidth word) := by
  rw [Bool.and_eq_true, faithful.lessThan_minValue_iff, and_iff_right_iff_imp]
  intro below
  have low := minimum_le_toInt x
  have nonpositive := minimum_le_zero target.isSigned (target.bitWidth word)
  rw [Bool.and_eq_true, decide_eq_true_eq]
  cases sourceSigned : source.isSigned with
  | false =>
      have nonnegative : minimum source.isSigned (source.bitWidth word) = 0 := by
        rw [sourceSigned]
        rfl
      omega
  | true =>
      refine ⟨rfl, ?_⟩
      by_contra narrow
      have fits := minimum_anti true (not_lt.mp narrow)
      rw [sourceSigned] at low
      rw [signed] at below
      omega

/-- It compares with its maximum a source that is wider, or as wide and unsigned. -/
theorem above_maximum_iff (signed : target.isSigned = true) :
    ((decide (source.bitWidth word > target.bitWidth word) ||
        (decide (source.bitWidth word = target.bitWidth word) && !source.isSigned)) &&
      greaterThan word x (maxValue word target)) = true ↔
        maximum target.isSigned (target.bitWidth word) < toInt word source x := by
  rw [Bool.and_eq_true, faithful.greaterThan_maxValue_iff, and_iff_right_iff_imp]
  intro past
  have high := toInt_le_maximum x
  rw [Bool.or_eq_true, Bool.and_eq_true, decide_eq_true_eq, decide_eq_true_eq, Bool.not_eq_true']
  by_contra noTest
  rw [not_or, not_and, Bool.not_eq_false] at noTest
  rcases (not_lt.mp noTest.1).lt_or_eq with narrower | same
  · have fits := maximum_le_of_lt source.isSigned target.isSigned narrower
    omega
  · rw [noTest.2 same, same] at high
    rw [signed] at past
    omega

theorem signed_initExactly (signed : target.isSigned = true) :
    SignedInteger.initExactly word target source x =
      if InRange word target (toInt word source x) then
        some (truncatingIfNeeded word target source x) else none := by
  have below := faithful.below_minimum_iff signed
  have above := faithful.above_maximum_iff signed
  rw [SignedInteger.initExactly]
  by_cases first : toInt word source x < minimum target.isSigned (target.bitWidth word)
  · rw [if_pos (below.mpr first), if_neg fun ⟨low, _⟩ => by omega]
  · rw [if_neg (below.not.mpr first)]
    by_cases second : maximum target.isSigned (target.bitWidth word) < toInt word source x
    · rw [if_pos (above.mpr second), if_neg fun ⟨_, high⟩ => by omega]
    · rw [if_neg (above.not.mpr second), if_pos ⟨by omega, by omega⟩]

theorem initExactly_eq :
    initExactly word target x =
      if InRange word target (toInt word source x) then
        some (truncatingIfNeeded word target source x) else none := by
  rw [initExactly]
  cases signed : target.isSigned with
  | true => rw [if_pos rfl, faithful.signed_initExactly signed]
  | false => rw [if_neg Bool.false_ne_true, faithful.unsigned_initExactly signed]

theorem initExactly_eq_some_iff {y : Value word target} :
    initExactly word target x = some y ↔ toInt word target y = toInt word source x := by
  rw [faithful.initExactly_eq]
  constructor
  · intro result
    rw [Option.ite_none_right_eq_some, Option.some_inj] at result
    rcases result with ⟨⟨low, high⟩, rfl⟩
    exact faithful.value.toInt_eq low high
  · intro same
    have inside : InRange word target (toInt word source x) := same ▸ inRange_toInt y
    rw [if_pos inside, Option.some_inj]
    apply toInt_injective
    rw [same, faithful.value.toInt_eq inside.1 inside.2]

/-- A clamped value is the source, unless a bound lies between. -/
theorem toInt_initClamping :
    toInt word target (initClamping word target x) =
      max (minimum target.isSigned (target.bitWidth word))
        (min (maximum target.isSigned (target.bitWidth word)) (toInt word source x)) := by
  have bounds := inRange_toInt (minValue word target)
  rw [InRange, toInt_minValue] at bounds
  rw [initClamping]
  split_ifs with first second
  · rw [faithful.lessThan_minValue_iff] at first
    rw [toInt_minValue]
    omega
  · rw [faithful.greaterThan_maxValue_iff] at second
    rw [toInt_maxValue]
    omega
  · rw [faithful.lessThan_minValue_iff] at first
    rw [faithful.greaterThan_maxValue_iff] at second
    rw [faithful.value.toInt_eq (by omega) (by omega)]
    omega

end FaithfulBounds

theorem faithfulBounds_word16 (x : Value .word16 source) : FaithfulBounds .word16 target source x :=
  ⟨faithful_word16 x, faithful_word16 _, faithful_word16 _⟩

/--
On the 16-bit configuration `init(exactly:)` gives the value that holds the same integer,
where there is one, and `init(clamping:)` the value that is closer than every other one.
-/
theorem exactly_and_clamping_word16 (source target : IntegerType) (x : Value .word16 source) :
    (initExactly .word16 target x = none ↔
      ¬ ∃ y : Value .word16 target, toInt .word16 target y = toInt .word16 source x) ∧
    (∀ y : Value .word16 target, initExactly .word16 target x = some y ↔
      toInt .word16 target y = toInt .word16 source x) ∧
    ∀ y : Value .word16 target, y ≠ initClamping .word16 target x →
      |toInt .word16 target (initClamping .word16 target x) - toInt .word16 source x| <
        |toInt .word16 target y - toInt .word16 source x| := by
  have faithful : FaithfulBounds .word16 target source x := faithfulBounds_word16 x
  refine ⟨?_, fun y => faithful.initExactly_eq_some_iff, fun y other => ?_⟩
  · rw [Option.eq_none_iff_forall_ne_some, not_exists]
    exact forall_congr' fun y => faithful.initExactly_eq_some_iff.not
  · have low := minimum_le_toInt y
    have high := toInt_le_maximum y
    have apart : toInt .word16 target y ≠ toInt .word16 target (initClamping .word16 target x) :=
      fun same => other (toInt_injective same)
    rw [faithful.toInt_initClamping] at apart ⊢
    exact abs_clamped_sub_lt low high apart

end USwift
