import USwift.FloatingPoint.Comparison
import USwift.FloatingPoint.FromInteger
import Mathlib.Algebra.Order.Floor.Semifield
import Mathlib.Data.Rat.Floor

/-!
# Integers of floating-point values

`FixedWidthInteger._convert(from:)` refuses what has no place in the target by its exponent
and its sign, and moves the bits of the significand to the places that the exponent gives them.
What is smaller than one is cut off on the way. The leading bit, which the pattern does not
show, is set at the end.
-/

namespace USwift

open BinaryFormats BinaryFormats.Format FixedWidthInteger TwosComplement

namespace FloatingPoint

section Operations

variable (word : WordSize) (target : IntegerType) {type : FloatingPointType}

/-- The bits of the significand, moved to the places of the integer. -/
def shiftedBitPattern (x : FloatingPoint type) : Value word target :=
  let bitPattern := significandBitPattern word x
  let bitWidth := significandWidth word x + trailingZeroBitCount word type.rawSignificand bitPattern
  let shift := exponent word x - bitWidth
  if less word .int bitWidth (bitWidthInt word target) then
    smartShiftLeft word target (truncatingIfNeeded word target type.rawSignificand bitPattern) shift
  else truncatingIfNeeded word target type.rawSignificand
    (smartShiftLeft word type.rawSignificand bitPattern shift)

/-- `_convert(from:)` of a floating-point value. -/
def convertFloatingPoint (x : FloatingPoint type) : Option (Value word target) × Bool :=
  if isZero word x then (some 0, true)
  else if !isFinite word x then (none, false)
  else if !(target.isSigned || isLess (negate (one type)) x) then (none, false)
  else
    let exponent := exponent word x
    if !less word .int exponent (bitWidthInt word target) then (none, false)
    else
      let isExact := !less word .int exponent (significandWidth word x)
      let shiftedBitPattern := shiftedBitPattern word target.magnitude x
      if target.isSigned && bitWidthInt word target - 1 == exponent then
        if isLess x 0 && shiftedBitPattern == 0 then (some (minValue word target), isExact)
        else (none, false)
      else
        let magnitude := smartShiftLeft word target.magnitude 1 exponent ||| shiftedBitPattern
        let value := truncatingIfNeeded word target target.magnitude magnitude
        (some (if target.isSigned && isLess x 0 then 0 - value else value), isExact)

/-- The generic `init(_:)`, which is `0` where there is no value. A `Float` in the 16-bit
configuration has an initializer of its own. -/
def ofFloatingPoint (x : FloatingPoint type) : Value word target :=
  (convertFloatingPoint word target x).1.getD 0

/-- `init?(exactly:)` of a floating-point value. -/
def ofFloatingPointExactly (x : FloatingPoint type) : Option (Value word target) :=
  let (temporary, exact) := convertFloatingPoint word target x
  if exact then temporary else none

end Operations

variable {word : WordSize} {target : IntegerType} {type : FloatingPointType}
  {x : FloatingPoint type}

section Shifts

variable {amount : ℕ} {n : Value word .int} {a : Value word target}

theorem toInt_smartShiftLeft (a : Value word target) (n : Value word .int) :
    toInt word target (smartShiftLeft word target a n) =
      shiftedRight word target (toInt word target a) (-toInt word .int n) := by
  have clamped := @toInt_clampedAmount word target .int n (faithful_int n)
  have turned : -max (-(target.bitWidth word : ℤ))
        (min (target.bitWidth word : ℤ) (toInt word .int n)) =
      max (-(target.bitWidth word : ℤ))
        (min (target.bitWidth word : ℤ) (-toInt word .int n)) := by omega
  rw [smartShiftLeft, nonMaskingLeftShift_eq_with,
    toInt_nonMaskingLeftShiftWith (shiftsInside_masking word target), clamped, turned,
    shiftedRight_clamped]

theorem toInt_unsigned (unsigned : target.isSigned = false) (a : Value word target) :
    toInt word target a = BitVec.toNat a := by
  rw [toInt, TwosComplement.value, unsigned, if_neg Bool.false_ne_true]

/-- What a shift to the left leaves in the type. -/
theorem toNat_shifted_up (unsigned : target.isSigned = false)
    (value : toInt word .int n = amount)
    (fits : BitVec.toNat a * 2 ^ amount < 2 ^ target.bitWidth word) :
    BitVec.toNat (smartShiftLeft word target a n) = BitVec.toNat a * 2 ^ amount := by
  have shifted := toInt_smartShiftLeft a n
  rw [toInt_unsigned unsigned, toInt_unsigned unsigned, value, shiftedRight] at shifted
  have positive := target.bitWidth_pos word
  have wrapped : wrap target.isSigned (target.bitWidth word)
      (BitVec.toNat a * 2 ^ amount : ℕ) = (BitVec.toNat a * 2 ^ amount : ℕ) := by
    apply wrap_of_bounds positive
    · exact (minimum_le_zero _ _).trans (Int.natCast_nonneg _)
    · rw [unsigned, TwosComplement.maximum, if_neg Bool.false_ne_true]
      have fits : ((BitVec.toNat a * 2 ^ amount : ℕ) : ℤ) < 2 ^ target.bitWidth word := by
        exact_mod_cast fits
      omega
  rcases Nat.eq_zero_or_pos amount with nothing | some_
  · subst nothing
    simpa using shifted
  · rw [if_neg (by omega), neg_neg, Int.toNat_natCast] at shifted
    have shifted := shifted.trans (by exact_mod_cast wrapped)
    exact_mod_cast shifted

/-- A shift to the left by a negative amount is one to the right. -/
theorem toNat_shifted_down (unsigned : target.isSigned = false)
    (value : toInt word .int n = -amount) :
    BitVec.toNat (smartShiftLeft word target a n) = BitVec.toNat a / 2 ^ amount := by
  have shifted := toInt_smartShiftLeft a n
  rw [toInt_unsigned unsigned, toInt_unsigned unsigned, value, neg_neg, shiftedRight,
    if_pos (Int.natCast_nonneg _), Int.toNat_natCast] at shifted
  exact_mod_cast shifted

theorem toNat_shifted_zero (unsigned : target.isSigned = false) (n : Value word .int)
    (nothing : BitVec.toNat a = 0) : BitVec.toNat (smartShiftLeft word target a n) = 0 := by
  have zero := toInt_unsigned unsigned a
  have shifted := toInt_smartShiftLeft a n
  have wrapped : wrap target.isSigned (target.bitWidth word) 0 = 0 :=
    wrap_of_bounds (target.bitWidth_pos word) (minimum_le_zero _ _) (maximum_nonneg _ _)
  rw [nothing] at zero
  rw [zero, toInt_unsigned unsigned, shiftedRight] at shifted
  simpa [wrapped] using shifted

/-- The pattern of a significand is regular in every configuration. -/
theorem toNat_truncatingIfNeeded_raw {pattern : RawSignificand word type}
    (small : BitVec.toNat pattern < 2 ^ type.format.significandBits) :
    BitVec.toNat (truncatingIfNeeded word target type.rawSignificand pattern) =
      BitVec.toNat pattern % 2 ^ target.bitWidth word := by
  have kept : Faithful word type.rawSignificand target pattern := by
    cases type with
    | float => exact (faithful_iff word .uint32 target pattern).mpr (by simp)
    | float16 =>
        apply faithful_of_lt
        have few : 2 ^ FloatingPointType.float16.format.significandBits ≤ 2 ^ 15 := by decide
        omega
  have unsigned := type.rawSignificand_unsigned
  rw [kept, TwosComplement.extend, unsigned, if_neg Bool.false_ne_true, BitVec.toNat_setWidth]

end Shifts

section Patterns

/-- The place of the leading bit of a significand, which is implied in a normal one. -/
def leadingPlace (type : FloatingPointType) (magnitude : ℕ) : ℕ :=
  if magnitude < 2 ^ type.format.significandBits then magnitude.log2
  else type.format.significandBits

theorem pattern_lt_leading (nonzero : Format.magnitude x ≠ 0) :
    leadingPlace type (Format.magnitude x) ≤ type.format.significandBits ∧
      Format.magnitude x % 2 ^ type.format.significandBits <
        2 ^ (leadingPlace type (Format.magnitude x) + 1) := by
  rw [leadingPlace]
  split_ifs with subnormal
  · rw [Nat.mod_eq_of_lt subnormal]
    exact ⟨((Nat.log2_lt nonzero).mpr subnormal).le, Nat.lt_log2_self⟩
  · refine ⟨le_rfl, (Nat.mod_lt _ (Nat.two_pow_pos _)).trans ?_⟩
    exact Nat.pow_lt_pow_right (by decide) (Nat.lt_succ_self _)

/-- The width of a significand and its trailing zero bits end at its leading bit. -/
theorem toInt_patternWidth (word : WordSize) (finite : Format.magnitude x < type.format.infinity)
    (nonzero : Format.magnitude x ≠ 0) (some_ : significandBitPattern word x ≠ 0) :
    toInt word .int (significandWidth word x +
      trailingZeroBitCount word type.rawSignificand (significandBitPattern word x)) =
        leadingPlace type (Format.magnitude x) := by
  have trailing := toInt_trailingZeroBitCount (significandBitPattern word x)
  have few := significandBits_lt_32 type
  have most := (pattern_lt_leading nonzero).1
  rw [leadingPlace] at most ⊢
  split_ifs at most ⊢ with subnormal
  · rcases toInt_significandWidth_subnormal word nonzero subnormal with ⟨less, width⟩
    rw [toInt_add_of_small, width, trailing]
    · omega
    · omega
    · omega
  · rcases toInt_significandWidth_normal word finite (Nat.le_of_not_lt subnormal) some_ with
      ⟨less, width⟩
    rw [toInt_add_of_small, width, trailing]
    · omega
    · omega
    · omega

/-- The bits of a significand below the leading one, moved to the places of an integer. -/
def placed (f : Format) (magnitude : ℕ) : ℕ :=
  if 0 ≤ f.exponent magnitude then
    magnitude % 2 ^ f.significandBits * 2 ^ (f.exponent magnitude).toNat / 2 ^ f.significandBits
  else 0

theorem placed_lt (f : Format) {magnitude bits : ℕ} (inside : f.exponent magnitude ≤ bits) :
    placed f magnitude < 2 ^ bits := by
  have fits := Nat.mod_lt magnitude (Nat.two_pow_pos f.significandBits)
  rw [placed]
  split_ifs with whole
  · have less : 2 ^ (f.exponent magnitude).toNat ≤ 2 ^ bits :=
      Nat.pow_le_pow_right (by decide) (by omega)
    apply lt_of_lt_of_le _ less
    apply Nat.div_lt_of_lt_mul
    exact Nat.mul_lt_mul_of_pos_right fits (Nat.two_pow_pos _)
  · exact Nat.two_pow_pos _

theorem exponent_subnormal {magnitude : ℕ} (f : Format) (nonzero : magnitude ≠ 0)
    (subnormal : magnitude < 2 ^ f.significandBits) : f.exponent magnitude < 0 := by
  have below : magnitude.log2 < f.significandBits := (Nat.log2_lt nonzero).mpr subnormal
  have positive := f.bias_pos
  rw [Format.exponent, if_pos subnormal]
  omega

theorem exponent_bounds (nonzero : Format.magnitude x ≠ 0) :
    -200 ≤ type.format.exponent (Format.magnitude x) ∧
      type.format.exponent (Format.magnitude x) < 300 := by
  have field := exponentField_lt x
  have bias := bias_lt type
  have few := significandBits_lt_32 type
  rw [Format.exponent]
  split_ifs with subnormal
  · have below : (Format.magnitude x).log2 < type.format.significandBits :=
      (Nat.log2_lt nonzero).mpr subnormal
    omega
  · generalize Format.magnitude x / 2 ^ type.format.significandBits = number at field ⊢
    omega

/-- A shift by the distance from the leading place to the exponent places the bits. -/
theorem toNat_shifted_pattern (unsigned : target.isSigned = false) {pattern : Value word target}
    {shift : Value word .int} (nonzero : Format.magnitude x ≠ 0)
    (value : BitVec.toNat pattern = Format.magnitude x % 2 ^ type.format.significandBits)
    (amount : toInt word .int shift =
      type.format.exponent (Format.magnitude x) - leadingPlace type (Format.magnitude x))
    (inside : type.format.exponent (Format.magnitude x) < target.bitWidth word) :
    BitVec.toNat (smartShiftLeft word target pattern shift) =
      placed type.format (Format.magnitude x) := by
  have lead := pattern_lt_leading nonzero
  have fits := Nat.mod_lt (Format.magnitude x) (Nat.two_pow_pos type.format.significandBits)
  rw [placed]
  by_cases whole : 0 ≤ type.format.exponent (Format.magnitude x)
  · have normal : ¬ Format.magnitude x < 2 ^ type.format.significandBits := by
      intro subnormal
      have negative := exponent_subnormal type.format nonzero subnormal
      omega
    have place : leadingPlace type (Format.magnitude x) = type.format.significandBits :=
      if_neg normal
    rw [if_pos whole]
    rw [place] at amount
    rcases Int.eq_ofNat_of_zero_le whole with ⟨e, exponent⟩
    rw [exponent] at inside amount ⊢
    rw [Int.toNat_natCast]
    rcases Nat.lt_or_ge e type.format.significandBits with short | long
    · have split : 2 ^ type.format.significandBits =
          2 ^ (type.format.significandBits - e) * 2 ^ e := by
        rw [← pow_add, Nat.sub_add_cancel short.le]
      have down := @toNat_shifted_down word target (type.format.significandBits - e) shift pattern
        unsigned (by omega)
      rw [down, value]
      generalize Format.magnitude x % 2 ^ type.format.significandBits = low
      rw [split, Nat.mul_div_mul_right _ _ (Nat.two_pow_pos _)]
    · have split : 2 ^ e = 2 ^ (e - type.format.significandBits) *
          2 ^ type.format.significandBits := by
        rw [← pow_add, Nat.sub_add_cancel long]
      have room : BitVec.toNat pattern * 2 ^ (e - type.format.significandBits) <
          2 ^ target.bitWidth word := by
        calc BitVec.toNat pattern * 2 ^ (e - type.format.significandBits)
            < 2 ^ type.format.significandBits * 2 ^ (e - type.format.significandBits) := by
              rw [value]
              exact Nat.mul_lt_mul_of_pos_right fits (Nat.two_pow_pos _)
          _ = 2 ^ e := by rw [split, Nat.mul_comm]
          _ ≤ 2 ^ target.bitWidth word := Nat.pow_le_pow_right (by decide) (by omega)
      rw [toNat_shifted_up unsigned (by omega) room, value, split, ← Nat.mul_assoc,
        Nat.mul_div_cancel _ (Nat.two_pow_pos _)]
  · rw [if_neg whole]
    have down := @toNat_shifted_down word target
      ((leadingPlace type (Format.magnitude x) : ℤ) -
        type.format.exponent (Format.magnitude x)).toNat shift pattern unsigned (by omega)
    rw [down, value]
    apply Nat.div_eq_of_lt
    apply lead.2.trans_le
    exact Nat.pow_le_pow_right (by decide) (by omega)

theorem toNat_shiftedBitPattern (unsigned : target.isSigned = false)
    (finite : Format.magnitude x < type.format.infinity) (nonzero : Format.magnitude x ≠ 0)
    (inside : type.format.exponent (Format.magnitude x) < target.bitWidth word) :
    BitVec.toNat (shiftedBitPattern word target x) = placed type.format (Format.magnitude x) := by
  have pattern := @toNat_significandBitPattern word type x
  have fits := Nat.mod_lt (Format.magnitude x) (Nat.two_pow_pos type.format.significandBits)
  have raw := @toNat_truncatingIfNeeded_raw word target type (significandBitPattern word x)
    (by omega)
  have lead := pattern_lt_leading nonzero
  have few := significandBits_lt_32 type
  have narrow := significandBits_lt_bitWidth word type
  have below := placed_lt type.format inside.le
  have exponents := @toInt_exponent word type x finite nonzero
  rw [shiftedBitPattern]
  by_cases whole : significandBitPattern word x = 0
  · have nothing : BitVec.toNat (significandBitPattern word x) = 0 := congrArg BitVec.toNat whole
    rw [nothing] at pattern raw
    have none_ : placed type.format (Format.magnitude x) = 0 := by
      rw [placed, ← pattern, Nat.zero_mul, Nat.zero_div, ite_self]
    rw [none_]
    split_ifs with narrow
    · exact toNat_shifted_zero unsigned _ (raw.trans (Nat.zero_mod _))
    · have shifted := @toNat_shifted_zero word type.rawSignificand _ type.rawSignificand_unsigned
        (exponent word x - (significandWidth word x +
          trailingZeroBitCount word type.rawSignificand (significandBitPattern word x))) nothing
      rw [toNat_truncatingIfNeeded_raw (by rw [shifted]; exact Nat.two_pow_pos _), shifted,
        Nat.zero_mod]
  · have width := toInt_patternWidth word finite nonzero whole
    generalize significandWidth word x +
      trailingZeroBitCount word type.rawSignificand (significandBitPattern word x) = bitWidth
      at width ⊢
    have bounds := exponent_bounds nonzero
    have amount : toInt word .int (exponent word x - bitWidth) =
        type.format.exponent (Format.magnitude x) - leadingPlace type (Format.magnitude x) := by
      rw [toInt_sub_of_small, exponents, width]
      · omega
      · omega
    have narrow : less word .int bitWidth (bitWidthInt word target) = true ↔
        leadingPlace type (Format.magnitude x) < target.bitWidth word := by
      rw [less_bitWidthInt_iff, width, Nat.cast_lt]
    split_ifs with roomy
    · apply toNat_shifted_pattern unsigned nonzero _ amount inside
      have fitting : 2 ^ (leadingPlace type (Format.magnitude x) + 1) ≤
          2 ^ target.bitWidth word := Nat.pow_le_pow_right (by decide) (narrow.mp roomy)
      rw [raw, pattern, Nat.mod_eq_of_lt (lead.2.trans_le fitting)]
    · -- The integer has no place for the pattern, so the pattern is shifted to the right.
      have short : ¬ leadingPlace type (Format.magnitude x) < target.bitWidth word :=
        fun claimed => roomy (narrow.mpr claimed)
      have shifted := toNat_shifted_pattern type.rawSignificand_unsigned nonzero pattern amount
        (by omega)
      have small : placed type.format (Format.magnitude x) < 2 ^ type.format.significandBits :=
        below.trans_le (Nat.pow_le_pow_right (by decide) (by omega))
      rw [toNat_truncatingIfNeeded_raw (by rw [shifted]; exact small), shifted,
        Nat.mod_eq_of_lt below]

end Patterns

section Truncation

/-- The integer part of a value. -/
def truncated (x : FloatingPoint type) : ℤ :=
  if negative x then -⌊type.format.value (Format.magnitude x)⌋₊
  else ⌊type.format.value (Format.magnitude x)⌋₊

theorem natAbs_truncated (x : FloatingPoint type) :
    (truncated x).natAbs = ⌊type.format.value (Format.magnitude x)⌋₊ := by
  rw [truncated]
  split_ifs
  · rw [Int.natAbs_neg, Int.natAbs_natCast]
  · rw [Int.natAbs_natCast]

/-- The leading bit of an integer part is at the place of the exponent. -/
theorem floor_value (nonzero : Format.magnitude x ≠ 0) :
    ⌊type.format.value (Format.magnitude x)⌋₊ =
      if 0 ≤ type.format.exponent (Format.magnitude x) then
        2 ^ (type.format.exponent (Format.magnitude x)).toNat +
          placed type.format (Format.magnitude x)
      else 0 := by
  have bounds := value_bounds (f := type.format) nonzero
  split_ifs with whole
  · have normal : ¬ Format.magnitude x < 2 ^ type.format.significandBits := by
      intro subnormal
      have negative := exponent_subnormal type.format nonzero subnormal
      omega
    rw [placed, if_pos whole, value_of_normal (Nat.le_of_not_lt normal)]
    rcases Int.eq_ofNat_of_zero_le whole with ⟨e, exponent⟩
    rw [exponent, Int.toNat_natCast]
    have quotient : (2 ^ type.format.significandBits +
        (Format.magnitude x % 2 ^ type.format.significandBits : ℕ) : ℚ) *
          2 ^ ((e : ℤ) - type.format.significandBits) =
        ((2 ^ type.format.significandBits +
          Format.magnitude x % 2 ^ type.format.significandBits) * 2 ^ e : ℕ) /
            (2 ^ type.format.significandBits : ℕ) := by
      rw [zpow_sub₀ (by norm_num), zpow_natCast, zpow_natCast]
      push_cast
      rw [mul_div_assoc]
    rw [quotient, Nat.floor_div_eq_div, Nat.add_mul, Nat.add_div_of_dvd_right ⟨_, rfl⟩,
      Nat.mul_div_cancel_left _ (Nat.two_pow_pos _)]
  · apply Nat.floor_eq_zero.mpr
    apply bounds.2.trans_le
    exact zpow_le_one_of_nonpos₀ (by norm_num) (by omega)

/-- A value is an integer where its exponent covers all binary places of its significand. -/
theorem whole_iff (word : WordSize) (finite : Format.magnitude x < type.format.infinity)
    (nonzero : Format.magnitude x ≠ 0) :
    (!less word .int (exponent word x) (significandWidth word x)) = true ↔
      type.format.value (Format.magnitude x) = ⌊type.format.value (Format.magnitude x)⌋₊ := by
  rcases @value_eq_odd word type x finite nonzero with ⟨odd, isOdd, _, value⟩
  rw [Bool.not_eq_true', ← Bool.not_eq_true, less_iff, not_lt, value]
  generalize toInt word .int (exponent word x) = exponent
  generalize toInt word .int (significandWidth word x) = width
  constructor
  · intro covered
    rcases Int.eq_ofNat_of_zero_le (sub_nonneg.mpr covered) with ⟨places, same⟩
    have number : (odd : ℚ) * 2 ^ (exponent - width) = (odd * 2 ^ places : ℕ) := by
      rw [same, zpow_natCast]
      push_cast
      rfl
    rw [number, Nat.floor_natCast]
  · intro whole
    by_contra beyond
    rcases Int.eq_ofNat_of_zero_le (show 0 ≤ width - exponent - 1 by omega) with ⟨places, same⟩
    generalize ⌊(odd : ℚ) * 2 ^ (exponent - width)⌋₊ = number at whole
    -- The odd number would be twice another one.
    have turned : (odd : ℚ) = (number * 2 ^ (places + 1) : ℕ) := by
      have scale : exponent - width = -(places + 1 : ℕ) := by
        push_cast
        omega
      rw [scale, zpow_neg, zpow_natCast] at whole
      push_cast
      rw [← whole, inv_mul_cancel_right₀ (by positivity)]
    have turned : odd = number * 2 ^ (places + 1) := by exact_mod_cast turned
    rw [turned, pow_succ, ← Nat.mul_assoc] at isOdd
    exact Nat.not_even_iff_odd.mpr isOdd (Nat.even_mul.mpr (Or.inr even_two))

theorem number_eq_truncated_iff : number x = truncated x ↔
    type.format.value (Format.magnitude x) = ⌊type.format.value (Format.magnitude x)⌋₊ := by
  rw [number, truncated]
  split_ifs
  · push_cast
    exact neg_inj
  · rw [Int.cast_natCast]

end Truncation

section Signs

theorem value_one (type : FloatingPointType) :
    type.format.value (Format.magnitude (one type)) = 1 := by
  have word_ : Format.magnitude (one type) =
      type.format.bias * 2 ^ type.format.significandBits + 0 ∧ type.format.bias ≠ 0 := by
    cases type <;> decide
  rw [word_.1, value_fields word_.2 (Nat.two_pow_pos _), sub_self, zero_sub, Nat.cast_zero,
    add_zero, ← zpow_natCast, ← zpow_add₀ (by norm_num), add_neg_cancel, zpow_zero]

/-- What is greater than minus one has no integer part on the negative side. -/
theorem above_minus_one_iff (finite : Format.magnitude x < type.format.infinity) :
    isLess (negate (one type)) x = true ↔
      negative x = true → ⌊type.format.value (Format.magnitude x)⌋₊ = 0 := by
  have unit : Format.magnitude (one type) ≤ type.format.infinity ∧
      place (negate (one type)) = -Format.magnitude (one type) ∧
      0 < Format.magnitude (one type) := by cases type <;> decide
  have below : type.format.value (Format.magnitude x) < 1 ↔
      Format.magnitude x < Format.magnitude (one type) := by
    rw [← value_one type]
    exact value_strictMono.lt_iff_lt
  rw [isLess_iff, (fields_negate (one type)).1, unit.2.1, Nat.floor_eq_zero, below, place]
  cases negative x with
  | true =>
      rw [if_pos rfl]
      constructor
      · rintro ⟨_, greater⟩ _
        omega
      · intro small
        have less := small rfl
        exact ⟨⟨unit.1, finite.le⟩, by omega⟩
  | false =>
      rw [if_neg Bool.false_ne_true]
      constructor
      · intro _ claimed
        cases claimed
      · intro _
        exact ⟨⟨unit.1, finite.le⟩, by omega⟩

theorem below_zero_iff (finite : Format.magnitude x < type.format.infinity)
    (nonzero : Format.magnitude x ≠ 0) :
    isLess x (0 : FloatingPoint type) = true ↔ negative x = true := by
  have zero : Format.magnitude (0 : FloatingPoint type) = 0 ∧
      place (0 : FloatingPoint type) = 0 := by cases type <;> decide
  rw [isLess_iff, zero.1, zero.2, place]
  cases negative x with
  | true =>
      rw [if_pos rfl]
      exact iff_of_true ⟨⟨finite.le, Nat.zero_le _⟩, by omega⟩ rfl
  | false =>
      rw [if_neg Bool.false_ne_true]
      exact iff_of_false (fun claimed => by omega) Bool.false_ne_true

end Signs

section Conversion

/-- What a conversion owes: the integer part where the type has it, and whether it is all. -/
structure ConvertsFloatingPoint (word : WordSize) (target : IntegerType) (x : FloatingPoint type)
    (result : Option (Value word target) × Bool) : Prop where
  value_iff : ∀ y, result.1 = some y ↔
    Format.magnitude x < type.format.infinity ∧ toInt word target y = truncated x
  exact_iff : ∀ y, result.1 = some y → (result.2 = true ↔ number x = truncated x)

theorem converts_none (refused : Format.magnitude x < type.format.infinity →
    ¬ InRange word target (truncated x)) :
    ConvertsFloatingPoint word target x (none, false) := by
  constructor
  · intro y
    refine iff_of_false (fun claimed => by cases claimed) ?_
    rintro ⟨finite, value⟩
    apply refused finite
    rw [← value]
    exact inRange_toInt y
  · intro y claimed
    cases claimed

theorem converts_some {y : Value word target} {exactly : Bool}
    (finite : Format.magnitude x < type.format.infinity)
    (value : toInt word target y = truncated x)
    (whole : exactly = true ↔ number x = truncated x) :
    ConvertsFloatingPoint word target x (some y, exactly) := by
  constructor
  · intro z
    constructor
    · intro found
      rw [← Option.some_inj.mp found]
      exact ⟨finite, value⟩
    · rintro ⟨_, same⟩
      exact congrArg some (toInt_injective (value.trans same.symm))
  · intro _ _
    exact whole

/-- The integer part, assembled in the type of the magnitude, and the value that it becomes. -/
theorem toNat_assembled (unsigned : target.isSigned = false)
    (finite : Format.magnitude x < type.format.infinity) (nonzero : Format.magnitude x ≠ 0)
    (inside : type.format.exponent (Format.magnitude x) < target.bitWidth word) :
    BitVec.toNat (smartShiftLeft word target 1 (exponent word x) |||
      shiftedBitPattern word target x) = ⌊type.format.value (Format.magnitude x)⌋₊ := by
  have exponents := @toInt_exponent word type x finite nonzero
  have low := @toNat_shiftedBitPattern word target type x unsigned finite nonzero inside
  have unit : BitVec.toNat (1 : Value word target) = 1 := by
    cases word <;> cases target <;> rfl
  rw [floor_value nonzero, BitVec.or_comm]
  split_ifs with whole
  · rcases Int.eq_ofNat_of_zero_le whole with ⟨e, exponent⟩
    have below := placed_lt type.format exponent.le
    rw [exponent] at exponents inside ⊢
    have room : 2 ^ e < 2 ^ target.bitWidth word :=
      Nat.pow_lt_pow_right (by decide) (by omega)
    have high := @toNat_shifted_up word target e _ 1 unsigned exponents
      (by rwa [unit, Nat.one_mul])
    rw [unit, Nat.one_mul] at high
    rw [BitFields.toNat_or e (by rwa [low]) (by rw [high, Nat.mod_self]), low, high,
      Int.toNat_natCast, Nat.add_comm]
  · have down := @toNat_shifted_down word target
      (-type.format.exponent (Format.magnitude x)).toNat _ 1 unsigned
      (exponents.trans (by omega))
    have nothing : 1 / 2 ^ (-type.format.exponent (Format.magnitude x)).toNat = 0 := by
      apply Nat.div_eq_of_lt
      exact Nat.one_lt_two_pow (by omega)
    rw [unit, nothing] at down
    rw [placed, if_neg whole] at low
    rw [BitVec.toNat_or, low, down]
    rfl

theorem inRange_unsigned_iff (unsigned : target.isSigned = false) :
    InRange word target (truncated x) ↔
      (negative x = true → ⌊type.format.value (Format.magnitude x)⌋₊ = 0) ∧
        ⌊type.format.value (Format.magnitude x)⌋₊ < 2 ^ target.bitWidth word := by
  have positive := Nat.two_pow_pos (target.bitWidth word)
  have power : ((2 ^ target.bitWidth word : ℕ) : ℤ) = 2 ^ target.bitWidth word := by push_cast; rfl
  rw [InRange, unsigned, TwosComplement.minimum, TwosComplement.maximum,
    if_neg Bool.false_ne_true, if_neg Bool.false_ne_true, truncated, ← power]
  generalize ⌊type.format.value (Format.magnitude x)⌋₊ = floor
  cases negative x with
  | true =>
      simp only [if_true, true_implies]
      omega
  | false =>
      simp only [Bool.false_eq_true, if_false, false_implies, true_and]
      omega

theorem inRange_signed_iff (signed : target.isSigned = true) :
    InRange word target (truncated x) ↔
      ⌊type.format.value (Format.magnitude x)⌋₊ < 2 ^ (target.bitWidth word - 1) ∨
        negative x = true ∧
          ⌊type.format.value (Format.magnitude x)⌋₊ = 2 ^ (target.bitWidth word - 1) := by
  have positive := Nat.two_pow_pos (target.bitWidth word - 1)
  have power : ((2 ^ (target.bitWidth word - 1) : ℕ) : ℤ) = 2 ^ (target.bitWidth word - 1) := by
    push_cast
    rfl
  rw [InRange, signed, TwosComplement.minimum, TwosComplement.maximum, if_pos rfl, if_pos rfl,
    truncated, ← power]
  generalize ⌊type.format.value (Format.magnitude x)⌋₊ = floor
  cases negative x with
  | true =>
      simp only [if_true, true_and]
      omega
  | false =>
      simp only [Bool.false_eq_true, if_false, false_and, or_false]
      omega

/-- The value that the integer part becomes, where the type holds it with its sign. -/
theorem toInt_signed_part {part : Value word target} (magnitude : BitVec.toNat part =
      ⌊type.format.value (Format.magnitude x)⌋₊)
    (unsigned : target.isSigned = false → negative x = true →
      ⌊type.format.value (Format.magnitude x)⌋₊ = 0)
    (signed : target.isSigned = true →
      ⌊type.format.value (Format.magnitude x)⌋₊ < 2 ^ (target.bitWidth word - 1)) :
    toInt word target (if (target.isSigned && negative x) = true then 0 - part else part) =
      truncated x := by
  rw [truncated]
  generalize ⌊type.format.value (Format.magnitude x)⌋₊ = floor at magnitude unsigned signed ⊢
  cases kind : target.isSigned with
  | true =>
      have small := signed kind
      have power : ((2 ^ (target.bitWidth word - 1) : ℕ) : ℤ) = 2 ^ (target.bitWidth word - 1) := by
        push_cast
        rfl
      have same : part = BitVec.ofNat _ floor := by
        rw [← magnitude, BitVec.ofNat_toNat, BitVec.setWidth_eq]
      have value : toInt word target part = floor := by
        rw [same]
        exact toInt_ofNat small
      rw [Bool.true_and]
      cases negative x with
      | true =>
          rw [if_pos rfl, if_pos rfl, toInt_sub, toInt_zero, value, zero_sub]
          · rw [toInt_zero, value, kind, TwosComplement.minimum, if_pos rfl]
            omega
          · have top := maximum_nonneg target.isSigned (target.bitWidth word)
            rw [toInt_zero, value]
            omega
      | false => rw [if_neg Bool.false_ne_true, if_neg Bool.false_ne_true, value]
  | false =>
      have value : toInt word target part = floor := by
        rw [toInt_unsigned kind, magnitude]
      rw [Bool.false_and, if_neg Bool.false_ne_true, value]
      split_ifs with minus
      · rw [unsigned kind minus]
        rfl
      · rfl

theorem not_inRange_of_exponent (nonzero : Format.magnitude x ≠ 0)
    (beyond : target.bitWidth word ≤ type.format.exponent (Format.magnitude x)) :
    ¬ InRange word target (truncated x) := by
  have floor := floor_value nonzero
  have less : 2 ^ (target.bitWidth word - 1) < 2 ^ target.bitWidth word :=
    Nat.pow_lt_pow_right (by decide) (Nat.sub_lt (target.bitWidth_pos word) Nat.one_pos)
  have most : 2 ^ target.bitWidth word ≤
      2 ^ (type.format.exponent (Format.magnitude x)).toNat :=
    Nat.pow_le_pow_right (by decide) (by omega)
  rw [if_pos (by omega)] at floor
  cases kind : target.isSigned with
  | true =>
      rw [inRange_signed_iff kind]
      omega
  | false =>
      rw [inRange_unsigned_iff kind]
      omega

section Finite

variable (finite : Format.magnitude x < type.format.infinity) (nonzero : Format.magnitude x ≠ 0)

include finite nonzero

theorem signed_last_iff : (target.isSigned && bitWidthInt word target - 1 == exponent word x) =
      true ↔
    target.isSigned = true ∧
      type.format.exponent (Format.magnitude x) = (target.bitWidth word - 1 : ℕ) := by
  have exponents := @toInt_exponent word type x finite nonzero
  have positive := target.bitWidth_pos word
  have most := target.bitWidth_le word
  have bits := toInt_bitWidthInt word target
  have one := toInt_int_one word
  have last : toInt word .int (bitWidthInt word target - 1) = (target.bitWidth word - 1 : ℕ) := by
    rw [toInt_sub_of_small, bits, one]
    · omega
    · omega
    · omega
  rw [Bool.and_eq_true, beq_iff_eq, ← exponents, ← last]
  apply and_congr_right'
  constructor
  · intro same
    rw [same]
  · intro same
    exact toInt_injective same.symm

/-- At the last place of a signed type there is only the least value. -/
theorem converts_last (signed : target.isSigned = true)
    (last : type.format.exponent (Format.magnitude x) = (target.bitWidth word - 1 : ℕ))
    {exactly : Bool} (whole : exactly = true ↔ number x = truncated x) :
    ConvertsFloatingPoint word target x
      (if (isLess x 0 && shiftedBitPattern word target.magnitude x == 0) = true then
        (some (minValue word target), exactly) else (none, false)) := by
  have unsigned : target.magnitude.isSigned = false := by cases target <;> rfl
  have width := target.bitWidth_magnitude word
  have positive := target.bitWidth_pos word
  have floor := floor_value nonzero
  have shifted := @toNat_shiftedBitPattern word target.magnitude type x unsigned finite nonzero
    (by omega)
  rw [last, if_pos (Int.natCast_nonneg _), Int.toNat_natCast] at floor
  have nothing : (shiftedBitPattern word target.magnitude x == 0) = true ↔
      placed type.format (Format.magnitude x) = 0 := by
    rw [beq_iff_eq, ← shifted, ← BitVec.toNat_inj]
    rfl
  have least_iff : (isLess x 0 && shiftedBitPattern word target.magnitude x == 0) = true ↔
      negative x = true ∧ placed type.format (Format.magnitude x) = 0 := by
    rw [Bool.and_eq_true, below_zero_iff finite nonzero, nothing]
  split_ifs with least
  · rw [least_iff] at least
    apply converts_some finite _ whole
    rw [toInt_minValue, signed, TwosComplement.minimum, if_pos rfl, truncated, if_pos least.1,
      floor, least.2]
    push_cast
    rfl
  · rw [least_iff] at least
    apply converts_none
    rw [inRange_signed_iff signed]
    rintro _ (less | ⟨minus, same⟩)
    · omega
    · exact least ⟨minus, by omega⟩

/-- Everywhere else the integer part is assembled from its leading bit and the others. -/
theorem converts_rest (inside : type.format.exponent (Format.magnitude x) < target.bitWidth word)
    (above : target.isSigned = false → negative x = true →
      ⌊type.format.value (Format.magnitude x)⌋₊ = 0)
    (notLast : ¬ (target.isSigned = true ∧
      type.format.exponent (Format.magnitude x) = (target.bitWidth word - 1 : ℕ)))
    {exactly : Bool} (whole : exactly = true ↔ number x = truncated x) :
    ConvertsFloatingPoint word target x
      (some (if (target.isSigned && isLess x 0) = true then
        0 - truncatingIfNeeded word target target.magnitude
          (smartShiftLeft word target.magnitude 1 (exponent word x) |||
            shiftedBitPattern word target.magnitude x)
        else truncatingIfNeeded word target target.magnitude
          (smartShiftLeft word target.magnitude 1 (exponent word x) |||
            shiftedBitPattern word target.magnitude x)), exactly) := by
  have unsigned : target.magnitude.isSigned = false := by cases target <;> rfl
  have width := target.bitWidth_magnitude word
  have positive := target.bitWidth_pos word
  have assembled := @toNat_assembled word target.magnitude type x unsigned finite nonzero
    (by omega)
  have kept := @truncatingIfNeeded_mod word target.magnitude target unsigned
    (smartShiftLeft word target.magnitude 1 (exponent word x) |||
      shiftedBitPattern word target.magnitude x) _ width.le le_rfl
  have small : BitVec.toNat (smartShiftLeft word target.magnitude 1 (exponent word x) |||
      shiftedBitPattern word target.magnitude x) < 2 ^ target.bitWidth word :=
    lt_of_lt_of_eq (BitVec.isLt _) (congrArg (2 ^ ·) width.symm)
  rw [Nat.mod_eq_of_lt (BitVec.isLt _), Nat.mod_eq_of_lt small, assembled] at kept
  have minus : isLess x (0 : FloatingPoint type) = negative x :=
    Bool.eq_iff_iff.mpr (below_zero_iff finite nonzero)
  rw [minus]
  apply converts_some finite _ whole
  apply toInt_signed_part kept above
  intro signed
  have bounds := value_bounds (f := type.format) nonzero
  have less : type.format.exponent (Format.magnitude x) + 1 ≤ (target.bitWidth word - 1 : ℕ) := by
    have different : type.format.exponent (Format.magnitude x) ≠ (target.bitWidth word - 1 : ℕ) :=
      fun same => notLast ⟨signed, same⟩
    omega
  have top : type.format.value (Format.magnitude x) < (2 ^ (target.bitWidth word - 1) : ℕ) := by
    apply bounds.2.trans_le
    push_cast
    rw [← zpow_natCast]
    exact zpow_le_zpow_right₀ (by norm_num) less
  have nonnegative : 0 ≤ type.format.value (Format.magnitude x) :=
    (zpow_nonneg (by norm_num) _).trans bounds.1
  exact (Nat.floor_lt nonnegative).mpr top

end Finite

theorem convertFloatingPoint_converts (word : WordSize) (target : IntegerType)
    (x : FloatingPoint type) :
    ConvertsFloatingPoint word target x (convertFloatingPoint word target x) := by
  rw [convertFloatingPoint]
  by_cases zero : Format.magnitude x = 0
  · have nothing : ⌊type.format.value (Format.magnitude x)⌋₊ = 0 := by
      rw [zero, value_zero, Nat.floor_zero]
    have part : truncated x = 0 := by
      rw [← Int.natAbs_eq_zero, natAbs_truncated, nothing]
    have positive : 0 < type.format.infinity := by cases type <;> decide
    rw [if_pos (isZero_iff.mpr zero)]
    apply converts_some (by omega)
    · rw [toInt_zero, part]
    · rw [number_eq_truncated_iff, nothing, zero, value_zero, Nat.cast_zero]
      exact iff_of_true rfl rfl
  · rw [if_neg (fun claimed => zero (isZero_iff.mp claimed))]
    by_cases finite : Format.magnitude x < type.format.infinity
    · have exponents := @toInt_exponent word type x finite zero
      have bits := toInt_bitWidthInt word target
      have whole := (whole_iff word finite zero).trans number_eq_truncated_iff.symm
      have above := above_minus_one_iff finite
      rw [isFinite_iff.mpr finite, if_neg (by decide)]
      by_cases guarded : (!(target.isSigned || isLess (negate (one type)) x)) = true
      · rw [if_pos guarded]
        rw [Bool.not_eq_true', Bool.or_eq_false_iff, ← Bool.not_eq_true (isLess _ _), above]
          at guarded
        apply converts_none
        rw [inRange_unsigned_iff guarded.1]
        exact fun _ claimed => guarded.2 claimed.1
      · rw [if_neg guarded]
        dsimp only
        by_cases inside : type.format.exponent (Format.magnitude x) < target.bitWidth word
        · have accepted : less word .int (exponent word x) (bitWidthInt word target) = true := by
            rw [less_iff, exponents, bits]
            exact inside
          have last_iff := @signed_last_iff word target type x finite zero
          rw [accepted, if_neg (by decide)]
          by_cases last : (target.isSigned && bitWidthInt word target - 1 == exponent word x) = true
          · rw [if_pos last]
            rw [last_iff] at last
            exact converts_last finite zero last.1 last.2 whole
          · rw [if_neg last]
            rw [last_iff] at last
            apply converts_rest finite zero inside _ last whole
            intro unsigned
            rwa [Bool.not_eq_true', Bool.not_eq_false, unsigned, Bool.false_or, above] at guarded
        · have refused : less word .int (exponent word x) (bitWidthInt word target) = false := by
            rw [← Bool.not_eq_true, less_iff, exponents, bits]
            exact inside
          rw [refused, if_pos Bool.not_false]
          exact converts_none fun _ => not_inRange_of_exponent zero (Int.not_lt.mp inside)
    · have infinite : isFinite word x = false := by
        rw [← Bool.not_eq_true, isFinite_iff]
        exact finite
      rw [infinite, if_pos Bool.not_false]
      exact converts_none fun claimed => absurd claimed finite

/-- A value that is an integer is its own integer part. -/
theorem truncated_of_number_eq {a : ℤ} (same : number x = a) : truncated x = a := by
  have nonnegative : 0 ≤ type.format.value (Format.magnitude x) := by
    rw [← value_zero (f := type.format)]
    exact value_le_value.mpr (Nat.zero_le _)
  rw [number] at same
  rw [truncated]
  split_ifs at same ⊢
  · have value : type.format.value (Format.magnitude x) = (-a : ℤ) := by
      push_cast
      linarith
    have sign : (0 : ℚ) ≤ (-a : ℤ) := by rwa [← value]
    rcases Int.eq_ofNat_of_zero_le (Int.cast_nonneg_iff.mp sign) with ⟨part, whole⟩
    rw [value, whole, Int.cast_natCast, Nat.floor_natCast]
    omega
  · rw [same] at nonnegative
    rcases Int.eq_ofNat_of_zero_le (Int.cast_nonneg_iff.mp nonnegative) with ⟨part, whole⟩
    rw [same, whole, Int.cast_natCast, Nat.floor_natCast]

theorem exists_toInt_eq {a : ℤ} (inside : InRange word target a) :
    ∃ y : Value word target, toInt word target y = a := by
  have positive := target.bitWidth_pos word
  refine ⟨BitVec.ofInt _ a, ?_⟩
  exact (value_eq_wrap positive (value_ofInt_modEq _ _ a)).trans
    (wrap_of_bounds positive inside.1 inside.2)

theorem toInt_ofFloatingPoint (word : WordSize) (target : IntegerType) (x : FloatingPoint type) :
    toInt word target (ofFloatingPoint word target x) =
      if Format.magnitude x < type.format.infinity ∧ InRange word target (truncated x) then
        truncated x else 0 := by
  have converts := convertFloatingPoint_converts word target x
  rw [ofFloatingPoint]
  split_ifs with held
  · rcases exists_toInt_eq held.2 with ⟨y, value⟩
    rw [(converts.value_iff y).mpr ⟨held.1, value⟩, Option.getD_some, value]
  · cases found : (convertFloatingPoint word target x).1 with
    | none => exact toInt_zero word target
    | some y =>
        rcases (converts.value_iff y).mp found with ⟨finite, value⟩
        rw [← value] at held
        exact absurd ⟨finite, inRange_toInt y⟩ held

theorem ofFloatingPointExactly_iff {x : FloatingPoint type} (y : Value word target) :
    ofFloatingPointExactly word target x = some y ↔
      Format.magnitude x < type.format.infinity ∧ number x = toInt word target y := by
  have converts := convertFloatingPoint_converts word target x
  have exactly : ofFloatingPointExactly word target x =
      if (convertFloatingPoint word target x).2 then (convertFloatingPoint word target x).1
      else none := rfl
  rw [exactly]
  constructor
  · intro found
    rw [Option.ite_none_right_eq_some] at found
    rcases found with ⟨whole, found⟩
    rcases (converts.value_iff y).mp found with ⟨finite, value⟩
    rw [value]
    exact ⟨finite, (converts.exact_iff y found).mp whole⟩
  · rintro ⟨finite, same⟩
    have value := truncated_of_number_eq same
    have found := (converts.value_iff y).mpr ⟨finite, value.symm⟩
    rw [if_pos ((converts.exact_iff y found).mpr (by rw [same, value]))]
    exact found

/--
The conversion of a floating-point value drops its fraction. There is a result where the value
is finite and the type has its integer part, `init(_:)` gives zero where there is none, and
`init(exactly:)` gives the integer that is equal to the value, where there is one.
-/
theorem convertFloatingPoint_truncates (word : WordSize) (target : IntegerType)
    (x : FloatingPoint type) :
    (∀ y : Value word target, (convertFloatingPoint word target x).1 = some y ↔
      Format.magnitude x < type.format.infinity ∧ toInt word target y = truncated x) ∧
    toInt word target (ofFloatingPoint word target x) =
      (if Format.magnitude x < type.format.infinity ∧ InRange word target (truncated x) then
        truncated x else 0) ∧
    ∀ y : Value word target, ofFloatingPointExactly word target x = some y ↔
      Format.magnitude x < type.format.infinity ∧ number x = toInt word target y := by
  have converts := convertFloatingPoint_converts word target x
  exact ⟨converts.value_iff, toInt_ofFloatingPoint word target x, ofFloatingPointExactly_iff⟩

section RoundTrips

variable {source : IntegerType} {y : FloatingPoint type}

/-- Of the two zeros the positive one stands for an integer. -/
theorem represents_iff {a : ℤ} : Represents a y ↔
    Format.magnitude y < type.format.infinity ∧ number y = a ∧
      (Format.magnitude y = 0 → negative y = false) := by
  have zero := value_zero (f := type.format)
  have ordered := @value_le_value type.format 0 (Format.magnitude y)
  rw [zero] at ordered
  have nonnegative := ordered.mpr (Nat.zero_le _)
  have absolute : ((a.natAbs : ℕ) : ℚ) = |(a : ℚ)| := by rw [Nat.cast_natAbs, Int.cast_abs]
  constructor
  · rintro ⟨finite, value, sign⟩
    rw [number, value, sign, absolute]
    refine ⟨finite, ?_, ?_⟩
    · by_cases below : a < 0
      · have below_ : (a : ℚ) < 0 := by exact_mod_cast below
        rw [if_pos (decide_eq_true below), abs_of_neg below_, neg_neg]
      · have above : (0 : ℚ) ≤ a := by exact_mod_cast Int.not_lt.mp below
        rw [if_neg (by simpa using below), abs_of_nonneg above]
    · intro nothing
      rw [nothing, zero] at value
      have none_ : a = 0 := Int.natAbs_eq_zero.mp (by exact_mod_cast value.symm)
      rw [none_]
      rfl
  · rintro ⟨finite, same, positive⟩
    rw [number] at same
    refine ⟨finite, ?_, ?_⟩
    · rw [absolute, ← same]
      split_ifs
      · rw [abs_neg, abs_of_nonneg nonnegative]
      · rw [abs_of_nonneg nonnegative]
    · split_ifs at same with minus
      · have some_ : Format.magnitude y ≠ 0 := fun nothing => by simp [positive nothing] at minus
        have strict := value_strictMono (f := type.format) (Nat.pos_of_ne_zero some_)
        rw [zero] at strict
        have below : (a : ℚ) < 0 := by rw [← same]; linarith
        rw [minus, decide_eq_true (by exact_mod_cast below)]
      · have above : (0 : ℚ) ≤ a := by rwa [← same]
        have above : 0 ≤ a := by exact_mod_cast above
        rw [Bool.not_eq_true] at minus
        rw [minus, decide_eq_false (Int.not_lt.mpr above)]

/--
An integer that is converted exactly to a floating-point type and then exactly to any integer
type is kept, and a floating-point value that is converted exactly to an integer and back is
kept but for the sign of a zero.
-/
theorem exact_conversions_round_trip (word : WordSize) (type : FloatingPointType)
    (x : Value word source) (y : FloatingPoint type) :
    (ofIntegerExactly word type x = some y → ∀ z : Value word target,
      ofFloatingPointExactly word target y = some z ↔
        toInt word target z = toInt word source x) ∧
    (ofFloatingPointExactly word source y = some x →
      ofIntegerExactly word type x = some (if Format.magnitude y = 0 then 0 else y)) := by
  have represented (w : FloatingPoint type) := @ofIntegerExactly_iff source word type x w
  constructor
  · intro found z
    rcases represents_iff.mp ((represented y).mp found) with ⟨finite, same, _⟩
    rw [ofFloatingPointExactly_iff, same]
    constructor
    · rintro ⟨_, equal⟩
      exact_mod_cast equal.symm
    · intro equal
      exact ⟨finite, by rw [equal]⟩
  · intro found
    rcases (ofFloatingPointExactly_iff x).mp found with ⟨finite, same⟩
    rw [represented, represents_iff]
    split_ifs with nothing
    · have zero : Format.magnitude (0 : FloatingPoint type) = 0 ∧
          negative (0 : FloatingPoint type) = false := by cases type <;> decide
      rw [number, nothing, value_zero, neg_zero, ite_self] at same
      rw [number, zero.1, zero.2, if_neg Bool.false_ne_true, value_zero]
      exact ⟨by omega, same, fun _ => rfl⟩
    · exact ⟨finite, same, fun claimed => absurd claimed nothing⟩

end RoundTrips

end Conversion

end FloatingPoint

end USwift
