import USwift.Collections.Ranges
import USwift.Integer.Distance
import USwift.Library.Positions

/-!
# Indices of closed ranges

The index operations of `ClosedRange`. The index behind the upper bound is a case of its
own, so that a range may end at the maximum of its type, and every operation converts
between the bounds and `Int` on its own.
-/

namespace USwift

open Positions

section Operations

variable {word : WordSize} {type : IntegerType}

namespace ClosedRange

variable (self : ClosedRange (Value word type))

/-- `index(after:)`. -/
def indexAfter : Index (Value word type) → Index (Value word type) :=
  (ClosedRange.collection word type).indexAfter self

/-- `index(before:)`, whose checks have no effect. -/
def indexBefore : Index (Value word type) → Index (Value word type)
  | .inRange x => .inRange (advanced word type x (-1))
  | .pastEnd => .inRange self.upperBound

/-- `index(_:offsetBy:)` for an index in the range. -/
def offsetInRange (x : Value word type) (distance : Value word .int) :
    Index (Value word type) :=
  let d := distanceTo x self.upperBound
  if !less word .int d distance then .inRange (advanced word type x (numericCast distance))
  else if d - (-1) == distance then .pastEnd
  else .pastEnd

/-- `index(_:offsetBy:)`, whose checks have no effect. -/
def indexOffsetBy (i : Index (Value word type)) (distance : Value word .int) :
    Index (Value word type) :=
  match i with
  | .inRange x => self.offsetInRange x distance
  | .pastEnd =>
      if distance == 0 then i
      else if less word .int distance 0 then
        self.offsetInRange self.upperBound (numericCast (distance + 1))
      else .pastEnd

/-- `distance(from:to:)`. -/
def distanceFrom : Index (Value word type) → Index (Value word type) → Value word .int
  | .inRange left, .inRange right => numericCast (distanceTo left right)
  | .inRange left, .pastEnd => numericCast (1 + distanceTo left self.upperBound)
  | .pastEnd, .inRange right => numericCast (distanceTo self.upperBound right - 1)
  | .pastEnd, .pastEnd => 0

/-- `count`. -/
def count : Value word .int :=
  self.distanceFrom (.inRange self.lowerBound) .pastEnd

/-- `<`. -/
def Index.less : Index (Value word type) → Index (Value word type) → Bool
  | .inRange l, .inRange r => USwift.less word type l r
  | .inRange _, .pastEnd => true
  | _, _ => false

end ClosedRange

end Operations

variable {word : WordSize} {type : IntegerType}

namespace ClosedRange

variable (self : ClosedRange (Value word type))

/-- The indices of the values between the bounds, and the one behind them. -/
def Valid : Index (Value word type) → Prop
  | .inRange x => toInt word type self.lowerBound ≤ toInt word type x ∧
      toInt word type x ≤ toInt word type self.upperBound
  | .pastEnd => True

/-- The number of values before an index. -/
def position : Index (Value word type) → ℤ
  | .inRange x => toInt word type x - toInt word type self.lowerBound
  | .pastEnd => toInt word type self.upperBound - toInt word type self.lowerBound + 1

/-- The bounds are of 16 bits, and their distance does not survive its conversion to `Int`. -/
def Overlong : Prop :=
  word = .word32 ∧ type.magnitude = .uint16 ∧
    2 ^ 15 ≤ toInt word type self.upperBound - toInt word type self.lowerBound

/-- The index operations agree with each other, with the order, and with the count. -/
structure IndicesConsistent (range : ClosedRange (Value word type)) : Prop where
  operations : Consistent range.Valid range.position (range.position .pastEnd) (toInt word .int)
    range.indexAfter range.indexBefore range.indexOffsetBy range.distanceFrom
  less_iff : ∀ i j, range.Valid i → range.Valid j →
    (i.less j = true ↔ 0 < toInt word .int (range.distanceFrom i j)) ∧
      (j.less i = true ↔ toInt word .int (range.distanceFrom i j) < 0)
  count_eq : toInt word .int range.count =
    toInt word type range.upperBound - toInt word type range.lowerBound + 1

end ClosedRange

namespace ClosedRange

variable {self : ClosedRange (Value word type)}

theorem numbered
    (ordered : toInt word type self.lowerBound ≤ toInt word type self.upperBound) :
    Numbered self.Valid self.position (self.position .pastEnd) where
  low i i_valid := by
    cases i with
    | inRange x => exact sub_nonneg.mpr i_valid.1
    | pastEnd =>
        simp only [position]
        omega
  high i i_valid := by
    cases i with
    | inRange x =>
        have below := i_valid.2
        simp only [position]
        omega
    | pastEnd => rfl
  injective i j i_valid j_valid same := by
    cases i with
    | inRange x =>
        cases j with
        | inRange y =>
            rw [toInt_injective (sub_left_injective same)]
        | pastEnd =>
            have below := i_valid.2
            simp only [position] at same
            omega
    | pastEnd =>
        cases j with
        | inRange y =>
            have below := j_valid.2
            simp only [position] at same
            omega
        | pastEnd => rfl

theorem after_moves :
    Moves self.Valid self.position (self.position .pastEnd) 1 self.indexAfter := by
  intro i i_valid low high
  cases i with
  | inRange x =>
      rcases i_valid with ⟨x_low, x_high⟩
      by_cases last : x = self.upperBound
      · have after : self.indexAfter (.inRange x) = .pastEnd := by
          simp [indexAfter, collection, last]
        rw [after]
        refine ⟨trivial, ?_⟩
        simp only [position, last]
      · have after : self.indexAfter (.inRange x) = .inRange (advanced word type x 1) := by
          simp [indexAfter, collection, last]
        have below : toInt word type x < toInt word type self.upperBound :=
          lt_of_le_of_ne x_high fun same => last (toInt_injective same)
        have moved := toInt_advanced_one below
        rw [after]
        refine ⟨⟨by omega, by omega⟩, ?_⟩
        simp only [position]
        omega
  | pastEnd => omega

/-- A move that stays between the bounds. -/
theorem toInt_advanced_of_valid (self : ClosedRange (Value word type)) {x : Value word type}
    {n : Value word .int} (short : -TwosComplement.maximum true word.bits ≤ toInt word .int n)
    (low : toInt word type self.lowerBound ≤ toInt word type x + toInt word .int n)
    (high : toInt word type x + toInt word .int n ≤ toInt word type self.upperBound) :
    toInt word type (advanced word type x n) = toInt word type x + toInt word .int n := by
  have bounds := int_bounds word
  apply toInt_advanced
  · rintro ⟨_, _, rfl⟩
    have least : toInt word .int (BitVec.intMin _) = TwosComplement.minimum true word.bits := by
      cases word <;> decide
    omega
  · exact ⟨(minimum_le_toInt _).trans low, high.trans (toInt_le_maximum _)⟩

theorem before_moves
    (ordered : toInt word type self.lowerBound ≤ toInt word type self.upperBound) :
    Moves self.Valid self.position (self.position .pastEnd) (-1) self.indexBefore := by
  intro i i_valid low high
  cases i with
  | inRange x =>
      rcases i_valid with ⟨x_low, x_high⟩
      simp only [position] at low high
      have bounds := int_bounds word
      have back := toInt_neg_one_int word
      have moved : toInt word type (advanced word type x (-1)) = toInt word type x - 1 := by
        rw [toInt_advanced_of_valid self (by omega) (by omega) (by omega), back]
        rfl
      refine ⟨⟨by omega, by omega⟩, ?_⟩
      simp only [indexBefore, position]
      omega
  | pastEnd =>
      refine ⟨⟨ordered, le_rfl⟩, ?_⟩
      simp only [indexBefore, position]
      omega

theorem valid_pastEnd : self.Valid .pastEnd :=
  trivial

theorem less_iff_position {i j : Index (Value word type)} (i_valid : self.Valid i)
    (j_valid : self.Valid j) : i.less j = true ↔ self.position i < self.position j := by
  cases i with
  | inRange x =>
      cases j with
      | inRange y =>
          rw [Index.less, less_iff]
          simp only [position]
          omega
      | pastEnd =>
          have below := i_valid.2
          simp only [Index.less, position, true_iff]
          omega
  | pastEnd =>
      cases j with
      | inRange y =>
          have below := j_valid.2
          simp only [Index.less, position, Bool.false_eq_true, false_iff]
          omega
      | pastEnd => simp [Index.less]

section Regular

variable
  (short : toInt word type self.upperBound - toInt word type self.lowerBound <
    TwosComplement.maximum true word.bits)
  (regular : ¬ self.Overlong)

include short regular

/-- Distances between the bounds are measured unless their conversion fails. -/
theorem toInt_distanceTo {x y : Value word type}
    (x_valid : self.Valid (.inRange x)) (y_valid : self.Valid (.inRange y)) :
    toInt word .int (distanceTo x y) = toInt word type y - toInt word type x := by
  rcases x_valid with ⟨x_low, x_high⟩
  rcases y_valid with ⟨y_low, y_high⟩
  have bounds := int_bounds word
  have fits : InRange word .int (toInt word type y - toInt word type x) := by
    constructor
    · change TwosComplement.minimum true word.bits ≤ _
      omega
    · change _ ≤ TwosComplement.maximum true word.bits
      omega
  apply (toInt_distanceTo_iff fits).mpr
  rintro ⟨_, leastDistance | ⟨word32, uint16, far⟩⟩
  · omega
  · have near : |toInt word type y - toInt word type x| ≤
        toInt word type self.upperBound - toInt word type self.lowerBound := by
      rw [abs_le]
      constructor <;> omega
    exact regular ⟨word32, uint16, far.trans near⟩

/-- `index(_:offsetBy:)` from an index in the range. -/
theorem offsetInRange_moves (n : Value word .int) {x : Value word type}
    (x_valid : self.Valid (.inRange x))
    (low : 0 ≤ self.position (.inRange x) + toInt word .int n)
    (high : self.position (.inRange x) + toInt word .int n ≤ self.position .pastEnd) :
    self.Valid (self.offsetInRange x n) ∧
      self.position (self.offsetInRange x n) =
        self.position (.inRange x) + toInt word .int n := by
  rcases x_valid with ⟨x_low, x_high⟩
  simp only [position] at low high
  have bounds := int_bounds word
  have d := toInt_distanceTo short regular ⟨x_low, x_high⟩ ⟨by omega, le_rfl⟩
  rw [offsetInRange]
  by_cases within : toInt word .int n ≤ toInt word .int (distanceTo x self.upperBound)
  · have test : (!less word .int (distanceTo x self.upperBound) n) = true := by
      rw [Bool.not_eq_true', ← Bool.not_eq_true, less_iff]
      omega
    have moved : toInt word type (advanced word type x n) = toInt word type x + toInt word .int n :=
      toInt_advanced_of_valid self (by omega) (by omega) (by omega)
    simp only [if_pos test, numericCast_eq]
    refine ⟨⟨by omega, by omega⟩, ?_⟩
    simp only [position]
    omega
  · have test : ¬ (!less word .int (distanceTo x self.upperBound) n) = true := by
      rw [Bool.not_eq_true', ← Bool.not_eq_true, less_iff]
      omega
    simp only [if_neg test, ite_self]
    refine ⟨trivial, ?_⟩
    simp only [position]
    omega

theorem offset_moves
    (ordered : toInt word type self.lowerBound ≤ toInt word type self.upperBound)
    (n : Value word .int) :
    Moves self.Valid self.position (self.position .pastEnd) (toInt word .int n)
      fun i => self.indexOffsetBy i n := by
  intro i i_valid low high
  cases i with
  | inRange x => exact offsetInRange_moves short regular n i_valid low high
  | pastEnd =>
      have bounds := int_bounds word
      have upper_valid : self.Valid (.inRange self.upperBound) := ⟨ordered, le_rfl⟩
      dsimp only
      rw [indexOffsetBy]
      rcases lt_trichotomy (toInt word .int n) 0 with backwards | zero | forwards
      · have notZero : ¬ (n == 0) = true := by
          rw [beq_iff_eq]
          rintro rfl
          rw [toInt_zero] at backwards
          omega
        have test : less word .int n 0 = true := by
          rw [less_iff, toInt_zero]
          exact backwards
        have unit := toInt_one_int word
        have least : TwosComplement.minimum true word.bits ≤ toInt word .int n :=
          minimum_le_toInt n
        have next : toInt word .int (n + 1) = toInt word .int n + 1 := by
          rw [toInt_int_add, unit] <;> rw [unit] <;> omega
        have place : self.position (.inRange self.upperBound) + toInt word .int (n + 1) =
            self.position .pastEnd + toInt word .int n := by
          simp only [position]
          omega
        simp only [if_neg notZero, if_pos test, numericCast_eq]
        rw [← place] at low high ⊢
        exact offsetInRange_moves short regular (n + 1) upper_valid low high
      · have isZero : (n == 0) = true := by
          rw [beq_iff_eq]
          exact toInt_injective (zero.trans (toInt_zero word .int).symm)
        rw [if_pos isZero, zero]
        exact ⟨trivial, (add_zero _).symm⟩
      · omega

theorem toInt_distanceFrom {i j : Index (Value word type)}
    (ordered : toInt word type self.lowerBound ≤ toInt word type self.upperBound)
    (i_valid : self.Valid i) (j_valid : self.Valid j) :
    toInt word .int (self.distanceFrom i j) = self.position j - self.position i := by
  have bounds := int_bounds word
  have unit := toInt_one_int word
  have upper_valid : self.Valid (.inRange self.upperBound) := ⟨ordered, le_rfl⟩
  cases i with
  | inRange x =>
      cases j with
      | inRange y =>
          have measured := toInt_distanceTo short regular i_valid j_valid
          simp only [distanceFrom, numericCast_eq, position]
          omega
      | pastEnd =>
          have measured := toInt_distanceTo short regular i_valid upper_valid
          rcases i_valid with ⟨low, high⟩
          simp only [distanceFrom, numericCast_eq, position]
          rw [toInt_int_add] <;> omega
  | pastEnd =>
      cases j with
      | inRange y =>
          have measured := toInt_distanceTo short regular upper_valid j_valid
          rcases j_valid with ⟨low, high⟩
          simp only [distanceFrom, numericCast_eq, position]
          rw [toInt_int_sub] <;> omega
      | pastEnd =>
          simp only [distanceFrom, position]
          rw [toInt_zero]
          omega

theorem indicesConsistent_of_regular
    (ordered : toInt word type self.lowerBound ≤ toInt word type self.upperBound) :
    self.IndicesConsistent where
  operations := Consistent.of_moves (numbered ordered) (fun _ _ => toInt_injective) after_moves
    (before_moves ordered) (offset_moves short regular ordered)
    fun _ _ => toInt_distanceFrom short regular ordered
  less_iff i j i_valid j_valid := by
    rw [toInt_distanceFrom short regular ordered i_valid j_valid,
      less_iff_position i_valid j_valid, less_iff_position j_valid i_valid]
    omega
  count_eq := by
    have first : self.Valid (.inRange self.lowerBound) := ⟨le_rfl, ordered⟩
    rw [count, toInt_distanceFrom short regular ordered first valid_pastEnd]
    simp only [position]
    omega

end Regular

/-- Bounds of 16 bits that are too far apart have different signs. -/
theorem losesDistance_of_overlong
    (ordered : toInt word type self.lowerBound ≤ toInt word type self.upperBound)
    (overlong : self.Overlong) :
    LosesDistance word type (toInt word type self.lowerBound)
      (toInt word type self.upperBound - toInt word type self.lowerBound) := by
  rcases overlong with ⟨rfl, uint16, far⟩
  refine ⟨fun signed signs => ?_, Or.inr ⟨rfl, uint16, far.trans (le_abs_self _)⟩⟩
  obtain rfl : type = .int16 := by
    revert uint16 signed
    cases type <;> simp
  have low : -2 ^ 15 ≤ toInt .word32 .int16 self.lowerBound := minimum_le_toInt _
  have high : toInt .word32 .int16 self.upperBound ≤ 2 ^ 15 - 1 := toInt_le_maximum _
  omega

/-- An overlong range has a wrong count. -/
theorem count_of_overlong
    (ordered : toInt word type self.lowerBound ≤ toInt word type self.upperBound)
    (short : toInt word type self.upperBound - toInt word type self.lowerBound <
      TwosComplement.maximum true word.bits)
    (overlong : self.Overlong) :
    toInt word .int self.count ≠
      toInt word type self.upperBound - toInt word type self.lowerBound + 1 := by
  have bounds := int_bounds word
  have fits : InRange word .int
      (toInt word type self.upperBound - toInt word type self.lowerBound) := by
    constructor
    · change TwosComplement.minimum true word.bits ≤ _
      omega
    · exact short.le
  have wrong := (toInt_distanceTo_iff fits).not.mpr
    (not_not.mpr (losesDistance_of_overlong ordered overlong))
  intro right
  apply wrong
  rw [count, distanceFrom, numericCast_eq] at right
  have sum := TwosComplement.value_add_modEq true (1 : Value word .int)
    (distanceTo self.lowerBound self.upperBound)
  have unit := toInt_one_int word
  have congruent : toInt word .int (distanceTo self.lowerBound self.upperBound) ≡
      toInt word type self.upperBound - toInt word type self.lowerBound
        [ZMOD 2 ^ IntegerType.int.bitWidth word] := by
    change toInt word .int _ ≡ toInt word .int 1 + toInt word .int _ [ZMOD _] at sum
    rw [right, unit, add_comm (1 : ℤ)] at sum
    exact (Int.ModEq.add_right_cancel' 1 sum).symm
  exact TwosComplement.eq_of_modEq_of_bounds (IntegerType.int.bitWidth_pos word) congruent
    (minimum_le_toInt _) (toInt_le_maximum _) fits.1 fits.2

theorem indicesConsistent_iff
    (ordered : toInt word type self.lowerBound ≤ toInt word type self.upperBound)
    (short : toInt word type self.upperBound - toInt word type self.lowerBound <
      TwosComplement.maximum true word.bits) :
    self.IndicesConsistent ↔ ¬ self.Overlong := by
  constructor
  · intro consistent overlong
    exact count_of_overlong ordered short overlong consistent.count_eq
  · intro regular
    exact indicesConsistent_of_regular short regular ordered

end ClosedRange

/--
The index operations of a closed range that counts its values in `Int` are consistent, unless
its bounds are of 16 bits and too far apart for the conversion of their distance.
-/
theorem closedRange_indices_iff (word : WordSize) (type : IntegerType) (lo hi : Value word type)
    (ordered : toInt word type lo ≤ toInt word type hi)
    (short : toInt word type hi - toInt word type lo < TwosComplement.maximum true word.bits) :
    (closed lo hi).IndicesConsistent ↔
      ¬ (word = .word32 ∧ type.magnitude = .uint16 ∧
        2 ^ 15 ≤ toInt word type hi - toInt word type lo) :=
  @ClosedRange.indicesConsistent_iff word type (closed lo hi) ordered short

/-- A range from the minimum of its type to the maximum. -/
theorem int8_closedRange_indices : (@closed (Value .word16 .int8) (-128) 127).IndicesConsistent :=
  (closedRange_indices_iff .word16 .int8 (-128) 127 (by decide) (by decide)).mpr (by decide)

/-- `(0 as UInt16)...40000` has a negative count on the 32-bit configuration. -/
theorem uint16_closedRange_count :
    ¬ ∀ (word : WordSize) (type : IntegerType) (lo hi : Value word type),
      toInt word type lo ≤ toInt word type hi →
      toInt word type hi - toInt word type lo < TwosComplement.maximum true word.bits →
      (closed lo hi).IndicesConsistent := by
  intro consistent
  have count := (consistent .word32 .uint16 0 40000 (by decide) (by decide)).count_eq
  revert count
  decide

end USwift
