import USwift.Collections.Ranges
import USwift.Integer.Distance
import Mathlib.Order.Interval.Set.Basic

/-!
# Spans in the checking build

A span is a raw pointer with a count, and an extraction makes another one from a part
of it. In the checking build a false precondition stops the program. The check of a
range compares each bound with the count and leaves their order to the range operators,
which do not compare them.
-/

namespace USwift

open Heterogeneous

section Operations

variable {word : WordSize} {type : IntegerType}

/-- `_precondition(_:)` in the checking build. -/
def precondition (condition : Bool) : Except Failure Unit :=
  if condition then .ok () else .error .trap

/-- `Int.init(exactly:)`. -/
def intExactly (source : Value word type) : Option (Value word .int) :=
  let least := minValue word .int
  if type.isSigned && (word.bits < type.bitWidth word && lessThan word source least) then none
  else if (word.bits < type.bitWidth word || word.bits == type.bitWidth word && !type.isSigned) &&
      greaterThan word source (~~~least) then none
  else some (truncatingIfNeeded word .int type source)

/-- `distance(to:)`. -/
def distance (self other : Value word type) : Except Failure (Value word .int) :=
  let result :=
    if !type.isSigned then
      if less word type other self then (intExactly (self - other)).map fun result => -result
      else intExactly (other - self)
    else
      let isNegative := less word type self 0
      if isNegative == less word type other 0 then intExactly (other - self)
      else
        (intExactly (magnitude word type self + magnitude word type other)).map fun result =>
          if isNegative then result else -result
  match result with
  | some result => .ok result
  | none => .error .trap

/-- `Range.count`, which is the distance between the bounds. -/
def Range.count (self : Range (Value word .int)) : Except Failure (Value word .int) :=
  distance self.lowerBound self.upperBound

/-- `UnsafeRawPointer`, an address. -/
abbrev RawPointer (word : WordSize) : Type :=
  Value word .uint

/-- `UnsafeRawPointer.advanced(by:)`, which stays where it would become null. -/
def RawPointer.advanced (self : RawPointer word) (n : Value word .int) : RawPointer word :=
  let moved : BitVec word.bits := (self : BitVec word.bits) + (n : BitVec word.bits)
  if moved = 0 then self else moved

variable (word) in
structure Span where
  _pointer : Option (RawPointer word)
  _count : Value word .int

namespace Span

variable (stride : Value word .int) (self : Span word)

def indices : Range (Value word .int) :=
  ⟨0, self._count⟩

/-- `subscript(_:)`, the address of the element. -/
def subscript (position : Value word .int) : Except Failure (RawPointer word) := do
  precondition (self.indices.contains word .int position)
  match self._pointer with
  | none => .error .undefined
  | some start => .ok (start.advanced (position * stride))

/-- `_extracting(unchecked:)`. -/
def extractingUnchecked (bounds : Range (Value word .int)) : Except Failure (Span word) := do
  let delta := bounds.lowerBound * stride
  let newStart := self._pointer.map fun pointer => pointer.advanced delta
  let newCount ← bounds.count
  return ⟨newStart, newCount⟩

/-- `_extracting(_:)` of a range. -/
def extracting (bounds : Range (Value word .int)) : Except Failure (Span word) := do
  let count : Value word .uint := self._count
  let lower : Value word .uint := bounds.lowerBound
  let upper : Value word .uint := bounds.upperBound
  precondition (!less word .uint count lower && !less word .uint count upper)
  self.extractingUnchecked stride bounds

/-- `_extracting(_:)` of a closed range, relative to the indices. -/
def extractingClosed (bounds : ClosedRange (Value word .int)) : Except Failure (Span word) :=
  self.extracting stride
    (bounds.relative ((Range.collection word .int).indexAfter self.indices))

/-- `_extracting(first:)`. -/
def extractingFirst (maxLength : Value word .int) : Except Failure (Span word) := do
  precondition (!less word .int maxLength 0)
  let newCount := minimum maxLength self._count
  return ⟨self._pointer, newCount⟩

/-- `_extracting(droppingLast:)`. -/
def extractingDroppingLast (k : Value word .int) : Except Failure (Span word) := do
  precondition (!less word .int k 0)
  let droppedCount := minimum k self._count
  return ⟨self._pointer, self._count - droppedCount⟩

/-- `_extracting(last:)`. -/
def extractingLast (maxLength : Value word .int) : Except Failure (Span word) := do
  precondition (!less word .int maxLength 0)
  let newCount := minimum maxLength self._count
  let offset := (self._count - newCount) * stride
  let newStart := self._pointer.map fun pointer => pointer.advanced offset
  return ⟨newStart, newCount⟩

/-- `_extracting(droppingFirst:)`. -/
def extractingDroppingFirst (k : Value word .int) : Except Failure (Span word) := do
  precondition (!less word .int k 0)
  let droppedCount := minimum k self._count
  let offset := droppedCount * stride
  let newStart := self._pointer.map fun pointer => pointer.advanced offset
  let newCount := self._count - droppedCount
  return ⟨newStart, newCount⟩

end Span

end Operations

namespace Span

variable {word : WordSize}

/-- The checked operations that make a span from another one. -/
inductive Operation (word : WordSize) where
  | halfOpen (lower upper : Value word .int)
  | closed (lower upper : Value word .int)
  | first (maxLength : Value word .int)
  | droppingLast (k : Value word .int)
  | last (maxLength : Value word .int)
  | droppingFirst (k : Value word .int)

section Safety

variable (stride : Value word .int)

def perform (self : Span word) : Operation word → Except Failure (Span word)
  | .halfOpen lower upper => self.extracting stride (USwift.halfOpen lower upper)
  | .closed lower upper => self.extractingClosed stride (USwift.closed lower upper)
  | .first maxLength => self.extractingFirst maxLength
  | .droppingLast k => self.extractingDroppingLast k
  | .last maxLength => self.extractingLast stride maxLength
  | .droppingFirst k => self.extractingDroppingFirst stride k

/-- The addresses of the bytes of a span. -/
def region (self : Span word) : Set ℕ :=
  match self._pointer with
  | none => ∅
  | some start =>
      Set.Ico start.toNat
        (start.toNat + (toInt word .int self._count * toInt word .int stride).toNat)

/-- A span over a region of at most `Int.max` bytes that does not wrap around. -/
structure WellFormed (span : Span word) : Prop where
  count_nonneg : 0 ≤ toInt word .int span._count
  null : span._pointer = none → toInt word .int span._count = 0
  size : toInt word .int span._count * toInt word .int stride ≤
    TwosComplement.maximum true word.bits
  within : ∀ start, span._pointer = some start →
    start.toNat + (toInt word .int span._count * toInt word .int stride).toNat ≤ 2 ^ word.bits

/-- A result is of a kind unless the program stops instead. -/
def UnlessStopped {Result : Type} (result : Except Failure Result) (good : Result → Prop) : Prop :=
  match result with
  | .error failure => failure = .trap
  | .ok value => good value

/-- Every subscript stops or gives an element in the region of another span. -/
def AccessesInside (root self : Span word) : Prop :=
  ∀ position, UnlessStopped (self.subscript stride position) fun address =>
    Set.Ico address.toNat (address.toNat + (toInt word .int stride).toNat) ⊆ root.region stride

/-- A span with a count inside the region of its parent. -/
def Inside (parent child : Span word) : Prop :=
  0 ≤ toInt word .int child._count ∧ child.region stride ⊆ parent.region stride

/--
Up to where the program stops, a chain of operations makes every span inside its
parent, and every element that it can then access lies in the region of the root.
-/
def SafeChain (root : Span word) : Span word → List (Operation word) → Prop
  | self, [] => AccessesInside stride root self
  | self, operation :: rest =>
      AccessesInside stride root self ∧
        UnlessStopped (self.perform stride operation) fun child =>
          Inside stride self child ∧ SafeChain root child rest

/-- The bounds of a range are reversed, but neither of them is past the count. -/
def Reverses (self : Span word) : Operation word → Prop
  | .halfOpen lower upper =>
      0 ≤ toInt word .int upper ∧ toInt word .int upper < toInt word .int lower ∧
        toInt word .int lower ≤ toInt word .int self._count
  | .closed lower upper =>
      -1 ≤ toInt word .int upper ∧ toInt word .int upper + 1 < toInt word .int lower ∧
        toInt word .int lower ≤ toInt word .int self._count
  | _ => False

/-- Up to where the program stops, no range of a chain is reversed. -/
def NeverReverses : Span word → List (Operation word) → Prop
  | _, [] => True
  | self, operation :: rest =>
      ¬ self.Reverses operation ∧
        UnlessStopped (self.perform stride operation) fun child => NeverReverses child rest

instance {Result : Type} {result : Except Failure Result} {good : Result → Prop}
    [DecidablePred good] : Decidable (UnlessStopped result good) :=
  match result with
  | .error failure => inferInstanceAs (Decidable (failure = .trap))
  | .ok value => inferInstanceAs (Decidable (good value))

instance (self : Span word) : (operation : Operation word) → Decidable (self.Reverses operation)
  | .halfOpen _ _ => inferInstanceAs (Decidable (_ ∧ _ ∧ _))
  | .closed _ _ => inferInstanceAs (Decidable (_ ∧ _ ∧ _))
  | .first _ | .droppingLast _ | .last _ | .droppingFirst _ => inferInstanceAs (Decidable False)

instance decidableNeverReverses (self : Span word) :
    (operations : List (Operation word)) → Decidable (NeverReverses stride self operations)
  | [] => inferInstanceAs (Decidable True)
  | operation :: rest =>
      have (child : Span word) := decidableNeverReverses child rest
      inferInstanceAs (Decidable (¬ self.Reverses operation ∧
        UnlessStopped (self.perform stride operation) fun child =>
          NeverReverses stride child rest))

end Safety

section Parts

variable {stride : Value word .int} {self child : Span word}

/-- A span over some of the elements of another one. -/
structure IsPart (stride : Value word .int) (span child : Span word) (offset : Value word .int) :
    Prop where
  offset_nonneg : 0 ≤ toInt word .int offset
  count_nonneg : 0 ≤ toInt word .int child._count
  fits : toInt word .int offset + toInt word .int child._count ≤ toInt word .int span._count
  pointer : child._pointer = span._pointer.map fun start => start.advanced (offset * stride)

theorem advanced_zero (start : RawPointer word) : start.advanced 0 = start := by
  have unmoved : (start : BitVec word.bits) + 0 = start := BitVec.add_zero _
  simp only [RawPointer.advanced]
  rw [unmoved]
  split <;> rfl

/-- A product of an offset below a count with the stride does not wrap around. -/
theorem WellFormed.toNat_mul (wellFormed : self.WellFormed stride)
    (positive : 0 < toInt word .int stride) {offset : Value word .int}
    (nonnegative : 0 ≤ toInt word .int offset)
    (within : toInt word .int offset ≤ toInt word .int self._count) :
    ((BitVec.toNat (offset * stride) : ℕ) : ℤ) =
      toInt word .int offset * toInt word .int stride := by
  have size := wellFormed.size
  have most : toInt word .int offset * toInt word .int stride ≤
      toInt word .int self._count * toInt word .int stride :=
    mul_le_mul_of_nonneg_right within positive.le
  have maximum_lt : TwosComplement.maximum true word.bits < 2 ^ word.bits := by
    cases word <;> decide
  have product : ((BitVec.toNat offset * BitVec.toNat stride : ℕ) : ℤ) =
      toInt word .int offset * toInt word .int stride := by
    rw [toInt_eq_toNat nonnegative, toInt_eq_toNat positive.le]
    push_cast
    rfl
  have bounded : BitVec.toNat offset * BitVec.toNat stride < 2 ^ word.bits := by
    zify at *
    omega
  rw [← product, BitVec.toNat_mul]
  exact congrArg Nat.cast (Nat.mod_eq_of_lt bounded)

theorem WellFormed.toNat_advanced (wellFormed : self.WellFormed stride)
    (positive : 0 < toInt word .int stride) {start : RawPointer word}
    (pointer : self._pointer = some start) {offset : Value word .int}
    (nonnegative : 0 ≤ toInt word .int offset)
    (below : toInt word .int offset < toInt word .int self._count) :
    ((start.advanced (offset * stride)).toNat : ℤ) =
      start.toNat + toInt word .int offset * toInt word .int stride := by
  have product := wellFormed.toNat_mul positive nonnegative below.le
  have smaller : toInt word .int offset * toInt word .int stride <
      toInt word .int self._count * toInt word .int stride :=
    mul_lt_mul_of_pos_right below positive
  have within := wellFormed.within start pointer
  have bounded : start.toNat + BitVec.toNat (offset * stride) < 2 ^ word.bits := by omega
  have added : BitVec.toNat ((start : BitVec word.bits) + (offset * stride : BitVec word.bits)) =
      start.toNat + BitVec.toNat (offset * stride) :=
    (BitVec.toNat_add _ _).trans (Nat.mod_eq_of_lt bounded)
  simp only [RawPointer.advanced]
  split
  · next null =>
    have zero : BitVec.toNat (0 : BitVec word.bits) = 0 := BitVec.toNat_zero
    rw [null, zero] at added
    omega
  · rw [added]
    push_cast
    omega

variable {offset : Value word .int}

theorem IsPart.bytes (part : IsPart stride self child offset)
    (positive : 0 < toInt word .int stride) :
    0 ≤ toInt word .int offset * toInt word .int stride ∧
      0 ≤ toInt word .int child._count * toInt word .int stride ∧
      toInt word .int offset * toInt word .int stride +
        toInt word .int child._count * toInt word .int stride ≤
          toInt word .int self._count * toInt word .int stride := by
  refine ⟨mul_nonneg part.offset_nonneg positive.le, mul_nonneg part.count_nonneg positive.le, ?_⟩
  rw [← add_mul]
  exact mul_le_mul_of_nonneg_right part.fits positive.le

theorem IsPart.region_subset (part : IsPart stride self child offset)
    (wellFormed : self.WellFormed stride) (positive : 0 < toInt word .int stride) :
    child.region stride ⊆ self.region stride := by
  have bytes := part.bytes positive
  rw [region, region, part.pointer]
  cases pointer : self._pointer with
  | none => exact Set.Subset.rfl
  | some start =>
      rw [Option.map_some]
      dsimp only
      rcases part.count_nonneg.eq_or_lt with empty | filled
      · rw [← empty, zero_mul, Int.toNat_zero, Nat.add_zero, Set.Ico_self]
        exact Set.empty_subset _
      · have moved := wellFormed.toNat_advanced positive pointer part.offset_nonneg
          (by have fits := part.fits; omega)
        apply Set.Ico_subset_Ico <;> omega

theorem IsPart.wellFormed (part : IsPart stride self child offset)
    (wellFormed : self.WellFormed stride) (positive : 0 < toInt word .int stride) :
    child.WellFormed stride := by
  have bytes := part.bytes positive
  have size := wellFormed.size
  refine ⟨part.count_nonneg, ?_, by omega, ?_⟩
  · intro null
    rw [part.pointer, Option.map_eq_none_iff] at null
    have none := wellFormed.null null
    have fits := part.fits
    have offset_nonneg := part.offset_nonneg
    have count_nonneg := part.count_nonneg
    omega
  · intro start pointer
    rcases part.count_nonneg.eq_or_lt with empty | filled
    · rw [← empty, zero_mul, Int.toNat_zero, Nat.add_zero]
      exact (BitVec.isLt start).le
    · rw [part.pointer, Option.map_eq_some_iff] at pointer
      rcases pointer with ⟨first, pointer, rfl⟩
      have moved := wellFormed.toNat_advanced positive pointer part.offset_nonneg
        (by have fits := part.fits; omega)
      have within := wellFormed.within first pointer
      omega

theorem IsPart.inside (part : IsPart stride self child offset)
    (wellFormed : self.WellFormed stride) (positive : 0 < toInt word .int stride) :
    Inside stride self child :=
  ⟨part.count_nonneg, part.region_subset wellFormed positive⟩

@[simp]
theorem unlessStopped_ok {Result : Type} {value : Result} {good : Result → Prop} :
    UnlessStopped (.ok value) good ↔ good value :=
  Iff.rfl

@[simp]
theorem unlessStopped_precondition {Result : Type} {condition : Bool}
    {result : Except Failure Result} {good : Result → Prop} :
    UnlessStopped (do precondition condition; result) good ↔
      (condition = true → UnlessStopped result good) := by
  cases condition with
  | true => simp [precondition, bind, Except.bind]
  | false => simp [precondition, bind, Except.bind, UnlessStopped]

theorem accessesInside_self (wellFormed : self.WellFormed stride)
    (positive : 0 < toInt word .int stride) : AccessesInside stride self self := by
  intro position
  rw [subscript, unlessStopped_precondition]
  intro contained
  have bounds := halfOpen_contains_iff.mp contained
  rw [toInt_zero] at bounds
  cases pointer : self._pointer with
  | none =>
      have none := wellFormed.null pointer
      omega
  | some start =>
      rw [unlessStopped_ok]
      have one : toInt word .int (1 : Value word .int) = 1 := by cases word <;> decide
      -- An element is a part of one element.
      have part : IsPart stride self ⟨some (start.advanced (position * stride)), 1⟩ position :=
        ⟨bounds.1, by rw [one]; omega, by rw [one]; omega, by rw [pointer]; rfl⟩
      have subset := part.region_subset wellFormed positive
      rwa [region, one, one_mul] at subset

theorem not_less_zero_iff {k : Value word .int} :
    (!less word .int k 0) = true ↔ 0 ≤ toInt word .int k := by
  rw [Bool.not_eq_true', ← Bool.not_eq_true, less_iff, toInt_zero, not_lt]

theorem map_advanced_zero (pointer : Option (RawPointer word)) :
    pointer = pointer.map fun start => start.advanced (0 * stride) := by
  have unmoved : (0 : Value word .int) * stride = 0 := BitVec.zero_mul
  rw [unmoved]
  cases pointer with
  | none => rfl
  | some start => rw [Option.map_some, advanced_zero]

theorem extractingFirst_isPart (wellFormed : self.WellFormed stride) (maxLength : Value word .int) :
    UnlessStopped (self.extractingFirst maxLength) fun child =>
      ∃ offset, IsPart stride self child offset := by
  rw [extractingFirst, unlessStopped_precondition, not_less_zero_iff]
  intro nonnegative
  have least := toInt_minimum maxLength self._count
  have count_nonneg := wellFormed.count_nonneg
  refine ⟨0, (toInt_zero word .int).ge, ?_, ?_, map_advanced_zero _⟩
  · dsimp only
    omega
  · dsimp only
    rw [toInt_zero]
    omega

theorem extractingDroppingLast_isPart (wellFormed : self.WellFormed stride)
    (k : Value word .int) :
    UnlessStopped (self.extractingDroppingLast k) fun child =>
      ∃ offset, IsPart stride self child offset := by
  rw [extractingDroppingLast, unlessStopped_precondition, not_less_zero_iff]
  intro nonnegative
  have least := toInt_minimum k self._count
  have count_nonneg := wellFormed.count_nonneg
  have difference := toInt_index_sub count_nonneg (j := minimum k self._count) (by omega)
  refine ⟨0, (toInt_zero word .int).ge, ?_, ?_, map_advanced_zero _⟩
  · dsimp only
    omega
  · dsimp only
    rw [toInt_zero]
    omega

theorem extractingLast_isPart (wellFormed : self.WellFormed stride) (maxLength : Value word .int) :
    UnlessStopped (self.extractingLast stride maxLength) fun child =>
      ∃ offset, IsPart stride self child offset := by
  rw [extractingLast, unlessStopped_precondition, not_less_zero_iff]
  intro nonnegative
  have least := toInt_minimum maxLength self._count
  have count_nonneg := wellFormed.count_nonneg
  have difference := toInt_index_sub count_nonneg (j := minimum maxLength self._count) (by omega)
  refine ⟨self._count - minimum maxLength self._count, by omega, ?_, ?_, rfl⟩
  · dsimp only
    omega
  · dsimp only
    omega

theorem extractingDroppingFirst_isPart (wellFormed : self.WellFormed stride)
    (k : Value word .int) :
    UnlessStopped (self.extractingDroppingFirst stride k) fun child =>
      ∃ offset, IsPart stride self child offset := by
  rw [extractingDroppingFirst, unlessStopped_precondition, not_less_zero_iff]
  intro nonnegative
  have least := toInt_minimum k self._count
  have count_nonneg := wellFormed.count_nonneg
  have difference := toInt_index_sub count_nonneg (j := minimum k self._count) (by omega)
  refine ⟨minimum k self._count, by omega, ?_, ?_, rfl⟩
  · dsimp only
    omega
  · dsimp only
    omega

theorem intExactly_eq_initExactly {type : IntegerType} (x : Value word type) :
    intExactly x = initExactly word .int x := by
  have greatest : ~~~minValue word .int = maxValue word .int := rfl
  have narrow : decide (word.bits < type.bitWidth word) =
      decide (type.bitWidth word > IntegerType.int.bitWidth word) := rfl
  have same : (word.bits == type.bitWidth word) =
      decide (type.bitWidth word = IntegerType.int.bitWidth word) := by
    rw [beq_eq_decide]
    exact decide_eq_decide.mpr eq_comm
  rw [intExactly, initExactly, if_pos rfl, SignedInteger.initExactly, greatest, narrow, same,
    Bool.and_assoc]

/-- The checking build stops at the distances that have no value in the other build. -/
theorem distance_eq_distanceExactly {type : IntegerType} (x y : Value word type) :
    distance x y = (distanceExactly x y).elim (.error .trap) .ok := by
  have measured : distance x y =
      match distanceExactly x y with
      | some result => .ok result
      | none => .error .trap := by
    simp only [distance, distanceExactly, intExactly_eq_initExactly]
  rw [measured]
  cases distanceExactly x y <;> rfl

theorem intExactly_int (x : Value word .int) : intExactly x = some x := by
  rw [intExactly_eq_initExactly, (faithfulBounds_int (faithful_int x)).initExactly_eq,
    if_pos (inRange_toInt x)]
  exact congrArg some (numericCast_eq x)

theorem count_of_nonneg {lower upper : Value word .int} (lower_nonneg : 0 ≤ toInt word .int lower)
    (upper_nonneg : 0 ≤ toInt word .int upper) :
    (Range.mk lower upper).count = .ok (upper - lower) := by
  have lower_sign : less word .int lower 0 = false := by
    rw [← Bool.not_eq_true, less_iff, toInt_zero]
    omega
  have upper_sign : less word .int upper 0 = false := by
    rw [← Bool.not_eq_true, less_iff, toInt_zero]
    omega
  have signs : (less word .int lower 0 == less word .int upper 0) = true := by
    rw [lower_sign, upper_sign]
    rfl
  have signed : ¬ (!IntegerType.int.isSigned) = true := by decide
  simp only [Range.count, distance, if_neg signed, if_pos signs, intExactly_int]

/-- Compared as unsigned numbers, what is not above a count is not negative either. -/
theorem unsigned_le_iff {count bound : Value word .int} (nonnegative : 0 ≤ toInt word .int count) :
    (!less word .uint count bound) = true ↔
      0 ≤ toInt word .int bound ∧ toInt word .int bound ≤ toInt word .int count := by
  have count_value := toInt_eq_toNat nonnegative
  have high : toInt word .int count ≤ 2 ^ (word.bits - 1) - 1 := toInt_le_maximum count
  rw [Bool.not_eq_true', ← Bool.not_eq_true, less_unsigned_iff rfl, not_lt]
  constructor
  · intro small
    have ordered : (BitVec.toNat bound : ℤ) ≤ BitVec.toNat count := by exact_mod_cast small
    have double : (2 : ℤ) ^ word.bits = 2 * 2 ^ (word.bits - 1) := by
      rw [← pow_succ', Nat.sub_add_cancel word.bits_pos]
    have bound_value : toInt word .int bound = BitVec.toNat bound := by
      apply BitVec.toInt_eq_toNat_of_lt
      zify
      exact (by omega : 2 * (BitVec.toNat bound : ℤ) < 2 ^ word.bits)
    omega
  · rintro ⟨low, small⟩
    rw [toInt_eq_toNat low, count_value] at small
    exact_mod_cast small

theorem unlessStopped_extracting {lower upper : Value word .int} {good : Span word → Prop}
    (nonnegative : 0 ≤ toInt word .int self._count) :
    UnlessStopped (self.extracting stride ⟨lower, upper⟩) good ↔
      (0 ≤ toInt word .int lower ∧ toInt word .int lower ≤ toInt word .int self._count →
        0 ≤ toInt word .int upper ∧ toInt word .int upper ≤ toInt word .int self._count →
          good ⟨self._pointer.map fun start => start.advanced (lower * stride),
            upper - lower⟩) := by
  rw [extracting, unlessStopped_precondition, Bool.and_eq_true, unsigned_le_iff nonnegative,
    unsigned_le_iff nonnegative, and_imp]
  refine imp_congr_right fun lower_in => imp_congr_right fun upper_in => ?_
  rw [extractingUnchecked, count_of_nonneg lower_in.1 upper_in.1]
  rfl

theorem isPart_of_le {lower upper : Value word .int} (lower_nonneg : 0 ≤ toInt word .int lower)
    (ordered : toInt word .int lower ≤ toInt word .int upper)
    (within : toInt word .int upper ≤ toInt word .int self._count) :
    IsPart stride self
      ⟨self._pointer.map fun start => start.advanced (lower * stride), upper - lower⟩ lower := by
  have difference := toInt_index_sub (lower_nonneg.trans ordered) lower_nonneg
  refine ⟨lower_nonneg, ?_, ?_, rfl⟩
  · dsimp only
    omega
  · dsimp only
    omega

/-- The upper bound of a closed range, one further, is past the count or has not wrapped around. -/
theorem toInt_upper_closed (upper : Value word .int) :
    toInt word .int (advanced word .int upper 1) = toInt word .int upper + 1 ∨
      toInt word .int (advanced word .int upper 1) < 0 ∧
        toInt word .int upper = TwosComplement.maximum true word.bits := by
  have greatest : toInt word .int (~~~minValue word .int) =
      TwosComplement.maximum true word.bits := by cases word <;> decide
  by_cases below : toInt word .int upper < TwosComplement.maximum true word.bits
  · exact Or.inl (toInt_advanced_one (below.trans_eq greatest.symm))
  · right
    have high : toInt word .int upper ≤ TwosComplement.maximum true word.bits :=
      toInt_le_maximum upper
    have top : toInt word .int upper = toInt word .int (~~~minValue word .int) := by omega
    refine ⟨?_, top.trans greatest⟩
    rw [toInt_injective top]
    cases word <;> decide

/-- The part of a range in the sense of the operators, or nothing where its bounds are reversed. -/
theorem extracting_isPart (wellFormed : self.WellFormed stride) {lower upper : Value word .int}
    (ordered : ¬ (0 ≤ toInt word .int upper ∧ toInt word .int upper < toInt word .int lower ∧
      toInt word .int lower ≤ toInt word .int self._count)) :
    UnlessStopped (self.extracting stride ⟨lower, upper⟩) fun child =>
      ∃ offset, IsPart stride self child offset := by
  rw [unlessStopped_extracting wellFormed.count_nonneg]
  intro lower_in upper_in
  exact ⟨lower, isPart_of_le lower_in.1 (by omega) upper_in.2⟩

theorem extracting_not_inside (wellFormed : self.WellFormed stride) {lower upper : Value word .int}
    (upper_nonneg : 0 ≤ toInt word .int upper)
    (reversed : toInt word .int upper < toInt word .int lower)
    (within : toInt word .int lower ≤ toInt word .int self._count) {good : Span word → Prop} :
    ¬ UnlessStopped (self.extracting stride ⟨lower, upper⟩)
      fun child => Inside stride self child ∧ good child := by
  rw [unlessStopped_extracting wellFormed.count_nonneg]
  intro safe
  have lower_nonneg := upper_nonneg.trans reversed.le
  have child := safe ⟨lower_nonneg, within⟩ ⟨upper_nonneg, by omega⟩
  have difference := toInt_index_sub upper_nonneg lower_nonneg
  have count_nonneg : 0 ≤ toInt word .int (upper - lower) := child.1.1
  omega

theorem perform_isPart (wellFormed : self.WellFormed stride) {operation : Operation word}
    (ordered : ¬ self.Reverses operation) :
    UnlessStopped (self.perform stride operation) fun child =>
      ∃ offset, IsPart stride self child offset := by
  cases operation with
  | halfOpen lower upper => exact extracting_isPart wellFormed ordered
  | closed lower upper =>
      apply extracting_isPart wellFormed
      rintro ⟨upper_nonneg, reversed, within⟩
      have above : 0 ≤ toInt word .int (advanced word .int upper 1) := upper_nonneg
      have below : toInt word .int (advanced word .int upper 1) < toInt word .int lower := reversed
      rcases toInt_upper_closed upper with next | ⟨wrapped, _⟩
      · exact ordered ⟨by omega, by omega, within⟩
      · omega
  | first maxLength => exact extractingFirst_isPart wellFormed maxLength
  | droppingLast k => exact extractingDroppingLast_isPart wellFormed k
  | last maxLength => exact extractingLast_isPart wellFormed maxLength
  | droppingFirst k => exact extractingDroppingFirst_isPart wellFormed k

/-- An operation whose range is reversed makes a span with a negative count. -/
theorem perform_not_inside (wellFormed : self.WellFormed stride) {operation : Operation word}
    (reverses : self.Reverses operation) {good : Span word → Prop} :
    ¬ UnlessStopped (self.perform stride operation)
      fun child => Inside stride self child ∧ good child := by
  cases operation with
  | halfOpen lower upper =>
      exact extracting_not_inside wellFormed reverses.1 reverses.2.1 reverses.2.2
  | closed lower upper =>
      rcases reverses with ⟨low, reversed, within⟩
      have high : toInt word .int self._count ≤ TwosComplement.maximum true word.bits :=
        toInt_le_maximum self._count
      rcases toInt_upper_closed upper with next | ⟨_, top⟩
      · apply extracting_not_inside wellFormed _ _ within
        · exact (by omega : 0 ≤ toInt word .int (advanced word .int upper 1))
        · exact (by omega : toInt word .int (advanced word .int upper 1) < toInt word .int lower)
      · omega
  | first _ => exact reverses.elim
  | droppingLast _ => exact reverses.elim
  | last _ => exact reverses.elim
  | droppingFirst _ => exact reverses.elim

theorem AccessesInside.mono {root : Span word} (accesses : AccessesInside stride self self)
    (subset : self.region stride ⊆ root.region stride) : AccessesInside stride root self := by
  intro position
  have access := accesses position
  cases result : self.subscript stride position with
  | error failure =>
      rw [result] at access
      exact access
  | ok address =>
      rw [result] at access
      exact access.trans subset

theorem safeChain_iff {root : Span word} (positive : 0 < toInt word .int stride)
    (operations : List (Operation word)) (wellFormed : self.WellFormed stride)
    (subset : self.region stride ⊆ root.region stride) :
    SafeChain stride root self operations ↔ NeverReverses stride self operations := by
  induction operations generalizing self with
  | nil =>
      exact iff_of_true ((accessesInside_self wellFormed positive).mono subset) trivial
  | cons operation rest shorter =>
      have accesses := (accessesInside_self wellFormed positive).mono subset
      rw [SafeChain, NeverReverses]
      by_cases reverses : self.Reverses operation
      · refine iff_of_false ?_ fun never => never.1 reverses
        exact fun safe => perform_not_inside wellFormed reverses safe.2
      · rw [and_iff_right accesses, and_iff_right reverses]
        have part := perform_isPart wellFormed reverses
        cases result : self.perform stride operation with
        | error failure => exact Iff.rfl
        | ok child =>
            rw [result] at part
            rcases part with ⟨offset, part⟩
            have inside := part.inside wellFormed positive
            rw [unlessStopped_ok, unlessStopped_ok, and_iff_right inside]
            exact shorter (part.wellFormed wellFormed positive) (inside.2.trans subset)

end Parts

/-- A chain of operations is safe exactly where it takes no part between reversed bounds. -/
theorem chain_safe_iff (word : WordSize) (stride : Value word .int) (root : Span word)
    (operations : List (Operation word)) (positive : 0 < toInt word .int stride)
    (wellFormed : root.WellFormed stride) :
    SafeChain stride root root operations ↔ NeverReverses stride root operations :=
  safeChain_iff positive operations wellFormed Set.Subset.rfl

/-- Three elements of one byte. -/
def threeBytes : Span .word16 :=
  ⟨some 0x100, 3⟩

theorem threeBytes_wellFormed : threeBytes.WellFormed 1 where
  count_nonneg := by decide
  null null := by cases null
  size := by decide
  within start pointer := by
    cases pointer
    decide

theorem threeBytes_safe :
    SafeChain 1 threeBytes threeBytes [.halfOpen 1 3, .droppingFirst 1, .closed 0 0] :=
  (chain_safe_iff .word16 1 threeBytes _ (by decide) threeBytes_wellFormed).mpr (by decide)

/-- After `3 ..< 1` the count is negative, which lets the next range leave the region. -/
theorem threeBytes_left :
    threeBytes.WellFormed 1 ∧
      ¬ SafeChain 1 threeBytes threeBytes [.halfOpen 3 1, .halfOpen 0 5] ∧
      (do
        let first ← threeBytes.perform 1 (.halfOpen 3 1)
        let second ← first.perform 1 (.halfOpen 0 5)
        second.subscript 1 4) = .ok 0x107 ∧
      0x107 ∉ threeBytes.region 1 := by
  refine ⟨threeBytes_wellFormed, ?_, rfl, ?_⟩
  · rw [safeChain_iff (by decide) _ threeBytes_wellFormed Set.Subset.rfl]
    decide
  · intro member
    exact absurd member.2 (by decide)

end Span

end USwift
