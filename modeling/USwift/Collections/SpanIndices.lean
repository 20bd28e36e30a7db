import Mathlib.Data.List.DropRight
import Mathlib.Logic.Relation
import USwift.Collections.Span
import USwift.Integer.Division

/-!
# Parts of a span and their indices

A chain of extractions views what the operations on lists give. `indices(of:)` finds the
place of such a part again by comparing addresses, where the end of a region that ends with
the address space would be null and is taken to be its start.
-/

namespace USwift

section Operations

variable {word : WordSize}

/-- `quotientAndRemainder(dividingBy:)`. -/
def quotientAndRemainder (self rhs : Value word .int) :
    Except Failure (Value word .int × Value word .int) :=
  match divideAssign word .int self rhs, remainderAssign word .int self rhs with
  | some quotient, some remainder => .ok (quotient, remainder)
  | _, _ => .error .undefined

namespace RawPointer

/-- `<`, an unsigned comparison. -/
def less (lhs rhs : RawPointer word) : Bool :=
  USwift.less word .uint lhs rhs

/-- `distance(to:)`, in units of the stride of `UInt8`. -/
def distance (self other : RawPointer word) : Except Failure (Value word .int) :=
  match divideAssign word .int (other - self : Value word .uint) 1 with
  | some distance => .ok distance
  | none => .error .undefined

end RawPointer

namespace Span

variable (stride : Value word .int) (self : Span word)

/-- `_extracting(unchecked:)` of a closed range. -/
def extractingUncheckedClosed (bounds : ClosedRange (Value word .int)) :
    Except Failure (Span word) :=
  self.extractingUnchecked stride ⟨bounds.lowerBound, bounds.upperBound + 1⟩

/-- `isIdentical(to:)`. -/
def isIdentical (other : Span word) : Bool :=
  self._pointer == other._pointer && self._count == other._count

/-- `indices(of:)`. -/
def indicesOf (other : Span word) : Except Failure (Option (Range (Value word .int))) :=
  if less word .int self._count other._count then return none
  else
    match other._pointer, less word .int 0 self._count with
    | some spanStart, true =>
        match self._pointer with
        | none => .error .undefined
        | some start => do
            let spanEnd := spanStart.advanced (stride * other._count)
            if spanStart.less start || (start.advanced (stride * self._count)).less spanEnd then
              return none
            else
              let byteOffset ← start.distance spanStart
              let (lower, r) ← quotientAndRemainder byteOffset stride
              if r == 0 then return some ⟨lower, lower + other._count⟩ else return none
    | _, _ => return if self._pointer == other._pointer then some (USwift.halfOpen 0 0) else none

/-- The calls of `_extracting`. Those of `Operation` stop at a false precondition. -/
inductive Extraction (word : WordSize) where
  | checked (operation : Operation word)
  | upTo (upper : Value word .int)
  | through (upper : Value word .int)
  | starting (lower : Value word .int)
  | unchecked (lower upper : Value word .int)
  | uncheckedClosed (lower upper : Value word .int)
  | unbounded

/-- A call of `_extracting`, where a partial range is relative to the indices. -/
def extract : Extraction word → Except Failure (Span word)
  | .checked operation => self.perform stride operation
  | .upTo upper => self.extracting stride (USwift.halfOpen self.indices.lowerBound upper)
  | .through upper =>
      self.extracting stride (USwift.halfOpen self.indices.lowerBound
        ((Range.collection word .int).indexAfter self.indices upper))
  | .starting lower => self.extracting stride (USwift.halfOpen lower self.indices.upperBound)
  | .unchecked lower upper => self.extractingUnchecked stride (USwift.halfOpen lower upper)
  | .uncheckedClosed lower upper => self.extractingUncheckedClosed stride (closed lower upper)
  | .unbounded => return self

/-- A chain of calls. -/
def extractAll (extractions : List (Extraction word)) : Except Failure (Span word) :=
  extractions.foldlM (extract stride) self

namespace Extraction

/-- The bounds of a range are in order and inside a span, or a length is not negative. -/
def Valid (count : ℤ) : Extraction word → Prop
  | checked (.halfOpen lower upper) | unchecked lower upper =>
      0 ≤ toInt word .int lower ∧ toInt word .int lower ≤ toInt word .int upper ∧
        toInt word .int upper ≤ count
  | checked (.closed lower upper) | uncheckedClosed lower upper =>
      0 ≤ toInt word .int lower ∧ toInt word .int lower ≤ toInt word .int upper + 1 ∧
        toInt word .int upper + 1 ≤ count
  | checked (.first length) | checked (.droppingLast length) | checked (.last length)
  | checked (.droppingFirst length) => 0 ≤ toInt word .int length
  | upTo upper => 0 ≤ toInt word .int upper ∧ toInt word .int upper ≤ count
  | through upper => 0 ≤ toInt word .int upper + 1 ∧ toInt word .int upper + 1 ≤ count
  | starting lower => 0 ≤ toInt word .int lower ∧ toInt word .int lower ≤ count
  | unbounded => True

instance (count : ℤ) : (extraction : Extraction word) → Decidable (extraction.Valid count)
  | checked (.halfOpen _ _) | unchecked _ _ => inferInstanceAs (Decidable (_ ∧ _ ∧ _))
  | checked (.closed _ _) | uncheckedClosed _ _ => inferInstanceAs (Decidable (_ ∧ _ ∧ _))
  | checked (.first _) | checked (.droppingLast _) => inferInstanceAs (Decidable (_ ≤ _))
  | checked (.last _) | checked (.droppingFirst _) => inferInstanceAs (Decidable (_ ≤ _))
  | upTo _ | through _ | starting _ => inferInstanceAs (Decidable (_ ∧ _))
  | unbounded => inferInstanceAs (Decidable True)

/-- The operation on lists that a call stands for. -/
def apply {Element : Type} (list : List Element) : Extraction word → List Element
  | checked (.halfOpen lower upper) | unchecked lower upper =>
      (list.take (toInt word .int upper).toNat).drop (toInt word .int lower).toNat
  | checked (.closed lower upper) | uncheckedClosed lower upper =>
      (list.take (toInt word .int upper + 1).toNat).drop (toInt word .int lower).toNat
  | checked (.first maxLength) => list.take (toInt word .int maxLength).toNat
  | checked (.droppingLast k) => list.rdrop (toInt word .int k).toNat
  | checked (.last maxLength) => list.rtake (toInt word .int maxLength).toNat
  | checked (.droppingFirst k) => list.drop (toInt word .int k).toNat
  | upTo upper => list.take (toInt word .int upper).toNat
  | through upper => list.take (toInt word .int upper + 1).toNat
  | starting lower => list.drop (toInt word .int lower).toNat
  | unbounded => list

/-- The positions between which a call takes the elements of a span with a count. -/
def interval (count : ℤ) : Extraction word → ℤ × ℤ
  | checked (.halfOpen lower upper) | unchecked lower upper =>
      (toInt word .int lower, toInt word .int upper)
  | checked (.closed lower upper) | uncheckedClosed lower upper =>
      (toInt word .int lower, toInt word .int upper + 1)
  | checked (.first maxLength) => (0, min (toInt word .int maxLength) count)
  | checked (.droppingLast k) => (0, count - min (toInt word .int k) count)
  | checked (.last maxLength) => (count - min (toInt word .int maxLength) count, count)
  | checked (.droppingFirst k) => (min (toInt word .int k) count, count)
  | upTo upper => (0, toInt word .int upper)
  | through upper => (0, toInt word .int upper + 1)
  | starting lower => (toInt word .int lower, count)
  | unbounded => (0, count)

/-- Every call of a chain is valid for the list that the calls before it leave. -/
def ValidChain {Element : Type} : List Element → List (Extraction word) → Prop
  | _, [] => True
  | list, extraction :: rest =>
      extraction.Valid list.length ∧ ValidChain (extraction.apply list) rest

end Extraction

end Span

end Operations

namespace Span

variable {word : WordSize} {stride : Value word .int} {self child root : Span word}

section Chains

/-- A span over some of the elements of another one, wherever they start. -/
def PartOf (stride : Value word .int) (self child : Span word) : Prop :=
  ∃ offset, IsPart stride self child offset

/-- A span over the elements of another one between two positions. -/
def Takes (stride : Value word .int) (self child : Span word) (bounds : ℤ × ℤ) : Prop :=
  ∃ offset, IsPart stride self child offset ∧ toInt word .int offset = bounds.1 ∧
    toInt word .int child._count = bounds.2 - bounds.1

theorem toInt_add_one_of_lt {upper limit : Value word .int}
    (below : toInt word .int upper < toInt word .int limit) :
    toInt word .int (upper + 1) = toInt word .int upper + 1 := by
  have one : toInt word .int (1 : Value word .int) = 1 := by cases word <;> decide
  have least := minimum_le_toInt upper
  have largest := toInt_le_maximum limit
  have added : toInt word .int (upper + 1) =
      toInt word .int upper + toInt word .int (1 : Value word .int) :=
    toInt_add (by omega) (by omega)
  rw [added, one]

theorem extractingUnchecked_takes {lower upper : Value word .int}
    (lower_nonneg : 0 ≤ toInt word .int lower)
    (ordered : toInt word .int lower ≤ toInt word .int upper)
    (within : toInt word .int upper ≤ toInt word .int self._count) :
    ∃ child, self.extractingUnchecked stride ⟨lower, upper⟩ = .ok child ∧
      Takes stride self child (toInt word .int lower, toInt word .int upper) := by
  have upper_nonneg := lower_nonneg.trans ordered
  refine ⟨_, ?_, lower, isPart_of_le lower_nonneg ordered within, rfl,
    toInt_index_sub upper_nonneg lower_nonneg⟩
  rw [extractingUnchecked, count_of_nonneg lower_nonneg upper_nonneg]
  rfl

theorem precondition_true {Result : Type} {condition : Bool} {result : Except Failure Result}
    (holds : condition = true) : (do precondition condition; result) = result := by
  rw [holds]
  rfl

theorem extracting_takes {lower upper : Value word .int}
    (lower_nonneg : 0 ≤ toInt word .int lower)
    (ordered : toInt word .int lower ≤ toInt word .int upper)
    (within : toInt word .int upper ≤ toInt word .int self._count) :
    ∃ child, self.extracting stride ⟨lower, upper⟩ = .ok child ∧
      Takes stride self child (toInt word .int lower, toInt word .int upper) := by
  have upper_nonneg := lower_nonneg.trans ordered
  have count_nonneg := upper_nonneg.trans within
  have inside : (!USwift.less word .uint self._count lower &&
      !USwift.less word .uint self._count upper) = true := by
    rw [Bool.and_eq_true, unsigned_le_iff count_nonneg, unsigned_le_iff count_nonneg]
    exact ⟨⟨lower_nonneg, ordered.trans within⟩, upper_nonneg, within⟩
  rw [extracting, precondition_true inside]
  exact extractingUnchecked_takes lower_nonneg ordered within

/-- A pointer that is moved to an offset, with a count that fits behind it. -/
theorem takes_of_fits {offset count : Value word .int} (offset_nonneg : 0 ≤ toInt word .int offset)
    (count_nonneg : 0 ≤ toInt word .int count)
    (fits : toInt word .int offset + toInt word .int count ≤ toInt word .int self._count) :
    Takes stride self ⟨self._pointer.map fun start => start.advanced (offset * stride), count⟩
      (toInt word .int offset, toInt word .int offset + toInt word .int count) := by
  refine ⟨offset, ⟨offset_nonneg, count_nonneg, fits, rfl⟩, rfl, ?_⟩
  dsimp only
  omega

/-- A pointer that stays where it is. -/
theorem takes_front {count : Value word .int} (count_nonneg : 0 ≤ toInt word .int count)
    (fits : toInt word .int count ≤ toInt word .int self._count) :
    Takes stride self ⟨self._pointer, count⟩ (0, toInt word .int count) := by
  have zero := toInt_zero word .int
  have taken := @takes_of_fits word stride self 0 count zero.ge count_nonneg (by omega)
  rw [← map_advanced_zero, zero, zero_add] at taken
  exact taken

section Lengths

variable {length : Value word .int} (nonnegative : 0 ≤ toInt word .int length)
  (count_nonneg : 0 ≤ toInt word .int self._count)

include nonnegative count_nonneg

theorem extractingFirst_takes :
    ∃ child, self.extractingFirst length = .ok child ∧
      Takes stride self child (0, min (toInt word .int length) (toInt word .int self._count)) := by
  have least := toInt_minimum length self._count
  have taken := @takes_front word stride self (minimum length self._count) (by omega) (by omega)
  rw [least] at taken
  refine ⟨_, ?_, taken⟩
  rw [extractingFirst, precondition_true (not_less_zero_iff.mpr nonnegative)]
  rfl

theorem extractingDroppingLast_takes :
    ∃ child, self.extractingDroppingLast length = .ok child ∧
      Takes stride self child (0, toInt word .int self._count -
        min (toInt word .int length) (toInt word .int self._count)) := by
  have least := toInt_minimum length self._count
  have difference := toInt_index_sub count_nonneg (j := minimum length self._count) (by omega)
  have taken := @takes_front word stride self (self._count - minimum length self._count)
    (by omega) (by omega)
  rw [difference, least] at taken
  refine ⟨_, ?_, taken⟩
  rw [extractingDroppingLast, precondition_true (not_less_zero_iff.mpr nonnegative)]
  rfl

theorem extractingLast_takes :
    ∃ child, self.extractingLast stride length = .ok child ∧
      Takes stride self child (toInt word .int self._count -
        min (toInt word .int length) (toInt word .int self._count),
          toInt word .int self._count) := by
  have least := toInt_minimum length self._count
  have difference := toInt_index_sub count_nonneg (j := minimum length self._count) (by omega)
  have taken := @takes_of_fits word stride self (self._count - minimum length self._count)
    (minimum length self._count) (by omega) (by omega) (by omega)
  rw [difference, sub_add_cancel, least] at taken
  refine ⟨_, ?_, taken⟩
  rw [extractingLast, precondition_true (not_less_zero_iff.mpr nonnegative)]
  rfl

theorem extractingDroppingFirst_takes :
    ∃ child, self.extractingDroppingFirst stride length = .ok child ∧
      Takes stride self child (min (toInt word .int length) (toInt word .int self._count),
        toInt word .int self._count) := by
  have least := toInt_minimum length self._count
  have difference := toInt_index_sub count_nonneg (j := minimum length self._count) (by omega)
  have taken := @takes_of_fits word stride self (minimum length self._count)
    (self._count - minimum length self._count) (by omega) (by omega) (by omega)
  rw [difference, add_sub_cancel, least] at taken
  refine ⟨_, ?_, taken⟩
  rw [extractingDroppingFirst, precondition_true (not_less_zero_iff.mpr nonnegative)]
  rfl

end Lengths

/-- A valid call makes a span over the elements in its interval. -/
theorem extract_takes (count_nonneg : 0 ≤ toInt word .int self._count)
    {extraction : Extraction word} (valid : extraction.Valid (toInt word .int self._count)) :
    ∃ child, self.extract stride extraction = .ok child ∧
      Takes stride self child (extraction.interval (toInt word .int self._count)) := by
  have zero := toInt_zero word .int
  have following {upper : Value word .int}
      (within : toInt word .int upper + 1 ≤ toInt word .int self._count) :
      toInt word .int (advanced word .int upper 1) = toInt word .int upper + 1 :=
    toInt_advanced_one (y := self._count) (by omega)
  cases extraction with
  | checked operation =>
      cases operation with
      | halfOpen lower upper => exact extracting_takes valid.1 valid.2.1 valid.2.2
      | closed lower upper =>
          rcases valid with ⟨lower_nonneg, ordered, within⟩
          have next := following within
          rw [← next] at ordered within
          have taken := @extracting_takes word stride self lower _ lower_nonneg ordered within
          rw [next] at taken
          exact taken
      | first maxLength => exact extractingFirst_takes valid count_nonneg
      | droppingLast k => exact extractingDroppingLast_takes valid count_nonneg
      | last maxLength => exact extractingLast_takes valid count_nonneg
      | droppingFirst k => exact extractingDroppingFirst_takes valid count_nonneg
  | upTo upper =>
      have taken := @extracting_takes word stride self 0 upper zero.ge (zero.trans_le valid.1)
        valid.2
      rw [zero] at taken
      exact taken
  | through upper =>
      rcases valid with ⟨ordered, within⟩
      have next := following within
      rw [← next] at ordered within
      have taken := @extracting_takes word stride self 0 _ zero.ge (zero.trans_le ordered) within
      rw [zero, next] at taken
      exact taken
  | starting lower => exact extracting_takes valid.1 valid.2 le_rfl
  | unchecked lower upper => exact extractingUnchecked_takes valid.1 valid.2.1 valid.2.2
  | uncheckedClosed lower upper =>
      rcases valid with ⟨lower_nonneg, ordered, within⟩
      have next : toInt word .int (upper + 1) = toInt word .int upper + 1 :=
        @toInt_add_one_of_lt word upper self._count (by omega)
      rw [← next] at ordered within
      have taken := @extractingUnchecked_takes word stride self lower _ lower_nonneg ordered within
      rw [next] at taken
      exact taken
  | unbounded => exact ⟨self, rfl, takes_front count_nonneg le_rfl⟩

namespace Extraction

variable {Element : Type} {list : List Element}

/-- The operations on lists take the same interval. -/
theorem apply_eq {extraction : Extraction word} (valid : extraction.Valid list.length) :
    extraction.apply list =
      (list.take (extraction.interval list.length).2.toNat).drop
        (extraction.interval list.length).1.toNat := by
  have front (n : ℤ) : list.take n.toNat = list.take (min n list.length).toNat := by
    rw [List.take_eq_take_min]
    congr 1
    omega
  cases extraction with
  | checked operation =>
      cases operation with
      | halfOpen lower upper => rfl
      | closed lower upper => rfl
      | first maxLength =>
          rw [apply, interval, front]
          rfl
      | droppingLast k =>
          have nonnegative : 0 ≤ toInt word .int k := valid
          have length : list.length - (toInt word .int k).toNat =
              ((list.length : ℤ) - min (toInt word .int k) list.length).toNat := by omega
          rw [apply, interval, List.rdrop, length]
          rfl
      | last maxLength =>
          have nonnegative : 0 ≤ toInt word .int maxLength := valid
          have length : list.length - (toInt word .int maxLength).toNat =
              ((list.length : ℤ) - min (toInt word .int maxLength) list.length).toNat := by omega
          rw [apply, interval, List.rtake, length, Int.toNat_natCast, List.take_length]
      | droppingFirst k =>
          have nonnegative : 0 ≤ toInt word .int k := valid
          rw [apply, interval, Int.toNat_natCast, List.take_length, List.drop_eq_drop_iff]
          omega
  | upTo upper => rfl
  | through upper => rfl
  | starting lower =>
      rw [apply, interval, Int.toNat_natCast, List.take_length]
  | unchecked lower upper => rfl
  | uncheckedClosed lower upper => rfl
  | unbounded =>
      rw [apply, interval, Int.toNat_natCast, List.take_length]
      rfl

end Extraction

/-- A span views the elements that a memory holds at its addresses. -/
structure Views {Element : Type} (stride : Value word .int) (load : RawPointer word → Element)
    (span : Span word) (list : List Element) : Prop where
  count : toInt word .int span._count = list.length
  element : ∀ position, 0 ≤ toInt word .int position →
    toInt word .int position < toInt word .int span._count →
    ∃ address, span.subscript stride position = .ok address ∧
      list[(toInt word .int position).toNat]? = some (load address)

/-- The elements of a span, by their addresses. -/
def elements {Element : Type} (stride : Value word .int) (load : RawPointer word → Element)
    (span : Span word) : List Element :=
  match span._pointer with
  | none => []
  | some start =>
      (List.range (toInt word .int span._count).toNat).map fun i =>
        load (start.advanced ((BitVec.ofNat _ i : Value word .int) * stride))

theorem subscript_eq {start : RawPointer word} {position : Value word .int}
    (pointer : self._pointer = some start) (nonnegative : 0 ≤ toInt word .int position)
    (below : toInt word .int position < toInt word .int self._count) :
    self.subscript stride position = .ok (start.advanced (position * stride)) := by
  have contained : self.indices.contains word .int position = true := by
    apply halfOpen_contains_iff.mpr
    rw [toInt_zero]
    exact ⟨nonnegative, below⟩
  rw [subscript, precondition_true contained, pointer]

/-- The element of a part at a position is that of the whole behind the offset. -/
theorem IsPart.subscript {offset position : Value word .int}
    (part : IsPart stride self child offset) (wellFormed : self.WellFormed stride)
    (positive : 0 < toInt word .int stride) (nonnegative : 0 ≤ toInt word .int position)
    (below : toInt word .int position < toInt word .int child._count) :
    toInt word .int (offset + position) = toInt word .int offset + toInt word .int position ∧
      child.subscript stride position = self.subscript stride (offset + position) := by
  have offset_nonneg := part.offset_nonneg
  have fits := part.fits
  have largest := toInt_le_maximum self._count
  have least := minimum_int word
  have sum : toInt word .int (offset + position) =
      toInt word .int offset + toInt word .int position := toInt_add (by omega) (by omega)
  refine ⟨sum, ?_⟩
  cases pointer : self._pointer with
  | none =>
      have empty := wellFormed.null pointer
      omega
  | some start =>
      have moved := part.pointer
      rw [pointer, Option.map_some] at moved
      rw [subscript_eq moved nonnegative below, subscript_eq pointer (by omega) (by omega)]
      have behind := wellFormed.toNat_advanced positive pointer offset_nonneg (by omega)
      have there := (part.wellFormed wellFormed positive).toNat_advanced positive moved
        nonnegative below
      have whole := wellFormed.toNat_advanced positive pointer
        (by omega : 0 ≤ toInt word .int (offset + position)) (by omega)
      congr 1
      apply BitVec.eq_of_toNat_eq
      zify
      rw [there, behind, whole, sum, add_mul, add_assoc]

variable {Element : Type} {load : RawPointer word → Element} {list : List Element}

theorem WellFormed.views (wellFormed : self.WellFormed stride)
    (load : RawPointer word → Element) : Views stride load self (self.elements stride load) := by
  have count_nonneg := wellFormed.count_nonneg
  cases pointer : self._pointer with
  | none =>
      have none := wellFormed.null pointer
      refine ⟨?_, ?_⟩
      · rw [elements, pointer, none]
        rfl
      · intro position nonnegative below
        omega
  | some start =>
      refine ⟨?_, ?_⟩
      · rw [elements, pointer, List.length_map, List.length_range]
        omega
      · intro position nonnegative below
        have number : (BitVec.ofNat _ (toInt word .int position).toNat : Value word .int) =
            position := by
          rw [toInt_eq_toNat nonnegative, Int.toNat_natCast, BitVec.ofNat_toNat,
            BitVec.setWidth_eq]
        refine ⟨_, subscript_eq pointer nonnegative below, ?_⟩
        rw [elements, pointer, List.getElem?_map, List.getElem?_range (by omega), Option.map_some,
          number]

theorem Takes.views {bounds : ℤ × ℤ} (takes : Takes stride self child bounds)
    (wellFormed : self.WellFormed stride) (positive : 0 < toInt word .int stride)
    (views : Views stride load self list) :
    Views stride load child ((list.take bounds.2.toNat).drop bounds.1.toNat) := by
  rcases takes with ⟨offset, part, lower, count⟩
  have offset_nonneg := part.offset_nonneg
  have count_nonneg := part.count_nonneg
  have fits := part.fits
  have whole := views.count
  refine ⟨?_, ?_⟩
  · rw [List.length_drop, List.length_take]
    omega
  · intro position nonnegative below
    rcases part.subscript wellFormed positive nonnegative below with ⟨sum, same⟩
    rcases views.element (offset + position) (by omega) (by omega) with ⟨address, found, element⟩
    have place : (toInt word .int (offset + position)).toNat =
        bounds.1.toNat + (toInt word .int position).toNat := by omega
    refine ⟨address, same.trans found, ?_⟩
    rw [List.getElem?_drop, List.getElem?_take_of_lt (by omega), ← place]
    exact element

/-- A chain of valid calls makes a span that views what the operations on lists leave. -/
theorem extractAll_views {extractions : List (Extraction word)}
    (wellFormed : self.WellFormed stride) (positive : 0 < toInt word .int stride)
    (views : Views stride load self list)
    (valid : Extraction.ValidChain list extractions) :
    ∃ child, self.extractAll stride extractions = .ok child ∧
      Views stride load child (extractions.foldl Extraction.apply list) ∧
      Relation.ReflTransGen (PartOf stride) self child := by
  induction extractions generalizing self list with
  | nil => exact ⟨self, rfl, views, .refl⟩
  | cons extraction rest later =>
      rcases valid with ⟨first, others⟩
      have count_nonneg := wellFormed.count_nonneg
      have counted := first
      rw [← views.count] at counted
      rcases extract_takes count_nonneg counted with ⟨middle, made, takes⟩
      have seen := takes.views wellFormed positive views
      rw [views.count, ← Extraction.apply_eq first] at seen
      rcases takes with ⟨offset, part, -, -⟩
      rcases later (part.wellFormed wellFormed positive) seen others with
        ⟨child, makes, sees, parts⟩
      refine ⟨child, ?_, sees, parts.head ⟨offset, part⟩⟩
      rw [extractAll, List.foldlM_cons, made]
      exact makes

end Chains

section Places

/-- Where a span starts that has been made from another one. -/
structure Placed (stride : Value word .int) (root child : Span word) (index : ℕ) : Prop where
  pointer : ∀ start, root._pointer = some start → ∃ first, child._pointer = some first ∧
    (first.toNat : ℤ) = start.toNat + index * toInt word .int stride
  count_nonneg : 0 ≤ toInt word .int child._count
  fits : index + toInt word .int child._count ≤ toInt word .int root._count

/-- A pointer stays where it is instead of moving to the end of the address space. -/
theorem toNat_advanced_of_le {start : RawPointer word} {n : Value word .int}
    (fits : start.toNat + BitVec.toNat n ≤ 2 ^ word.bits) :
    (start.advanced n).toNat =
      if start.toNat + BitVec.toNat n = 2 ^ word.bits then start.toNat
      else start.toNat + BitVec.toNat n := by
  have moved : BitVec.toNat ((start : BitVec word.bits) + (n : BitVec word.bits)) =
      (start.toNat + BitVec.toNat n) % 2 ^ word.bits := BitVec.toNat_add _ _
  have zero : BitVec.toNat (0 : BitVec word.bits) = 0 := BitVec.toNat_zero
  simp only [RawPointer.advanced]
  by_cases atEnd : start.toNat + BitVec.toNat n = 2 ^ word.bits
  · rw [atEnd, Nat.mod_self, ← zero] at moved
    rw [if_pos (BitVec.eq_of_toNat_eq moved), if_pos atEnd]
  · rw [Nat.mod_eq_of_lt (by omega)] at moved
    rw [if_neg atEnd]
    split
    · next null =>
      rw [null, zero] at moved
      omega
    · exact moved

theorem Placed.step {index : ℕ} {offset : Value word .int} (placed : Placed stride root self index)
    (part : IsPart stride self child offset) (wellFormed : self.WellFormed stride)
    (positive : 0 < toInt word .int stride) : ∃ index', Placed stride root child index' := by
  have offset_nonneg := part.offset_nonneg
  have inner := part.fits
  have outer := placed.fits
  have count_nonneg := part.count_nonneg
  have product := wellFormed.toNat_mul positive offset_nonneg (by omega)
  by_cases stays : ∀ first, self._pointer = some first →
      first.toNat + BitVec.toNat (offset * stride) = 2 ^ word.bits
  · refine ⟨index, ?_, count_nonneg, by omega⟩
    intro start pointer
    rcases placed.pointer start pointer with ⟨first, there, place⟩
    refine ⟨first.advanced (offset * stride), ?_, ?_⟩
    · rw [part.pointer, there, Option.map_some]
    · have same := stays first there
      rw [toNat_advanced_of_le same.le, if_pos same]
      exact place
  · push Not at stays
    rcases stays with ⟨first, there, moves⟩
    refine ⟨index + (toInt word .int offset).toNat, ?_, count_nonneg, by omega⟩
    intro start pointer
    rcases placed.pointer start pointer with ⟨first', there', place⟩
    rw [there, Option.some_inj] at there'
    subst there'
    refine ⟨first.advanced (offset * stride), ?_, ?_⟩
    · rw [part.pointer, there, Option.map_some]
    · have bytes := part.bytes positive
      have within := wellFormed.within first there
      rw [toNat_advanced_of_le (by omega), if_neg moves]
      push_cast
      rw [place, product, Int.toNat_of_nonneg offset_nonneg, add_mul, add_assoc]

theorem placed_of_parts (wellFormed : root.WellFormed stride)
    (positive : 0 < toInt word .int stride)
    (parts : Relation.ReflTransGen (PartOf stride) root child) :
    child.WellFormed stride ∧ ∃ index, Placed stride root child index := by
  induction parts with
  | refl =>
      refine ⟨wellFormed, 0, ?_, wellFormed.count_nonneg, by omega⟩
      intro start pointer
      exact ⟨start, pointer, by simp⟩
  | tail _ part earlier =>
      rcases earlier with ⟨wellFormed', index, placed⟩
      rcases part with ⟨offset, part⟩
      exact ⟨part.wellFormed wellFormed' positive, placed.step part wellFormed' positive⟩

end Places

section Indices

/-- Division of a multiple leaves no remainder. -/
theorem quotientAndRemainder_of_multiple {x y : Value word .int} {n : ℕ}
    (positive : 0 < toInt word .int y) (multiple : toInt word .int x = n * toInt word .int y) :
    ∃ quotient, quotientAndRemainder x y = .ok (quotient, 0) ∧ toInt word .int quotient = n := by
  have defined : ¬ DivisionUndefined word .int x y := defined_of_positive positive
  rcases divideBuiltin_eq defined with ⟨quotient, divided, value⟩
  rcases remainderBuiltin_eq defined with ⟨remainder, reduced, rest⟩
  rw [multiple, Int.mul_tmod_left] at rest
  have none : remainder = 0 := toInt_injective (rest.trans (toInt_zero word .int).symm)
  refine ⟨quotient, ?_, ?_⟩
  · rw [quotientAndRemainder, divideAssign_eq_builtin defined, remainderAssign_eq_builtin defined,
      divided, reduced, none]
  · rw [value, multiple, Int.mul_tdiv_cancel _ positive.ne']

theorem distance_eq {start first : RawPointer word} :
    start.distance first = .ok (first - start : Value word .uint) := by
  have one : toInt word .int (1 : Value word .int) = 1 := by cases word <;> decide
  have defined : ¬ DivisionUndefined word .int (first - start : Value word .uint) 1 :=
    defined_of_positive (by rw [one]; exact Int.one_pos)
  rcases divideBuiltin_eq defined with ⟨quotient, divided, value⟩
  rw [one, Int.tdiv_one] at value
  rw [RawPointer.distance, divideAssign_eq_builtin defined, divided, toInt_injective value]

/-- The distance between two addresses that are at most `Int.max` bytes apart. -/
theorem toInt_pointer_sub {start first : RawPointer word} {bytes : ℤ} (nonnegative : 0 ≤ bytes)
    (place : (first.toNat : ℤ) = start.toNat + bytes)
    (near : bytes ≤ TwosComplement.maximum true word.bits) :
    toInt word .int (first - start : Value word .uint) = bytes := by
  have apart : BitVec.toNat (first - start) = first.toNat - start.toNat :=
    BitVec.toNat_sub_of_le (BitVec.le_def.mpr (by omega))
  have half : 2 * TwosComplement.maximum true word.bits < 2 ^ word.bits := by
    cases word <;> decide
  have small : 2 * BitVec.toNat (first - start) < 2 ^ word.bits := by
    zify
    omega
  have value : toInt word .int (first - start : Value word .uint) =
      BitVec.toNat (first - start) := BitVec.toInt_eq_toNat_of_lt small
  rw [value, apart]
  omega

/-- `indices(of:)` returns a range that gives back an identical span when it is extracted. -/
def Inverts (stride : Value word .int) (root child : Span word) : Prop :=
  ∃ bounds again, root.indicesOf stride child = .ok (some bounds) ∧
    root.extracting stride bounds = .ok again ∧ again.isIdentical child = true

variable {index : ℕ} {start first : RawPointer word}

/-- The region of a span ends with the address space. -/
def EndsMemory (stride : Value word .int) (span : Span word) : Prop :=
  ∃ start, span._pointer = some start ∧
    start.toNat + (toInt word .int span._count * toInt word .int stride).toNat = 2 ^ word.bits

/-- The end of a part lies behind that of the whole if the latter is taken to be its start. -/
theorem end_less_iff (wellFormed : root.WellFormed stride) (positive : 0 < toInt word .int stride)
    (placed : Placed stride root child index) (pointer : root._pointer = some start)
    (place : (first.toNat : ℤ) = start.toNat + index * toInt word .int stride) :
    (start.advanced (stride * root._count)).less (first.advanced (stride * child._count)) = true ↔
      start.toNat + (toInt word .int root._count * toInt word .int stride).toNat =
          2 ^ word.bits ∧
        ¬ (index = 0 ∧ (toInt word .int child._count = 0 ∨
          toInt word .int child._count = toInt word .int root._count)) := by
  have count_nonneg := placed.count_nonneg
  have fits := placed.fits
  have whole := wellFormed.toNat_mul positive wellFormed.count_nonneg le_rfl
  have part := wellFormed.toNat_mul positive count_nonneg (by omega)
  have within := wellFormed.within start pointer
  have swapped (count : Value word .int) : stride * count = count * stride := BitVec.mul_comm _ _
  -- The products are compared as their factors are.
  have inside : index * toInt word .int stride +
      toInt word .int child._count * toInt word .int stride ≤
        toInt word .int root._count * toInt word .int stride := by
    rw [← add_mul]
    exact mul_le_mul_of_nonneg_right fits positive.le
  have atStart : index * toInt word .int stride = 0 ↔ index = 0 := by
    rw [mul_eq_zero_iff_right positive.ne', Nat.cast_eq_zero]
  have empty : toInt word .int child._count * toInt word .int stride = 0 ↔
      toInt word .int child._count = 0 := mul_eq_zero_iff_right positive.ne'
  have full : toInt word .int child._count * toInt word .int stride =
      toInt word .int root._count * toInt word .int stride ↔
        toInt word .int child._count = toInt word .int root._count :=
    mul_left_inj' positive.ne'
  have index_nonneg : 0 ≤ index * toInt word .int stride :=
    mul_nonneg (Int.natCast_nonneg index) positive.le
  rw [← atStart, ← empty, ← full, RawPointer.less, less_unsigned_iff rfl, swapped, swapped,
    toNat_advanced_of_le (by omega), toNat_advanced_of_le (by omega)]
  split_ifs <;> omega

/-- Of a part of a span, `indices(of:)` compares the ends and divides the distance of the starts. -/
theorem indicesOf_eq (nonempty : 0 < toInt word .int root._count)
    (positive : 0 < toInt word .int stride) (placed : Placed stride root child index)
    (pointer : root._pointer = some start) (there : child._pointer = some first)
    (place : (first.toNat : ℤ) = start.toNat + index * toInt word .int stride) :
    root.indicesOf stride child =
      if (start.advanced (stride * root._count)).less (first.advanced (stride * child._count)) then
        .ok none
      else do
        let byteOffset ← start.distance first
        let (lower, r) ← quotientAndRemainder byteOffset stride
        if r == 0 then return some ⟨lower, lower + child._count⟩ else return none := by
  have fits := placed.fits
  have count_nonneg := placed.count_nonneg
  have index_nonneg : 0 ≤ index * toInt word .int stride :=
    mul_nonneg (Int.natCast_nonneg index) positive.le
  have notLarger : ¬ less word .int root._count child._count = true := by
    rw [less_iff]
    omega
  have filled : less word .int 0 root._count = true := by
    rw [less_iff, toInt_zero]
    exact nonempty
  have behind : first.less start = false := by
    rw [← Bool.not_eq_true, RawPointer.less, less_unsigned_iff rfl]
    omega
  rw [indicesOf, if_neg notLarger, there, filled]
  dsimp only
  rw [pointer]
  dsimp only
  rw [behind, Bool.false_or]
  rfl

theorem indicesOf_of_not_less (wellFormed : root.WellFormed stride)
    (positive : 0 < toInt word .int stride) (nonempty : 0 < toInt word .int root._count)
    (placed : Placed stride root child index) (pointer : root._pointer = some start)
    (there : child._pointer = some first)
    (place : (first.toNat : ℤ) = start.toNat + index * toInt word .int stride)
    (notBeyond : ¬ (start.advanced (stride * root._count)).less
      (first.advanced (stride * child._count)) = true) :
    ∃ lower, root.indicesOf stride child = .ok (some ⟨lower, lower + child._count⟩) ∧
      toInt word .int lower = index := by
  have fits := placed.fits
  have count_nonneg := placed.count_nonneg
  have size := wellFormed.size
  have inside : index * toInt word .int stride ≤
      toInt word .int root._count * toInt word .int stride :=
    mul_le_mul_of_nonneg_right (by omega) positive.le
  have apart := toInt_pointer_sub (mul_nonneg (Int.natCast_nonneg index) positive.le) place
    (inside.trans size)
  rcases quotientAndRemainder_of_multiple positive apart with ⟨lower, divided, value⟩
  refine ⟨lower, ?_, value⟩
  rw [indicesOf_eq nonempty positive placed pointer there place, if_neg notBeyond, distance_eq]
  simp only [bind, Except.bind, divided]
  rfl

/-- The range of a part gives back an identical span. -/
theorem extracting_identical (wellFormed : root.WellFormed stride)
    (positive : 0 < toInt word .int stride) (placed : Placed stride root child index)
    (pointer : root._pointer = some start) (there : child._pointer = some first)
    (place : (first.toNat : ℤ) = start.toNat + index * toInt word .int stride)
    {lower : Value word .int} (value : toInt word .int lower = index) :
    ∃ again, root.extracting stride ⟨lower, lower + child._count⟩ = .ok again ∧
      again.isIdentical child = true := by
  have fits := placed.fits
  have count_nonneg := placed.count_nonneg
  have largest := toInt_le_maximum root._count
  have least := minimum_int word
  have sum : toInt word .int (lower + child._count) =
      toInt word .int lower + toInt word .int child._count := toInt_add (by omega) (by omega)
  have product := wellFormed.toNat_mul positive (by omega : 0 ≤ toInt word .int lower) (by omega)
  have low : first.toNat < 2 ^ word.bits := first.isLt
  have moved : start.toNat + BitVec.toNat (lower * stride) = first.toNat := by
    zify
    rw [product, value, place]
  have there' : start.advanced (lower * stride) = first := by
    apply BitVec.eq_of_toNat_eq
    rw [toNat_advanced_of_le (by omega), if_neg (by omega), moved]
  have difference : lower + child._count - lower = child._count := by
    rw [BitVec.add_comm, BitVec.add_sub_cancel]
  have lower_nonneg : 0 ≤ toInt word .int lower := by omega
  have upper_nonneg : 0 ≤ toInt word .int (lower + child._count) := by omega
  have inside : (!USwift.less word .uint root._count lower &&
      !USwift.less word .uint root._count (lower + child._count)) = true := by
    rw [Bool.and_eq_true, unsigned_le_iff wellFormed.count_nonneg,
      unsigned_le_iff wellFormed.count_nonneg]
    omega
  refine ⟨⟨some first, child._count⟩, ?_, ?_⟩
  · rw [extracting, precondition_true inside, extractingUnchecked,
      count_of_nonneg lower_nonneg upper_nonneg, pointer, Option.map_some, there', difference]
    rfl
  · rw [isIdentical, there]
    simp

theorem inverts_iff (wellFormed : root.WellFormed stride) (positive : 0 < toInt word .int stride)
    (nonempty : 0 < toInt word .int root._count) (placed : Placed stride root child index)
    (pointer : root._pointer = some start) :
    Inverts stride root child ↔
      start.toNat + (toInt word .int root._count * toInt word .int stride).toNat ≠
          2 ^ word.bits ∨
        child._pointer = root._pointer ∧
          (child._count = 0 ∨ child._count = root._count) := by
  have zero := toInt_zero word .int
  rcases placed.pointer start pointer with ⟨first, there, place⟩
  have ends := end_less_iff wellFormed positive placed pointer place
  have atStart : child._pointer = root._pointer ↔ index = 0 := by
    rw [there, pointer, Option.some_inj, ← BitVec.toNat_inj]
    constructor
    · intro same
      have none : index * toInt word .int stride = 0 := by omega
      rw [mul_eq_zero_iff_right positive.ne'] at none
      exact_mod_cast none
    · rintro rfl
      omega
  have empty : child._count = 0 ↔ toInt word .int child._count = 0 := by
    rw [← zero]
    exact ⟨congrArg _, toInt_injective⟩
  have full : child._count = root._count ↔
      toInt word .int child._count = toInt word .int root._count := ⟨congrArg _, toInt_injective⟩
  rw [atStart, empty, full]
  by_cases beyond : (start.advanced (stride * root._count)).less
      (first.advanced (stride * child._count)) = true
  · have missing : root.indicesOf stride child = .ok none := by
      rw [indicesOf_eq nonempty positive placed pointer there place, if_pos beyond]
    rw [ends] at beyond
    refine iff_of_false ?_ ?_
    · rintro ⟨bounds, again, found, -, -⟩
      rw [missing] at found
      cases found
    · rintro (before | start)
      · exact before beyond.1
      · exact beyond.2 start
  · rcases indicesOf_of_not_less wellFormed positive nonempty placed pointer there place beyond with
      ⟨lower, found, value⟩
    rcases extracting_identical wellFormed positive placed pointer there place value with
      ⟨again, extracted, identical⟩
    rw [ends, not_and_or, not_not] at beyond
    exact iff_of_true ⟨_, again, found, extracted, identical⟩ beyond

end Indices

section Results

/--
A chain of valid calls makes a span that views what the operations on lists leave of the
elements of a span. The range that `indices(of:)` returns for it gives back an identical span
if and only if the region of the whole does not end with the address space, or the part
starts where the whole does and is empty or all of it.
-/
theorem extractions_view_and_invert {Element : Type} {load : RawPointer word → Element}
    {list : List Element} {extractions : List (Extraction word)}
    (wellFormed : root.WellFormed stride) (positive : 0 < toInt word .int stride)
    (views : Views stride load root list)
    (valid : Extraction.ValidChain list extractions) :
    ∃ child, root.extractAll stride extractions = .ok child ∧
      Views stride load child (extractions.foldl Extraction.apply list) ∧
      (list ≠ [] → (Inverts stride root child ↔
        ¬ EndsMemory stride root ∨
          child._pointer = root._pointer ∧
            (child._count = 0 ∨ child._count = root._count))) := by
  rcases extractAll_views wellFormed positive views valid with ⟨child, made, sees, parts⟩
  refine ⟨child, made, sees, ?_⟩
  intro nonempty
  rcases placed_of_parts wellFormed positive parts with ⟨-, index, placed⟩
  have filled : 0 < toInt word .int root._count := by
    rw [views.count]
    exact_mod_cast List.length_pos_iff.mpr nonempty
  cases pointer : root._pointer with
  | none =>
      have none := wellFormed.null pointer
      omega
  | some start =>
      have ends : EndsMemory stride root ↔
          start.toNat + (toInt word .int root._count * toInt word .int stride).toNat =
            2 ^ word.bits := by
        rw [EndsMemory, pointer]
        simp
      rw [ends, ← pointer]
      exact inverts_iff wellFormed positive filled placed pointer

/-- Of three bytes, the last one is left after two calls, and found again at its place. -/
theorem extractions_view_and_invert_three :
    ∃ child, threeBytes.extractAll 1 [.checked (.halfOpen 1 3), .checked (.droppingFirst 1)] =
        .ok child ∧
      Views 1 BitVec.toNat child [0x102] ∧
      ([0x100, 0x101, 0x102] ≠ [] → (Inverts 1 threeBytes child ↔
        ¬ EndsMemory 1 threeBytes ∨
          child._pointer = threeBytes._pointer ∧
            (child._count = 0 ∨ child._count = threeBytes._count))) := by
  have views : Views 1 BitVec.toNat threeBytes [0x100, 0x101, 0x102] :=
    threeBytes_wellFormed.views BitVec.toNat
  exact extractions_view_and_invert threeBytes_wellFormed (by decide) views
    ⟨by decide, by decide, trivial⟩

/-- Three bytes at the end of the address space. -/
def lastBytes : Span .word16 :=
  ⟨some 0xFFFD, 3⟩

/-- The last two of them are not found, since the end of the whole would be null. -/
theorem lastBytes_not_inverted :
    lastBytes.WellFormed 1 ∧ lastBytes.extractAll 1 [.checked (.droppingFirst 1)] =
        .ok ⟨some 0xFFFE, 2⟩ ∧
      lastBytes.indicesOf 1 ⟨some 0xFFFE, 2⟩ = .ok none ∧
      ¬ Inverts 1 lastBytes ⟨some 0xFFFE, 2⟩ := by
  have missing : lastBytes.indicesOf 1 ⟨some 0xFFFE, 2⟩ = .ok none := by rfl
  refine ⟨⟨by decide, ?_, by decide, ?_⟩, rfl, missing, ?_⟩
  · intro null
    cases null
  · intro start pointer
    cases pointer
    decide
  · rintro ⟨bounds, again, found, -, -⟩
    rw [missing] at found
    cases found

end Results

end Span

end USwift
