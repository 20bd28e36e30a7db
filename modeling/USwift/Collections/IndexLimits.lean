import USwift.Collections.ClosedRangeIndices
import USwift.Collections.StrideContains

/-!
# Moving an index up to a limit

`index(_:offsetBy:limitedBy:)` of the collections whose indices are an `Int`. The defaults
of `Collection` and `BidirectionalCollection` take one step at a time and look for the
limit before each of them. The arrays and the buffers subtract the index from the limit,
and the default of `RandomAccessCollection` asks for the distance between the two.
-/

namespace USwift

open Iteration Positions Progression

/-- What a random-access collection with integer indices supplies to the defaults. -/
structure IntIndexed (word : WordSize) where
  startIndex : Index word
  endIndex : Index word
  indexAfter : Index word → Index word
  indexBefore : Index word → Index word
  indexOffsetBy : Index word → Value word .int → Index word
  distance : Index word → Index word → Value word .int

namespace IntIndexed

section Operations

variable {word : WordSize}

/-- `index(_:offsetBy:limitedBy:)` of `RandomAccessCollection`. -/
def indexLimited (self : IntIndexed word) (i : Index word) (distance : Value word .int)
    (limit : Index word) : Option (Index word) :=
  let l := self.distance i limit
  if if less word .int 0 distance then !less word .int l 0 && less word .int l distance
    else !less word .int 0 l && less word .int distance l then none
  else some (self.indexOffsetBy i distance)

/-- The loop of the defaults over a stride, with no result behind a number of calls of `next()`. -/
def walk (formIndex : Index word → Index word) (limit : Index word) :
    ℕ → StrideToIterator word .int → Index word → Option (Option (Index word))
  | 0, _, _ => none
  | fuel + 1, iterator, i =>
      match iterator.next with
      | none => some (some i)
      | some (_, later) =>
          if i == limit then some none else walk formIndex limit fuel later (formIndex i)

/-- `_advanceForward(_:by:limitedBy:)`, the default of `Collection`. -/
def _advanceForward (self : IntIndexed word) (i : Index word) (n : Value word .int)
    (limit : Index word) (fuel : ℕ) : Option (Option (Index word)) :=
  walk self.indexAfter limit fuel (strideTo 0 n 1).makeIterator i

/-- `_index(_:offsetBy:limitedBy:)`, the default of `BidirectionalCollection`. -/
def _index (self : IntIndexed word) (i : Index word) (distance : Value word .int)
    (limit : Index word) (fuel : ℕ) : Option (Option (Index word)) :=
  if !less word .int distance 0 then self._advanceForward i distance limit fuel
  else walk self.indexBefore limit fuel (strideTo 0 distance (-1)).makeIterator i

/-- `Array`, `ArraySlice` and the typed buffers, which add and subtract. -/
def ofArray (startIndex endIndex : Index word) : IntIndexed word where
  startIndex := startIndex
  endIndex := endIndex
  indexAfter i := i + 1
  indexBefore i := i - 1
  indexOffsetBy i distance := i + distance
  distance start _end := _end - start

/-- The defaults of `RandomAccessCollection` where the indices are a `Range<Int>`. -/
def strideable (startIndex endIndex : Index word) : IntIndexed word where
  startIndex := startIndex
  endIndex := endIndex
  indexAfter i := advanced word .int i 1
  indexBefore i := advanced word .int i (-1)
  indexOffsetBy i distance := advanced word .int i distance
  distance start _end := distanceTo start _end

/-- `Range<Int>`, whose checks have no effect. -/
def ofRange (range : Range (Value word .int)) : IntIndexed word where
  startIndex := range.lowerBound
  endIndex := range.upperBound
  indexAfter i := advanced word .int i 1
  indexBefore i := advanced word .int i (-1)
  indexOffsetBy i n := advanced word .int i (numericCast n)
  distance start _end := numericCast (distanceTo start _end)

/-- `Words` of an integer, which steps by an addition. -/
def ofWords (count : Value word .int) : IntIndexed word :=
  { strideable 0 count with
    indexAfter := fun i => i + 1
    indexBefore := fun i => i - 1 }

/-- `CollectionOfOne`, whose steps do not look at the index. -/
def collectionOfOne (word : WordSize) : IntIndexed word :=
  { strideable 0 1 with
    indexAfter := fun _ => 1
    indexBefore := fun _ => 0 }

/-- `EmptyCollection`. -/
def emptyCollection (word : WordSize) : IntIndexed word where
  startIndex := 0
  endIndex := 0
  indexAfter _ := 0
  indexBefore _ := 0
  indexOffsetBy i _ := i
  distance _ _ := 0

/-- `index(_:offsetBy:limitedBy:)` of `EmptyCollection`. -/
def emptyLimited (i : Index word) (n : Value word .int) (_limit : Index word) :
    Option (Index word) :=
  if n == 0 then some i else none

end Operations

end IntIndexed

variable {word : WordSize}

/-- Walking towards another integer meets a limit before the last step. -/
def Meets (i n limit : ℤ) : Prop :=
  ∃ k : ℕ, (k : ℤ) < |n| ∧ i + k * n.sign = limit

/-- A limited move gives what both defaults give, and gives up where the limit is met. -/
structure StepsTo (collection : IntIndexed word)
    (indexLimited : Index word → Value word .int → Index word → Option (Index word))
    (i : Index word) (n : Value word .int) (limit : Index word) : Prop where
  forward : 0 ≤ toInt word .int n →
    ∃ fuel, collection._advanceForward i n limit fuel = some (indexLimited i n limit)
  bidirectional : ∃ fuel, collection._index i n limit fuel = some (indexLimited i n limit)
  none_iff : indexLimited i n limit = none ↔
    Meets (toInt word .int i) (toInt word .int n) (toInt word .int limit)

theorem meets_iff {i n limit : ℤ} :
    Meets i n limit ↔
      if 0 < n then 0 ≤ limit - i ∧ limit - i < n else limit - i ≤ 0 ∧ n < limit - i := by
  rw [Meets]
  rcases lt_trichotomy n 0 with backward | rfl | forward
  · rw [if_neg (by omega), abs_of_neg backward, Int.sign_eq_neg_one_of_neg backward]
    constructor
    · rintro ⟨k, earlier, met⟩
      omega
    · intro between
      exact ⟨(i - limit).toNat, by omega, by omega⟩
  · simp
    omega
  · rw [if_pos forward, abs_of_pos forward, Int.sign_eq_one_of_pos forward]
    constructor
    · rintro ⟨k, earlier, met⟩
      omega
    · intro between
      exact ⟨(limit - i).toNat, by omega, by omega⟩

/-- A loop over a stride takes as many limited steps as the stride has elements. -/
theorem IntIndexed.walk_of_yields {formIndex : Index word → Index word} {i limit : Index word}
    {iterator : StrideToIterator word .int} {elements : List (Value word .int)}
    (yields : Yields StrideToIterator.next iterator elements) :
    walk formIndex limit (elements.length + 1) iterator i =
      some (limited formIndex limit elements.length i) := by
  induction elements generalizing i iterator with
  | nil =>
      rw [walk, yields.nil_inv]
      rfl
  | cons element elements shorter =>
      rcases yields.cons_inv with ⟨later, advanced, rest⟩
      rw [walk, advanced, List.length_cons, limited]
      dsimp only
      by_cases met : i = limit
      · rw [if_pos (beq_iff_eq.mpr met), if_pos met]
      · rw [if_neg (beq_iff_eq.not.mpr met), if_neg met]
        exact shorter rest

theorem moved_int (n : Value word .int) : moved word .int n = toInt word .int n := by
  rw [moved, if_neg]
  rintro ⟨unsigned, _⟩
  cases unsigned

/-- A stride from zero to an integer by one in its direction. -/
theorem yields_unit_stride {n unit : Value word .int}
    (direction : toInt word .int unit = 1 ∧ 0 ≤ toInt word .int n ∨
      toInt word .int unit = -1 ∧ toInt word .int n < 0) :
    ∃ elements, Yields StrideToIterator.next (strideTo 0 n unit).makeIterator elements ∧
      elements.length = (toInt word .int n).natAbs := by
  have zero := toInt_zero word .int
  have bounds := int_bounds word
  have low : TwosComplement.minimum true word.bits ≤ toInt word .int n := minimum_le_toInt n
  have high : toInt word .int n ≤ TwosComplement.maximum true word.bits := toInt_le_maximum n
  have nonzero : unit ≠ 0 := by
    rintro rfl
    omega
  have precedes (k : ℕ) : Precedes (toInt word .int unit)
      (term (toInt word .int 0) (toInt word .int unit) k) (toInt word .int n) ↔
        k < (toInt word .int n).natAbs := by
    rw [Precedes, term, zero]
    rcases direction with ⟨unit_eq, upward⟩ | ⟨unit_eq, downward⟩ <;> rw [unit_eq]
    · rw [if_pos one_pos]
      omega
    · rw [if_neg (by decide)]
      omega
  have inside : StaysInside 0 n unit := by
    refine ⟨(toInt word .int n).natAbs, ?_, ?_, ?_⟩
    · intro k earlier
      rw [moved_int]
      exact (precedes k).mpr earlier
    · rw [moved_int]
      exact (precedes _).not.mpr (Nat.lt_irrefl _)
    · intro k atMost
      rw [moved_int, term, zero]
      constructor
      · change TwosComplement.minimum true word.bits ≤ _
        rcases direction with ⟨unit_eq, upward⟩ | ⟨unit_eq, downward⟩ <;> rw [unit_eq] <;> omega
      · change _ ≤ TwosComplement.maximum true word.bits
        rcases direction with ⟨unit_eq, upward⟩ | ⟨unit_eq, downward⟩ <;> rw [unit_eq] <;> omega
  obtain ⟨elements, yields, count, listed, counts⟩ :=
    (stridesTo_iff nonzero).mpr (inside.stopsBeyondOrAt nonzero).1
  refine ⟨elements, yields, ?_⟩
  have lengths := congrArg List.length listed
  rw [List.length_map, List.length_map, List.length_range] at lengths
  rw [lengths]
  exact eq_of_lt_iff fun k => (counts k).trans (precedes k)

namespace IntIndexed

/-- The step of the defaults in the direction of a distance. -/
def stepTowards (collection : IntIndexed word) (n : Value word .int) : Index word → Index word :=
  if 0 ≤ toInt word .int n then collection.indexAfter else collection.indexBefore

/-- All steps of the defaults, given up where the limit is met before the last one. -/
def steps (collection : IntIndexed word) (i : Index word) (n : Value word .int)
    (limit : Index word) : Option (Index word) :=
  limited (collection.stepTowards n) limit (toInt word .int n).natAbs i

variable (collection : IntIndexed word) {i limit : Index word} {n : Value word .int}

theorem stepTowards_of_nonneg (upward : 0 ≤ toInt word .int n) :
    collection.stepTowards n = collection.indexAfter :=
  if_pos upward

theorem stepTowards_of_neg (downward : ¬ 0 ≤ toInt word .int n) :
    collection.stepTowards n = collection.indexBefore :=
  if_neg downward

theorem exists_advanceForward (upward : 0 ≤ toInt word .int n) :
    ∃ fuel, collection._advanceForward i n limit fuel = some (collection.steps i n limit) := by
  rcases yields_unit_stride (Or.inl ⟨toInt_one_int word, upward⟩) with ⟨elements, yields, length⟩
  refine ⟨elements.length + 1, ?_⟩
  rw [_advanceForward, walk_of_yields yields, length, steps, stepTowards_of_nonneg _ upward]

theorem exists_index :
    ∃ fuel, collection._index i n limit fuel = some (collection.steps i n limit) := by
  have test : (!less word .int n 0) = true ↔ 0 ≤ toInt word .int n := by
    rw [Bool.not_eq_true', ← Bool.not_eq_true, less_iff, toInt_zero, not_lt]
  by_cases upward : 0 ≤ toInt word .int n
  · rcases collection.exists_advanceForward upward with ⟨fuel, walked⟩
    refine ⟨fuel, ?_⟩
    rw [_index, if_pos (test.mpr upward)]
    exact walked
  · obtain ⟨elements, yields, length⟩ :=
      yields_unit_stride (Or.inr ⟨toInt_neg_one_int word, not_le.mp upward⟩)
    refine ⟨elements.length + 1, ?_⟩
    rw [_index, if_neg (test.not.mpr upward), walk_of_yields yields, length, steps,
      stepTowards_of_neg _ upward]

/-- Both defaults take the same steps where the number of them is not negative. -/
theorem stepsTo_of_limited
    {indexLimited : Index word → Value word .int → Index word → Option (Index word)}
    (walked : collection.steps i n limit = indexLimited i n limit)
    (none_iff : indexLimited i n limit = none ↔
      Meets (toInt word .int i) (toInt word .int n) (toInt word .int limit)) :
    StepsTo collection indexLimited i n limit where
  forward upward := by
    rcases collection.exists_advanceForward upward with ⟨fuel, returned⟩
    exact ⟨fuel, returned.trans (congrArg some walked)⟩
  bidirectional := by
    rcases collection.exists_index with ⟨fuel, returned⟩
    exact ⟨fuel, returned.trans (congrArg some walked)⟩
  none_iff := none_iff

end IntIndexed

/-- Steps by one towards a sum that does not overflow. -/
theorem toInt_iterate_add {i n unit : Value word .int}
    (direction : toInt word .int unit = 1 ∧ 0 ≤ toInt word .int n ∨
      toInt word .int unit = -1 ∧ toInt word .int n < 0)
    (inside : InRange word .int (toInt word .int i + toInt word .int n)) {k : ℕ}
    (atMost : k ≤ (toInt word .int n).natAbs) :
    toInt word .int ((fun x => x + unit)^[k] i) =
      toInt word .int i + k * toInt word .int unit := by
  have least : TwosComplement.minimum true word.bits ≤ toInt word .int i := minimum_le_toInt i
  have greatest : toInt word .int i ≤ TwosComplement.maximum true word.bits := toInt_le_maximum i
  have low : TwosComplement.minimum true word.bits ≤ toInt word .int i + toInt word .int n :=
    inside.1
  have high : toInt word .int i + toInt word .int n ≤ TwosComplement.maximum true word.bits :=
    inside.2
  induction k with
  | zero => simp
  | succ k earlier =>
      have before := earlier (by omega)
      have between : TwosComplement.minimum true word.bits ≤
            toInt word .int ((fun x => x + unit)^[k] i) + toInt word .int unit ∧
          toInt word .int ((fun x => x + unit)^[k] i) + toInt word .int unit ≤
            TwosComplement.maximum true word.bits := by
        rw [before]
        rcases direction with ⟨unit_eq, upward⟩ | ⟨unit_eq, downward⟩
        · rw [unit_eq]
          omega
        · rw [unit_eq]
          omega
      rw [Function.iterate_succ_apply', toInt_int_add between.1 between.2, before]
      push_cast
      ring

theorem advanced_int (i n : Value word .int) : advanced word .int i n = i + n := by
  have congruent := toInt_advanced_modEq i n
  rw [moved_int] at congruent
  exact TwosComplement.eq_of_value_modEq
    (congruent.trans (TwosComplement.value_add_modEq true i n).symm)

section Successors

variable {collection : IntIndexed word} (after_eq : ∀ i, collection.indexAfter i = i + 1)
  (before_eq : ∀ i, collection.indexBefore i = i - 1) {i limit : Index word} {n : Value word .int}
  (inside : InRange word .int (toInt word .int i + toInt word .int n))

include after_eq before_eq inside

/-- The steps of the defaults, by an addition in either direction. -/
theorem limited_successors :
    (Meets (toInt word .int i) (toInt word .int n) (toInt word .int limit) →
      collection.steps i n limit = none) ∧
    (¬ Meets (toInt word .int i) (toInt word .int n) (toInt word .int limit) →
      collection.steps i n limit = some (i + n)) := by
  obtain ⟨unit, direction, step_eq⟩ : ∃ unit : Value word .int,
      (toInt word .int unit = 1 ∧ 0 ≤ toInt word .int n ∨
        toInt word .int unit = -1 ∧ toInt word .int n < 0) ∧
      collection.stepTowards n = fun x => x + unit := by
    by_cases upward : 0 ≤ toInt word .int n
    · refine ⟨1, Or.inl ⟨toInt_one_int word, upward⟩, ?_⟩
      rw [collection.stepTowards_of_nonneg upward]
      exact funext after_eq
    · refine ⟨-1, Or.inr ⟨toInt_neg_one_int word, not_le.mp upward⟩, ?_⟩
      rw [collection.stepTowards_of_neg upward]
      exact funext fun x => (before_eq x).trans (BitVec.sub_eq_add_neg x 1)
  have place {k : ℕ} (atMost : k ≤ (toInt word .int n).natAbs) :=
    toInt_iterate_add direction inside atMost
  have meets : Meets (toInt word .int i) (toInt word .int n) (toInt word .int limit) ↔
      ∃ k < (toInt word .int n).natAbs, (fun x => x + unit)^[k] i = limit := by
    have size := Int.natCast_natAbs (toInt word .int n)
    rw [Meets]
    refine exists_congr fun k => ?_
    constructor
    · rintro ⟨earlier, met⟩
      have before : k < (toInt word .int n).natAbs := by omega
      refine ⟨before, toInt_injective ?_⟩
      rw [place before.le, ← met]
      rcases direction with ⟨unit_eq, upward⟩ | ⟨unit_eq, downward⟩
      · rw [unit_eq, Int.sign_eq_one_of_pos (by omega)]
      · rw [unit_eq, Int.sign_eq_neg_one_of_neg downward]
    · rintro ⟨before, rfl⟩
      refine ⟨by omega, ?_⟩
      rw [place before.le]
      rcases direction with ⟨unit_eq, upward⟩ | ⟨unit_eq, downward⟩
      · rw [unit_eq, Int.sign_eq_one_of_pos (by omega)]
      · rw [unit_eq, Int.sign_eq_neg_one_of_neg downward]
  rw [IntIndexed.steps, step_eq, meets]
  constructor
  · rintro ⟨k, earlier, met⟩
    exact limited_eq_none earlier met
  · intro missed
    rw [limited_eq_some fun k earlier met => missed ⟨k, earlier, met⟩, Option.some_inj]
    apply toInt_injective
    rw [place le_rfl, toInt_int_add inside.1 inside.2]
    rcases direction with ⟨unit_eq, upward⟩ | ⟨unit_eq, downward⟩ <;> rw [unit_eq] <;> omega

/-- A limited move that gives up where the limit is met agrees with steps by an addition. -/
theorem stepsTo_of_successors
    {indexLimited : Index word → Value word .int → Index word → Option (Index word)}
    {test : Bool} (test_iff : test = true ↔
      Meets (toInt word .int i) (toInt word .int n) (toInt word .int limit))
    (limited_eq : indexLimited i n limit = if test then none else some (i + n)) :
    StepsTo collection indexLimited i n limit := by
  have stepped := @limited_successors _ _ after_eq before_eq i limit n inside
  apply collection.stepsTo_of_limited
  · by_cases met : test = true
    · rw [limited_eq, if_pos met, stepped.1 (test_iff.mp met)]
    · rw [limited_eq, if_neg met, stepped.2 (test_iff.not.mp met)]
  · rw [limited_eq, ← test_iff]
    simp

end Successors

/-- The comparison that the limited moves make, given the way to the limit. -/
theorem limit_test_iff {i n limit l : Value word .int}
    (l_eq : toInt word .int n ≠ 0 → toInt word .int l = toInt word .int limit - toInt word .int i) :
    (if less word .int 0 n then !less word .int l 0 && less word .int l n
      else !less word .int 0 l && less word .int n l) = true ↔
        Meets (toInt word .int i) (toInt word .int n) (toInt word .int limit) := by
  rw [meets_iff]
  by_cases forwards : 0 < toInt word .int n
  · have test : less word .int 0 n = true := by
      rw [less_iff, toInt_zero]
      exact forwards
    rw [if_pos test, if_pos forwards, Bool.and_eq_true, Bool.not_eq_true', ← Bool.not_eq_true,
      less_iff, less_iff, toInt_zero, l_eq (by omega), not_lt]
  · have test : ¬ less word .int 0 n = true := by
      rw [less_iff, toInt_zero]
      exact forwards
    rw [if_neg test, if_neg forwards, Bool.and_eq_true, Bool.not_eq_true', ← Bool.not_eq_true,
      less_iff, less_iff, toInt_zero, not_lt]
    by_cases still : toInt word .int n = 0
    · omega
    · rw [l_eq still]

namespace IntIndexed

/-- The indices of a collection, the one behind its elements included. -/
def Within (collection : IntIndexed word) (i : Index word) : Prop :=
  toInt word .int collection.startIndex ≤ toInt word .int i ∧
    toInt word .int i ≤ toInt word .int collection.endIndex

instance (collection : IntIndexed word) (i : Index word) : Decidable (collection.Within i) :=
  inferInstanceAs (Decidable (_ ∧ _))

theorem ofArray_stepsTo {startIndex endIndex i limit : Index word} {n : Value word .int}
    (nonnegative : 0 ≤ toInt word .int startIndex)
    (i_within : (ofArray startIndex endIndex).Within i)
    (limit_within : (ofArray startIndex endIndex).Within limit)
    (inside : InRange word .int (toInt word .int i + toInt word .int n)) :
    StepsTo (ofArray startIndex endIndex) indexOffsetLimited i n limit := by
  have gap : toInt word .int (limit - i) = toInt word .int limit - toInt word .int i :=
    toInt_index_sub (nonnegative.trans limit_within.1) (nonnegative.trans i_within.1)
  exact stepsTo_of_successors (fun _ => rfl) (fun _ => rfl) inside (limit_test_iff fun _ => gap) rfl

/-- The distance to a limit that is not too far away. -/
theorem toInt_distanceTo_int {i limit : Value word .int}
    (near : |toInt word .int limit - toInt word .int i| ≤ TwosComplement.maximum true word.bits) :
    toInt word .int (distanceTo i limit) = toInt word .int limit - toInt word .int i := by
  have bounds := int_bounds word
  rcases abs_le.mp near with ⟨low, high⟩
  have fits : InRange word .int (toInt word .int limit - toInt word .int i) := by
    constructor
    · change TwosComplement.minimum true word.bits ≤ _
      omega
    · exact high
  apply (toInt_distanceTo_iff fits).mpr
  rintro ⟨_, least | ⟨_, uint, _⟩⟩
  · omega
  · cases uint

/-- Indices that are not negative are not too far from each other. -/
theorem near_of_nonnegative {collection : IntIndexed word} {i limit : Index word}
    (nonnegative : 0 ≤ toInt word .int collection.startIndex) (i_within : collection.Within i)
    (limit_within : collection.Within limit) :
    |toInt word .int limit - toInt word .int i| ≤ TwosComplement.maximum true word.bits := by
  have i_high : toInt word .int i ≤ TwosComplement.maximum true word.bits := toInt_le_maximum i
  have limit_high : toInt word .int limit ≤ TwosComplement.maximum true word.bits :=
    toInt_le_maximum limit
  have i_low := nonnegative.trans i_within.1
  have limit_low := nonnegative.trans limit_within.1
  rw [abs_le]
  constructor <;> omega

/-- The collections whose limited moves are the default of `RandomAccessCollection`. -/
inductive Default : IntIndexed word → Prop
  | strideable (startIndex endIndex : Index word) : Default (strideable startIndex endIndex)
  | range (range : Range (Value word .int)) : Default (ofRange range)
  | words (count : Value word .int) : Default (ofWords count)

/-- They step by an addition and measure the way to a limit. -/
theorem Default.operations {collection : IntIndexed word} (kind : Default collection) :
    (∀ i, collection.indexAfter i = i + 1) ∧ (∀ i, collection.indexBefore i = i - 1) ∧
      (∀ i n, collection.indexOffsetBy i n = i + n) ∧
      ∀ i limit, collection.distance i limit = distanceTo i limit := by
  have back (i : Index word) : advanced word .int i (-1) = i - 1 :=
    (advanced_int i (-1)).trans (BitVec.sub_eq_add_neg i 1).symm
  cases kind with
  | strideable startIndex endIndex =>
      exact ⟨fun i => advanced_int i 1, back, advanced_int, fun _ _ => rfl⟩
  | range range =>
      refine ⟨fun i => advanced_int i 1, back, fun i n => ?_, fun i limit => numericCast_eq _⟩
      exact (congrArg (advanced word .int i) (numericCast_eq n)).trans (advanced_int i n)
  | words count =>
      exact ⟨fun _ => rfl, fun _ => rfl, advanced_int, fun _ _ => rfl⟩

theorem Default.stepsTo {collection : IntIndexed word} (kind : Default collection)
    {i limit : Index word} {n : Value word .int}
    (near : toInt word .int n = 0 ∨ |toInt word .int limit - toInt word .int i| ≤
      TwosComplement.maximum true word.bits)
    (inside : InRange word .int (toInt word .int i + toInt word .int n)) :
    StepsTo collection collection.indexLimited i n limit := by
  rcases kind.operations with ⟨after_eq, before_eq, offset_eq, distance_eq⟩
  have way (moves : toInt word .int n ≠ 0) : toInt word .int (distanceTo i limit) =
      toInt word .int limit - toInt word .int i :=
    toInt_distanceTo_int (near.resolve_left moves)
  apply stepsTo_of_successors after_eq before_eq inside (limit_test_iff way)
  rw [indexLimited, offset_eq, distance_eq]

/-- The steps of `CollectionOfOne`, which lead to one index in either direction. -/
theorem collectionOfOne_limited {i limit : Index word} {n : Value word .int}
    (i_within : (collectionOfOne word).Within i)
    (limit_within : (collectionOfOne word).Within limit)
    (inside : InRange word .int (toInt word .int i + toInt word .int n)) :
    (Meets (toInt word .int i) (toInt word .int n) (toInt word .int limit) →
      (collectionOfOne word).steps i n limit = none) ∧
    (¬ Meets (toInt word .int i) (toInt word .int n) (toInt word .int limit) →
      0 ≤ toInt word .int i + toInt word .int n → toInt word .int i + toInt word .int n ≤ 1 →
        (collectionOfOne word).steps i n limit = some (i + n)) := by
  have zero := toInt_zero word .int
  have one := toInt_one_int word
  have i_low : toInt word .int 0 ≤ toInt word .int i := i_within.1
  have i_high : toInt word .int i ≤ toInt word .int 1 := i_within.2
  have limit_low : toInt word .int 0 ≤ toInt word .int limit := limit_within.1
  have limit_high : toInt word .int limit ≤ toInt word .int 1 := limit_within.2
  have stepped {j : Index word}
      (there : toInt word .int j = if 0 ≤ toInt word .int n then 1 else 0) :
      (collectionOfOne word).stepTowards n i = j := by
    apply toInt_injective
    rw [there, stepTowards]
    split
    · exact one
    · exact zero
  constructor
  · rintro ⟨k, earlier, met⟩
    have size := Int.natCast_natAbs (toInt word .int n)
    by_cases here : i = limit
    · have moving : 0 < (toInt word .int n).natAbs := by omega
      exact limited_eq_none moving here
    · have apart : toInt word .int i ≠ toInt word .int limit := fun same =>
        here (toInt_injective same)
      -- one step leads from one index to the other, and it is not the last one
      have further : k ≠ 0 := by
        rintro rfl
        exact apart (by simpa using met)
      have moving : 1 < (toInt word .int n).natAbs := by omega
      refine limited_eq_none moving (stepped ?_)
      by_cases upward : 0 ≤ toInt word .int n
      · rw [Int.sign_eq_one_of_pos (by omega)] at met
        rw [if_pos upward]
        omega
      · rw [Int.sign_eq_neg_one_of_neg (by omega)] at met
        rw [if_neg upward]
        omega
  · intro missed low high
    have sum : toInt word .int (i + n) = toInt word .int i + toInt word .int n :=
      toInt_int_add inside.1 inside.2
    obtain still | single : (toInt word .int n).natAbs = 0 ∨ (toInt word .int n).natAbs = 1 := by
      omega
    · rw [steps, still, limited, Option.some_inj]
      apply toInt_injective
      rw [sum]
      omega
    · have elsewhere : i ≠ limit := by
        rintro rfl
        have size := Int.natCast_natAbs (toInt word .int n)
        exact missed ⟨0, by omega, by simp⟩
      rw [steps, single, limited, if_neg elsewhere, limited, Option.some_inj]
      apply stepped
      rw [sum]
      split <;> omega

theorem collectionOfOne_stepsTo {i limit : Index word} {n : Value word .int}
    (i_within : (collectionOfOne word).Within i)
    (limit_within : (collectionOfOne word).Within limit)
    (inside : InRange word .int (toInt word .int i + toInt word .int n))
    (stays : Meets (toInt word .int i) (toInt word .int n) (toInt word .int limit) ∨
      0 ≤ toInt word .int i + toInt word .int n ∧ toInt word .int i + toInt word .int n ≤ 1) :
    StepsTo (collectionOfOne word) (collectionOfOne word).indexLimited i n limit := by
  have stepped := collectionOfOne_limited i_within limit_within inside
  have near := near_of_nonnegative (toInt_zero word .int).ge i_within limit_within
  have test_iff := limit_test_iff (n := n) fun _ => toInt_distanceTo_int near
  have offset_eq : advanced word .int i n = i + n := advanced_int i n
  have limited_eq : (collectionOfOne word).indexLimited i n limit =
      if if less word .int 0 n then !less word .int (distanceTo i limit) 0 &&
          less word .int (distanceTo i limit) n
        else !less word .int 0 (distanceTo i limit) && less word .int n (distanceTo i limit)
      then none else some (i + n) := by
    rw [← offset_eq]
    rfl
  apply stepsTo_of_limited
  · by_cases met : Meets (toInt word .int i) (toInt word .int n) (toInt word .int limit)
    · rw [limited_eq, if_pos (test_iff.mpr met), stepped.1 met]
    · rcases stays.resolve_left met with ⟨low, high⟩
      rw [limited_eq, if_neg (test_iff.not.mpr met), stepped.2 met low high]
  · rw [limited_eq, ← test_iff]
    simp

theorem emptyCollection_stepsTo {i limit : Index word} {n : Value word .int}
    (i_within : (emptyCollection word).Within i)
    (limit_within : (emptyCollection word).Within limit) :
    StepsTo (emptyCollection word) emptyLimited i n limit := by
  have here : toInt word .int i = toInt word .int limit :=
    (le_antisymm i_within.2 i_within.1).trans (le_antisymm limit_within.2 limit_within.1).symm
  have still_iff : n = 0 ↔ toInt word .int n = 0 :=
    ⟨fun still => still ▸ toInt_zero word .int, fun still =>
      toInt_injective (still.trans (toInt_zero word .int).symm)⟩
  have limited_eq : emptyLimited i n limit = if n = 0 then some i else none := by
    simp [emptyLimited]
  by_cases still : n = 0
  · rw [if_pos still] at limited_eq
    apply stepsTo_of_limited
    · rw [limited_eq, steps, still_iff.mp still]
      rfl
    · rw [limited_eq, meets_iff, still_iff.mp still]
      simp
  · rw [if_neg still] at limited_eq
    have moving : toInt word .int n ≠ 0 := still_iff.not.mp still
    apply stepsTo_of_limited
    · have some : 0 < (toInt word .int n).natAbs := Int.natAbs_pos.mpr moving
      rw [limited_eq]
      exact limited_eq_none some (toInt_injective here)
    · rw [limited_eq]
      exact iff_of_true rfl ⟨0, abs_pos.mpr moving, by simp [here]⟩

end IntIndexed

open IntIndexed

/--
The limited moves of the collections with integer indices are the step-by-step ones, where the
distance of the limit is an `Int` and the steps of `CollectionOfOne` stay at its indices.
-/
theorem limitedMoves (word : WordSize) :
    (∀ startIndex endIndex i limit : Index word, ∀ n : Value word .int,
      0 ≤ toInt word .int startIndex → (ofArray startIndex endIndex).Within i →
      (ofArray startIndex endIndex).Within limit →
      InRange word .int (toInt word .int i + toInt word .int n) →
        StepsTo (ofArray startIndex endIndex) indexOffsetLimited i n limit) ∧
    (∀ collection : IntIndexed word, Default collection →
      ∀ i limit : Index word, ∀ n : Value word .int,
      collection.Within i → collection.Within limit →
      InRange word .int (toInt word .int i + toInt word .int n) →
      (0 ≤ toInt word .int collection.startIndex ∨ toInt word .int n = 0 ∨
        |toInt word .int limit - toInt word .int i| ≤ TwosComplement.maximum true word.bits) →
        StepsTo collection collection.indexLimited i n limit) ∧
    (∀ i limit : Index word, ∀ n : Value word .int,
      (collectionOfOne word).Within i → (collectionOfOne word).Within limit →
      InRange word .int (toInt word .int i + toInt word .int n) →
      (Meets (toInt word .int i) (toInt word .int n) (toInt word .int limit) ∨
        0 ≤ toInt word .int i + toInt word .int n ∧
          toInt word .int i + toInt word .int n ≤ 1) →
        StepsTo (collectionOfOne word) (collectionOfOne word).indexLimited i n limit) ∧
    ∀ i limit : Index word, ∀ n : Value word .int,
      (emptyCollection word).Within i → (emptyCollection word).Within limit →
        StepsTo (emptyCollection word) emptyLimited i n limit := by
  refine ⟨?_, ?_, ?_, ?_⟩
  · intro startIndex endIndex i limit n nonnegative i_within limit_within inside
    exact ofArray_stepsTo nonnegative i_within limit_within inside
  · intro collection kind i limit n i_within limit_within inside near
    rcases near with nonnegative | near
    · exact kind.stepsTo (Or.inr (near_of_nonnegative nonnegative i_within limit_within)) inside
    · exact kind.stepsTo near inside
  · intro i limit n i_within limit_within inside stays
    exact collectionOfOne_stepsTo i_within limit_within inside stays
  · intro i limit n i_within limit_within
    exact emptyCollection_stepsTo i_within limit_within

/-- Three steps from the middle of an array, and through the whole of a range. -/
theorem int_limitedMoves :
    StepsTo (@ofArray .word16 0 8) indexOffsetLimited 4 3 6 ∧
      StepsTo (@ofRange .word16 ⟨-2, 1⟩) (ofRange ⟨-2, 1⟩).indexLimited (-2) 3 1 :=
  ⟨(limitedMoves .word16).1 0 8 4 6 3 (by decide) (by decide) (by decide) (by decide),
    (limitedMoves .word16).2.1 _ (.range ⟨-2, 1⟩) (-2) 1 3 (by decide) (by decide) (by decide)
      (Or.inr (Or.inr (by decide)))⟩

/-- The limit of a range that is wider than an `Int` counts, too far away to be measured. -/
theorem int_range_gives_up_early :
    ¬ ∀ (word : WordSize) (collection : IntIndexed word), Default collection →
      ∀ i limit : Index word, ∀ n : Value word .int,
      collection.Within i → collection.Within limit →
      InRange word .int (toInt word .int i + toInt word .int n) →
        StepsTo collection collection.indexLimited i n limit := by
  intro steps
  have none_iff := (steps .word16 (ofRange ⟨-30000, 30000⟩) (.range _) (-30000) 30000 32767
    (by decide) (by decide) (by decide)).none_iff
  have gives_up : (@ofRange .word16 ⟨-30000, 30000⟩).indexLimited (-30000) 32767 30000 =
      none := by decide
  have met := meets_iff.mp (none_iff.mp gives_up)
  revert met
  decide

end USwift
