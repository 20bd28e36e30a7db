import USwift.Integer.Shift

/-!
# Random-access collections with integer indices

`Collection` and `BidirectionalCollection` define their algorithms once for every
collection. The operations that a collection supplies to them are the fields of
a record, and a collection is sliced by its own subscript of a range.
-/

namespace USwift

open Iteration

/-- `Range`. -/
structure Range (Bound : Type) where
  lowerBound : Bound
  upperBound : Bound
  deriving DecidableEq

/-- `ClosedRange`. -/
structure ClosedRange (Bound : Type) where
  lowerBound : Bound
  upperBound : Bound

/-- `ClosedRange.relative(to:)`, with `index(after:)` of the collection. -/
def ClosedRange.relative {Bound : Type} (range : ClosedRange Bound) (indexAfter : Bound → Bound) :
    Range Bound :=
  ⟨range.lowerBound, indexAfter range.upperBound⟩

/-- What ends an access to an element. -/
inductive Failure where
  /-- `Builtin.condfail` stops the program. -/
  | trap
  /-- The memory there holds no initialized element. -/
  | undefined
  deriving DecidableEq

/-- An index, an `Int`. -/
abbrev Index (word : WordSize) : Type :=
  Value word .int

/--
What a random-access collection supplies: it has elements of a type, and its
slices are of another type or of its own.
-/
structure RandomAccess (word : WordSize) (Base SubSequence Element : Type) where
  startIndex : Base → Index word
  endIndex : Base → Index word
  count : Base → Value word .int
  indexAfter : Base → Index word → Index word
  indexLimited : Base → Index word → Value word .int → Index word → Option (Index word)
  subscript : Base → Index word → Except Failure Element
  subscriptRange : Base → Range (Index word) → SubSequence

/-- `index(_:offsetBy:limitedBy:)`, which `Array` and `ArraySlice` define alike. -/
def indexOffsetLimited {word : WordSize} (i : Index word) (distance : Value word .int)
    (limit : Index word) : Option (Index word) :=
  let l := limit - i
  if if less word .int 0 distance then !less word .int l 0 && less word .int l distance
    else !less word .int 0 l && less word .int distance l then none
  else some (i + distance)

/-- `max(_:_:)`. -/
def maximum {word : WordSize} (x y : Value word .int) : Value word .int :=
  if !less word .int y x then y else x

/-- `min(_:_:)`. -/
def minimum {word : WordSize} (x y : Value word .int) : Value word .int :=
  if less word .int y x then y else x

section Indices

variable {word : WordSize} {i j limit : Index word} {distance : Value word .int}

theorem minimum_int (word : WordSize) :
    TwosComplement.minimum IntegerType.int.isSigned (IntegerType.int.bitWidth word) =
      -TwosComplement.maximum IntegerType.int.isSigned (IntegerType.int.bitWidth word) - 1 :=
  TwosComplement.minimum_true_eq _

/-- Two indices that are not negative are subtracted without overflow. -/
theorem toInt_index_sub (i_nonneg : 0 ≤ toInt word .int i) (j_nonneg : 0 ≤ toInt word .int j) :
    toInt word .int (i - j) = toInt word .int i - toInt word .int j := by
  have i_high := toInt_le_maximum i
  have j_high := toInt_le_maximum j
  have least := minimum_int word
  apply toInt_sub
  · omega
  · omega

theorem toInt_neg (nonnegative : 0 ≤ toInt word .int distance) :
    toInt word .int (-distance) = -toInt word .int distance := by
  have zero := toInt_zero word .int
  have moved := toInt_index_sub zero.ge nonnegative
  rw [zero] at moved
  simpa using moved

theorem toInt_limited_forward (nonnegative : 0 ≤ toInt word .int i)
    (ordered : toInt word .int i ≤ toInt word .int limit)
    (forward : 0 ≤ toInt word .int distance) :
    toInt word .int ((indexOffsetLimited i distance limit).getD limit) =
      min (toInt word .int i + toInt word .int distance) (toInt word .int limit) := by
  have high := toInt_le_maximum limit
  have least := minimum_int word
  have gap := toInt_index_sub (nonnegative.trans ordered) nonnegative
  have test : (if less word .int 0 distance
      then !less word .int (limit - i) 0 && less word .int (limit - i) distance
      else !less word .int 0 (limit - i) && less word .int distance (limit - i)) = true ↔
        toInt word .int limit < toInt word .int i + toInt word .int distance := by
    split_ifs with positive <;>
      simp only [Bool.and_eq_true, Bool.not_eq_true', Bool.eq_false_iff, ne_eq, less_iff, gap,
        toInt_zero] at positive ⊢ <;> omega
  rw [indexOffsetLimited]
  by_cases past : toInt word .int limit < toInt word .int i + toInt word .int distance
  · rw [if_pos (test.mpr past), Option.getD_none]
    omega
  · rw [if_neg (past ∘ test.mp), Option.getD_some, toInt_add (by omega) (by omega)]
    omega

theorem toInt_limited_backward (nonnegative : 0 ≤ toInt word .int limit)
    (ordered : toInt word .int limit ≤ toInt word .int i)
    (backward : toInt word .int distance ≤ 0) :
    toInt word .int ((indexOffsetLimited i distance limit).getD limit) =
      max (toInt word .int i + toInt word .int distance) (toInt word .int limit) := by
  have high := toInt_le_maximum i
  have least := minimum_int word
  have gap := toInt_index_sub nonnegative (nonnegative.trans ordered)
  have test : (if less word .int 0 distance
      then !less word .int (limit - i) 0 && less word .int (limit - i) distance
      else !less word .int 0 (limit - i) && less word .int distance (limit - i)) = true ↔
        toInt word .int i + toInt word .int distance < toInt word .int limit := by
    split_ifs with positive <;>
      simp only [Bool.and_eq_true, Bool.not_eq_true', Bool.eq_false_iff, ne_eq, less_iff, gap,
        toInt_zero] at positive ⊢ <;> omega
  rw [indexOffsetLimited]
  by_cases past : toInt word .int i + toInt word .int distance < toInt word .int limit
  · rw [if_pos (test.mpr past), Option.getD_none]
    omega
  · rw [if_neg (past ∘ test.mp), Option.getD_some, toInt_add (by omega) (by omega)]
    omega

theorem toInt_maximum (x y : Value word .int) :
    toInt word .int (maximum x y) = max (toInt word .int x) (toInt word .int y) := by
  rw [maximum]
  by_cases smaller : toInt word .int y < toInt word .int x
  · rw [less_iff.mpr smaller]
    exact (max_eq_left smaller.le).symm
  · rw [Bool.eq_false_iff.mpr (smaller ∘ less_iff.mp)]
    exact (max_eq_right (not_lt.mp smaller)).symm

theorem toInt_minimum (x y : Value word .int) :
    toInt word .int (minimum x y) = min (toInt word .int x) (toInt word .int y) := by
  rw [minimum]
  split
  · next smaller =>
    rw [less_iff] at smaller
    omega
  · next notSmaller =>
    rw [less_iff] at notSmaller
    omega

theorem toInt_succ {i limit : Index word} (below : toInt word .int i < toInt word .int limit)
    (nonnegative : 0 ≤ toInt word .int i) :
    toInt word .int (i + 1) = toInt word .int i + 1 := by
  have largest := toInt_le_maximum limit
  have least := minimum_int word
  have one : toInt word .int (1 : Value word .int) = 1 := by cases word <;> decide
  rw [← one]
  apply toInt_add
  · omega
  · omega

end Indices

namespace RandomAccess

variable {word : WordSize} {Base SubSequence Element : Type}

section Algorithms

variable (collection : RandomAccess word Base SubSequence Element) (base : Base)

def isEmpty : Bool :=
  collection.startIndex base == collection.endIndex base

/-- `first`. -/
def first : Except Failure (Option Element) :=
  let start := collection.startIndex base
  if start != collection.endIndex base then (collection.subscript base start).map some
  else .ok none

def dropFirst (k : Value word .int) : SubSequence :=
  let start := (collection.indexLimited base (collection.startIndex base) k
    (collection.endIndex base)).getD (collection.endIndex base)
  collection.subscriptRange base ⟨start, collection.endIndex base⟩

/-- `dropLast(_:)` of `Collection`. -/
def dropLast (k : Value word .int) : SubSequence :=
  let amount := maximum 0 (collection.count base - k)
  let stop := (collection.indexLimited base (collection.startIndex base) amount
    (collection.endIndex base)).getD (collection.endIndex base)
  collection.subscriptRange base ⟨collection.startIndex base, stop⟩

/-- `prefix(_:)`. -/
def prefixMaxLength (maxLength : Value word .int) : SubSequence :=
  let stop := (collection.indexLimited base (collection.startIndex base) maxLength
    (collection.endIndex base)).getD (collection.endIndex base)
  collection.subscriptRange base ⟨collection.startIndex base, stop⟩

/-- `suffix(_:)` of `Collection`. -/
def suffixMaxLength (maxLength : Value word .int) : SubSequence :=
  let amount := maximum 0 (collection.count base - maxLength)
  let start := (collection.indexLimited base (collection.startIndex base) amount
    (collection.endIndex base)).getD (collection.endIndex base)
  collection.subscriptRange base ⟨start, collection.endIndex base⟩

/-- `dropLast(_:)` of `BidirectionalCollection`, the one that an array with a length calls. -/
def bidirectionalDropLast (k : Value word .int) : SubSequence :=
  let stop := (collection.indexLimited base (collection.endIndex base) (-k)
    (collection.startIndex base)).getD (collection.startIndex base)
  collection.subscriptRange base ⟨collection.startIndex base, stop⟩

/-- `suffix(_:)` of `BidirectionalCollection`, the one that an array calls. -/
def bidirectionalSuffix (maxLength : Value word .int) : SubSequence :=
  let start := (collection.indexLimited base (collection.endIndex base) (-maxLength)
    (collection.startIndex base)).getD (collection.startIndex base)
  collection.subscriptRange base ⟨start, collection.endIndex base⟩

end Algorithms

section Slices

variable (collection : RandomAccess word Base Base Element)

/-- `popFirst()`, with the slice that it leaves behind. -/
def popFirst (base : Base) : Except Failure (Option Element × Base) :=
  if collection.isEmpty base then .ok (none, base)
  else
    match collection.first base with
    | .error failure => .error failure
    | .ok none => .error .trap
    | .ok (some element) =>
        .ok (some element, collection.subscriptRange base
          ⟨collection.indexAfter base (collection.startIndex base), collection.endIndex base⟩)

/-- The calls of `popFirst()` that return an element. -/
def popped (base : Base) : Option (Element × Base) :=
  match collection.popFirst base with
  | .ok (some element, later) => some (element, later)
  | _ => none

/-- The slice that a chain of range subscripts ends with. -/
def sliced (base : Base) (chain : List (Range (Index word))) : Base :=
  chain.foldl collection.subscriptRange base

/-- Calling `popFirst()` returns every element once and in order, and then `nil`. -/
def Drains (base : Base) : Prop :=
  ∃ elements final,
    (elements.length : ℤ) = toInt word .int (collection.endIndex base) -
      toInt word .int (collection.startIndex base) ∧
    (∀ offset, (inside : offset < elements.length) → collection.subscript base
      (collection.startIndex base + BitVec.ofNat _ offset) = .ok elements[offset]) ∧
    Runs collection.popped base elements final ∧ collection.popFirst final = .ok (none, final)

end Slices

/-- A slice has the bounds of a range and the elements of its base between them, and no others. -/
structure IsRange (whole : RandomAccess word Base SubSequence Element)
    (parts : RandomAccess word SubSequence SubSequence Element) (base : Base)
    (bounds : Range (Index word)) (slice : SubSequence) : Prop where
  startIndex_eq : parts.startIndex slice = bounds.lowerBound
  endIndex_eq : parts.endIndex slice = bounds.upperBound
  subscript_eq : ∀ i, toInt word .int bounds.lowerBound ≤ toInt word .int i →
    toInt word .int i < toInt word .int bounds.upperBound →
    parts.subscript slice i = whole.subscript base i
  inside : ∀ i, toInt word .int (parts.startIndex slice) ≤ toInt word .int i →
    toInt word .int i < toInt word .int (parts.endIndex slice) →
    toInt word .int i < toInt word .int (whole.endIndex base)

/-- The algorithms that return the part of a collection that a number of elements leaves. -/
inductive Part where
  | dropFirst
  | dropLast
  | prefixMaxLength
  | suffixMaxLength
  | bidirectionalDropLast
  | bidirectionalSuffix

namespace Part

def take (collection : RandomAccess word Base SubSequence Element) (base : Base)
    (k : Value word .int) : Part → SubSequence
  | dropFirst => collection.dropFirst base k
  | dropLast => collection.dropLast base k
  | prefixMaxLength => collection.prefixMaxLength base k
  | suffixMaxLength => collection.suffixMaxLength base k
  | bidirectionalDropLast => collection.bidirectionalDropLast base k
  | bidirectionalSuffix => collection.bidirectionalSuffix base k

/-- Where the part starts, when the collection goes from one index to another one. -/
def lower (start stop k : ℤ) : Part → ℤ
  | dropFirst => min (start + k) stop
  | dropLast | prefixMaxLength | bidirectionalDropLast => start
  | suffixMaxLength | bidirectionalSuffix => max start (stop - k)

/-- Where the part ends. -/
def upper (start stop k : ℤ) : Part → ℤ
  | dropFirst | suffixMaxLength | bidirectionalSuffix => stop
  | prefixMaxLength => min (start + k) stop
  | dropLast | bidirectionalDropLast => max start (stop - k)

end Part

/-- A collection whose indices are not negative and that counts them. -/
structure Counted (collection : RandomAccess word Base SubSequence Element) (base : Base) :
    Prop where
  nonnegative : 0 ≤ toInt word .int (collection.startIndex base)
  ordered : toInt word .int (collection.startIndex base) ≤
    toInt word .int (collection.endIndex base)
  count_eq : toInt word .int (collection.count base) =
    toInt word .int (collection.endIndex base) - toInt word .int (collection.startIndex base)
  indexLimited_eq : collection.indexLimited base = indexOffsetLimited

theorem Counted.asks {collection : RandomAccess word Base SubSequence Element} {base : Base}
    (counted : Counted collection base) {k : Value word .int} (nonnegative : 0 ≤ toInt word .int k)
    (part : Part) :
    ∃ bounds : Range (Index word),
      part.take collection base k = collection.subscriptRange base bounds ∧
      toInt word .int bounds.lowerBound = part.lower
        (toInt word .int (collection.startIndex base))
        (toInt word .int (collection.endIndex base)) (toInt word .int k) ∧
      toInt word .int bounds.upperBound = part.upper
        (toInt word .int (collection.startIndex base))
        (toInt word .int (collection.endIndex base)) (toInt word .int k) := by
  rcases counted with ⟨low, ordered, count_eq, limited_eq⟩
  have zero := toInt_zero word .int
  have rest : toInt word .int (collection.count base - k) =
      toInt word .int (collection.count base) - toInt word .int k :=
    toInt_index_sub (by omega) nonnegative
  -- What a negative distance, and what the length without the part, lead to.
  have back := toInt_limited_backward low ordered
    (show toInt word .int (-k) ≤ 0 by rw [toInt_neg nonnegative]; omega)
  have front := toInt_limited_forward low ordered
    (show 0 ≤ toInt word .int (maximum 0 (collection.count base - k)) by
      rw [toInt_maximum, zero]
      omega)
  rw [toInt_neg nonnegative] at back
  rw [toInt_maximum, zero, rest, count_eq] at front
  cases part with
  | dropFirst =>
      refine ⟨_, rfl, ?_, rfl⟩
      rw [limited_eq]
      exact toInt_limited_forward low ordered nonnegative
  | prefixMaxLength =>
      refine ⟨_, rfl, rfl, ?_⟩
      rw [limited_eq]
      exact toInt_limited_forward low ordered nonnegative
  | dropLast =>
      refine ⟨_, rfl, rfl, ?_⟩
      rw [limited_eq]
      exact front.trans (by simp only [Part.upper]; omega)
  | suffixMaxLength =>
      refine ⟨_, rfl, ?_, rfl⟩
      rw [limited_eq]
      exact front.trans (by simp only [Part.lower]; omega)
  | bidirectionalDropLast =>
      refine ⟨_, rfl, rfl, ?_⟩
      rw [limited_eq]
      exact back.trans (by simp only [Part.upper]; omega)
  | bidirectionalSuffix =>
      refine ⟨_, rfl, ?_, rfl⟩
      rw [limited_eq]
      exact back.trans (by simp only [Part.lower]; omega)

section Misplacing

variable {whole : RandomAccess word Base SubSequence Element}
  {parts : RandomAccess word SubSequence SubSequence Element}

/-- Every slice ends at another index than the range subscript is asked for. -/
def Misplaces (whole : RandomAccess word Base SubSequence Element)
    (parts : RandomAccess word SubSequence SubSequence Element) : Prop :=
  ∀ base bounds, parts.endIndex (whole.subscriptRange base bounds) ≠ bounds.upperBound

/-- A slice is the corresponding sub-list of its base, from one position to another. -/
def IsSubList (whole : RandomAccess word Base SubSequence Element)
    (parts : RandomAccess word SubSequence SubSequence Element) (base : Base)
    (lower upper : ℤ) (slice : SubSequence) : Prop :=
  ∃ bounds : Range (Index word), toInt word .int bounds.lowerBound = lower ∧
    toInt word .int bounds.upperBound = upper ∧ IsRange whole parts base bounds slice

theorem Misplaces.not_isRange {Source : Type}
    {source : RandomAccess word Source SubSequence Element}
    (misplaces : Misplaces whole parts) (base : Base) (bounds : Range (Index word))
    (origin : Source) :
    ¬ IsRange source parts origin bounds (whole.subscriptRange base bounds) := by
  intro range
  exact misplaces base bounds range.endIndex_eq

theorem Misplaces.not_isSubList (misplaces : Misplaces whole parts) {base : Base}
    (counted : Counted whole base) {k : Value word .int} (nonnegative : 0 ≤ toInt word .int k)
    (part : Part) :
    ¬ IsSubList whole parts base
      (part.lower (toInt word .int (whole.startIndex base)) (toInt word .int (whole.endIndex base))
        (toInt word .int k))
      (part.upper (toInt word .int (whole.startIndex base)) (toInt word .int (whole.endIndex base))
        (toInt word .int k)) (part.take whole base k) := by
  rintro ⟨bounds, -, upper, range⟩
  rcases counted.asks nonnegative part with ⟨asked, taken, -, upper_asked⟩
  have same : bounds.upperBound = asked.upperBound := toInt_injective (upper.trans upper_asked.symm)
  rw [taken] at range
  exact misplaces base asked (range.endIndex_eq.trans same)

end Misplacing

section Steps

variable {collection : RandomAccess word Base Base Element} {base later final : Base}
  {element : Element}

theorem sliced_concat (chain : List (Range (Index word))) (bounds : Range (Index word)) :
    collection.sliced base (chain ++ [bounds]) =
      collection.subscriptRange (collection.sliced base chain) bounds := by
  simp [sliced]

theorem popped_eq_some (pops : collection.popped base = some (element, later)) :
    later = collection.subscriptRange base
      ⟨collection.indexAfter base (collection.startIndex base), collection.endIndex base⟩ := by
  rw [popped, popFirst] at pops
  by_cases empty : collection.isEmpty base = true
  · simp [empty] at pops
  · rw [if_neg empty] at pops
    rcases found : collection.first base with failure | _ | value
    all_goals simp_all

theorem popFirst_eq_none_iff :
    collection.popFirst base = .ok (none, base) ↔ collection.isEmpty base = true := by
  rw [popFirst]
  by_cases empty : collection.isEmpty base = true
  · simp [empty]
  · rw [if_neg empty]
    rcases collection.first base with failure | _ | value
    all_goals simp [empty]

end Steps

end RandomAccess

end USwift
