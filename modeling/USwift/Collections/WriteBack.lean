import USwift.Collections.Listed
import USwift.Library.Splices
import USwift.Library.Transfers

/-!
# Writing back a slice

`_writeBackMutableSlice` walks through a range of a collection and through a slice together,
and assigns the elements of the slice until one of both ends. A slice of a value type is not
changed by these assignments. One that refers to the storage of the collection is, and the
loop reads its elements only when it comes to them.
-/

namespace USwift

open Splices Transfers

section Operations

variable {C Slice_ Memory Index Element : Type}
  (collection : MutableCollection (C × Memory) Index Element)
  (slices : Collection (Slice_ × Memory) Index Element)

/--
The loop of `_writeBackMutableSlice(_:bounds:slice:)`, for at most a number of rounds. The
collection comes together with the memory that it may refer to.
-/
def writeBackLoop (slice : Slice_) (selfElementsEndIndex newElementsEndIndex : Index) :
    ℕ → Index → Index → C × Memory → Option (C × Memory)
  | 0, _, _, _ => none
  | fuel + 1, selfElementIndex, newElementIndex, self_ =>
      if !collection.equal selfElementIndex selfElementsEndIndex &&
          !slices.equal newElementIndex newElementsEndIndex then
        let self_ := collection.setSubscript self_ selfElementIndex
          (slices.subscript (slice, self_.2) newElementIndex)
        writeBackLoop slice selfElementsEndIndex newElementsEndIndex fuel
          (collection.indexAfter self_ selfElementIndex)
          (slices.indexAfter (slice, self_.2) newElementIndex) self_
      else some self_

/-- `_writeBackMutableSlice(_:bounds:slice:)`, whose checks have no effect. -/
def _writeBackMutableSlice (fuel : ℕ) (self_ : C × Memory) (bounds : Range Index)
    (slice : Slice_) : Option (C × Memory) :=
  writeBackLoop collection slices slice bounds.upperBound (slices.endIndex (slice, self_.2)) fuel
    bounds.lowerBound (slices.startIndex (slice, self_.2)) self_

/-- A collection of a value type, which refers to no memory. -/
def Collection.ofValues (Memory : Type) (values : Collection C Index Element) :
    Collection (C × Memory) Index Element where
  startIndex self := values.startIndex self.1
  endIndex self := values.endIndex self.1
  indexAfter self := values.indexAfter self.1
  subscript self := values.subscript self.1
  equal := values.equal

/-- A mutable collection of a value type. -/
def MutableCollection.ofValues (Memory : Type) (values : MutableCollection C Index Element) :
    MutableCollection (C × Memory) Index Element where
  toCollection := Collection.ofValues Memory values.toCollection
  setSubscript self index newValue := (values.setSubscript self.1 index newValue, self.2)

end Operations

section Specification

variable {C Slice_ Memory Index Element : Type}
  (collection : MutableCollection (C × Memory) Index Element)
  (slices : Collection (Slice_ × Memory) Index Element) (slice : Slice_)
  (represents : C × Memory → List Element → List Element → Prop) (index sliceIndex : ℕ → Index)

/--
A mutable collection and a slice, with their lists. Assigning an element of the collection
replaces one of its list and invalidates no index. It may change elements of the slice.
-/
structure AssignsBeside : Prop where
  listed : ∀ {self_ list elements}, represents self_ list elements →
    Listed collection.toCollection self_ list index
  sliced : ∀ {self_ list elements}, represents self_ list elements →
    Listed slices (slice, self_.2) elements sliceIndex
  assign : ∀ {self_ list elements} {i : ℕ}, represents self_ list elements → i < list.length →
    ∀ element, ∃ elements', elements'.length = elements.length ∧
      represents (collection.setSubscript self_ (index i) element) (list.set i element) elements'

/--
Every element of the slice is stored either at a position of the collection, or where no
assignment to the collection changes it.
-/
structure SharesStorage (place : ℕ → Option ℕ) : Prop where
  same : ∀ {self_ list elements} {i j : ℕ}, represents self_ list elements →
    j < elements.length → place j = some i → elements[j]? = list[i]?
  assign : ∀ {self_ list elements} {i : ℕ}, represents self_ list elements → i < list.length →
    ∀ element, represents (collection.setSubscript self_ (index i) element) (list.set i element)
      (elements.mapIdx fun j kept => if place j = some i then element else kept)

/-- The element of the slice at a position. -/
def elementAt (self_ : C × Memory) (j : ℕ) : Element :=
  slices.subscript (slice, self_.2) (sliceIndex j)

/-- Assigning the element of the collection at a position. -/
def assignAt (self_ : C × Memory) (i : ℕ) (element : Element) : C × Memory :=
  collection.setSubscript self_ (index i) element

/--
Assigning the first elements of the slice to the positions from `lower` on leaves the element
of the slice behind them as it is, for each of as many elements as are assigned.
-/
def UndisturbedSlice (self_ : C × Memory) (lower count : ℕ) : Prop :=
  Undisturbed (elementAt slices slice sliceIndex) (assignAt collection index) lower self_ count

/-- No element of the slice is stored where a different one has been assigned before it. -/
def KeepsPlaces (place : ℕ → Option ℕ) (elements : List Element) (lower count : ℕ) : Prop :=
  ∀ s t, s < t → t < count → place t = some (lower + s) → elements[s]? = elements[t]?

/-- What no assignment changes: the lists have as many elements as two others. -/
def HasLengths (list elements : List Element) (self_ : C × Memory) : Prop :=
  ∃ list' elements', list'.length = list.length ∧ elements'.length = elements.length ∧
    represents self_ list' elements'

/-- What is known of the collection alone. -/
def Lists (self_ : C × Memory) (list : List Element) : Prop :=
  ∃ elements, represents self_ list elements

/-- A setter returns a state with a list, with more fuel than a number of rounds. -/
def ReturnsList {State : Type} (setter : ℕ → Option State) (rounds : ℕ)
    (lists : State → List Element → Prop) (list : List Element) : Prop :=
  ∃ final, (∀ fuel > rounds, setter fuel = some final) ∧ lists final list

/-- A setter returns, and has replaced the elements of a range and no others. -/
def ReplacesRange {State : Type} (setter : ℕ → Option State) (lists : State → List Element → Prop)
    (list newElements : List Element) (lower upper : ℕ) : Prop :=
  ReturnsList setter (upper - lower) lists (splice list lower upper newElements)

/--
What writing back a slice does. It always ends, and changes no more positions than both have
elements. Where the slice is undisturbed, and only there, these get the elements of the slice:
all of the range from a slice of its length, and nothing new from a slice of what it holds.
-/
structure WritesBack {State : Type} (setter : ℕ → Option State)
    (lists : State → List Element → Prop) (list elements : List Element) (lower upper : ℕ)
    (undisturbed : Prop) : Prop where
  ends : ∃ written, written.length = min (upper - lower) elements.length ∧
    ReplacesRange setter lists list written lower
      (lower + min (upper - lower) elements.length)
  replaces : ReplacesRange setter lists list
      (elements.take (min (upper - lower) elements.length)) lower
      (lower + min (upper - lower) elements.length) ↔ undisturbed
  whole : elements.length = upper - lower →
    (ReplacesRange setter lists list elements lower upper ↔ undisturbed)
  unchanged : elements = (list.take upper).drop lower →
    (ReturnsList setter (upper - lower) lists list ↔ undisturbed)

end Specification

section Results

variable {C Slice_ Memory Index Element : Type}
  {collection : MutableCollection (C × Memory) Index Element}
  {slices : Collection (Slice_ × Memory) Index Element} {slice : Slice_}
  {represents : C × Memory → List Element → List Element → Prop} {index sliceIndex : ℕ → Index}
  {self_ : C × Memory} {list elements : List Element} {lower upper count : ℕ}

namespace AssignsBeside

theorem hasLengths_assignAt
    (assigns : AssignsBeside collection slices slice represents index sliceIndex)
    (held : HasLengths represents list elements self_) {i : ℕ} (inside : i < list.length)
    (element : Element) :
    HasLengths represents list elements (assignAt collection index self_ i element) := by
  rcases held with ⟨list', elements', length, length', here⟩
  rcases assigns.assign here (by omega : i < _) element with ⟨later, same, there⟩
  exact ⟨_, later, List.length_set.trans length, same.trans length', there⟩

/-- Storing elements in the positions from `lower` on replaces those of the list. -/
theorem represents_stored
    (assigns : AssignsBeside collection slices slice represents index sliceIndex)
    (represented : represents self_ list elements) (inside : lower + count ≤ list.length)
    (values : ℕ → Element) :
    ∃ elements', elements'.length = elements.length ∧
      represents (stored (assignAt collection index) lower self_ values count)
        (splice list lower (lower + count) ((List.range count).map values)) elements' := by
  induction count with
  | zero =>
      refine ⟨elements, rfl, ?_⟩
      change represents self_ (splice list lower lower []) elements
      rw [splice_nil]
      exact represented
  | succ count before =>
      rcases before (by omega) with ⟨elements', length, held⟩
      have written : ((List.range count).map values).length = count := by
        rw [List.length_map, List.length_range]
      have replaced := splice_set (values count)
        (by rw [written]; omega : lower + ((List.range count).map values).length < list.length)
      have size := @length_splice _ list ((List.range count).map values) lower (lower + count)
        (Nat.le_add_right _ _) (by omega)
      rcases assigns.assign held (by omega : lower + count < _) (values count) with
        ⟨later, length', held'⟩
      rw [written] at replaced
      rw [replaced] at held'
      refine ⟨later, length'.trans length, ?_⟩
      rw [List.range_succ, List.map_append]
      exact held'

/-- After some rounds of the loop, the lists are as long as they have been. -/
theorem represents_transferred
    (assigns : AssignsBeside collection slices slice represents index sliceIndex)
    (represented : represents self_ list elements) (inside : lower + count ≤ list.length) :
    let read := elementAt slices slice sliceIndex
    let assign := assignAt collection index
    let list' := splice list lower (lower + count)
      ((List.range count).map fun t => read (transferred read assign lower self_ t) t)
    ∃ elements', elements'.length = elements.length ∧ list'.length = list.length ∧
      represents (transferred read assign lower self_ count) list' elements' := by
  intro read assign list'
  rcases assigns.represents_stored represented inside
    (fun t => read (transferred read assign lower self_ t) t) with ⟨elements', length, held⟩
  rw [← transferred_eq_stored] at held
  refine ⟨elements', length, ?_, held⟩
  have size := @length_splice _ list
    ((List.range count).map fun t => read (transferred read assign lower self_ t) t) lower
    (lower + count) (Nat.le_add_right _ _) inside
  rw [List.length_map, List.length_range] at size
  change list'.length + _ = _ at size
  omega

/-- The loop goes on as long as neither the range nor the slice ends. -/
theorem continues_iff
    (assigns : AssignsBeside collection slices slice represents index sliceIndex)
    (held : HasLengths represents list elements self_) (inside : upper ≤ list.length) {i j : ℕ}
    (i_le : i ≤ upper) (j_le : j ≤ elements.length) :
    (!collection.equal (index i) (index upper) &&
        !slices.equal (sliceIndex j) (sliceIndex elements.length)) = true ↔
      i < upper ∧ j < elements.length := by
  rcases held with ⟨list', elements', length, length', here⟩
  have ends := (assigns.listed here).equal (by omega : i ≤ _) (by omega : upper ≤ _)
  have ends' := (assigns.sliced here).equal (by omega : j ≤ _) length'.ge
  rw [Bool.and_eq_true, Bool.not_eq_true', Bool.not_eq_true', ← Bool.not_eq_true,
    ← Bool.not_eq_true, ends, ends']
  omega

/-- The rounds that are left assign the elements that are left. -/
theorem writeBackLoop_eq
    (assigns : AssignsBeside collection slices slice represents index sliceIndex)
    (represented : represents self_ list elements) (ordered : lower ≤ upper)
    (inside : upper ≤ list.length) (counted : count = min (upper - lower) elements.length)
    {t fuel : ℕ} (t_le : t ≤ count) (enough : count - t < fuel) :
    let read := elementAt slices slice sliceIndex
    let assign := assignAt collection index
    writeBackLoop collection slices slice (index upper) (sliceIndex elements.length) fuel
        (index (lower + t)) (sliceIndex t) (transferred read assign lower self_ t) =
      some (transferred read assign lower self_ count) := by
  intro read assign
  induction fuel generalizing t with
  | zero => omega
  | succ fuel further =>
      rcases assigns.represents_transferred represented (by omega : lower + t ≤ list.length) with
        ⟨elements', length, size, held⟩
      have continues := assigns.continues_iff ⟨_, elements', size, length, held⟩ inside
        (by omega : lower + t ≤ upper) (by omega : t ≤ _)
      rw [writeBackLoop]
      by_cases last : t = count
      · rw [if_neg (by rw [continues]; omega), last]
      · rcases assigns.represents_transferred represented
          (by omega : lower + (t + 1) ≤ list.length) with ⟨later, length', size', held'⟩
        have next := (assigns.listed held').indexAfter (by omega : lower + t < _)
        have next' := (assigns.sliced held').indexAfter (by omega : t < _)
        rw [transferred] at next next'
        have rest := further (by omega : t + 1 ≤ count) (by omega)
        rw [transferred] at rest
        rw [if_pos (by rw [continues]; omega)]
        change writeBackLoop collection slices slice _ _ fuel
          (collection.indexAfter (assign _ (lower + t) (read _ t)) (index (lower + t)))
          (slices.indexAfter (slice, (assign _ (lower + t) (read _ t)).2) (sliceIndex t))
          (assign _ (lower + t) (read _ t)) = _
        rw [next, next']
        exact rest

/-- The whole loop, which always ends. -/
theorem writeBack_eq
    (assigns : AssignsBeside collection slices slice represents index sliceIndex)
    (represented : represents self_ list elements) (ordered : lower ≤ upper)
    (inside : upper ≤ list.length) (counted : count = min (upper - lower) elements.length)
    {fuel : ℕ} (enough : count < fuel) :
    _writeBackMutableSlice collection slices fuel self_ ⟨index lower, index upper⟩ slice =
      some (transferred (elementAt slices slice sliceIndex) (assignAt collection index) lower self_
        count) := by
  have sliced := assigns.sliced represented
  rw [_writeBackMutableSlice, sliced.startIndex, sliced.endIndex]
  exact assigns.writeBackLoop_eq represented ordered inside counted (Nat.zero_le _) (by omega)

/-- The first elements of the slice, as the loop would read them if it did not assign any. -/
theorem take_eq (assigns : AssignsBeside collection slices slice represents index sliceIndex)
    (represented : represents self_ list elements) (count_le : count ≤ elements.length) :
    elements.take count =
      (List.range count).map (elementAt slices slice sliceIndex self_) := by
  apply List.ext_getElem
  · rw [List.length_take_of_le count_le, List.length_map, List.length_range]
  · intro t inside inside'
    rw [List.length_take] at inside
    rw [List.getElem_take, List.getElem_map, List.getElem_range, elementAt,
      (assigns.sliced represented).subscript (by omega)]

variable {lists : C × Memory → List Element → Prop}
  (listed : ∀ {state list'}, lists state list' → Listed collection.toCollection state list' index)
  (known : ∀ {state list'}, Lists represents state list' → lists state list')

include listed known

/-- The loop assigns what the slice holds if and only if the slice is not disturbed. -/
theorem replacesRange_iff
    (assigns : AssignsBeside collection slices slice represents index sliceIndex)
    (represented : represents self_ list elements) (ordered : lower ≤ upper)
    (inside : upper ≤ list.length) (counted : count = min (upper - lower) elements.length) :
    ReplacesRange (fun fuel => _writeBackMutableSlice collection slices fuel self_
        ⟨index lower, index upper⟩ slice) lists list (elements.take count) lower
        (lower + count) ↔
      UndisturbedSlice collection slices slice index sliceIndex self_ lower count := by
  have first := assigns.take_eq represented (by omega : count ≤ elements.length)
  have runs {fuel : ℕ} (enough : count < fuel) :=
    assigns.writeBack_eq represented ordered inside counted enough
  rcases assigns.represents_transferred represented (by omega : lower + count ≤ list.length) with
    ⟨elements', -, -, held⟩
  rw [UndisturbedSlice, ← reads_iff_undisturbed, ReplacesRange, ReturnsList,
    Nat.add_sub_cancel_left, first]
  constructor
  · rintro ⟨final, returns, replaced⟩ t t_lt
    have result := returns (count + 1) (Nat.lt_succ_self count)
    rw [runs (Nat.lt_succ_self count), Option.some_inj] at result
    subst result
    have same := splice_injective ((assigns.listed held).unique (listed replaced))
    exact List.map_inj_left.mp same t (List.mem_range.mpr t_lt)
  · intro reads
    refine ⟨_, fun fuel enough => runs enough, known ⟨elements', ?_⟩⟩
    have same := List.map_inj_left.mpr fun t mem => reads t (List.mem_range.mp mem)
    rw [← same]
    exact held

/-- A slice with as many elements as the range replaces the whole of it. -/
theorem replacesRange_iff_of_length
    (assigns : AssignsBeside collection slices slice represents index sliceIndex)
    (represented : represents self_ list elements) (ordered : lower ≤ upper)
    (inside : upper ≤ list.length) (whole : elements.length = upper - lower) :
    ReplacesRange (fun fuel => _writeBackMutableSlice collection slices fuel self_
        ⟨index lower, index upper⟩ slice) lists list elements lower upper ↔
      UndisturbedSlice collection slices slice index sliceIndex self_ lower
        (min (upper - lower) elements.length) := by
  have replaces := assigns.replacesRange_iff listed known represented ordered inside
    (by omega : elements.length = min (upper - lower) elements.length)
  have end_eq : lower + elements.length = upper := by omega
  rw [List.take_length, end_eq] at replaces
  rw [whole, Nat.min_self, ← whole]
  exact replaces

theorem writesBack
    (assigns : AssignsBeside collection slices slice represents index sliceIndex)
    (represented : represents self_ list elements) (ordered : lower ≤ upper)
    (inside : upper ≤ list.length) :
    WritesBack (fun fuel => _writeBackMutableSlice collection slices fuel self_
        ⟨index lower, index upper⟩ slice) lists list elements lower upper
      (UndisturbedSlice collection slices slice index sliceIndex self_ lower
        (min (upper - lower) elements.length)) := by
  have whole := assigns.replacesRange_iff_of_length listed known represented ordered inside
  constructor
  · rcases assigns.represents_transferred represented
      (by omega : lower + min (upper - lower) elements.length ≤ list.length) with
      ⟨elements', -, -, held⟩
    refine ⟨_, ?_, _, ?_, known ⟨elements', held⟩⟩
    · rw [List.length_map, List.length_range]
    · intro fuel enough
      exact assigns.writeBack_eq represented ordered inside rfl (by omega)
  · exact assigns.replacesRange_iff listed known represented ordered inside rfl
  · exact whole
  · intro unchanged
    have size : elements.length = upper - lower := by
      rw [unchanged, List.length_drop, List.length_take_of_le inside]
    rw [← whole size, ReplacesRange, unchanged, splice_self list ordered]

end AssignsBeside

namespace SharesStorage

variable {place : ℕ → Option ℕ}

/-- Reading an element of the slice behind an assignment to the collection. -/
theorem elementAt_assignAt (shares : SharesStorage collection represents index place)
    (assigns : AssignsBeside collection slices slice represents index sliceIndex)
    (held : HasLengths represents list elements self_) {i j : ℕ} (i_lt : i < list.length)
    (j_lt : j < elements.length) (element : Element) :
    elementAt slices slice sliceIndex (assignAt collection index self_ i element) j =
      if place j = some i then element else elementAt slices slice sliceIndex self_ j := by
  rcases held with ⟨list', elements', length, length', here⟩
  have there := shares.assign here (by omega : i < _) element
  have before := (assigns.sliced here).subscript (by omega : j < _)
  have after := (assigns.sliced there).subscript (by rw [List.length_mapIdx]; omega : j < _)
  rw [List.getElem_mapIdx, ← before] at after
  exact after

/-- A slice is disturbed where an element that is different has been stored in its place. -/
theorem undisturbed_iff (shares : SharesStorage collection represents index place)
    (assigns : AssignsBeside collection slices slice represents index sliceIndex)
    (represented : represents self_ list elements) (inside : lower + count ≤ list.length)
    (count_le : count ≤ elements.length) :
    UndisturbedSlice collection slices slice index sliceIndex self_ lower count ↔
      KeepsPlaces place elements lower count := by
  have element {t : ℕ} (t_lt : t < count) :
      elements[t]? = some (elementAt slices slice sliceIndex self_ t) := by
    rw [elementAt, (assigns.sliced represented).subscript (by omega : t < _),
      List.getElem?_eq_getElem]
  rw [UndisturbedSlice, Transfers.undisturbed_iff (HasLengths represents list elements)
    (fun held t_lt => assigns.hasLengths_assignAt held (by omega) _)
    (fun held t_lt j_lt => shares.elementAt_assignAt assigns held (by omega) (by omega) _)
    ⟨list, elements, rfl, rfl, represented⟩]
  constructor
  · intro equal s t s_lt t_lt earlier
    rw [element (s_lt.trans t_lt), element t_lt, equal s t s_lt t_lt earlier]
  · intro equal s t s_lt t_lt earlier
    have same := equal s t s_lt t_lt earlier
    rw [element (s_lt.trans t_lt), element t_lt, Option.some_inj] at same
    exact same

/-- A slice that has not been changed since it was taken is not disturbed. -/
theorem unchanged (shares : SharesStorage collection represents index place)
    (represented : represents self_ list ((list.take upper).drop lower)) :
    KeepsPlaces place ((list.take upper).drop lower) lower
      (min (upper - lower) ((list.take upper).drop lower).length) := by
  intro s t s_lt t_lt earlier
  have stored := shares.same represented (by omega : t < _) earlier
  rw [List.length_drop, List.length_take] at t_lt
  rw [stored, List.getElem?_drop, List.getElem?_take_of_lt (by omega)]

/-- Where elements are stored decides whether the slice is disturbed. -/
theorem undisturbed (shares : SharesStorage collection represents index place)
    (assigns : AssignsBeside collection slices slice represents index sliceIndex)
    (represented : represents self_ list elements) (ordered : lower ≤ upper)
    (inside : upper ≤ list.length) :
    let undisturbed := UndisturbedSlice collection slices slice index sliceIndex self_ lower
      (min (upper - lower) elements.length)
    (undisturbed ↔ KeepsPlaces place elements lower (min (upper - lower) elements.length)) ∧
      (elements = (list.take upper).drop lower → undisturbed) := by
  intro undisturbed
  have keeps := shares.undisturbed_iff assigns represented
    (by omega : lower + min (upper - lower) elements.length ≤ list.length) (by omega)
  refine ⟨keeps, ?_⟩
  intro same
  apply keeps.mpr
  subst same
  exact shares.unchanged represented

end SharesStorage

end Results

section Values

variable {C Slice_ Memory Index Element : Type} {values : MutableCollection C Index Element}
  {slices : Collection Slice_ Index Element} {slice : Slice_} {list : C → List Element}
  {index : C → ℕ → Index} {elements : List Element} {sliceIndex : ℕ → Index} {value : C}
  {lower upper : ℕ}

theorem Listed.ofValues {Memory : Type} (memory : Memory)
    (sliced : Listed slices slice elements sliceIndex) :
    Listed (Collection.ofValues Memory slices) (slice, memory) elements sliceIndex where
  startIndex := sliced.startIndex
  endIndex := sliced.endIndex
  equal := sliced.equal
  indexAfter := sliced.indexAfter
  subscript := sliced.subscript

namespace Assignable

/-- What is known of a value that has become of another one, beside a slice. -/
def BesideSlice (list : C → List Element) (index : C → ℕ → Index) (value : C)
    (elements : List Element) (self_ : C × Memory) (list' elements' : List Element) : Prop :=
  list self_.1 = list' ∧ index self_.1 = index value ∧ elements' = elements

theorem assignsBeside (assignable : Assignable values list index)
    (sliced : Listed slices slice elements sliceIndex) :
    AssignsBeside (values.ofValues Memory) (slices.ofValues Memory) slice
      (BesideSlice list index value elements) (index value) sliceIndex where
  listed := by
    rintro ⟨self_, memory⟩ _ _ ⟨rfl, same, -⟩
    rw [← same]
    exact (assignable.listed self_).ofValues memory
  sliced := by
    rintro ⟨self_, memory⟩ _ _ ⟨-, -, rfl⟩
    exact sliced.ofValues memory
  assign := by
    rintro ⟨self_, memory⟩ _ _ i ⟨rfl, same, rfl⟩ inside element
    refine ⟨_, rfl, ?_, ?_, rfl⟩
    · rw [← same]
      exact assignable.setSubscript self_ element inside
    · rw [← same]
      exact assignable.keeps self_ element inside

/-- A value and a slice have no storage in common. -/
theorem sharesStorage (assignable : Assignable values list index) :
    SharesStorage (values.ofValues Memory) (BesideSlice list index value elements) (index value)
      fun _ => none where
  same := by
    rintro _ _ _ _ _ - - ⟨⟩
  assign := by
    rintro ⟨self_, memory⟩ _ _ i ⟨rfl, same, rfl⟩ inside element
    refine ⟨?_, ?_, ?_⟩
    · rw [← same]
      exact assignable.setSubscript self_ element inside
    · rw [← same]
      exact assignable.keeps self_ element inside
    · apply List.ext_getElem List.length_mapIdx
      intro j _ _
      rw [List.getElem_mapIdx, if_neg (Option.some_ne_none i).symm]

/-- Where collection and slice are values, the elements of the slice are always assigned. -/
theorem writesBack (assignable : Assignable values list index)
    (sliced : Listed slices slice elements sliceIndex) (ordered : lower ≤ upper)
    (inside : upper ≤ (list value).length) (memory : Memory) :
    WritesBack (fun fuel => _writeBackMutableSlice (values.ofValues Memory)
        (slices.ofValues Memory) fuel (value, memory) ⟨index value lower, index value upper⟩ slice)
      (Lists (BesideSlice list index value elements)) (list value) elements lower upper True := by
  have assigns := @assignsBeside _ _ Memory _ _ _ _ slice _ _ elements _ value assignable sliced
  have represented : BesideSlice list index value elements (value, memory) (list value)
      elements := ⟨rfl, rfl, rfl⟩
  have keeps : KeepsPlaces (fun _ => none) elements lower
      (min (upper - lower) elements.length) := by
    rintro s t - - ⟨⟩
  have undisturbed := (assignable.sharesStorage.undisturbed assigns represented ordered
    inside).1.mpr keeps
  rw [← eq_true undisturbed]
  exact assigns.writesBack (fun ⟨_, held⟩ => assigns.listed held) id represented ordered inside

end Assignable

end Values

end USwift
