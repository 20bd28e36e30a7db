import USwift.Collections.RangeReplaceable

/-!
# Slices

`Slice` is a collection together with a range of its indices, and shares these indices.
An edit of a slice edits the base, which invalidates the range, and finds the range
again: by the offset of the slice in the base, or, when the base is bidirectional, from
the index in front of the edit, which stays valid.
-/

namespace USwift

open Splices

section Operations

/-- `Slice`. -/
structure Slice (Base Index : Type) where
  _startIndex : Index
  _endIndex : Index
  _base : Base

variable {Base Index Element : Type}

/-- `init(base:bounds:)`. -/
def Slice.init (base : Base) (bounds : Range Index) : Slice Base Index :=
  ⟨bounds.lowerBound, bounds.upperBound, base⟩

/-- `Slice` as a collection, whose checks have no effect. -/
def Slice.collection (base : Collection Base Index Element) :
    Collection (Slice Base Index) Index Element where
  startIndex := Slice._startIndex
  endIndex := Slice._endIndex
  indexAfter self := base.indexAfter self._base
  subscript self := base.subscript self._base
  equal := base.equal

namespace Slice

variable (base : RangeReplaceable Base Index Element) (slice : Slice Base Index)

/-- `distance(from:to:)`. -/
def distance (start end_ : Index) : ℤ :=
  base.distance slice._base start end_

/-- `count`. -/
def count : ℤ :=
  slice.distance base slice._startIndex slice._endIndex

/--
The slice of an edited base, found by its offset: what the operations of a forward base
do before and behind their edit.
-/
def atOffset (newSliceCount : ℤ) (_base : Base) : Slice Base Index :=
  let sliceOffset :=
    base.distance slice._base (base.startIndex slice._base) slice._startIndex
  let _startIndex := base.indexOffsetBy _base (base.startIndex _base) sliceOffset
  ⟨_startIndex, base.indexOffsetBy _base _startIndex newSliceCount, _base⟩

/-- `replaceSubrange(_:with:)`. -/
def replaceSubrange (subRange : Range Index) (newElements : List Element) : Slice Base Index :=
  let newSliceCount :=
    base.distance slice._base slice._startIndex subRange.lowerBound
      + base.distance slice._base subRange.upperBound slice._endIndex
      + newElements.length
  slice.atOffset base newSliceCount (base.replaceSubrange slice._base subRange newElements)

/-- `insert(_:at:)`. -/
def insert (newElement : Element) (i : Index) : Slice Base Index :=
  slice.atOffset base (slice.count base + 1) (base.insert slice._base newElement i)

/-- `insert(contentsOf:at:)`. -/
def insertContents (newElements : List Element) (i : Index) : Slice Base Index :=
  slice.atOffset base (slice.count base + newElements.length)
    (base.insertContents slice._base newElements i)

/-- `remove(at:)`. -/
def removeAt (i : Index) : Element × Slice Base Index :=
  let (result, _base) := base.removeAt slice._base i
  (result, slice.atOffset base (slice.count base - 1) _base)

/-- `removeSubrange(_:)`. -/
def removeSubrange (bounds : Range Index) : Slice Base Index :=
  slice.atOffset base
    (slice.count base - slice.distance base bounds.lowerBound bounds.upperBound)
    (base.removeSubrange slice._base bounds)

section Bidirectional

variable (indexBefore : Base → Index → Index)

/--
The slice of an edited base, found from the last index before the edit: what the
operations of a bidirectional base do before and behind their edit.
-/
def behind (lowerBound : Index) (newSliceCount newEndIndexOffset : ℤ) (_base : Base) :
    Slice Base Index :=
  if base.equal lowerBound (base.startIndex slice._base) then
    let _startIndex := base.startIndex _base
    ⟨_startIndex, base.indexOffsetBy _base _startIndex newSliceCount, _base⟩
  else
    let shouldUpdateStartIndex := base.equal lowerBound slice._startIndex
    let lastValidIndex := indexBefore slice._base lowerBound
    let _startIndex :=
      if shouldUpdateStartIndex then base.indexAfter _base lastValidIndex else slice._startIndex
    ⟨_startIndex, base.indexOffsetBy _base lastValidIndex newEndIndexOffset, _base⟩

/-- `replaceSubrange(_:with:)` of a bidirectional base. -/
def replaceSubrangeBehind (subRange : Range Index) (newElements : List Element) :
    Slice Base Index :=
  slice.behind base indexBefore subRange.lowerBound
    (base.distance slice._base slice._startIndex subRange.lowerBound
      + base.distance slice._base subRange.upperBound slice._endIndex
      + newElements.length)
    (base.distance slice._base subRange.upperBound slice._endIndex + newElements.length + 1)
    (base.replaceSubrange slice._base subRange newElements)

/-- `insert(_:at:)` of a bidirectional base. -/
def insertBehind (newElement : Element) (i : Index) : Slice Base Index :=
  slice.behind base indexBefore i (slice.count base + 1)
    (base.distance slice._base i slice._endIndex + 2)
    (base.insert slice._base newElement i)

/-- `insert(contentsOf:at:)` of a bidirectional base. -/
def insertContentsBehind (newElements : List Element) (i : Index) : Slice Base Index :=
  slice.behind base indexBefore i (slice.count base + newElements.length)
    (base.distance slice._base i slice._endIndex + newElements.length + 1)
    (base.insertContents slice._base newElements i)

/-- `remove(at:)` of a bidirectional base. -/
def removeAtBehind (i : Index) : Element × Slice Base Index :=
  let (result, _base) := base.removeAt slice._base i
  (result, slice.behind base indexBefore i (slice.count base - 1)
    (base.distance slice._base i slice._endIndex) _base)

/-- `removeSubrange(_:)` of a bidirectional base. -/
def removeSubrangeBehind (bounds : Range Index) : Slice Base Index :=
  slice.behind base indexBefore bounds.lowerBound
    (slice.count base - base.distance slice._base bounds.lowerBound bounds.upperBound)
    (base.distance slice._base bounds.lowerBound slice._endIndex
      - base.distance slice._base bounds.lowerBound bounds.upperBound + 1)
    (base.removeSubrange slice._base bounds)

end Bidirectional

end Slice

/-- An edit at positions that are counted from the start of a list or a slice. -/
inductive Edit (Element : Type) where
  | replaceSubrange (lower upper : ℕ) (newElements : List Element)
  | insert (newElement : Element) (i : ℕ)
  | insertContents (newElements : List Element) (i : ℕ)
  | removeAt (i : ℕ)
  | removeSubrange (lower upper : ℕ)

/-- The positions of an edit are inside a list of a length. -/
def Edit.Inside : Edit Element → ℕ → Prop
  | replaceSubrange lower upper _, count => lower ≤ upper ∧ upper ≤ count
  | insert _ i, count => i ≤ count
  | insertContents _ i, count => i ≤ count
  | removeAt i, count => i < count
  | removeSubrange lower upper, count => lower ≤ upper ∧ upper ≤ count

/-- What an edit makes of a list. -/
def Edit.apply (list : List Element) : Edit Element → List Element
  | replaceSubrange lower upper newElements => splice list lower upper newElements
  | insert newElement i => list.insertIdx i newElement
  | insertContents newElements i => splice list i i newElements
  | removeAt i => list.eraseIdx i
  | removeSubrange lower upper => list.take lower ++ list.drop upper

/-- The element that an edit returns. -/
def Edit.returned (list : List Element) : Edit Element → Option Element
  | removeAt i => list[i]?
  | _ => none

/-- Edits one after the other, whose positions are inside the list that each of them meets. -/
def Edit.AllInside : List (Edit Element) → List Element → Prop
  | [], _ => True
  | edit :: edits, list => edit.Inside list.length ∧ AllInside edits (edit.apply list)

/-- What edits one after the other return, and what they make of a list. -/
def Edit.applyAll : List (Edit Element) → List Element → List (Option Element) × List Element
  | [], list => ([], list)
  | edit :: edits, list =>
      let (results, list') := applyAll edits (edit.apply list)
      (edit.returned list :: results, list')

/-- Which extension of `Slice` supplies the operations. -/
inductive SliceFamily (Base Index : Type) where
  | forward
  | bidirectional (indexBefore : Base → Index → Index)

/-- An edit of a slice, at indices that are found from its start. -/
def Slice.perform (base : RangeReplaceable Base Index Element) (family : SliceFamily Base Index)
    (slice : Slice Base Index) (edit : Edit Element) : Option Element × Slice Base Index :=
  let place (i : ℕ) : Index := base.indexOffsetBy slice._base slice._startIndex i
  match family, edit with
  | .forward, .replaceSubrange lower upper newElements =>
      (none, slice.replaceSubrange base (halfOpen (place lower) (place upper)) newElements)
  | .forward, .insert newElement i => (none, slice.insert base newElement (place i))
  | .forward, .insertContents newElements i =>
      (none, slice.insertContents base newElements (place i))
  | .forward, .removeAt i =>
      let (result, slice) := slice.removeAt base (place i)
      (some result, slice)
  | .forward, .removeSubrange lower upper =>
      (none, slice.removeSubrange base (halfOpen (place lower) (place upper)))
  | .bidirectional indexBefore, .replaceSubrange lower upper newElements =>
      (none, slice.replaceSubrangeBehind base indexBefore (halfOpen (place lower) (place upper))
        newElements)
  | .bidirectional indexBefore, .insert newElement i =>
      (none, slice.insertBehind base indexBefore newElement (place i))
  | .bidirectional indexBefore, .insertContents newElements i =>
      (none, slice.insertContentsBehind base indexBefore newElements (place i))
  | .bidirectional indexBefore, .removeAt i =>
      let (result, slice) := slice.removeAtBehind base indexBefore (place i)
      (some result, slice)
  | .bidirectional indexBefore, .removeSubrange lower upper =>
      (none, slice.removeSubrangeBehind base indexBefore (halfOpen (place lower) (place upper)))

/-- Edits of a slice one after the other. -/
def Slice.performAll (base : RangeReplaceable Base Index Element)
    (family : SliceFamily Base Index) :
    List (Edit Element) → Slice Base Index → List (Option Element) × Slice Base Index
  | [], slice => ([], slice)
  | edit :: edits, slice =>
      let (result, slice) := slice.perform base family edit
      let (results, slice) := performAll base family edits slice
      (result :: results, slice)

end Operations

section Specification

variable {Base Index Element : Type}

/-- Replacing a range of a collection leaves the indices in front of it. -/
def KeepsIndices (base : RangeReplaceable Base Index Element) (list : Base → List Element)
    (index : Base → ℕ → Index) : Prop :=
  ∀ elements {lower upper i : ℕ} newElements, lower ≤ upper →
    upper ≤ (list elements).length → i < lower →
    index (base.replaceSubrange elements
      (halfOpen (index elements lower) (index elements upper)) newElements) i = index elements i

/-- A slice of a base with elements before and behind it. -/
structure Delimits (list : Base → List Element) (index : Base → ℕ → Index)
    (slice : Slice Base Index) (front middle back : List Element) : Prop where
  elements : list slice._base = front ++ middle ++ back
  startIndex : slice._startIndex = index slice._base front.length
  endIndex : slice._endIndex = index slice._base (front.length + middle.length)

end Specification

section Results

variable {Base Index Element : Type} {base : RangeReplaceable Base Index Element}
  {indexBefore : Base → Index → Index} {list : Base → List Element} {index : Base → ℕ → Index}
  {slice other : Slice Base Index} {front middle middle' back newElements : List Element}
  {lower upper : ℕ} {_base : Base}

namespace Delimits

theorem init {elements : Base} {lo hi : ℕ} (ordered : lo ≤ hi)
    (inside : hi ≤ (list elements).length) :
    Delimits list index (.init elements (halfOpen (index elements lo) (index elements hi)))
      ((list elements).take lo) ((list elements).extract lo hi) ((list elements).drop hi) := by
  have front : ((list elements).take lo).length = lo :=
    List.length_take_of_le (ordered.trans inside)
  have middle : ((list elements).extract lo hi).length = hi - lo := by
    simp
    omega
  constructor
  · have rest : (list elements).extract lo hi ++ (list elements).drop hi =
        (list elements).drop lo := by
      have parts := List.take_append_drop (hi - lo) ((list elements).drop lo)
      rw [List.drop_drop, show lo + (hi - lo) = hi by omega] at parts
      exact parts
    rw [List.append_assoc, rest, List.take_append_drop]
    rfl
  · rw [front]
    rfl
  · rw [front, middle, show lo + (hi - lo) = hi by omega]
    rfl

theorem unique (first : Delimits list index slice front middle back)
    (second : Delimits list index other front middle back) (same : slice._base = other._base) :
    slice = other := by
  rcases slice with ⟨startIndex, endIndex, base⟩
  rcases other with ⟨otherStart, otherEnd, otherBase⟩
  rcases first with ⟨_, start, end_⟩
  rcases second with ⟨_, start', end_'⟩
  subst same
  simp_all

section Distances

variable (replaceable : Replaceable base list index)
  (delimits : Delimits list index slice front middle back)

include delimits

theorem length : (list slice._base).length = front.length + middle.length + back.length := by
  rw [delimits.elements, List.length_append, List.length_append]

include replaceable

theorem place {i : ℕ} (inside : i ≤ middle.length) :
    base.indexOffsetBy slice._base slice._startIndex i =
      index slice._base (front.length + i) := by
  have length := delimits.length
  rw [delimits.startIndex]
  exact replaceable.indexOffsetBy slice._base (by omega)

theorem distance {i k : ℕ} (inside : i + k ≤ middle.length) :
    base.distance slice._base (index slice._base (front.length + i))
      (index slice._base (front.length + (i + k))) = k := by
  have length := delimits.length
  rw [← Nat.add_assoc]
  exact replaceable.distance slice._base (by omega)

theorem distance_between (ordered : lower ≤ upper) (inside : upper ≤ middle.length) :
    base.distance slice._base (index slice._base (front.length + lower))
      (index slice._base (front.length + upper)) = (upper - lower : ℕ) := by
  have parts : lower + (upper - lower) = upper := by omega
  have measured := delimits.distance replaceable (parts.le.trans inside)
  rw [parts] at measured
  exact measured

theorem distance_from_start {i : ℕ} (inside : i ≤ middle.length) :
    base.distance slice._base slice._startIndex (index slice._base (front.length + i)) = i := by
  have measured := delimits.distance replaceable (Nat.zero_add i ▸ inside)
  rw [Nat.zero_add] at measured
  rw [delimits.startIndex]
  exact measured

theorem distance_to_end {i : ℕ} (inside : i ≤ middle.length) :
    base.distance slice._base (index slice._base (front.length + i)) slice._endIndex =
      middle.length - i := by
  have parts : i + (middle.length - i) = middle.length := by omega
  have measured := delimits.distance replaceable parts.le
  rw [parts, Nat.cast_sub inside] at measured
  rw [delimits.endIndex]
  exact measured

theorem count : slice.count base = middle.length := by
  rw [Slice.count, Slice.distance, delimits.endIndex]
  exact delimits.distance_from_start replaceable le_rfl

end Distances

/-- The range of the slice that an edit of the base leaves is found by its offset. -/
theorem atOffset (replaceable : Replaceable base list index)
    (delimits : Delimits list index slice front middle back)
    (elements : list _base = front ++ middle' ++ back) :
    Delimits list index (slice.atOffset base middle'.length _base) front middle' back := by
  have length := delimits.length
  have length' : (list _base).length = front.length + middle'.length + back.length := by
    rw [elements, List.length_append, List.length_append]
  have offset : base.distance slice._base (base.startIndex slice._base) slice._startIndex =
      front.length := by
    have measured := replaceable.distance slice._base
      (show 0 + front.length ≤ (list slice._base).length by omega)
    rw [Nat.zero_add] at measured
    rw [delimits.startIndex, (replaceable.listed slice._base).startIndex, measured]
  have start : base.indexOffsetBy _base (base.startIndex _base) front.length =
      index _base front.length := replaceable.offset_from_start (by omega)
  constructor
  · exact elements
  · simp only [Slice.atOffset]
    rw [offset, start]
  · simp only [Slice.atOffset]
    rw [offset, start]
    exact replaceable.indexOffsetBy _base (by omega)

/-- The index in front of an edit finds the same range. -/
theorem behind (replaceable : Replaceable base list index)
    (backwards : Backwards base indexBefore list index)
    (delimits : Delimits list index slice front middle back)
    (elements : list _base = front ++ middle' ++ back) (inside : lower ≤ middle.length)
    (inside' : lower ≤ middle'.length)
    (keeps : ∀ i < front.length + lower, index _base i = index slice._base i) :
    Delimits list index
      (slice.behind base indexBefore (index slice._base (front.length + lower)) middle'.length
        (middle'.length - lower + 1) _base) front middle' back := by
  have length := delimits.length
  have length' : (list _base).length = front.length + middle'.length + back.length := by
    rw [elements, List.length_append, List.length_append]
  have atStart := (replaceable.listed slice._base).equal
    (show front.length + lower ≤ (list slice._base).length by omega)
    (show 0 ≤ (list slice._base).length by omega)
  have atSlice := (replaceable.listed slice._base).equal
    (show front.length + lower ≤ (list slice._base).length by omega)
    (show front.length ≤ (list slice._base).length by omega)
  rw [Slice.behind, (replaceable.listed slice._base).startIndex]
  by_cases first : front.length + lower = 0
  · -- the edit is at the start of the base, and so is the slice
    have none : front.length = 0 := by omega
    rw [if_pos (atStart.mpr first)]
    constructor
    · exact elements
    · rw [none]
      exact (replaceable.listed _base).startIndex
    · rw [none, Nat.zero_add]
      exact replaceable.offset_from_start (by omega)
  · rw [if_neg (mt atStart.mp first)]
    rcases Nat.exists_eq_succ_of_ne_zero first with ⟨last, position⟩
    have valid : indexBefore slice._base (index slice._base (front.length + lower)) =
        index _base last := by
      rw [keeps last (by omega), position]
      exact backwards.indexBefore slice._base (by omega)
    constructor
    · exact elements
    · dsimp only
      rw [valid, delimits.startIndex]
      by_cases here : lower = 0
      · rw [if_pos (atSlice.mpr (by omega)), (replaceable.listed _base).indexAfter (by omega)]
        congr 1
        omega
      · rw [if_neg (mt atSlice.mp (by omega)), keeps _ (by omega)]
    · have steps : (middle'.length - lower + 1 : ℤ) = (middle'.length - lower + 1 : ℕ) := by
        push_cast [inside']
        rfl
      dsimp only
      rw [valid, steps, replaceable.indexOffsetBy _base (by omega)]
      congr 1
      omega

theorem edited (replaceable : Replaceable base list index)
    (delimits : Delimits list index slice front middle back) (ordered : lower ≤ upper)
    (inside : upper ≤ middle.length) :
    list (base.replaceSubrange slice._base
      (halfOpen (index slice._base (front.length + lower))
        (index slice._base (front.length + upper))) newElements) =
      front ++ splice middle lower upper newElements ++ back := by
  have length := delimits.length
  rw [replaceable.replaceSubrange slice._base newElements (by omega) (by omega),
    delimits.elements, splice_append front middle back ordered inside]

/-- Both families find the same range when an edit of the slice has been made. -/
theorem behind_eq_atOffset (replaceable : Replaceable base list index)
    (backwards : Backwards base indexBefore list index) (keeps : KeepsIndices base list index)
    (delimits : Delimits list index slice front middle back) (ordered : lower ≤ upper)
    (inside : upper ≤ middle.length) {newSliceCount newEndIndexOffset : ℤ}
    (counted : newSliceCount = (splice middle lower upper newElements).length)
    (offset : newEndIndexOffset = newSliceCount - lower + 1) :
    slice.behind base indexBefore (index slice._base (front.length + lower)) newSliceCount
        newEndIndexOffset (base.replaceSubrange slice._base
          (halfOpen (index slice._base (front.length + lower))
            (index slice._base (front.length + upper))) newElements) =
      slice.atOffset base newSliceCount (base.replaceSubrange slice._base
        (halfOpen (index slice._base (front.length + lower))
          (index slice._base (front.length + upper))) newElements) := by
  have length := delimits.length
  have spliced := @length_splice _ middle newElements _ _ ordered inside
  have elements := @edited _ _ _ _ _ _ _ _ _ _ newElements _ _ replaceable delimits ordered inside
  have same : ∀ i < front.length + lower, index (base.replaceSubrange slice._base
      (halfOpen (index slice._base (front.length + lower))
        (index slice._base (front.length + upper))) newElements) i = index slice._base i := by
    intro i before
    exact keeps slice._base newElements (by omega) (by omega) before
  rw [offset, counted]
  apply unique (delimits.behind replaceable backwards elements (by omega) (by omega) same)
    (delimits.atOffset replaceable elements)
  rw [Slice.behind]
  split <;> rfl

section Forward

variable (replaceable : Replaceable base list index)
  (delimits : Delimits list index slice front middle back)

include replaceable delimits

theorem replaceSubrange (ordered : lower ≤ upper) (inside : upper ≤ middle.length) :
    Delimits list index (slice.replaceSubrange base
      (halfOpen (index slice._base (front.length + lower))
        (index slice._base (front.length + upper))) newElements)
      front (splice middle lower upper newElements) back := by
  have spliced := @length_splice _ middle newElements _ _ ordered inside
  have counted : (lower + (middle.length - upper) + newElements.length : ℤ) =
      (splice middle lower upper newElements).length := by omega
  simp only [Slice.replaceSubrange, halfOpen]
  rw [delimits.distance_from_start replaceable (ordered.trans inside),
    delimits.distance_to_end replaceable inside, counted]
  exact delimits.atOffset replaceable (delimits.edited replaceable ordered inside)

theorem insertContents {i : ℕ} (inside : i ≤ middle.length) :
    Delimits list index
      (slice.insertContents base newElements (index slice._base (front.length + i)))
      front (splice middle i i newElements) back := by
  have spliced := @length_splice _ middle newElements _ _ le_rfl inside
  have counted : (middle.length + newElements.length : ℤ) =
      (splice middle i i newElements).length := by omega
  rw [Slice.insertContents, delimits.count replaceable, counted]
  exact delimits.atOffset replaceable (delimits.edited replaceable le_rfl inside)

theorem insert {newElement : Element} {i : ℕ} (inside : i ≤ middle.length) :
    Delimits list index (slice.insert base newElement (index slice._base (front.length + i)))
      front (middle.insertIdx i newElement) back := by
  rw [← splice_insert middle newElement inside]
  exact delimits.insertContents replaceable inside

theorem removeAt {i : ℕ} (inside : i < middle.length) :
    ∃ slice', slice.removeAt base (index slice._base (front.length + i)) =
        (middle[i], slice') ∧ Delimits list index slice' front (middle.eraseIdx i) back := by
  have length := delimits.length
  have spliced := @length_splice _ middle [] i (i + 1) (Nat.le_add_right i 1) inside
  have counted : (middle.length - 1 : ℤ) = (splice middle i (i + 1) []).length := by
    rw [List.length_nil] at spliced
    omega
  have element := (replaceable.listed slice._base).subscript
    (show front.length + i < (list slice._base).length by omega)
  have after := (replaceable.listed slice._base).indexAfter
    (show front.length + i < (list slice._base).length by omega)
  rw [← splice_erase]
  refine ⟨_, Prod.ext ?_ rfl, ?_⟩
  · refine element.trans ?_
    simp [delimits.elements, inside]
  · simp only [Slice.removeAt, RangeReplaceable.removeAt]
    rw [after, delimits.count replaceable, counted]
    exact delimits.atOffset replaceable (delimits.edited replaceable (Nat.le_add_right i 1) inside)

theorem removeSubrange (ordered : lower ≤ upper) (inside : upper ≤ middle.length) :
    Delimits list index (slice.removeSubrange base
      (halfOpen (index slice._base (front.length + lower))
        (index slice._base (front.length + upper))))
      front (middle.take lower ++ middle.drop upper) back := by
  have spliced := @length_splice _ middle [] _ _ ordered inside
  have counted : (middle.length - (upper - lower : ℕ) : ℤ) =
      (splice middle lower upper []).length := by
    rw [List.length_nil] at spliced
    omega
  simp only [Slice.removeSubrange, Slice.distance, halfOpen]
  rw [delimits.count replaceable, delimits.distance_between replaceable ordered inside, counted,
    ← List.append_nil (middle.take lower)]
  exact delimits.atOffset replaceable (delimits.edited replaceable ordered inside)

/-- An edit of a slice of a forward base. -/
theorem perform {edit : Edit Element} (inside : edit.Inside middle.length) :
    ∃ slice', slice.perform base .forward edit = (edit.returned middle, slice') ∧
      Delimits list index slice' front (edit.apply middle) back := by
  cases edit with
  | replaceSubrange lower upper newElements =>
      rcases inside with ⟨ordered, inside⟩
      refine ⟨_, rfl, ?_⟩
      dsimp only
      rw [delimits.place replaceable (ordered.trans inside), delimits.place replaceable inside]
      exact delimits.replaceSubrange replaceable ordered inside
  | insert newElement i =>
      refine ⟨_, rfl, ?_⟩
      dsimp only
      rw [delimits.place replaceable inside]
      exact delimits.insert replaceable inside
  | insertContents newElements i =>
      refine ⟨_, rfl, ?_⟩
      dsimp only
      rw [delimits.place replaceable inside]
      exact delimits.insertContents replaceable inside
  | removeAt i =>
      have within : i < middle.length := inside
      rcases delimits.removeAt replaceable within with ⟨slice', removed, delimits'⟩
      refine ⟨slice', ?_, delimits'⟩
      simp only [Slice.perform, Edit.returned]
      rw [delimits.place replaceable within.le, removed, List.getElem?_eq_getElem within]
  | removeSubrange lower upper =>
      rcases inside with ⟨ordered, inside⟩
      refine ⟨_, rfl, ?_⟩
      dsimp only
      rw [delimits.place replaceable (ordered.trans inside), delimits.place replaceable inside]
      exact delimits.removeSubrange replaceable ordered inside

end Forward

/-- An edit of a slice of a bidirectional base. -/
theorem perform_bidirectional (replaceable : Replaceable base list index)
    (backwards : Backwards base indexBefore list index) (keeps : KeepsIndices base list index)
    (delimits : Delimits list index slice front middle back) {edit : Edit Element}
    (inside : edit.Inside middle.length) :
    slice.perform base (.bidirectional indexBefore) edit = slice.perform base .forward edit := by
  cases edit with
  | replaceSubrange lower upper newElements =>
      rcases inside with ⟨ordered, inside⟩
      have spliced := @length_splice _ middle newElements _ _ ordered inside
      simp only [Slice.perform, Slice.replaceSubrangeBehind, Slice.replaceSubrange, halfOpen]
      rw [delimits.place replaceable (ordered.trans inside), delimits.place replaceable inside,
        delimits.distance_from_start replaceable (ordered.trans inside),
        delimits.distance_to_end replaceable inside]
      congr 1
      exact delimits.behind_eq_atOffset replaceable backwards keeps ordered inside (by omega)
        (by omega)
  | insert newElement i =>
      have spliced := @length_splice _ middle [newElement] _ _ le_rfl inside
      rw [List.length_singleton] at spliced
      simp only [Slice.perform, Slice.insertBehind, Slice.insert]
      rw [delimits.place replaceable inside, delimits.count replaceable,
        delimits.distance_to_end replaceable inside]
      congr 1
      exact delimits.behind_eq_atOffset replaceable backwards keeps le_rfl inside (by omega)
        (by omega)
  | insertContents newElements i =>
      have spliced := @length_splice _ middle newElements _ _ le_rfl inside
      simp only [Slice.perform, Slice.insertContentsBehind, Slice.insertContents]
      rw [delimits.place replaceable inside, delimits.count replaceable,
        delimits.distance_to_end replaceable inside]
      congr 1
      exact delimits.behind_eq_atOffset replaceable backwards keeps le_rfl inside (by omega)
        (by omega)
  | removeAt i =>
      have within : i < middle.length := inside
      have length := delimits.length
      have spliced := @length_splice _ middle [] i (i + 1) (Nat.le_add_right i 1) within
      have after := (replaceable.listed slice._base).indexAfter
        (show front.length + i < (list slice._base).length by omega)
      rw [List.length_nil] at spliced
      simp only [Slice.perform, Slice.removeAtBehind, Slice.removeAt, RangeReplaceable.removeAt]
      rw [delimits.place replaceable within.le, delimits.count replaceable,
        delimits.distance_to_end replaceable within.le, after]
      congr 1
      exact delimits.behind_eq_atOffset replaceable backwards keeps (Nat.le_add_right i 1) within
        (by omega) (by omega)
  | removeSubrange lower upper =>
      rcases inside with ⟨ordered, inside⟩
      have spliced := @length_splice _ middle [] _ _ ordered inside
      rw [List.length_nil] at spliced
      simp only [Slice.perform, Slice.removeSubrangeBehind, Slice.removeSubrange, Slice.distance,
        halfOpen]
      rw [delimits.place replaceable (ordered.trans inside), delimits.place replaceable inside,
        delimits.count replaceable, delimits.distance_to_end replaceable (ordered.trans inside),
        delimits.distance_between replaceable ordered inside]
      congr 1
      exact delimits.behind_eq_atOffset replaceable backwards keeps ordered inside (by omega)
        (by omega)

/-- Any number of edits. -/
theorem performAll (replaceable : Replaceable base list index)
    (delimits : Delimits list index slice front middle back) {edits : List (Edit Element)}
    (inside : Edit.AllInside edits middle) :
    ∃ slice', slice.performAll base .forward edits = ((Edit.applyAll edits middle).1, slice') ∧
      Delimits list index slice' front (Edit.applyAll edits middle).2 back := by
  induction edits generalizing slice middle with
  | nil => exact ⟨slice, rfl, delimits⟩
  | cons edit edits rest =>
      rcases inside with ⟨first, others⟩
      rcases delimits.perform replaceable first with ⟨edited, performed, delimits'⟩
      rcases rest delimits' others with ⟨slice', performedAll, delimits''⟩
      refine ⟨slice', ?_, delimits''⟩
      simp only [Slice.performAll, Edit.applyAll]
      rw [performed]
      dsimp only
      rw [performedAll]

theorem performAll_bidirectional (replaceable : Replaceable base list index)
    (backwards : Backwards base indexBefore list index) (keeps : KeepsIndices base list index)
    (delimits : Delimits list index slice front middle back) {edits : List (Edit Element)}
    (inside : Edit.AllInside edits middle) :
    slice.performAll base (.bidirectional indexBefore) edits =
      slice.performAll base .forward edits := by
  induction edits generalizing slice middle with
  | nil => rfl
  | cons edit edits rest =>
      rcases inside with ⟨first, others⟩
      rcases delimits.perform replaceable first with ⟨edited, performed, delimits'⟩
      simp only [Slice.performAll]
      rw [delimits.perform_bidirectional replaceable backwards keeps first, performed]
      dsimp only
      rw [rest delimits' others]

end Delimits

/--
Editing a slice splices its elements and leaves the rest of the base, over any number of
edits, and both families arrive at the same slice.
-/
theorem slice_edits_splice (replaceable : Replaceable base list index) {elements : Base}
    {lo hi : ℕ} (ordered : lo ≤ hi) (inside : hi ≤ (list elements).length)
    {edits : List (Edit Element)}
    (allInside : Edit.AllInside edits ((list elements).extract lo hi)) :
    let slice := Slice.init elements (halfOpen (index elements lo) (index elements hi))
    let edited := Edit.applyAll edits ((list elements).extract lo hi)
    (∃ slice', slice.performAll base .forward edits = (edited.1, slice') ∧
      Delimits list index slice' ((list elements).take lo) edited.2 ((list elements).drop hi)) ∧
    ∀ indexBefore, Backwards base indexBefore list index → KeepsIndices base list index →
      slice.performAll base (.bidirectional indexBefore) edits =
        slice.performAll base .forward edits := by
  intro slice edited
  have delimits : Delimits list index slice ((list elements).take lo)
      ((list elements).extract lo hi) ((list elements).drop hi) := .init ordered inside
  constructor
  · exact delimits.performAll replaceable allInside
  · intro indexBefore backwards keeps
    exact delimits.performAll_bidirectional replaceable backwards keeps allInside

theorem lists_keep_indices [Inhabited Element] :
    KeepsIndices (@listCollection Element _) id fun _ i => (i : ℤ) := by
  intro elements lower upper i newElements _ _ _
  rfl

/-- Four edits of the slice `[2, 3]` of the list `[1, 2, 3, 4]`. -/
theorem slice_edits_splice_numbers :
    Slice.performAll listCollection (.bidirectional fun _ i => i - 1)
        [.insert 7 0, .removeAt 2, .replaceSubrange 0 1 [8, 9], .removeSubrange 1 3]
        (Slice.init [1, 2, 3, 4] (halfOpen (1 : ℤ) 3)) =
      ([none, some 3, none, none], ⟨1, 2, [1, 8, 4]⟩) := by
  have agree := (slice_edits_splice (@lists_replaceable ℕ _) (show 1 ≤ 3 by decide)
    (show 3 ≤ [1, 2, 3, 4].length by decide)
    (show Edit.AllInside [.insert 7 0, .removeAt 2, .replaceSubrange 0 1 [8, 9],
      .removeSubrange 1 3] [2, 3] by simp [Edit.AllInside, Edit.Inside, Edit.apply, splice])).2
    (fun _ i => i - 1) lists_backwards lists_keep_indices
  exact agree.trans rfl

end Results

end USwift
