import USwift.Collections.BufferCollections
import USwift.Collections.Slices

/-!
# Assigning slices

The setters of the range subscripts of `MutableCollection` and of `Slice` write back a slice
of their base. Parts of a collection are listed by their positions in its list, and a part
stays what it is while the elements in front of it and behind it are kept.
-/

namespace USwift

open Splices Transfers

section Operations

variable {Base Memory Index Element : Type}

/-- `Slice` with the memory that its base may refer to. Its checks have no effect. -/
def Slice.collectionInMemory (base : Collection (Base × Memory) Index Element) :
    Collection (Slice Base Index × Memory) Index Element where
  startIndex self := self.1._startIndex
  endIndex self := self.1._endIndex
  indexAfter self := base.indexAfter (self.1._base, self.2)
  subscript self := base.subscript (self.1._base, self.2)
  equal := base.equal

/-- `Slice` as a mutable collection, which assigns the elements of its base. -/
def Slice.mutableCollection (base : MutableCollection (Base × Memory) Index Element) :
    MutableCollection (Slice Base Index × Memory) Index Element where
  toCollection := Slice.collectionInMemory base.toCollection
  setSubscript self index newValue :=
    let (_base, memory) := base.setSubscript (self.1._base, self.2) index newValue
    ({ self.1 with _base }, memory)

/-- `subscript(bounds:)` of a mutable collection, when it is assigned to. -/
def MutableCollection.setSubscriptRange (base : MutableCollection (Base × Memory) Index Element)
    (fuel : ℕ) (self_ : Base × Memory) (bounds : Range Index) (newValue : Slice Base Index) :
    Option (Base × Memory) :=
  _writeBackMutableSlice base (Slice.collectionInMemory base.toCollection) fuel self_ bounds
    newValue

/-- `subscript(bounds:)` of a slice, when it is assigned to. -/
def Slice.setSubscriptRange (base : MutableCollection (Base × Memory) Index Element)
    (fuel : ℕ) (self_ : Slice Base Index × Memory) (bounds : Range Index)
    (newValue : Slice Base Index) : Option (Slice Base Index × Memory) :=
  _writeBackMutableSlice (Slice.mutableCollection base)
    (Slice.collectionInMemory base.toCollection) fuel self_ bounds newValue

end Operations

section Specification

variable {Base C Memory Index Element : Type}

/-- The list of a part of the second of two collections, by its start and its length. -/
def RepresentsPart (represents : C × Memory → List Element → List Element → Prop)
    (start size : ℕ) (self_ : C × Memory) (list elements : List Element) : Prop :=
  elements.length = size ∧ ∃ front back, front.length = start ∧
    represents self_ list (front ++ elements ++ back)

/-- The list of a slice, with the elements in front of it and behind it. -/
def RepresentsSlice (represents : Base × Memory → List Element → List Element → Prop)
    (index : ℕ → Index) (front back : List Element) (size : ℕ) (self_ : Slice Base Index × Memory)
    (list elements : List Element) : Prop :=
  list.length = size ∧ self_.1._startIndex = index front.length ∧
    self_.1._endIndex = index (front.length + size) ∧
    represents (self_.1._base, self_.2) (front ++ list ++ back) elements

end Specification

section Views

variable {Base C Other Slice_ Memory Index Element : Type}
  {front list back elements : List Element} {index otherIndex sliceIndex : ℕ → Index}

/-- A slice has the elements between its bounds. -/
theorem Listed.part {base : Collection (Base × Memory) Index Element} {slice : Slice Base Index}
    {memory : Memory} (listed : Listed base (slice._base, memory) (front ++ list ++ back) index)
    (start : slice._startIndex = index front.length)
    (end_ : slice._endIndex = index (front.length + list.length)) :
    Listed (Slice.collectionInMemory base) (slice, memory) list
      fun i => index (front.length + i) := by
  have size : (front ++ list ++ back).length = front.length + list.length + back.length := by
    rw [List.length_append, List.length_append]
  constructor
  · exact start
  · exact end_
  · intro i j i_le j_le
    refine (listed.equal (by omega) (by omega)).trans ?_
    omega
  · intro i inside
    exact listed.indexAfter (by omega)
  · intro i inside
    refine (listed.subscript (by omega)).trans ?_
    exact getElem_middle inside _

section Parts

variable {collection : MutableCollection (C × Memory) Index Element}
  {base : Collection (Base × Memory) Index Element} {other : Base}
  {represents : C × Memory → List Element → List Element → Prop} {start size : ℕ}

/-- A slice of another collection stays the same part of it. -/
theorem AssignsBeside.part
    (assigns : AssignsBeside collection base other represents index otherIndex) :
    AssignsBeside collection (Slice.collectionInMemory base)
      (.init other ⟨otherIndex start, otherIndex (start + size)⟩)
      (RepresentsPart represents start size) index fun j => otherIndex (start + j) where
  listed := by
    rintro self_ list elements ⟨-, front, back, -, represented⟩
    exact assigns.listed represented
  sliced := by
    rintro self_ list elements ⟨rfl, front, back, rfl, represented⟩
    exact Listed.part (assigns.sliced represented) rfl rfl
  assign := by
    rintro self_ list elements i ⟨rfl, front, back, rfl, represented⟩ inside element
    rcases assigns.assign represented inside element with ⟨others, length, later⟩
    rw [List.length_append, List.length_append] at length
    have pieces : others = others.take front.length ++
        (others.drop front.length).take elements.length ++
          (others.drop front.length).drop elements.length := by
      rw [List.append_assoc, List.take_append_drop, List.take_append_drop]
    rw [pieces] at later
    refine ⟨(others.drop front.length).take elements.length, ?_, ?_, _, _, ?_, later⟩
    · rw [List.length_take, List.length_drop]
      omega
    · rw [List.length_take, List.length_drop]
      omega
    · rw [List.length_take]
      omega

/-- The elements of a slice are stored where those of its base are. -/
theorem SharesStorage.part {place : ℕ → Option ℕ}
    (shares : SharesStorage collection represents index place) :
    SharesStorage collection (RepresentsPart represents start size) index
      fun j => place (start + j) where
  same := by
    rintro self_ list elements i j ⟨rfl, front, back, rfl, represented⟩ inside placed
    have same := shares.same represented
      (by simp only [List.length_append]; omega : front.length + j < _) placed
    rw [← same, getElem?_middle inside]
  assign := by
    rintro self_ list elements i ⟨rfl, front, back, rfl, represented⟩ inside element
    have later := shares.assign represented inside element
    rw [List.mapIdx_append, List.mapIdx_append] at later
    simp only [Nat.add_comm _ front.length] at later
    exact ⟨List.length_mapIdx, _, _, List.length_mapIdx, later⟩

end Parts

section Slices

variable {base : MutableCollection (Base × Memory) Index Element}
  {slices : Collection (Slice_ × Memory) Index Element} {slice : Slice_}
  {represents : Base × Memory → List Element → List Element → Prop} {size : ℕ}

/-- A slice keeps its bounds and what is outside of them when its elements are assigned. -/
theorem AssignsBeside.ofSlice
    (assigns : AssignsBeside base slices slice represents index sliceIndex) :
    AssignsBeside (Slice.mutableCollection base) slices slice
      (RepresentsSlice represents index front back size) (fun i => index (front.length + i))
      sliceIndex where
  listed := by
    rintro self_ list elements ⟨rfl, start, end_, represented⟩
    exact (assigns.listed represented).part start end_
  sliced := by
    rintro self_ list elements ⟨-, -, -, represented⟩
    exact assigns.sliced represented
  assign := by
    rintro self_ list elements i ⟨rfl, start, end_, represented⟩ inside element
    rcases assigns.assign represented
      (by simp only [List.length_append]; omega : front.length + i < _) element with
      ⟨elements', length, later⟩
    rw [set_middle element inside] at later
    exact ⟨elements', length, List.length_set, start, end_, later⟩

/-- Storing elements in a slice stores them in its base and keeps its bounds. -/
theorem Slice.stored_eq {start lower : ℕ} (self_ : Slice Base Index × Memory)
    (values : ℕ → Element) (count : ℕ) :
    stored (assignAt (Slice.mutableCollection base) fun i => index (start + i)) lower self_ values
        count =
      let state := stored (assignAt base index) (start + lower) (self_.1._base, self_.2) values
        count
      (⟨self_.1._startIndex, self_.1._endIndex, state.1⟩, state.2) := by
  induction count with
  | zero => rfl
  | succ count before =>
      rw [stored, before]
      simp only [stored, assignAt, Slice.mutableCollection, Nat.add_assoc]

/-- What a slice of a base disturbs is what the base does. -/
theorem Slice.undisturbed_iff {start lower count : ℕ} {self_ : Slice Base Index × Memory} :
    UndisturbedSlice (Slice.mutableCollection base) slices slice (fun i => index (start + i))
        sliceIndex self_ lower count ↔
      UndisturbedSlice base slices slice index sliceIndex (self_.1._base, self_.2) (start + lower)
        count := by
  simp only [UndisturbedSlice, Undisturbed, Slice.stored_eq]
  exact Iff.rfl

end Slices

end Views

section Setters

variable {Base C Memory Index Element : Type}
  {represents : C × Memory → List Element → List Element → Prop} {list elements : List Element}
  {index otherIndex : ℕ → Index} {start size lower upper : ℕ}

theorem RepresentsPart.lists {state : C × Memory}
    (held : Lists (RepresentsPart represents start size) state list) :
    Lists represents state list := by
  rcases held with ⟨elements, -, front, back, -, represented⟩
  exact ⟨_, represented⟩

/-- A range of a collection is set to a slice of another one. -/
theorem AssignsBeside.writesBack_part {collection : MutableCollection (C × Memory) Index Element}
    {base : Collection (Base × Memory) Index Element} {other : Base} {self_ : C × Memory}
    (assigns : AssignsBeside collection base other represents index otherIndex)
    (represented : RepresentsPart represents start size self_ list elements)
    (ordered : lower ≤ upper) (inside : upper ≤ list.length) :
    WritesBack (fun fuel => _writeBackMutableSlice collection (Slice.collectionInMemory base) fuel
        self_ ⟨index lower, index upper⟩
        (.init other ⟨otherIndex start, otherIndex (start + size)⟩))
      (Lists represents) list elements lower upper
      (UndisturbedSlice collection (Slice.collectionInMemory base)
        (.init other ⟨otherIndex start, otherIndex (start + size)⟩) index
        (fun j => otherIndex (start + j)) self_ lower (min (upper - lower) elements.length)) := by
  apply assigns.part.writesBack _ RepresentsPart.lists represented ordered inside
  rintro state list' ⟨others, held⟩
  exact assigns.listed held

end Setters

section SliceSetters

variable {Base Memory Index Element : Type}
  {base : MutableCollection (Base × Memory) Index Element} {other : Base}
  {represents : Base × Memory → List Element → List Element → Prop}
  {front list elements back : List Element} {index otherIndex : ℕ → Index}
  {start size count lower upper : ℕ} {self_ : Slice Base Index × Memory}

/-- Both setters write back a slice of their base under one condition. -/
theorem Slice.writesBack
    (assigns : AssignsBeside base base.toCollection other represents index otherIndex)
    (represented : RepresentsSlice (RepresentsPart represents start size) index front back count
      self_ list elements) (ordered : lower ≤ upper) (inside : upper ≤ list.length) :
    let newValue := Slice.init other ⟨otherIndex start, otherIndex (start + size)⟩
    let bounds := ⟨index (front.length + lower), index (front.length + upper)⟩
    let undisturbed := UndisturbedSlice base (Slice.collectionInMemory base.toCollection) newValue
      index (fun j => otherIndex (start + j)) (self_.1._base, self_.2) (front.length + lower)
      (min (upper - lower) elements.length)
    WritesBack (fun fuel => base.setSubscriptRange fuel (self_.1._base, self_.2) bounds newValue)
        (Lists represents) (front ++ list ++ back) elements (front.length + lower)
        (front.length + upper) undisturbed ∧
      WritesBack (fun fuel => Slice.setSubscriptRange base fuel self_ bounds newValue)
        (Lists (RepresentsSlice represents index front back count)) list elements lower upper
        undisturbed := by
  intro newValue bounds undisturbed
  rcases represented with ⟨rfl, start_eq, end_eq, represented⟩
  constructor
  · have length : (front ++ list ++ back).length = front.length + list.length + back.length := by
      rw [List.length_append, List.length_append]
    have within := assigns.writesBack_part represented
      (by omega : front.length + lower ≤ front.length + upper) (by omega)
    rw [Nat.add_sub_add_left] at within
    exact within
  · rcases represented with ⟨rfl, front', back', rfl, represented⟩
    have part : RepresentsPart (RepresentsSlice represents index front back list.length)
        front'.length elements.length self_ list elements :=
      ⟨rfl, front', back', rfl, rfl, start_eq, end_eq, represented⟩
    have within := assigns.ofSlice.writesBack_part part ordered inside
    rw [Slice.undisturbed_iff] at within
    exact within

/-- Where the elements of a base are stored decides for both setters. -/
theorem Slice.undisturbed {place : ℕ → Option ℕ}
    (assigns : AssignsBeside base base.toCollection other represents index otherIndex)
    (shares : SharesStorage base represents index place)
    (represented : RepresentsSlice (RepresentsPart represents start size) index front back count
      self_ list elements) (ordered : lower ≤ upper) (inside : upper ≤ list.length) :
    let undisturbed := UndisturbedSlice base (Slice.collectionInMemory base.toCollection)
      (.init other ⟨otherIndex start, otherIndex (start + size)⟩) index
      (fun j => otherIndex (start + j)) (self_.1._base, self_.2) (front.length + lower)
      (min (upper - lower) elements.length)
    (undisturbed ↔ KeepsPlaces (fun j => place (start + j)) elements (front.length + lower)
        (min (upper - lower) elements.length)) ∧
      (elements = (list.take upper).drop lower → undisturbed) := by
  rcases represented with ⟨rfl, start_eq, end_eq, represented⟩
  have length : (front ++ list ++ back).length = front.length + list.length + back.length := by
    rw [List.length_append, List.length_append]
  have decided := shares.part.undisturbed assigns.part represented
    (by omega : front.length + lower ≤ front.length + upper) (by omega)
  rw [Nat.add_sub_add_left, List.append_assoc front, List.take_length_add_append,
    List.drop_length_add_append, List.take_append_of_le_length inside] at decided
  exact decided

end SliceSetters

/--
Writing back always ends and keeps what is outside of the range. It assigns the elements of the
slice if and only if storing the first of them leaves the next ones as they are, and so do the
setters of the range subscripts. Where elements are stored at positions of the collection, this
means that none of them is stored where a different one is assigned before it.
-/
theorem writeBackMutableSlice_iff {C Slice_ Memory Index Element : Type}
    {collection : MutableCollection (C × Memory) Index Element}
    {slices : Collection (Slice_ × Memory) Index Element} {slice : Slice_}
    {represents : C × Memory → List Element → List Element → Prop} {index sliceIndex : ℕ → Index}
    {self_ : C × Memory} {list elements : List Element} {lower upper : ℕ}
    (assigns : AssignsBeside collection slices slice represents index sliceIndex)
    (represented : represents self_ list elements) (ordered : lower ≤ upper)
    (inside : upper ≤ list.length) :
    let count := min (upper - lower) elements.length
    let undisturbed := UndisturbedSlice collection slices slice index sliceIndex self_ lower count
    WritesBack (fun fuel => _writeBackMutableSlice collection slices fuel self_
        ⟨index lower, index upper⟩ slice) (Lists represents) list elements lower upper
        undisturbed ∧
      (∀ place, SharesStorage collection represents index place →
        (undisturbed ↔ KeepsPlaces place elements lower count) ∧
          (elements = (list.take upper).drop lower → undisturbed)) ∧
      ∀ {Base : Type} {base : MutableCollection (Base × Memory) Index Element} {other : Base}
        {represents : Base × Memory → List Element → List Element → Prop}
        {index otherIndex : ℕ → Index} {self_ : Slice Base Index × Memory}
        {front list elements back : List Element} {start size count lower upper : ℕ},
        AssignsBeside base base.toCollection other represents index otherIndex →
        RepresentsSlice (RepresentsPart represents start size) index front back count self_ list
          elements → lower ≤ upper → upper ≤ list.length →
        let newValue := Slice.init other ⟨otherIndex start, otherIndex (start + size)⟩
        let bounds := ⟨index (front.length + lower), index (front.length + upper)⟩
        let written := min (upper - lower) elements.length
        let undisturbed := UndisturbedSlice base (Slice.collectionInMemory base.toCollection)
          newValue index (fun j => otherIndex (start + j)) (self_.1._base, self_.2)
          (front.length + lower) written
        WritesBack (fun fuel => base.setSubscriptRange fuel (self_.1._base, self_.2) bounds
            newValue) (Lists represents) (front ++ list ++ back) elements (front.length + lower)
            (front.length + upper) undisturbed ∧
          WritesBack (fun fuel => Slice.setSubscriptRange base fuel self_ bounds newValue)
            (Lists (RepresentsSlice represents index front back count)) list elements lower upper
            undisturbed ∧
          ∀ place, SharesStorage base represents index place →
            (undisturbed ↔ KeepsPlaces (fun j => place (start + j)) elements
                (front.length + lower) written) ∧
              (elements = (list.take upper).drop lower → undisturbed) := by
  intro count undisturbed
  refine ⟨?_, ?_, ?_⟩
  · exact assigns.writesBack (fun ⟨_, held⟩ => assigns.listed held) id represented ordered inside
  · intro place shares
    exact shares.undisturbed assigns represented ordered inside
  · intro Base base other represents index otherIndex self_ front list elements back start size
      count lower upper assigns represented ordered inside
    have setters := Slice.writesBack assigns represented ordered inside
    refine ⟨setters.1, setters.2, ?_⟩
    intro place shares
    exact Slice.undisturbed assigns shares represented ordered inside

/-- Three elements of a buffer move to its front, although they overlap the range they replace. -/
theorem writeBackMutableSlice_front :
    let buffer : BufferPointer .word16 := ⟨some 0x100, 5⟩
    let list := [(0, 0), (1, 0), (2, 0), (3, 0), (4, 0)]
    let memory := Bytes.holding (.pair : Layout (ℕ × ℕ) ℕ) 0x100 list fun _ => none
    let base := UnsafeMutableBufferPointer.collection (.pair : Layout (ℕ × ℕ) ℕ)
    let represents := buffer.Represents (.pair : Layout (ℕ × ℕ) ℕ)
    let newValue := Slice.init buffer ⟨1, 4⟩
    ReplacesRange (fun fuel => _writeBackMutableSlice base
        (Slice.collectionInMemory base.toCollection) fuel (buffer, memory) ⟨0, 3⟩ newValue)
        (Lists (RepresentsPart represents 1 3)) list [(1, 0), (2, 0), (3, 0)] 0 3 ∧
      ReplacesRange (fun fuel => base.setSubscriptRange fuel (buffer, memory) ⟨0, 3⟩ newValue)
        (Lists represents) list [(1, 0), (2, 0), (3, 0)] 0 3 ∧
      ReplacesRange (fun fuel => Slice.setSubscriptRange base fuel
        (.init buffer ⟨0, 5⟩, memory) ⟨0, 3⟩ newValue)
        (Lists (RepresentsSlice represents (fun i => (i : ℤ)) [] [] 5)) list
        [(1, 0), (2, 0), (3, 0)] 0 3 := by
  intro buffer list memory base represents newValue
  have valid : buffer.Valid (.pair : Layout (ℕ × ℕ) ℕ) :=
    ⟨by decide, by decide, by simp [buffer], by rintro _ ⟨⟩; decide, by rintro _ ⟨⟩; decide⟩
  have holds : ∀ base ∈ buffer.baseAddress, memory.Holds .pair base list := by
    rintro _ ⟨⟩
    decide
  have part : RepresentsPart represents 1 3 (buffer, memory) list [(1, 0), (2, 0), (3, 0)] :=
    ⟨rfl, [(0, 0)], [(4, 0)], rfl, rfl, rfl, rfl, holds⟩
  have assigns := BufferPointer.assignsBeside valid
  have shares := BufferPointer.sharesStorage valid
  -- an element is stored behind all those that are assigned before it
  have keeps : KeepsPlaces (fun j => some (1 + j)) [(1, 0), (2, 0), (3, 0)] 0 3 := by
    intro s t s_lt _ earlier
    rw [Option.some_inj] at earlier
    omega
  have written := writeBackMutableSlice_iff assigns.part part (by decide : 0 ≤ 3) (by decide)
  have setters := written.2.2 assigns
    (⟨rfl, rfl, rfl, part⟩ : RepresentsSlice (RepresentsPart represents 1 3)
      (fun i => (i : ℤ)) [] [] 5 (.init buffer ⟨0, 5⟩, memory) list _)
    (by decide : 0 ≤ 3) (by decide)
  have undisturbed := (setters.2.2 _ shares).1.mpr keeps
  refine ⟨?_, ?_, ?_⟩
  · exact (written.1.whole rfl).mpr ((written.2.1 _ shares.part).1.mpr keeps)
  · exact (setters.1.whole rfl).mpr undisturbed
  · exact (setters.2.1.whole rfl).mpr undisturbed

/--
`s[1..<4] = buffer[0..<3]`, where `s` is a slice of the whole buffer, stores the first element
three times. The setter of the buffer itself stores all three of them.
-/
theorem not_replacesRange_overlapping :
    let buffer : BufferPointer .word16 := ⟨some 0x100, 5⟩
    let list := [(0, 0), (1, 0), (2, 0), (3, 0), (4, 0)]
    let memory := Bytes.holding (.pair : Layout (ℕ × ℕ) ℕ) 0x100 list fun _ => none
    let base := UnsafeMutableBufferPointer.collection (.pair : Layout (ℕ × ℕ) ℕ)
    let setter := fun fuel => Slice.setSubscriptRange base fuel
      (.init buffer ⟨0, 5⟩, memory) ⟨1, 4⟩ (.init buffer ⟨0, 3⟩)
    let elements := fun memory =>
      (List.range 5).map fun i => (base.subscript (buffer, memory) i).1
    buffer.Valid (.pair : Layout (ℕ × ℕ) ℕ) ∧
      (setter 4).map (fun final => elements final.2) = some [0, 0, 0, 0, 4] ∧
      (UnsafeMutableBufferPointer.setSubscriptRange .pair buffer ⟨1, 4⟩ (.init buffer ⟨0, 3⟩)
        memory).map elements = .ok [0, 0, 1, 2, 4] ∧
      ¬ ReplacesRange setter
        (Lists (RepresentsSlice (buffer.Represents .pair) (fun i => (i : ℤ)) [] [] 5)) list
        (list.take 3) 1 4 := by
  intro buffer list memory base setter elements
  have valid : buffer.Valid (.pair : Layout (ℕ × ℕ) ℕ) :=
    ⟨by decide, by decide, by simp [buffer], by rintro _ ⟨⟩; decide, by rintro _ ⟨⟩; decide⟩
  have holds : ∀ base ∈ buffer.baseAddress, memory.Holds .pair base list := by
    rintro _ ⟨⟩
    decide
  refine ⟨valid, by decide, by decide, ?_⟩
  intro replaced
  have assigns := BufferPointer.assignsBeside valid
  have represented : RepresentsSlice (RepresentsPart (buffer.Represents .pair) 0 3)
      (fun i => (i : ℤ)) [] [] 5 (.init buffer ⟨0, 5⟩, memory) list (list.take 3) :=
    ⟨rfl, rfl, rfl, rfl, [], list.drop 3, rfl, rfl, rfl, rfl, holds⟩
  have undisturbed := ((Slice.writesBack assigns represented (by decide : 1 ≤ 4)
    (by decide)).2.whole rfl).mp replaced
  have keeps := (Slice.undisturbed assigns (BufferPointer.sharesStorage valid) represented
    (by decide : 1 ≤ 4) (by decide)).1.mp undisturbed
  exact absurd (keeps 0 1 (by decide) (by decide) rfl) (by decide)

end USwift
