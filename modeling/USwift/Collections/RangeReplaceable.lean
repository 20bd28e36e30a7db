import USwift.Collections.Listed
import USwift.Library.Splices

/-!
# Collections whose ranges can be replaced

The defaults of `RangeReplaceableCollection` edit a collection by replacing a range of it.
A collection that is its own `SubSequence` removes elements at its ends by slicing
instead, and at the end of a bidirectional one the hooks `_customRemoveLast` decide which
of the two runs.
-/

namespace USwift

open Iteration Splices

section Operations

/--
What a collection supplies to the defaults of `RangeReplaceableCollection`. An `Int` is
an unbounded integer: no default computes more than the number of elements of its result.
-/
structure RangeReplaceable (Elements Index Element : Type) extends
    Collection Elements Index Element where
  indexOffsetBy : Elements → Index → ℤ → Index
  distance : Elements → Index → Index → ℤ
  /-- `init()`. -/
  empty : Elements
  replaceSubrange : Elements → Range Index → List Element → Elements
  reserveCapacity : Elements → ℤ → Elements

/-- A finite sequence to be added, with the elements that its iterator produces. -/
structure NewElements (Element : Type) where
  underestimatedCount : ℤ
  elements : List Element

/-- `Repeated`. -/
structure Repeated (Element : Type) where
  count : ℤ
  repeatedValue : Element

variable {Elements Index Element : Type}

/-- `Repeated` as a collection, whose check of a position is commented out. -/
def Repeated.collection : Collection (Repeated Element) ℤ Element where
  startIndex _ := 0
  endIndex self := self.count
  indexAfter _ i := i + 1
  subscript self _ := self.repeatedValue
  equal lhs rhs := lhs == rhs

/-- `Repeated` as a sequence. -/
def Repeated.newElements (self : Repeated Element) : NewElements Element :=
  ⟨self.count, Repeated.collection.iterated (self.count.toNat + 1) self⟩

/-- `!`, whose check for `nil` does nothing when it fails. -/
def unwrapped (value : Option Element) : Except Failure Element :=
  match value with
  | some element => .ok element
  | none => .error .undefined

namespace RangeReplaceable

variable (collection : RangeReplaceable Elements Index Element)

/-- `count`. -/
def count (elements : Elements) : ℤ :=
  collection.distance elements (collection.startIndex elements) (collection.endIndex elements)

/-- `insert(_:at:)`. -/
def insert (elements : Elements) (newElement : Element) (i : Index) : Elements :=
  collection.replaceSubrange elements (halfOpen i i) [newElement]

/-- `insert(contentsOf:at:)`. -/
def insertContents (elements : Elements) (newElements : List Element) (i : Index) : Elements :=
  collection.replaceSubrange elements (halfOpen i i) newElements

/-- `append(_:)`. -/
def append (elements : Elements) (newElement : Element) : Elements :=
  collection.insert elements newElement (collection.endIndex elements)

/-- `append(contentsOf:)`. -/
def appendContents (elements : Elements) (newElements : NewElements Element) : Elements :=
  let approximateCapacity := collection.count elements + newElements.underestimatedCount
  newElements.elements.foldl collection.append
    (collection.reserveCapacity elements approximateCapacity)

/-- `init(repeating:count:)`. -/
def repeating (repeatedValue : Element) (count : ℤ) : Elements :=
  if count != 0 then
    collection.appendContents collection.empty (Repeated.newElements ⟨count, repeatedValue⟩)
  else collection.empty

/-- `init(_:)`. -/
def ofElements (elements : NewElements Element) : Elements :=
  collection.appendContents collection.empty elements

/-- `remove(at:)`. -/
def removeAt (elements : Elements) (position : Index) : Element × Elements :=
  let result := collection.subscript elements position
  (result, collection.replaceSubrange elements
    (halfOpen position (collection.indexAfter elements position)) [])

/-- `removeSubrange(_:)`. -/
def removeSubrange (elements : Elements) (bounds : Range Index) : Elements :=
  collection.replaceSubrange elements bounds []

/-- `removeFirst(_:)`. -/
def removeFirstCount (elements : Elements) (k : ℤ) : Elements :=
  if k == 0 then elements
  else
    let start := collection.startIndex elements
    let end_ := collection.indexOffsetBy elements start k
    collection.removeSubrange elements (halfOpen start end_)

/-- `removeFirst()`. -/
def removeFirst (elements : Elements) : Except Failure (Element × Elements) := do
  let firstElement ← unwrapped (collection.first elements)
  return (firstElement, collection.removeFirstCount elements 1)

/-- `removeAll(keepingCapacity:)`. -/
def removeAll (elements : Elements) (keepCapacity : Bool) : Elements :=
  if !keepCapacity then collection.empty
  else collection.replaceSubrange elements
    (halfOpen (collection.startIndex elements) (collection.endIndex elements)) []

/-- `+`, which adds a sequence or another collection to a collection. -/
def plus (lhs : Elements) (rhs : NewElements Element) : Elements :=
  collection.appendContents lhs rhs

/-- A collection as a sequence. -/
def newElements (elements : Elements) : NewElements Element :=
  let count := collection.count elements
  ⟨count, collection.iterated (count.toNat + 1) elements⟩

/-- `+`, which adds a collection to a sequence. -/
def sequencePlus (lhs : NewElements Element) (rhs : Elements) : Elements :=
  let result := collection.reserveCapacity collection.empty
    (collection.count rhs + lhs.underestimatedCount)
  let result := collection.appendContents result lhs
  collection.appendContents result (collection.newElements rhs)

end RangeReplaceable

/-- The requirements `_customRemoveLast()` and `_customRemoveLast(_:)`. -/
structure CustomRemoveLast (Elements Element : Type) where
  one : Elements → Except Failure (Option Element × Elements)
  count : Elements → ℤ → Bool × Elements

/-- The hooks of `RangeReplaceableCollection`, which ask for the default. -/
def CustomRemoveLast.default : CustomRemoveLast Elements Element where
  one elements := return (none, elements)
  count elements _ := (false, elements)

section Bidirectional

variable (collection : RangeReplaceable Elements Index Element)
  (indexBefore : Elements → Index → Index) (hooks : CustomRemoveLast Elements Element)

/-- `last`. -/
def RangeReplaceable.last (elements : Elements) : Option Element :=
  if collection.isEmpty elements then none
  else some (collection.subscript elements (indexBefore elements (collection.endIndex elements)))

/-- `removeLast()`. -/
def RangeReplaceable.removeLast (elements : Elements) : Except Failure (Element × Elements) := do
  match ← hooks.one elements with
  | (some result, elements) => return (result, elements)
  | (none, elements) =>
      return collection.removeAt elements (indexBefore elements (collection.endIndex elements))

/-- `popLast()`. -/
def RangeReplaceable.popLast (elements : Elements) :
    Except Failure (Option Element × Elements) := do
  if collection.isEmpty elements then return (none, elements)
  match ← hooks.one elements with
  | (some result, elements) => return (some result, elements)
  | (none, elements) =>
      let (result, elements) :=
        collection.removeAt elements (indexBefore elements (collection.endIndex elements))
      return (some result, elements)

/-- `removeLast(_:)`. -/
def RangeReplaceable.removeLastCount (elements : Elements) (k : ℤ) : Elements :=
  if k == 0 then elements
  else
    match hooks.count elements k with
    | (true, elements) => elements
    | (false, elements) =>
        let end_ := collection.endIndex elements
        collection.removeSubrange elements
          (halfOpen (collection.indexOffsetBy elements end_ (-k)) end_)

end Bidirectional

section SelfSlicing

variable (collection : RangeReplaceable Elements Index Element)
  (subscriptRange : Elements → Range Index → Elements)

/-- `removeFirst()` where `SubSequence == Self`. -/
def RangeReplaceable.sliceFirst (elements : Elements) : Except Failure (Element × Elements) := do
  let element ← unwrapped (collection.first elements)
  return (element, subscriptRange elements
    (halfOpen (collection.indexAfter elements (collection.startIndex elements))
      (collection.endIndex elements)))

/-- `removeFirst(_:)` where `SubSequence == Self`. -/
def RangeReplaceable.sliceFirstCount (elements : Elements) (k : ℤ) : Elements :=
  if k == 0 then elements
  else subscriptRange elements
    (halfOpen (collection.indexOffsetBy elements (collection.startIndex elements) k)
      (collection.endIndex elements))

/-- The hooks where `SubSequence == Self`. -/
def RangeReplaceable.sliceLast (indexBefore : Elements → Index → Index) :
    CustomRemoveLast Elements Element where
  one elements := do
    let element ← unwrapped (collection.last indexBefore elements)
    return (some element, subscriptRange elements
      (halfOpen (collection.startIndex elements)
        (indexBefore elements (collection.endIndex elements))))
  count elements n :=
    (true, subscriptRange elements
      (halfOpen (collection.startIndex elements)
        (collection.indexOffsetBy elements (collection.endIndex elements) (-n))))

end SelfSlicing

/-- A list as a collection whose indices are offsets. -/
def listCollection [Inhabited Element] : RangeReplaceable (List Element) ℤ Element where
  toCollection := offsetCollection
  indexOffsetBy _ i n := i + n
  distance _ start end_ := end_ - start
  empty := []
  replaceSubrange list subrange newElements :=
    splice list subrange.lowerBound.toNat subrange.upperBound.toNat newElements
  reserveCapacity list _ := list

end Operations

section Specification

variable {Elements Index Element : Type}

/-- Replacing a range of a collection replaces a range of its list. -/
structure Replaceable (collection : RangeReplaceable Elements Index Element)
    (list : Elements → List Element) (index : Elements → ℕ → Index) : Prop where
  listed : ∀ elements, Listed collection.toCollection elements (list elements) (index elements)
  indexOffsetBy : ∀ elements {i k : ℕ}, i + k ≤ (list elements).length →
    collection.indexOffsetBy elements (index elements i) k = index elements (i + k)
  distance : ∀ elements {i k : ℕ}, i + k ≤ (list elements).length →
    collection.distance elements (index elements i) (index elements (i + k)) = k
  empty : list collection.empty = []
  replaceSubrange : ∀ elements {lower upper : ℕ} newElements, lower ≤ upper →
    upper ≤ (list elements).length →
    list (collection.replaceSubrange elements
      (halfOpen (index elements lower) (index elements upper)) newElements) =
        splice (list elements) lower upper newElements
  reserveCapacity : ∀ elements n, list (collection.reserveCapacity elements n) = list elements

/-- The indices of a collection are also walked backwards. -/
structure Backwards (collection : RangeReplaceable Elements Index Element)
    (indexBefore : Elements → Index → Index) (list : Elements → List Element)
    (index : Elements → ℕ → Index) : Prop where
  indexBefore : ∀ elements {i : ℕ}, i < (list elements).length →
    indexBefore elements (index elements (i + 1)) = index elements i
  indexOffsetBy : ∀ elements {i k : ℕ}, i + k ≤ (list elements).length →
    collection.indexOffsetBy elements (index elements (i + k)) (-k) = index elements i

/-- The slice of a collection between two of its indices, as a collection of the same type. -/
def SlicesItself (subscriptRange : Elements → Range Index → Elements)
    (list : Elements → List Element) (index : Elements → ℕ → Index) : Prop :=
  ∀ elements {lower upper : ℕ}, lower ≤ upper → upper ≤ (list elements).length →
    list (subscriptRange elements (halfOpen (index elements lower) (index elements upper))) =
      (list elements).extract lower upper

/-- The operations that add elements, and those that remove elements anywhere. -/
structure EditsList (collection : RangeReplaceable Elements Index Element)
    (list : Elements → List Element) (index : Elements → ℕ → Index) : Prop where
  append : ∀ elements newElement,
    list (collection.append elements newElement) = list elements ++ [newElement]
  appendContents : ∀ elements newElements,
    list (collection.appendContents elements newElements) = list elements ++ newElements.elements
  insert : ∀ elements newElement {i : ℕ}, i ≤ (list elements).length →
    list (collection.insert elements newElement (index elements i)) =
      (list elements).insertIdx i newElement
  insertContents : ∀ elements newElements {i : ℕ}, i ≤ (list elements).length →
    list (collection.insertContents elements newElements (index elements i)) =
      (list elements).take i ++ newElements ++ (list elements).drop i
  removeAt : ∀ elements {i : ℕ} (inside : i < (list elements).length),
    (collection.removeAt elements (index elements i)).1 = (list elements)[i] ∧
      list (collection.removeAt elements (index elements i)).2 = (list elements).eraseIdx i
  removeSubrange : ∀ elements {lower upper : ℕ}, lower ≤ upper →
    upper ≤ (list elements).length →
    list (collection.removeSubrange elements
      (halfOpen (index elements lower) (index elements upper))) =
        (list elements).take lower ++ (list elements).drop upper
  removeAll : ∀ elements keepCapacity, list (collection.removeAll elements keepCapacity) = []
  repeating : ∀ repeatedValue (count : ℕ),
    list (collection.repeating repeatedValue count) = List.replicate count repeatedValue
  ofElements : ∀ newElements, list (collection.ofElements newElements) = newElements.elements
  plus : ∀ lhs rhs, list (collection.plus lhs rhs) = list lhs ++ rhs.elements
  sequencePlus : ∀ lhs rhs, list (collection.sequencePlus lhs rhs) = lhs.elements ++ list rhs

/-- Removing the first elements. -/
structure RemovesFirst (list : Elements → List Element)
    (removeFirst : Elements → Except Failure (Element × Elements))
    (removeFirstCount : Elements → ℤ → Elements) : Prop where
  one : ∀ elements element rest, list elements = element :: rest →
    ∃ elements', removeFirst elements = .ok (element, elements') ∧ list elements' = rest
  count : ∀ elements (k : ℕ), k ≤ (list elements).length →
    list (removeFirstCount elements k) = (list elements).drop k

/-- Removing the last elements. -/
structure RemovesLast (list : Elements → List Element)
    (popLast : Elements → Except Failure (Option Element × Elements))
    (removeLast : Elements → Except Failure (Element × Elements))
    (removeLastCount : Elements → ℤ → Elements) : Prop where
  pop_empty : ∀ elements, list elements = [] → popLast elements = .ok (none, elements)
  pop : ∀ elements front element, list elements = front ++ [element] →
    ∃ elements', popLast elements = .ok (some element, elements') ∧ list elements' = front
  one : ∀ elements front element, list elements = front ++ [element] →
    ∃ elements', removeLast elements = .ok (element, elements') ∧ list elements' = front
  count : ∀ elements (k : ℕ), k ≤ (list elements).length →
    list (removeLastCount elements k) = (list elements).take ((list elements).length - k)

end Specification

section Results

variable {Elements Index Element : Type} {collection : RangeReplaceable Elements Index Element}
  {indexBefore : Elements → Index → Index} {subscriptRange : Elements → Range Index → Elements}
  {list : Elements → List Element} {index : Elements → ℕ → Index} {elements : Elements}

/-- Iterating `Repeated` produces its value as often as it says. -/
theorem Repeated.newElements_eq (repeatedValue : Element) (count : ℕ) :
    (Repeated.newElements ⟨count, repeatedValue⟩).elements =
      List.replicate count repeatedValue := by
  have listed : Listed Repeated.collection ⟨(count : ℤ), repeatedValue⟩
      (List.replicate count repeatedValue) Nat.cast := by
    constructor <;> simp [Repeated.collection]
  apply listed.iterated
  simp

namespace SlicesItself

theorem drop (slices : SlicesItself subscriptRange list index) {lower : ℕ}
    (inside : lower ≤ (list elements).length) :
    list (subscriptRange elements
      (halfOpen (index elements lower) (index elements (list elements).length))) =
        (list elements).drop lower := by
  rw [slices elements inside le_rfl, List.extract_eq_take_drop, List.take_of_length_le]
  rw [List.length_drop]

theorem take (slices : SlicesItself subscriptRange list index) {upper : ℕ}
    (inside : upper ≤ (list elements).length) :
    list (subscriptRange elements (halfOpen (index elements 0) (index elements upper))) =
      (list elements).take upper := by
  rw [slices elements (Nat.zero_le upper) inside, List.extract_eq_take_drop, List.drop_zero,
    Nat.sub_zero]

end SlicesItself

namespace Replaceable

theorem count (replaceable : Replaceable collection list index) :
    collection.count elements = (list elements).length := by
  have whole := replaceable.distance elements (Nat.zero_add (list elements).length).le
  rw [Nat.zero_add] at whole
  rw [RangeReplaceable.count, (replaceable.listed elements).startIndex,
    (replaceable.listed elements).endIndex, whole]

theorem offset_from_start (replaceable : Replaceable collection list index) {k : ℕ}
    (inside : k ≤ (list elements).length) :
    collection.indexOffsetBy elements (collection.startIndex elements) k = index elements k := by
  have reached := replaceable.indexOffsetBy elements (Nat.zero_add k ▸ inside)
  rw [Nat.zero_add] at reached
  rw [(replaceable.listed elements).startIndex, reached]

theorem offset_from_end (replaceable : Replaceable collection list index)
    (backwards : Backwards collection indexBefore list index) {k : ℕ}
    (inside : k ≤ (list elements).length) :
    collection.indexOffsetBy elements (collection.endIndex elements) (-k) =
      index elements ((list elements).length - k) := by
  have parts : (list elements).length - k + k = (list elements).length := by omega
  have reached := backwards.indexOffsetBy elements parts.le
  rw [parts] at reached
  rw [(replaceable.listed elements).endIndex, reached]

theorem newElements (replaceable : Replaceable collection list index) :
    (collection.newElements elements).elements = list elements := by
  apply (replaceable.listed elements).iterated
  rw [replaceable.count]
  simp

theorem insertContents (replaceable : Replaceable collection list index)
    (newElements : List Element) {i : ℕ} (inside : i ≤ (list elements).length) :
    list (collection.insertContents elements newElements (index elements i)) =
      splice (list elements) i i newElements :=
  replaceable.replaceSubrange elements newElements le_rfl inside

theorem insert (replaceable : Replaceable collection list index) (newElement : Element) {i : ℕ}
    (inside : i ≤ (list elements).length) :
    list (collection.insert elements newElement (index elements i)) =
      splice (list elements) i i [newElement] :=
  replaceable.replaceSubrange elements [newElement] le_rfl inside

theorem append (replaceable : Replaceable collection list index) (newElement : Element) :
    list (collection.append elements newElement) = list elements ++ [newElement] := by
  rw [RangeReplaceable.append, (replaceable.listed elements).endIndex,
    replaceable.insert newElement le_rfl, splice_length]

theorem foldl_append (replaceable : Replaceable collection list index)
    (newElements : List Element) :
    list (newElements.foldl collection.append elements) = list elements ++ newElements := by
  induction newElements generalizing elements with
  | nil => simp
  | cons newElement newElements rest =>
      rw [List.foldl_cons, rest, replaceable.append]
      simp

theorem appendContents (replaceable : Replaceable collection list index)
    (newElements : NewElements Element) :
    list (collection.appendContents elements newElements) =
      list elements ++ newElements.elements := by
  rw [RangeReplaceable.appendContents, replaceable.foldl_append, replaceable.reserveCapacity]

theorem removeSubrange (replaceable : Replaceable collection list index) {lower upper : ℕ}
    (ordered : lower ≤ upper) (inside : upper ≤ (list elements).length) :
    list (collection.removeSubrange elements
      (halfOpen (index elements lower) (index elements upper))) =
        splice (list elements) lower upper [] :=
  replaceable.replaceSubrange elements [] ordered inside

theorem removeAt (replaceable : Replaceable collection list index) {i : ℕ}
    (inside : i < (list elements).length) :
    (collection.removeAt elements (index elements i)).1 = (list elements)[i] ∧
      list (collection.removeAt elements (index elements i)).2 =
        splice (list elements) i (i + 1) [] := by
  constructor
  · exact (replaceable.listed elements).subscript inside
  · rw [RangeReplaceable.removeAt, (replaceable.listed elements).indexAfter inside]
    exact replaceable.replaceSubrange elements [] (Nat.le_succ i) inside

theorem removeAll (replaceable : Replaceable collection list index) (keepCapacity : Bool) :
    list (collection.removeAll elements keepCapacity) = [] := by
  cases keepCapacity with
  | false => exact replaceable.empty
  | true =>
      have replaced := replaceable.replaceSubrange elements [] (Nat.zero_le _) le_rfl
      rw [RangeReplaceable.removeAll, (replaceable.listed elements).startIndex,
        (replaceable.listed elements).endIndex]
      simpa [splice_all] using replaced

theorem repeating (replaceable : Replaceable collection list index) (repeatedValue : Element)
    (count : ℕ) :
    list (collection.repeating repeatedValue count) = List.replicate count repeatedValue := by
  rw [RangeReplaceable.repeating]
  split
  · rw [replaceable.appendContents, replaceable.empty, Repeated.newElements_eq, List.nil_append]
  · rename_i none
    have zero : count = 0 := by simpa using none
    rw [replaceable.empty, zero, List.replicate_zero]

theorem sequencePlus (replaceable : Replaceable collection list index)
    (lhs : NewElements Element) (rhs : Elements) :
    list (collection.sequencePlus lhs rhs) = lhs.elements ++ list rhs := by
  rw [RangeReplaceable.sequencePlus, replaceable.appendContents, replaceable.appendContents,
    replaceable.reserveCapacity, replaceable.empty, replaceable.newElements, List.nil_append]

theorem editsList (replaceable : Replaceable collection list index) :
    EditsList collection list index where
  append _ newElement := replaceable.append newElement
  appendContents _ newElements := replaceable.appendContents newElements
  insert _ newElement _ inside := by
    rw [replaceable.insert newElement inside, splice_insert _ _ inside]
  insertContents _ newElements _ inside := replaceable.insertContents newElements inside
  removeAt _ _ inside := by
    rw [← splice_erase]
    exact replaceable.removeAt inside
  removeSubrange _ _ _ ordered inside := by
    rw [replaceable.removeSubrange ordered inside, splice, List.append_nil]
  removeAll _ keepCapacity := replaceable.removeAll keepCapacity
  repeating repeatedValue count := replaceable.repeating repeatedValue count
  ofElements newElements := by
    rw [RangeReplaceable.ofElements, replaceable.appendContents, replaceable.empty,
      List.nil_append]
  plus _ rhs := replaceable.appendContents rhs
  sequencePlus lhs rhs := replaceable.sequencePlus lhs rhs

theorem removeFirstCount (replaceable : Replaceable collection list index) {k : ℕ}
    (inside : k ≤ (list elements).length) :
    list (collection.removeFirstCount elements k) = (list elements).drop k := by
  rw [RangeReplaceable.removeFirstCount]
  split
  · rename_i none
    have zero : k = 0 := by simpa using none
    rw [zero, List.drop_zero]
  · dsimp only
    rw [replaceable.offset_from_start inside, (replaceable.listed elements).startIndex,
      replaceable.removeSubrange (Nat.zero_le k) inside, splice_zero]

theorem removesFirst (replaceable : Replaceable collection list index) :
    RemovesFirst list collection.removeFirst collection.removeFirstCount where
  one elements element rest shape := by
    have one := @removeFirstCount _ _ _ _ _ _ elements replaceable 1 (by simp [shape])
    rw [shape, List.drop_one, List.tail_cons] at one
    refine ⟨collection.removeFirstCount elements 1, ?_, one⟩
    rw [RangeReplaceable.removeFirst, (replaceable.listed elements).first, shape]
    rfl
  count elements k inside := replaceable.removeFirstCount inside

theorem slicesFirst (replaceable : Replaceable collection list index)
    (slices : SlicesItself subscriptRange list index) :
    RemovesFirst list (collection.sliceFirst subscriptRange)
      (collection.sliceFirstCount subscriptRange) where
  one elements element rest shape := by
    have nonempty : 0 < (list elements).length := by simp [shape]
    refine ⟨subscriptRange elements
      (halfOpen (index elements 1) (index elements (list elements).length)), ?_, ?_⟩
    · rw [RangeReplaceable.sliceFirst, (replaceable.listed elements).startIndex,
        (replaceable.listed elements).endIndex, (replaceable.listed elements).indexAfter nonempty,
        (replaceable.listed elements).first, shape]
      rfl
    · rw [slices.drop nonempty, shape, List.drop_one, List.tail_cons]
  count elements k inside := by
    rw [RangeReplaceable.sliceFirstCount]
    split
    · rename_i none
      have zero : k = 0 := by simpa using none
      rw [zero, List.drop_zero]
    · rw [replaceable.offset_from_start inside, (replaceable.listed elements).endIndex,
        slices.drop inside]

/-- The index before the end of a collection with a last element. -/
theorem indexBefore_endIndex (replaceable : Replaceable collection list index)
    (backwards : Backwards collection indexBefore list index) {front : List Element}
    {element : Element} (shape : list elements = front ++ [element]) :
    indexBefore elements (collection.endIndex elements) = index elements front.length := by
  have inside : front.length < (list elements).length := by simp [shape]
  have stepped := backwards.indexBefore elements inside
  rw [(replaceable.listed elements).endIndex, shape, List.length_append, List.length_singleton]
  exact stepped

theorem last (replaceable : Replaceable collection list index)
    (backwards : Backwards collection indexBefore list index) {front : List Element}
    {element : Element} (shape : list elements = front ++ [element]) :
    collection.last indexBefore elements = some element := by
  have inside : front.length < (list elements).length := by simp [shape]
  rw [RangeReplaceable.last, (replaceable.listed elements).isEmpty,
    replaceable.indexBefore_endIndex backwards shape,
    (replaceable.listed elements).subscript inside]
  simp [shape]

theorem removeAt_last (replaceable : Replaceable collection list index)
    (backwards : Backwards collection indexBefore list index) {front : List Element}
    {element : Element} (shape : list elements = front ++ [element]) :
    ∃ elements', collection.removeAt elements
      (indexBefore elements (collection.endIndex elements)) = (element, elements') ∧
        list elements' = front := by
  have inside : front.length < (list elements).length := by simp [shape]
  rcases replaceable.removeAt inside with ⟨removed, remains⟩
  rw [replaceable.indexBefore_endIndex backwards shape]
  refine ⟨_, Prod.ext ?_ rfl, ?_⟩
  · simpa [shape] using removed
  · rw [remains, shape]
    simp [splice]

theorem removesLast (replaceable : Replaceable collection list index)
    (backwards : Backwards collection indexBefore list index) :
    RemovesLast list (collection.popLast indexBefore .default)
      (collection.removeLast indexBefore .default) (collection.removeLastCount .default) where
  pop_empty elements empty := by
    rw [RangeReplaceable.popLast, (replaceable.listed elements).isEmpty, empty]
    rfl
  pop elements front element shape := by
    rcases replaceable.removeAt_last backwards shape with ⟨elements', removed, remains⟩
    refine ⟨elements', ?_, remains⟩
    rw [RangeReplaceable.popLast, (replaceable.listed elements).isEmpty, shape]
    simp [CustomRemoveLast.default, removed, pure, Except.pure, bind, Except.bind]
  one elements front element shape := by
    rcases replaceable.removeAt_last backwards shape with ⟨elements', removed, remains⟩
    refine ⟨elements', ?_, remains⟩
    simp [RangeReplaceable.removeLast, CustomRemoveLast.default, removed, pure, Except.pure, bind,
      Except.bind]
  count elements k inside := by
    rw [RangeReplaceable.removeLastCount]
    split
    · rename_i none
      have zero : k = 0 := by simpa using none
      rw [zero, Nat.sub_zero, List.take_length]
    · dsimp only [CustomRemoveLast.default]
      rw [replaceable.offset_from_end backwards inside, (replaceable.listed elements).endIndex,
        replaceable.removeSubrange (Nat.sub_le _ k) le_rfl, splice_to_end]

theorem sliceLast_one (replaceable : Replaceable collection list index)
    (backwards : Backwards collection indexBefore list index)
    (slices : SlicesItself subscriptRange list index) {front : List Element} {element : Element}
    (shape : list elements = front ++ [element]) :
    ∃ elements', (collection.sliceLast subscriptRange indexBefore).one elements =
      .ok (some element, elements') ∧ list elements' = front := by
  have inside : front.length ≤ (list elements).length := by simp [shape]
  refine ⟨subscriptRange elements
    (halfOpen (index elements 0) (index elements front.length)), ?_, ?_⟩
  · simp only [RangeReplaceable.sliceLast]
    rw [replaceable.last backwards shape, replaceable.indexBefore_endIndex backwards shape,
      (replaceable.listed elements).startIndex]
    rfl
  · rw [slices.take inside, shape, List.take_left]

theorem slicesLast (replaceable : Replaceable collection list index)
    (backwards : Backwards collection indexBefore list index)
    (slices : SlicesItself subscriptRange list index) :
    RemovesLast list
      (collection.popLast indexBefore (collection.sliceLast subscriptRange indexBefore))
      (collection.removeLast indexBefore (collection.sliceLast subscriptRange indexBefore))
      (collection.removeLastCount (collection.sliceLast subscriptRange indexBefore)) where
  pop_empty elements empty := by
    rw [RangeReplaceable.popLast, (replaceable.listed elements).isEmpty, empty]
    rfl
  pop elements front element shape := by
    rcases replaceable.sliceLast_one backwards slices shape with ⟨elements', removed, remains⟩
    refine ⟨elements', ?_, remains⟩
    rw [RangeReplaceable.popLast, (replaceable.listed elements).isEmpty, shape]
    simp [removed, pure, Except.pure, bind, Except.bind]
  one elements front element shape := by
    rcases replaceable.sliceLast_one backwards slices shape with ⟨elements', removed, remains⟩
    refine ⟨elements', ?_, remains⟩
    simp [RangeReplaceable.removeLast, removed, pure, Except.pure, bind, Except.bind]
  count elements k inside := by
    rw [RangeReplaceable.removeLastCount]
    split
    · rename_i none
      have zero : k = 0 := by simpa using none
      rw [zero, Nat.sub_zero, List.take_length]
    · dsimp only [RangeReplaceable.sliceLast]
      rw [replaceable.offset_from_end backwards inside, (replaceable.listed elements).startIndex,
        slices.take (Nat.sub_le _ k)]

end Replaceable

/--
The defaults act as operations on lists, and a collection that slices itself removes
elements at its ends by slicing as it does by replacing a range.
-/
theorem replaceable_acts_as_list (replaceable : Replaceable collection list index) :
    EditsList collection list index ∧
      RemovesFirst list collection.removeFirst collection.removeFirstCount ∧
      (∀ indexBefore, Backwards collection indexBefore list index →
        RemovesLast list (collection.popLast indexBefore .default)
          (collection.removeLast indexBefore .default) (collection.removeLastCount .default)) ∧
      ∀ subscriptRange, SlicesItself subscriptRange list index →
        RemovesFirst list (collection.sliceFirst subscriptRange)
          (collection.sliceFirstCount subscriptRange) ∧
        ∀ indexBefore, Backwards collection indexBefore list index →
          RemovesLast list
            (collection.popLast indexBefore (collection.sliceLast subscriptRange indexBefore))
            (collection.removeLast indexBefore (collection.sliceLast subscriptRange indexBefore))
            (collection.removeLastCount
              (collection.sliceLast subscriptRange indexBefore)) := by
  refine ⟨replaceable.editsList, replaceable.removesFirst, ?_, ?_⟩
  · intro indexBefore backwards
    exact replaceable.removesLast backwards
  · intro subscriptRange slices
    refine ⟨replaceable.slicesFirst slices, ?_⟩
    intro indexBefore backwards
    exact replaceable.slicesLast backwards slices

theorem lists_replaceable [Inhabited Element] :
    Replaceable (@listCollection Element _) id fun _ i => i where
  listed := listed_offsets
  indexOffsetBy := by simp [listCollection]
  distance := by simp [listCollection]
  empty := rfl
  replaceSubrange := by simp [listCollection, halfOpen]
  reserveCapacity _ _ := rfl

theorem lists_backwards [Inhabited Element] :
    Backwards (@listCollection Element _) (fun _ i => i - 1) id fun _ i => i := by
  constructor <;> simp [listCollection]

theorem lists_slice :
    SlicesItself (fun (list : List Element) (bounds : Range ℤ) =>
      list.extract bounds.lowerBound.toNat bounds.upperBound.toNat) id fun _ i => i := by
  simp [SlicesItself, halfOpen]

/-- Lists of numbers, which slice themselves. -/
theorem replaceable_acts_as_list_numbers :
    EditsList (@listCollection ℕ _) id (fun _ i => i) ∧
      RemovesLast id (listCollection.popLast (fun _ i => i - 1) .default)
        (listCollection.removeLast (fun _ i => i - 1) .default)
        (@RangeReplaceable.removeLastCount (List ℕ) ℤ ℕ listCollection .default) ∧
      RemovesFirst id
        (@RangeReplaceable.sliceFirst (List ℕ) ℤ ℕ listCollection fun list bounds =>
          list.extract bounds.lowerBound.toNat bounds.upperBound.toNat)
        (listCollection.sliceFirstCount fun list bounds =>
          list.extract bounds.lowerBound.toNat bounds.upperBound.toNat) := by
  rcases replaceable_acts_as_list (@lists_replaceable ℕ _) with ⟨edits, _, last, slicing⟩
  exact ⟨edits, last _ lists_backwards, (slicing _ lists_slice).1⟩

end Results

end USwift
