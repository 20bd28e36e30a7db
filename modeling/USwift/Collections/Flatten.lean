import USwift.Collections.Traversal
import USwift.Library.Blocks

/-!
# Concatenations of collections

`FlattenSequence`, which `joined()` makes, as a sequence and as a collection. An index is an
index of the base together with one of an inner collection, and `endIndex` has no inner
index. No index lies in an empty inner collection or at the end of one, so a step that
leaves an inner collection skips the empty ones behind or before it.
-/

namespace USwift

open Iteration Positions Blocks

namespace FlattenSequence

section Operations

/-- The iterator of a concatenation. -/
structure Iterator (BaseIterator InnerIterator : Type) where
  _base : BaseIterator
  _inner : Option InnerIterator

/-- The index of a concatenation. -/
structure Index (OuterIndex InnerIndex : Type) where
  _outer : OuterIndex
  _inner : Option InnerIndex

section Iterators

variable {BaseIterator InnerIterator Inner Element : Type}
  (nextBase : BaseIterator → Option (Option (Inner × BaseIterator)))
  (makeIterator : Inner → InnerIterator)
  (nextInner : InnerIterator → Option (Option (Element × InnerIterator)))

/-- `next()`, whose loop is run for at most a number of rounds. -/
def Iterator.next : ℕ → Iterator BaseIterator InnerIterator →
    Option (Option (Element × Iterator BaseIterator InnerIterator))
  | 0, _ => none
  | fuel + 1, self =>
      let advanceBase := do
        match ← nextBase self._base with
        | none => return none
        | some (s, _base) => Iterator.next fuel ⟨_base, some (makeIterator s)⟩
      match self._inner with
      | none => advanceBase
      | some _inner => do
          match ← nextInner _inner with
          | some (ret, _inner) => return some (ret, ⟨self._base, some _inner⟩)
          | none => advanceBase

end Iterators

variable {word : WordSize} {Base OuterIndex Inner InnerIndex Element : Type}
  (outer : BidirectionalCollection word Base OuterIndex Inner)
  (inner : BidirectionalCollection word Inner InnerIndex Element)

/-- `==` of the optional inner indices. -/
def equalInner : Option InnerIndex → Option InnerIndex → Bool
  | none, none => true
  | some lhs, some rhs => inner.equal lhs rhs
  | _, _ => false

/-- `==`. -/
def Index.equal (lhs rhs : Index OuterIndex InnerIndex) : Bool :=
  outer.equal lhs._outer rhs._outer && equalInner inner lhs._inner rhs._inner

/-- `<`, whose check that both indices are the last one has no effect. -/
def Index.less (lhs rhs : Index OuterIndex InnerIndex) : Bool :=
  if !outer.equal lhs._outer rhs._outer then outer.less lhs._outer rhs._outer
  else
    match lhs._inner, rhs._inner with
    | some lhsInner, some rhsInner => inner.less lhsInner rhsInner
    | _, _ => false

variable (_base : Base)

/-- `endIndex`. -/
def endIndex : Option (Index OuterIndex InnerIndex) := do
  let _end ← outer.endIndex _base
  return ⟨_end, none⟩

/-- The loop of `startIndex` and of `_index(after:)`, which looks for an inner element. -/
def skipEmpty : ℕ → OuterIndex → Option (Index OuterIndex InnerIndex)
  | 0, _ => none
  | fuel + 1, outerIndex => do
      let _end ← outer.endIndex _base
      if outer.equal outerIndex _end then endIndex outer _base
      else
        let innerCollection ← outer.subscript _base outerIndex
        let isEmpty ← inner.isEmpty innerCollection
        if isEmpty then
          let later ← outer.indexAfter _base outerIndex
          skipEmpty fuel later
        else
          let start ← inner.startIndex innerCollection
          return ⟨outerIndex, some start⟩

variable (fuel : ℕ)

/-- `startIndex`. -/
def startIndex : Option (Index OuterIndex InnerIndex) := do
  let outerIndex ← outer.startIndex _base
  skipEmpty outer inner _base fuel outerIndex

/-- `_index(after:)`. -/
def _indexAfter (i : Index OuterIndex InnerIndex) : Option (Index OuterIndex InnerIndex) := do
  let innerCollection ← outer.subscript _base i._outer
  let innerIndex ← i._inner
  let nextInner ← inner.indexAfter innerCollection innerIndex
  let innerEnd ← inner.endIndex innerCollection
  if !inner.equal nextInner innerEnd then
    return ⟨i._outer, some nextInner⟩
  else
    let nextOuter ← outer.indexAfter _base i._outer
    skipEmpty outer inner _base fuel nextOuter

/-- The loop of `_index(before:)`, which looks for an inner index with an element before it. -/
def skipBack : ℕ → OuterIndex → Inner → InnerIndex → Option (Index OuterIndex InnerIndex)
  | 0, _, _, _ => none
  | fuel + 1, prevOuter, prevInnerCollection, prevInner => do
      let innerStart ← inner.startIndex prevInnerCollection
      if inner.equal prevInner innerStart then
        let prevOuter ← outer.indexOffsetBy _base prevOuter (-1)
        let prevInnerCollection ← outer.subscript _base prevOuter
        let prevInner ← inner.endIndex prevInnerCollection
        skipBack fuel prevOuter prevInnerCollection prevInner
      else
        let prevInner ← inner.indexOffsetBy prevInnerCollection prevInner (-1)
        return ⟨prevOuter, some prevInner⟩

/-- `_index(before:)`. -/
def _indexBefore (i : Index OuterIndex InnerIndex) : Option (Index OuterIndex InnerIndex) := do
  let _end ← outer.endIndex _base
  let prevOuter ←
    if outer.equal i._outer _end then outer.indexOffsetBy _base i._outer (-1)
    else some i._outer
  let prevInnerCollection ← outer.subscript _base prevOuter
  let prevInner ←
    match i._inner with
    | some innerIndex => some innerIndex
    | none => inner.endIndex prevInnerCollection
  skipBack outer inner _base fuel prevOuter prevInnerCollection prevInner

/-- `distance(from:to:)`. -/
def distance (start _end : Index OuterIndex InnerIndex) : Option (Value word .int) := do
  if Index.less outer inner _end start then
    let baseEnd ← outer.endIndex _base
    let baseStart ← outer.startIndex _base
    let _ ← outer.distance _base baseEnd baseStart
  stepDistance (Index.equal outer inner) (Index.less outer inner)
    (_indexAfter outer inner _base fuel) fuel start _end

/-- `_advanceIndex(_:step:)`. -/
def _advanceIndex (step : Value word .int) (i : Index OuterIndex InnerIndex) :
    Option (Index OuterIndex InnerIndex) :=
  if less word .int step 0 then _indexBefore outer inner _base fuel i
  else _indexAfter outer inner _base fuel i

/-- `_ensureBidirectional(step:)`. -/
def _ensureBidirectional (step : Value word .int) : Option Unit := do
  if less word .int step 0 then
    let _end ← outer.endIndex _base
    let start ← outer.startIndex _base
    let _ ← outer.indexLimited _base _end step start

/-- `index(_:offsetBy:)`. -/
def indexOffsetBy (i : Index OuterIndex InnerIndex) (n : Value word .int) :
    Option (Index OuterIndex InnerIndex) := do
  let step := signum word .int n
  _ensureBidirectional outer _base step
  repeatSteps (_advanceIndex outer inner _base fuel step) fuel (rounds (abs n)) i

/-- `index(_:offsetBy:limitedBy:)`. -/
def indexLimited (i : Index OuterIndex InnerIndex) (n : Value word .int)
    (limit : Index OuterIndex InnerIndex) : Option (Option (Index OuterIndex InnerIndex)) := do
  let step := signum word .int n
  _ensureBidirectional outer _base step
  repeatLimited (Index.equal outer inner) (_advanceIndex outer inner _base fuel step) limit fuel
    (rounds (abs n)) i

/-- `subscript(_:)`. -/
def subscript (position : Index OuterIndex InnerIndex) : Option Element := do
  let innerCollection ← outer.subscript _base position._outer
  let innerIndex ← position._inner
  inner.subscript innerCollection innerIndex

/-- The collection of a concatenation, with a bound on the rounds of its loops. -/
def collection (outer : BidirectionalCollection word Base OuterIndex Inner)
    (inner : BidirectionalCollection word Inner InnerIndex Element) (fuel : ℕ) :
    BidirectionalCollection word Base (Index OuterIndex InnerIndex) Element where
  startIndex _base := startIndex outer inner _base fuel
  endIndex _base := endIndex outer _base
  indexAfter _base := _indexAfter outer inner _base fuel
  indexBefore _base := _indexBefore outer inner _base fuel
  indexOffsetBy _base := indexOffsetBy outer inner _base fuel
  indexLimited _base := indexLimited outer inner _base fuel
  distance _base := distance outer inner _base fuel
  subscript _base := subscript outer inner _base
  equal := Index.equal outer inner
  less := Index.less outer inner

end Operations

section Places

variable {OuterIndex Inner InnerIndex Element : Type} (inners : List Inner)
  (list : Inner → List Element)

/-- The sizes of the inner collections. -/
def sizes : List ℕ :=
  inners.map fun innerCollection => (list innerCollection).length

/-- An element is a number of elements behind the start of an inner collection. -/
structure Lies (block : ℕ) (innerCollection : Inner) (distance position : ℕ) : Prop where
  collection : inners[block]? = some innerCollection
  inside : distance < (list innerCollection).length
  position : position = start (sizes inners list) block + distance

/-- The index of a position of the concatenation. -/
def place (outerIndex : ℕ → OuterIndex) (innerIndex : Inner → ℕ → InnerIndex) (position : ℕ) :
    Index OuterIndex InnerIndex :=
  let (block, distance) := locate (sizes inners list) position
  ⟨outerIndex block, inners[block]?.map (innerIndex · distance)⟩

variable {inners list} {outerIndex : ℕ → OuterIndex} {innerIndex : Inner → ℕ → InnerIndex}
  {block other distance further position there : ℕ} {innerCollection another : Inner}

theorem getD_sizes (found : inners[block]? = some innerCollection) :
    (sizes inners list).getD block 0 = (list innerCollection).length := by
  simp [sizes, List.getD_eq_getElem?_getD, found]

theorem length_sizes (inners : List Inner) (list : Inner → List Element) :
    (sizes inners list).length = inners.length :=
  List.length_map _

theorem sum_sizes (inners : List Inner) (list : Inner → List Element) :
    (sizes inners list).sum = (inners.flatMap list).length :=
  List.length_flatMap.symm

theorem Lies.within (lies : Lies inners list block innerCollection distance position) :
    Within (sizes inners list) block distance position := by
  refine ⟨?_, lies.position⟩
  rw [getD_sizes lies.collection]
  exact lies.inside

theorem Lies.block_lt (lies : Lies inners list block innerCollection distance position) :
    block < inners.length := by
  have found := lies.within.block_lt
  rwa [length_sizes] at found

theorem Lies.lt_length (lies : Lies inners list block innerCollection distance position) :
    position < (inners.flatMap list).length := by
  rw [← sum_sizes]
  exact lies.within.lt_sum

theorem Lies.mem (lies : Lies inners list block innerCollection distance position) :
    innerCollection ∈ inners :=
  List.mem_of_getElem? lies.collection

theorem Lies.place_eq (lies : Lies inners list block innerCollection distance position) :
    place inners list outerIndex innerIndex position =
      ⟨outerIndex block, some (innerIndex innerCollection distance)⟩ := by
  rw [place, lies.within.locate_eq]
  simp [lies.collection]

theorem Lies.getElem? (lies : Lies inners list block innerCollection distance position) :
    (inners.flatMap list)[position]? = (list innerCollection)[distance]? := by
  rw [lies.within.getElem?_flatMap, lies.collection, Option.bind_some]

/-- The position behind the last element has the index `endIndex`. -/
theorem place_end : place inners list outerIndex innerIndex (inners.flatMap list).length =
    ⟨outerIndex inners.length, none⟩ := by
  rw [place, ← sum_sizes, locate_sum, length_sizes]
  simp

theorem exists_lies (below : position < (inners.flatMap list).length) :
    ∃ block innerCollection distance, Lies inners list block innerCollection distance position := by
  rw [← sum_sizes] at below
  have within := locate_within below
  have inside := within.block_lt
  rw [length_sizes] at inside
  have found := List.getElem?_eq_getElem inside
  refine ⟨_, _, _, found, ?_, within.position⟩
  have size := within.inside
  rwa [getD_sizes found] at size

end Places

section Indices

variable {word : WordSize} {Base OuterIndex Inner InnerIndex Element : Type}
  {outer : BidirectionalCollection word Base OuterIndex Inner}
  {inner : BidirectionalCollection word Inner InnerIndex Element} {backward : Prop} {_base : Base}
  {inners : List Inner} {outerIndex : ℕ → OuterIndex} {list : Inner → List Element}
  {innerIndex : Inner → ℕ → InnerIndex} {fuel block position there : ℕ}
  (outers : Traversed backward Negatable outer _base inners outerIndex)
  (traversed : ∀ innerCollection ∈ inners,
    Traversed backward Negatable inner innerCollection (list innerCollection)
      (innerIndex innerCollection))

theorem endIndex_eq (outers : Traversed backward Negatable outer _base inners outerIndex)
    (list : Inner → List Element) (innerIndex : Inner → ℕ → InnerIndex) :
    endIndex outer _base =
      some (place inners list outerIndex innerIndex (inners.flatMap list).length) := by
  rw [endIndex, outers.endIndex, place_end]
  rfl

include outers traversed

/-- Skipping empty collections leads to the index of the position that they share. -/
theorem skipEmpty_eq (block_le : block ≤ inners.length) (enough : inners.length - block < fuel) :
    skipEmpty outer inner _base fuel (outerIndex block) =
      some (place inners list outerIndex innerIndex (start (sizes inners list) block)) := by
  induction fuel generalizing block with
  | zero => omega
  | succ fuel later =>
      rw [skipEmpty, outers.endIndex]
      simp only [Option.bind_eq_bind, Option.bind_some, Option.pure_def]
      by_cases ended : block = inners.length
      · rw [if_pos ((outers.equal block_le le_rfl).mpr ended),
          endIndex_eq outers list innerIndex, ended, ← sum_sizes, ← length_sizes inners list,
          start_length]
      · have before : block < inners.length := by omega
        have found := List.getElem?_eq_getElem before
        have mem : inners[block] ∈ inners := List.getElem_mem before
        rw [if_neg ((outers.equal block_le le_rfl).not.mpr ended), outers.subscript before]
        simp only [Option.bind_some, (traversed _ mem).isEmpty]
        by_cases empty : list inners[block] = []
        · have bounded : inners.length - (block + 1) < fuel := by omega
          have further := later before bounded
          rw [empty, List.isEmpty_nil, if_pos rfl, outers.indexAfter before, Option.bind_some,
            further, start_succ, getD_sizes found, empty, List.length_nil, Nat.add_zero]
        · have lies : Lies inners list block inners[block] 0 (start (sizes inners list) block) :=
            ⟨found, List.length_pos_of_ne_nil empty, rfl⟩
          rw [List.isEmpty_eq_false_iff.mpr empty, if_neg Bool.false_ne_true,
            (traversed _ mem).startIndex, Option.bind_some, lies.place_eq]

theorem startIndex_eq (enough : inners.length < fuel) :
    startIndex outer inner _base fuel = some (place inners list outerIndex innerIndex 0) := by
  have bounded : inners.length - 0 < fuel := by omega
  have skipped := skipEmpty_eq outers traversed (Nat.zero_le inners.length) bounded
  rw [start_zero] at skipped
  rw [startIndex, outers.startIndex]
  exact skipped

theorem indexAfter_eq (below : position < (inners.flatMap list).length)
    (enough : inners.length < fuel) :
    _indexAfter outer inner _base fuel (place inners list outerIndex innerIndex position) =
      some (place inners list outerIndex innerIndex (position + 1)) := by
  rcases exists_lies below with ⟨block, innerCollection, distance, lies⟩
  have listed := traversed _ lies.mem
  have inside := lies.block_lt
  have found := lies.collection
  rw [List.getElem?_eq_getElem inside, Option.some_inj] at found
  rw [lies.place_eq, _indexAfter, outers.subscript inside, found]
  simp only [Option.bind_eq_bind, Option.bind_some, listed.indexAfter lies.inside, listed.endIndex,
    Option.pure_def]
  have inner_le : distance + 1 ≤ (list innerCollection).length := lies.inside
  have ended := listed.equal inner_le le_rfl
  by_cases last : distance + 1 = (list innerCollection).length
  · have bounded : inners.length - (block + 1) < fuel := by omega
    have skipped := skipEmpty_eq outers traversed inside bounded
    have shared : start (sizes inners list) (block + 1) = position + 1 := by
      rw [start_succ, getD_sizes lies.collection, lies.position]
      omega
    rw [ended.mpr last, Bool.not_true, if_neg Bool.false_ne_true, outers.indexAfter inside,
      Option.bind_some, skipped, shared]
  · have next : Lies inners list block innerCollection (distance + 1) (position + 1) := by
      refine ⟨lies.collection, ?_, ?_⟩
      · have size := lies.inside
        omega
      · rw [lies.position, Nat.add_assoc]
    rw [if_pos, next.place_eq]
    rw [Bool.not_eq_true', ← Bool.not_eq_true, ended]
    exact last

/-- From an index with an element before it, empty collections are skipped backwards. -/
theorem skipBack_eq (back : backward) {innerCollection : Inner} {distance : ℕ}
    (found : inners[block]? = some innerCollection)
    (inside : distance ≤ (list innerCollection).length)
    (behind : start (sizes inners list) block + distance = position + 1) (enough : block < fuel) :
    skipBack outer inner _base fuel (outerIndex block) innerCollection
        (innerIndex innerCollection distance) =
      some (place inners list outerIndex innerIndex position) := by
  induction fuel generalizing block innerCollection distance with
  | zero => omega
  | succ fuel earlier =>
      have listed := traversed _ (List.mem_of_getElem? found)
      rw [skipBack, listed.startIndex]
      simp only [Option.bind_eq_bind, Option.bind_some, Option.pure_def]
      have atStart := listed.equal inside (Nat.zero_le _)
      cases distance with
      | zero =>
          cases block with
          | zero =>
              rw [start_zero] at behind
              omega
          | succ block =>
              rcases List.getElem?_eq_some_iff.mp found with ⟨block_lt, _⟩
              have before : block < inners.length := by omega
              have previous := List.getElem?_eq_getElem before
              have previousListed := traversed _ (List.getElem_mem before)
              rw [start_succ, getD_sizes previous] at behind
              rw [if_pos (atStart.mpr rfl),
                outers.offset_neg_one back (negatable_neg_one word) before,
                Option.bind_some, outers.subscript before, Option.bind_some,
                previousListed.endIndex, Option.bind_some]
              exact earlier previous le_rfl behind (by omega)
      | succ distance =>
          have lies : Lies inners list block innerCollection distance position :=
            ⟨found, inside, by omega⟩
          rw [if_neg (by rw [atStart]; omega),
            listed.offset_neg_one back (negatable_neg_one word) inside, Option.bind_some,
            lies.place_eq]

theorem indexBefore_eq (back : backward) (below : position < (inners.flatMap list).length)
    (enough : inners.length < fuel) :
    _indexBefore outer inner _base fuel (place inners list outerIndex innerIndex (position + 1)) =
      some (place inners list outerIndex innerIndex position) := by
  by_cases last : position + 1 = (inners.flatMap list).length
  · -- The last index has no inner index, and the last inner collection supplies its end.
    have nonempty : 0 < inners.length := by
      apply List.length_pos_of_ne_nil
      rintro rfl
      simp at below
    rcases Nat.exists_eq_succ_of_ne_zero nonempty.ne' with ⟨block, length⟩
    have inside : block < inners.length := by omega
    have found := List.getElem?_eq_getElem inside
    have listed := traversed _ (List.getElem_mem inside)
    have behind : start (sizes inners list) block + (list inners[block]).length =
        position + 1 := by
      have total := start_length (sizes inners list)
      rw [length_sizes, length, Nat.succ_eq_add_one, start_succ, getD_sizes found,
        sum_sizes] at total
      omega
    have skipped := skipBack_eq outers traversed back found le_rfl behind (by omega : block < fuel)
    have ended := (outers.equal le_rfl le_rfl).mpr rfl
    rw [last, place_end, _indexBefore, outers.endIndex]
    simp only [Option.bind_eq_bind, Option.bind_some, if_pos ended]
    have step := outers.offset_neg_one back (negatable_neg_one word) inside
    rw [length, Nat.succ_eq_add_one, step, Option.bind_some, outers.subscript inside,
      Option.bind_some, listed.endIndex, Option.bind_some]
    exact skipped
  · have following : position + 1 < (inners.flatMap list).length := by omega
    rcases exists_lies following with ⟨block, innerCollection, distance, lies⟩
    have inside := lies.block_lt
    have found := lies.collection
    rw [List.getElem?_eq_getElem inside, Option.some_inj] at found
    have going := outers.equal inside.le le_rfl
    rw [lies.place_eq, _indexBefore, outers.endIndex]
    simp only [Option.bind_eq_bind, Option.bind_some]
    rw [if_neg (by rw [going]; omega)]
    simp only [Option.bind_some, outers.subscript inside, found]
    exact skipBack_eq outers traversed back lies.collection lies.inside.le lies.position.symm
      (by omega)

theorem equal_iff {i j : ℕ} (i_le : i ≤ (inners.flatMap list).length)
    (j_le : j ≤ (inners.flatMap list).length) :
    Index.equal outer inner (place inners list outerIndex innerIndex i)
        (place inners list outerIndex innerIndex j) = true ↔ i = j := by
  rw [Index.equal, Bool.and_eq_true]
  rcases Nat.lt_or_eq_of_le i_le with i_lt | rfl
  · rcases exists_lies i_lt with ⟨block, innerCollection, distance, lies⟩
    have inside := lies.block_lt
    rw [lies.place_eq]
    rcases Nat.lt_or_eq_of_le j_le with j_lt | rfl
    · rcases exists_lies j_lt with ⟨other, another, further, there⟩
      rw [there.place_eq]
      dsimp only
      rw [outers.equal inside.le there.block_lt.le]
      constructor
      · rintro ⟨rfl, same⟩
        have shared := lies.collection.symm.trans there.collection
        rw [Option.some_inj] at shared
        subst shared
        rw [equalInner, (traversed _ lies.mem).equal lies.inside.le there.inside.le] at same
        rw [lies.position, there.position, same]
      · rintro rfl
        rcases lies.within.unique there.within with ⟨rfl, rfl⟩
        have shared := lies.collection.symm.trans there.collection
        rw [Option.some_inj] at shared
        subst shared
        refine ⟨rfl, ?_⟩
        rw [equalInner, (traversed _ lies.mem).equal lies.inside.le lies.inside.le]
    · rw [place_end]
      dsimp only
      rw [outers.equal inside.le le_rfl]
      have below := lies.lt_length
      omega
  · rcases Nat.lt_or_eq_of_le j_le with j_lt | rfl
    · rcases exists_lies j_lt with ⟨other, another, further, there⟩
      have inside := there.block_lt
      rw [place_end, there.place_eq]
      dsimp only
      rw [outers.equal le_rfl inside.le]
      have below := there.lt_length
      omega
    · rw [place_end]
      dsimp only
      rw [outers.equal le_rfl le_rfl, equalInner]
      simp

theorem less_iff {i j : ℕ} (i_le : i ≤ (inners.flatMap list).length)
    (j_le : j ≤ (inners.flatMap list).length) :
    Index.less outer inner (place inners list outerIndex innerIndex i)
        (place inners list outerIndex innerIndex j) = true ↔ i < j := by
  have outerEqual {block other : ℕ} (block_le : block ≤ inners.length)
      (other_le : other ≤ inners.length) :
      (!outer.equal (outerIndex block) (outerIndex other)) = true ↔ block ≠ other := by
    rw [Bool.not_eq_true', ← Bool.not_eq_true, outers.equal block_le other_le]
  rcases Nat.lt_or_eq_of_le i_le with i_lt | rfl
  · rcases exists_lies i_lt with ⟨block, innerCollection, distance, lies⟩
    have inside := lies.block_lt
    rw [lies.place_eq]
    rcases Nat.lt_or_eq_of_le j_le with j_lt | rfl
    · rcases exists_lies j_lt with ⟨other, another, further, there⟩
      rw [there.place_eq, Index.less, lies.within.lt_iff there.within]
      dsimp only
      by_cases same : block = other
      · subst same
        have shared := lies.collection.symm.trans there.collection
        rw [Option.some_inj] at shared
        subst shared
        rw [if_neg ((outerEqual inside.le inside.le).not.mpr (not_not_intro rfl)),
          (traversed _ lies.mem).less lies.inside.le there.inside.le]
        simp
      · rw [if_pos ((outerEqual inside.le there.block_lt.le).mpr same),
          outers.less inside.le there.block_lt.le]
        simp [same]
    · rw [place_end, Index.less]
      dsimp only
      rw [if_pos ((outerEqual inside.le le_rfl).mpr inside.ne), outers.less inside.le le_rfl]
      exact iff_of_true inside i_lt
  · rcases Nat.lt_or_eq_of_le j_le with j_lt | rfl
    · rcases exists_lies j_lt with ⟨other, another, further, there⟩
      have inside := there.block_lt
      rw [place_end, there.place_eq, Index.less]
      dsimp only
      rw [if_pos ((outerEqual le_rfl inside.le).mpr inside.ne'), outers.less le_rfl inside.le]
      omega
    · rw [place_end, Index.less]
      dsimp only
      rw [if_neg ((outerEqual le_rfl le_rfl).not.mpr (not_not_intro rfl))]
      simp

theorem subscript_eq (below : position < (inners.flatMap list).length) :
    subscript outer inner _base (place inners list outerIndex innerIndex position) =
      some (inners.flatMap list)[position] := by
  rcases exists_lies below with ⟨block, innerCollection, distance, lies⟩
  have inside := lies.block_lt
  have found := lies.collection
  have element := lies.getElem?
  rw [List.getElem?_eq_getElem below, List.getElem?_eq_getElem lies.inside] at element
  rw [List.getElem?_eq_getElem inside, Option.some_inj] at found
  rw [lies.place_eq, subscript, outers.subscript inside, found]
  simp only [Option.bind_eq_bind, Option.bind_some, (traversed _ lies.mem).subscript lies.inside]
  exact element.symm

theorem advanceIndex_one (below : position < (inners.flatMap list).length)
    (enough : inners.length < fuel) :
    _advanceIndex outer inner _base fuel 1 (place inners list outerIndex innerIndex position) =
      some (place inners list outerIndex innerIndex (position + 1)) := by
  have forwards : ¬ less word .int 1 0 = true := by
    rw [USwift.less_iff, toInt_one_int, toInt_zero]
    decide
  rw [_advanceIndex, if_neg forwards]
  exact indexAfter_eq outers traversed below enough

theorem advanceIndex_neg_one (back : backward) (below : position < (inners.flatMap list).length)
    (enough : inners.length < fuel) :
    _advanceIndex outer inner _base fuel (-1)
        (place inners list outerIndex innerIndex (position + 1)) =
      some (place inners list outerIndex innerIndex position) := by
  have backwards : less word .int (-1) 0 = true := by
    rw [USwift.less_iff, toInt_neg_one_int, toInt_zero]
    decide
  rw [_advanceIndex, if_pos backwards]
  exact indexBefore_eq outers traversed back below enough

omit traversed in
theorem ensureBidirectional_eq {n : Value word .int} (way : 0 ≤ toInt word .int n ∨ backward) :
    _ensureBidirectional outer _base (signum word .int n) = some () := by
  rw [_ensureBidirectional]
  by_cases negative : toInt word .int n < 0
  · rcases outers.limited_back (way.resolve_left (by omega)) (negatable_neg_one word) with
      ⟨result, limited⟩
    rw [if_pos ((less_signum n).mpr negative), signum_of_neg negative, outers.endIndex,
      outers.startIndex]
    simp only [Option.bind_eq_bind, Option.bind_some, limited]
    rfl
  · rw [if_neg ((less_signum n).not.mpr negative)]
    rfl

/-- A concatenation has the elements of the inner collections behind one another. -/
theorem collection_traversed (enough : inners.length + (inners.flatMap list).length < fuel) :
    Traversed backward (fun _ => True) (collection outer inner fuel) _base (inners.flatMap list)
      (place inners list outerIndex innerIndex) := by
  have rounds : inners.length < fuel := by omega
  have positions : (inners.flatMap list).length < fuel := by omega
  have advances : Advances backward (inners.flatMap list).length
      (place inners list outerIndex innerIndex) (Index.equal outer inner)
      (_advanceIndex outer inner _base fuel) :=
    ⟨fun inside => advanceIndex_one outers traversed inside rounds,
      fun back _ inside => advanceIndex_neg_one outers traversed back inside rounds,
      equal_iff outers traversed⟩
  constructor
  · exact startIndex_eq outers traversed rounds
  · exact endIndex_eq outers list innerIndex
  · intro i j i_le j_le
    exact equal_iff outers traversed i_le j_le
  · intro i j i_le j_le
    exact less_iff outers traversed i_le j_le
  · intro i inside
    exact subscript_eq outers traversed inside
  · intro i inside
    exact indexAfter_eq outers traversed inside rounds
  · intro back i inside
    exact indexBefore_eq outers traversed back inside rounds
  · intro i j i_le j_le way
    have counted := stepDistance_eq word (equal_iff outers traversed)
      (less_iff outers traversed) (fun inside => indexAfter_eq outers traversed inside rounds)
      i_le j_le positions
    change distance outer inner _base fuel _ _ = _
    rw [distance]
    by_cases reversed : j < i
    · have back := way.resolve_left (by omega)
      rw [if_pos ((less_iff outers traversed j_le i_le).mpr reversed), outers.endIndex,
        outers.startIndex]
      simp [outers.distance le_rfl (Nat.zero_le _) (Or.inr back), counted]
    · rw [if_neg ((less_iff outers traversed j_le i_le).not.mpr reversed)]
      exact counted
  · intro i j n i_le j_le _ way apart
    have moved := advances.repeatSteps_eq i_le j_le way apart positions
    change indexOffsetBy outer inner _base fuel _ _ = _
    rw [indexOffsetBy, ensureBidirectional_eq outers way]
    exact moved
  · intro i limit n i_le limit_le _ way meets
    have limited := advances.repeatLimited_met i_le limit_le way meets positions
    change indexLimited outer inner _base fuel _ _ _ = _
    rw [indexLimited, ensureBidirectional_eq outers way]
    exact limited
  · intro i j limit n i_le j_le limit_le _ way clear apart
    have limited := advances.repeatLimited_unmet i_le j_le limit_le way clear apart positions
    change indexLimited outer inner _base fuel _ _ _ = _
    rw [indexLimited, ensureBidirectional_eq outers way]
    exact limited

end Indices

section Iteration

variable {BaseIterator InnerIterator Inner Element : Type}
  {nextBase : BaseIterator → Option (Option (Inner × BaseIterator))}
  {makeIterator : Inner → InnerIterator}
  {nextInner : InnerIterator → Option (Option (Element × InnerIterator))}
  {list : Inner → List Element}

/-- What an inner iterator that may not be there still delivers. -/
def RemainsInner (nextInner : InnerIterator → Option (Option (Element × InnerIterator))) :
    Option InnerIterator → List Element → Prop
  | none, elements => elements = []
  | some _inner, elements => Delivers nextInner _inner elements

/-- What the iterator of a concatenation still delivers, with a bound on the collections left. -/
structure Remains (nextBase : BaseIterator → Option (Option (Inner × BaseIterator)))
    (makeIterator : Inner → InnerIterator)
    (nextInner : InnerIterator → Option (Option (Element × InnerIterator)))
    (list : Inner → List Element) (iterator : Iterator BaseIterator InnerIterator)
    (elements : List Element) (inners : List Inner) : Prop where
  inner : RemainsInner nextInner iterator._inner elements
  base : Delivers nextBase iterator._base inners
  all : ∀ innerCollection ∈ inners,
    Delivers nextInner (makeIterator innerCollection) (list innerCollection)

/-- `next()` answers with the first element that remains, or with the end if there is none. -/
def Answers (nextBase : BaseIterator → Option (Option (Inner × BaseIterator)))
    (makeIterator : Inner → InnerIterator)
    (nextInner : InnerIterator → Option (Option (Element × InnerIterator)))
    (list : Inner → List Element)
    (answer : Option (Option (Element × Iterator BaseIterator InnerIterator)))
    (elements : List Element) (inners : List Inner) : Prop :=
  elements ++ inners.flatMap list = [] ∧ answer = some none ∨
    ∃ element rest later left, elements ++ inners.flatMap list =
        element :: (rest ++ left.flatMap list) ∧
      answer = some (some (element, later)) ∧
      Remains nextBase makeIterator nextInner list later rest left ∧
      left.length ≤ inners.length

/-- With nothing left in the inner iterator, the next collection takes its place. -/
theorem Answers.behind {answer : Option (Option (Element × Iterator BaseIterator InnerIterator))}
    {innerCollection : Inner} {inners : List Inner}
    (answers : Answers nextBase makeIterator nextInner list answer (list innerCollection)
      inners) :
    Answers nextBase makeIterator nextInner list answer [] (innerCollection :: inners) := by
  rw [Answers, List.nil_append, List.flatMap_cons]
  rcases answers with ended | ⟨element, rest, later, left, shape, advanced, kept, fewer⟩
  · exact Or.inl ended
  · refine Or.inr ⟨element, rest, later, left, shape, advanced, kept, ?_⟩
    rw [List.length_cons]
    omega

section Calls

variable {self : Iterator BaseIterator InnerIterator} {fuel : ℕ}

theorem Iterator.next_ended (inner : RemainsInner nextInner self._inner [])
    (ended : nextBase self._base = some none) :
    Iterator.next nextBase makeIterator nextInner (fuel + 1) self = some none := by
  rcases self with ⟨_base, _inner⟩
  cases _inner with
  | none =>
      rw [Iterator.next]
      simp [ended]
  | some _inner =>
      have done : nextInner _inner = some none := inner
      rw [Iterator.next]
      simp [done, ended]

theorem Iterator.next_refilled {innerCollection : Inner} {later : BaseIterator}
    (inner : RemainsInner nextInner self._inner [])
    (advanced : nextBase self._base = some (some (innerCollection, later))) :
    Iterator.next nextBase makeIterator nextInner (fuel + 1) self =
      Iterator.next nextBase makeIterator nextInner fuel
        ⟨later, some (makeIterator innerCollection)⟩ := by
  rcases self with ⟨_base, _inner⟩
  cases _inner with
  | none =>
      rw [Iterator.next]
      simp [advanced]
  | some _inner =>
      have done : nextInner _inner = some none := inner
      rw [Iterator.next]
      simp [done, advanced]

theorem Remains.next_within {element : Element} {rest : List Element} {inners : List Inner}
    (remains : Remains nextBase makeIterator nextInner list self (element :: rest) inners) :
    Answers nextBase makeIterator nextInner list
      (Iterator.next nextBase makeIterator nextInner (fuel + 1) self) (element :: rest) inners := by
  rcases self with ⟨_base, _inner⟩
  have inner := remains.inner
  cases _inner with
  | none => cases inner
  | some _inner =>
      rcases inner with ⟨later, advanced, inner⟩
      right
      refine ⟨element, rest, ⟨_base, some later⟩, inners, List.cons_append, ?_,
        ⟨inner, remains.base, remains.all⟩, le_rfl⟩
      rw [Iterator.next]
      simp [advanced]

/-- `next()` delivers the first element that remains, if there is one. -/
theorem Remains.next {elements : List Element} {inners : List Inner}
    (remains : Remains nextBase makeIterator nextInner list self elements inners)
    (enough : inners.length < fuel) :
    Answers nextBase makeIterator nextInner list
      (Iterator.next nextBase makeIterator nextInner fuel self) elements inners := by
  induction inners generalizing self elements fuel with
  | nil =>
      rcases Nat.exists_eq_add_of_lt enough with ⟨more, rfl⟩
      cases elements with
      | nil => exact Or.inl ⟨rfl, Iterator.next_ended remains.inner remains.base⟩
      | cons element rest => exact remains.next_within
  | cons innerCollection inners shorter =>
      rcases Nat.exists_eq_add_of_lt enough with ⟨more, rfl⟩
      cases elements with
      | nil =>
          rcases remains.base with ⟨baseLater, baseAdvanced, base⟩
          have replaced : Remains nextBase makeIterator nextInner list
              ⟨baseLater, some (makeIterator innerCollection)⟩ (list innerCollection) inners :=
            ⟨remains.all _ List.mem_cons_self, base,
              fun other mem => remains.all other (List.mem_cons_of_mem _ mem)⟩
          have bounded : inners.length < inners.length + 1 + more := by omega
          rw [List.length_cons, Iterator.next_refilled remains.inner baseAdvanced]
          exact (shorter replaced bounded).behind
      | cons element rest => exact remains.next_within

end Calls

/-- Iterating a concatenation delivers the inner lists behind one another. -/
theorem Iterator.delivers {_base : BaseIterator} {inners : List Inner} {fuel : ℕ}
    (base : Delivers nextBase _base inners)
    (all : ∀ innerCollection ∈ inners,
      Delivers nextInner (makeIterator innerCollection) (list innerCollection))
    (enough : inners.length < fuel) :
    Delivers (Iterator.next nextBase makeIterator nextInner fuel) ⟨_base, none⟩
      (inners.flatMap list) := by
  apply Delivers.of_invariant fun self remaining => ∃ elements left,
    Remains nextBase makeIterator nextInner list self elements left ∧
      left.length ≤ inners.length ∧ remaining = elements ++ left.flatMap list
  · rintro self ⟨elements, left, remains, fewer, shape⟩
    rcases remains.next (by omega : left.length < fuel) with
      ⟨_, ended⟩ | ⟨element, rest, later, others, filled, _⟩
    · exact ended
    · rw [filled] at shape
      cases shape
  · rintro self element remaining ⟨elements, left, remains, fewer, shape⟩
    rcases remains.next (by omega : left.length < fuel) with
      ⟨empty, _⟩ | ⟨first, rest, later, others, filled, advanced, kept, smaller⟩
    · rw [empty] at shape
      cases shape
    · rw [filled, List.cons.injEq] at shape
      rcases shape with ⟨rfl, rfl⟩
      exact ⟨later, advanced, rest, others, kept, by omega, rfl⟩
  · exact ⟨[], inners, ⟨rfl, base, all⟩, le_rfl, rfl⟩

end Iteration

section Results

variable {word : WordSize} {Base OuterIndex Inner InnerIndex Element : Type}
  {BaseIterator InnerIterator : Type}

/--
Of any collection of collections, in every arrangement of empty ones, the concatenation is
walked by index and iterated as the inner lists behind one another. Its indices increase,
and every other operation moves as many of them as single steps do. The base and the inner
collections are never used outside their bounds, where they may have no result.
-/
theorem joined_concatenates {backward : Prop}
    {outer : BidirectionalCollection word Base OuterIndex Inner}
    {inner : BidirectionalCollection word Inner InnerIndex Element} {_base : Base}
    {inners : List Inner} {outerIndex : ℕ → OuterIndex} (list : Inner → List Element)
    {innerIndex : Inner → ℕ → InnerIndex} {fuel : ℕ}
    {nextBase : BaseIterator → Option (Option (Inner × BaseIterator))}
    {makeIterator : Inner → InnerIterator}
    {nextInner : InnerIterator → Option (Option (Element × InnerIterator))}
    {iterator : BaseIterator}
    (outers : Traversed backward Negatable outer _base inners outerIndex)
    (traversed : ∀ innerCollection ∈ inners,
      Traversed backward Negatable inner innerCollection (list innerCollection)
        (innerIndex innerCollection))
    (base : Delivers nextBase iterator inners)
    (all : ∀ innerCollection ∈ inners,
      Delivers nextInner (makeIterator innerCollection) (list innerCollection))
    (enough : inners.length + (inners.flatMap list).length < fuel) :
    Traversed backward (fun _ => True) (collection outer inner fuel) _base (inners.flatMap list)
        (place inners list outerIndex innerIndex) ∧
      (∃ start, (collection outer inner fuel).startIndex _base = some start ∧
        Delivers ((collection outer inner fuel).walk _base) start (inners.flatMap list)) ∧
      (backward → ∀ i < (inners.flatMap list).length,
        ((collection outer inner fuel).indexAfter _base
            (place inners list outerIndex innerIndex i)).bind
          ((collection outer inner fuel).indexBefore _base) =
            some (place inners list outerIndex innerIndex i)) ∧
      Delivers (Iterator.next nextBase makeIterator nextInner fuel) ⟨iterator, none⟩
        (inners.flatMap list) := by
  have joined := collection_traversed outers traversed enough
  refine ⟨joined, joined.delivers, ?_, Iterator.delivers base all (by omega)⟩
  intro back i inside
  exact joined.before_after back inside

/-- Empty lists before, between and behind two others. -/
theorem joined_concatenates_with_empties :
    let inners : List (List ℕ) := [[], [1, 2], [], [], [3], []]
    let word := WordSize.word16
    Traversed True (fun _ => True) (collection (boundedList word) (boundedList word) 10) inners
        [1, 2, 3] (place inners id id fun _ => id) ∧
      (∃ start, (collection (boundedList word) (boundedList word) 10).startIndex inners =
          some start ∧
        Delivers ((collection (boundedList word) (boundedList word) 10).walk inners) start
          [1, 2, 3]) ∧
      (True → ∀ i < 3, ((collection (boundedList word) (boundedList word) 10).indexAfter inners
          (place inners id id (fun _ => id) i)).bind
        ((collection (boundedList word) (boundedList word) 10).indexBefore inners) =
          some (place inners id id (fun _ => id) i)) ∧
      Delivers (Iterator.next listNext id listNext 10) ⟨inners, none⟩ [1, 2, 3] :=
  joined_concatenates id
    ((boundedList_traversed _ _).mono id fun _ _ => trivial)
    (fun _ _ => (boundedList_traversed _ _).mono id fun _ _ => trivial)
    (delivers_list _) (fun _ _ => delivers_list _) (by decide)

end Results

end FlattenSequence

end USwift
