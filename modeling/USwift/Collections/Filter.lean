import USwift.Collections.Traversal
import USwift.Library.Blocks

/-!
# Lazily filtered collections

`LazyFilterSequence`, as a sequence and as a collection. Its indices are those of the base,
restricted to the accepted elements and `endIndex`. Stepping forwards, stepping backwards
and moving by an offset scan the base with loops of their own, which look for the bounds of
the base at different places.
-/

namespace USwift

open Iteration Positions Blocks

/-- A sequence of the elements of another one that a predicate accepts. -/
structure LazyFilterSequence (Base Element : Type) where
  _base : Base
  _predicate : Element → Bool

namespace LazyFilterSequence

section Operations

/-- `filter(_:)` of a filtered sequence, which filters its base once. -/
def filter {Base Element : Type} (self : LazyFilterSequence Base Element)
    (isIncluded : Element → Bool) : LazyFilterSequence Base Element where
  _base := self._base
  _predicate element := isIncluded element && self._predicate element

/--
`next()` of the iterator, which has the fields of the sequence. Its loop is run for at most a
number of rounds.
-/
def Iterator.next {BaseIterator Element : Type}
    (nextBase : BaseIterator → Option (Option (Element × BaseIterator))) :
    ℕ → LazyFilterSequence BaseIterator Element →
      Option (Option (Element × LazyFilterSequence BaseIterator Element))
  | 0, _ => none
  | fuel + 1, self => do
      match ← nextBase self._base with
      | none => return none
      | some (n, _base) =>
          let self := { self with _base := _base }
          if self._predicate n then return some (n, self) else Iterator.next nextBase fuel self

/-- `makeIterator()`. -/
def makeIterator {Base BaseIterator Element : Type} (makeBaseIterator : Base → BaseIterator)
    (self : LazyFilterSequence Base Element) : LazyFilterSequence BaseIterator Element :=
  ⟨makeBaseIterator self._base, self._predicate⟩

variable {word : WordSize} {Base Index Element : Type}
  (base : BidirectionalCollection word Base Index Element)
  (self : LazyFilterSequence Base Element)

/-- The loop of `startIndex`, which tests an index before it moves it. -/
def skipRejected : ℕ → Index → Option Index
  | 0, _ => none
  | fuel + 1, index => do
      let _end ← base.endIndex self._base
      if base.equal index _end then return index
      else
        let element ← base.subscript self._base index
        if self._predicate element then return index
        else
          let later ← base.indexAfter self._base index
          skipRejected fuel later

/-- The loop of `formIndex(after:)` and of `_advanceIndex`, which moves an index first. -/
def scan (move : Index → Option Index) : ℕ → Index → Option Index
  | 0, _ => none
  | fuel + 1, index => do
      let index ← move index
      let _end ← base.endIndex self._base
      if base.equal index _end then return index
      else
        let element ← base.subscript self._base index
        if self._predicate element then return index else scan move fuel index

/-- The loop of `formIndex(before:)`, which does not look for a bound of the base. -/
def scanBack : ℕ → Index → Option Index
  | 0, _ => none
  | fuel + 1, index => do
      let index ← base.indexBefore self._base index
      let element ← base.subscript self._base index
      if self._predicate element then return index else scanBack fuel index

variable (fuel : ℕ)

/-- `startIndex`. -/
def startIndex : Option Index := do
  let index ← base.startIndex self._base
  skipRejected base self fuel index

/-- `endIndex`. -/
def endIndex : Option Index :=
  base.endIndex self._base

/-- `formIndex(after:)`, whose check of the index has no effect. -/
def formIndexAfter (i : Index) : Option Index :=
  scan base self (base.indexAfter self._base) fuel i

/-- `formIndex(before:)`, whose check of the index has no effect. -/
def formIndexBefore (i : Index) : Option Index :=
  scanBack base self fuel i

/-- `_advanceIndex(_:step:)`. -/
def _advanceIndex (step : Value word .int) (i : Index) : Option Index :=
  scan base self (fun i => base.indexOffsetBy self._base i step) fuel i

/-- `_ensureBidirectional(step:)`. -/
def _ensureBidirectional (step : Value word .int) : Option Unit := do
  if less word .int step 0 then
    let _end ← base.endIndex self._base
    let start ← base.startIndex self._base
    let _ ← base.indexLimited self._base _end step start

/-- `distance(from:to:)`. -/
def distance (start _end : Index) : Option (Value word .int) := do
  let _ ← base.distance self._base start _end
  stepDistance base.equal base.less (formIndexAfter base self fuel) fuel start _end

/-- `index(_:offsetBy:)`. -/
def indexOffsetBy (i : Index) (n : Value word .int) : Option Index := do
  let step := signum word .int n
  _ensureBidirectional base self step
  repeatSteps (_advanceIndex base self fuel step) fuel (rounds (abs (numericCast n))) i

/-- `index(_:offsetBy:limitedBy:)`. -/
def indexLimited (i : Index) (n : Value word .int) (limit : Index) : Option (Option Index) := do
  let step := signum word .int n
  _ensureBidirectional base self step
  repeatLimited base.equal (_advanceIndex base self fuel step) limit fuel
    (rounds (abs (numericCast n))) i

/-- The collection of the accepted elements, with a bound on the rounds of its loops. -/
def collection (base : BidirectionalCollection word Base Index Element) (fuel : ℕ) :
    BidirectionalCollection word (LazyFilterSequence Base Element) Index Element where
  startIndex self := startIndex base self fuel
  endIndex self := endIndex base self
  indexAfter self := formIndexAfter base self fuel
  indexBefore self := formIndexBefore base self fuel
  indexOffsetBy self := indexOffsetBy base self fuel
  indexLimited self := indexLimited base self fuel
  distance self := distance base self fuel
  subscript self := base.subscript self._base
  equal := base.equal
  less := base.less

end Operations

section Locations

variable {Element : Type} (predicate : Element → Bool) (list : List Element)

/-- An element of the base is accepted, and is preceded by a number of accepted ones. -/
structure Accepted (location : ℕ) (element : Element) (position : ℕ) : Prop where
  found : list[location]? = some element
  holds : predicate element = true
  position : position = start (kept predicate list) location

/-- Where the accepted element with a position is in the base, or the end of the base. -/
def location (position : ℕ) : ℕ :=
  (locate (kept predicate list) position).1

variable {predicate list} {location position : ℕ} {element : Element}

theorem length_kept (predicate : Element → Bool) (list : List Element) :
    (kept predicate list).length = list.length :=
  List.length_map _

theorem getD_kept (found : list[location]? = some element) :
    (kept predicate list).getD location 0 = if predicate element then 1 else 0 := by
  cases holds : predicate element <;> simp [kept, List.getD_eq_getElem?_getD, found, holds]

theorem start_accepted (found : list[location]? = some element)
    (holds : predicate element = true) :
    start (kept predicate list) (location + 1) = start (kept predicate list) location + 1 := by
  rw [start_succ, getD_kept found, if_pos holds]

theorem start_rejected (found : list[location]? = some element)
    (fails : ¬ predicate element = true) :
    start (kept predicate list) (location + 1) = start (kept predicate list) location := by
  rw [start_succ, getD_kept found, if_neg fails, Nat.add_zero]

theorem Accepted.within (accepted : Accepted predicate list location element position) :
    Within (kept predicate list) location 0 position := by
  refine ⟨?_, accepted.position⟩
  rw [getD_kept accepted.found, if_pos accepted.holds]
  exact Nat.one_pos

theorem Accepted.location_eq (accepted : Accepted predicate list location element position) :
    LazyFilterSequence.location predicate list position = location := by
  rw [LazyFilterSequence.location, accepted.within.locate_eq]

theorem exists_accepted (below : position < (list.filter predicate).length) :
    ∃ location element, Accepted predicate list location element position := by
  rw [length_filter_eq] at below
  have within := locate_within below
  have inside := within.block_lt
  rw [length_kept] at inside
  have found := List.getElem?_eq_getElem inside
  have size := within.inside
  have place := within.position
  rw [getD_kept found] at size
  by_cases holds : predicate list[(locate (kept predicate list) position).1] = true
  · rw [if_pos holds] at size
    exact ⟨_, _, found, holds, by omega⟩
  · rw [if_neg holds] at size
    omega

theorem location_end : LazyFilterSequence.location predicate list (list.filter predicate).length =
    list.length := by
  rw [LazyFilterSequence.location, length_filter_eq, locate_sum, length_kept]

theorem start_location (inside : position ≤ (list.filter predicate).length) :
    start (kept predicate list) (LazyFilterSequence.location predicate list position) =
      position := by
  rcases Nat.lt_or_eq_of_le inside with below | rfl
  · rcases exists_accepted below with ⟨location, element, accepted⟩
    rw [accepted.location_eq, accepted.position]
  · rw [location_end, ← length_kept predicate, start_length, length_filter_eq]

theorem location_le (inside : position ≤ (list.filter predicate).length) :
    LazyFilterSequence.location predicate list position ≤ list.length := by
  rcases Nat.lt_or_eq_of_le inside with below | rfl
  · rcases exists_accepted below with ⟨location, element, accepted⟩
    rcases List.getElem?_eq_some_iff.mp accepted.found with ⟨location_lt, _⟩
    rw [accepted.location_eq]
    exact location_lt.le
  · exact location_end.le

/-- The accepted elements are in the order of their positions. -/
theorem location_lt_iff {i j : ℕ} (i_le : i ≤ (list.filter predicate).length)
    (j_le : j ≤ (list.filter predicate).length) :
    LazyFilterSequence.location predicate list i < LazyFilterSequence.location predicate list j ↔
      i < j := by
  have ordered {i j : ℕ} (i_le : i ≤ (list.filter predicate).length)
      (j_le : j ≤ (list.filter predicate).length) (less : i < j) :
      LazyFilterSequence.location predicate list i <
        LazyFilterSequence.location predicate list j := by
    by_contra reversed
    have starts : start (kept predicate list) _ ≤ start (kept predicate list) _ :=
      start_mono (not_lt.mp reversed)
    rw [start_location i_le, start_location j_le] at starts
    omega
  constructor
  · intro less
    by_contra reversed
    rcases Nat.lt_or_eq_of_le (not_lt.mp reversed) with greater | rfl
    · have other := ordered j_le i_le greater
      omega
    · omega
  · exact ordered i_le j_le

theorem location_inj {i j : ℕ} (i_le : i ≤ (list.filter predicate).length)
    (j_le : j ≤ (list.filter predicate).length) :
    LazyFilterSequence.location predicate list i = LazyFilterSequence.location predicate list j ↔
      i = j := by
  have less := location_lt_iff i_le j_le
  have greater := location_lt_iff j_le i_le
  omega

theorem Accepted.getElem? (accepted : Accepted predicate list location element position) :
    (list.filter predicate)[position]? = some element := by
  rw [filter_eq_flatMap, accepted.within.getElem?_flatMap, accepted.found]
  simp [accepted.holds]

end Locations

section Indices

variable {word : WordSize} {Base Index Element : Type}
  {base : BidirectionalCollection word Base Index Element} {backward : Prop}
  {self : LazyFilterSequence Base Element} {list : List Element} {index : ℕ → Index}
  {fuel position spot : ℕ} (traversed : Traversed backward Negatable base self._base list index)

include traversed

/-- Where a scan stops, which is an accepted element or the end. -/
theorem skipRejected_eq (spot_le : spot ≤ list.length) (enough : list.length - spot < fuel) :
    skipRejected base self fuel (index spot) =
      some (index (location self._predicate list (start (kept self._predicate list) spot))) := by
  induction fuel generalizing spot with
  | zero => omega
  | succ fuel later =>
      rw [skipRejected, traversed.endIndex]
      simp only [Option.bind_eq_bind, Option.bind_some, Option.pure_def]
      by_cases ended : spot = list.length
      · have total := start_length (kept self._predicate list)
        rw [length_kept, ← length_filter_eq] at total
        rw [if_pos ((traversed.equal spot_le le_rfl).mpr ended), ended, total, location_end]
      · have before : spot < list.length := by omega
        have found := List.getElem?_eq_getElem before
        rw [if_neg ((traversed.equal spot_le le_rfl).not.mpr ended), traversed.subscript before]
        simp only [Option.bind_some]
        by_cases holds : self._predicate list[spot] = true
        · have accepted : Accepted self._predicate list spot list[spot] _ := ⟨found, holds, rfl⟩
          rw [if_pos holds, accepted.location_eq]
        · have bounded : list.length - (spot + 1) < fuel := by omega
          rw [if_neg holds, traversed.indexAfter before, Option.bind_some, later before bounded,
            start_rejected found holds]

theorem scan_eq {move : Index → Option Index}
    (moves : ∀ {i : ℕ}, i < list.length → move (index i) = some (index (i + 1)))
    (spot_lt : spot < list.length) (enough : list.length - spot < fuel) :
    scan base self move fuel (index spot) =
      some (index
        (location self._predicate list (start (kept self._predicate list) (spot + 1)))) := by
  induction fuel generalizing spot with
  | zero => omega
  | succ fuel later =>
      rw [scan, moves spot_lt, traversed.endIndex]
      simp only [Option.bind_eq_bind, Option.bind_some, Option.pure_def]
      by_cases ended : spot + 1 = list.length
      · have total := start_length (kept self._predicate list)
        rw [length_kept, ← length_filter_eq] at total
        rw [if_pos ((traversed.equal spot_lt le_rfl).mpr ended), ended, total, location_end]
      · have before : spot + 1 < list.length := by omega
        have found := List.getElem?_eq_getElem before
        rw [if_neg ((traversed.equal before.le le_rfl).not.mpr ended), traversed.subscript before]
        simp only [Option.bind_some]
        by_cases holds : self._predicate list[spot + 1] = true
        · have accepted : Accepted self._predicate list (spot + 1) list[spot + 1] _ :=
            ⟨found, holds, rfl⟩
          rw [if_pos holds, accepted.location_eq]
        · have bounded : list.length - (spot + 1) < fuel := by omega
          rw [if_neg holds, later before bounded, start_rejected found holds]

/-- Scanning backwards by a single offset is scanning backwards by single steps. -/
theorem scan_back_eq (back : backward) (spot_le : spot ≤ list.length)
    (behind : start (kept self._predicate list) spot = position + 1) (enough : spot < fuel) :
    scan base self (fun i => base.indexOffsetBy self._base i (-1)) fuel (index spot) =
        some (index (location self._predicate list position)) ∧
      scanBack base self fuel (index spot) =
        some (index (location self._predicate list position)) := by
  induction fuel generalizing spot with
  | zero => omega
  | succ fuel earlier =>
      cases spot with
      | zero =>
          rw [start_zero] at behind
          omega
      | succ spot =>
          have before : spot < list.length := by omega
          have found := List.getElem?_eq_getElem before
          rw [scan, traversed.offset_neg_one back (negatable_neg_one word) before, scanBack,
            traversed.indexBefore back before, traversed.endIndex]
          simp only [Option.bind_eq_bind, Option.bind_some, Option.pure_def,
            traversed.subscript before]
          rw [if_neg ((traversed.equal before.le le_rfl).not.mpr before.ne)]
          by_cases holds : self._predicate list[spot] = true
          · rw [start_accepted found holds] at behind
            have accepted : Accepted self._predicate list spot list[spot] position :=
              ⟨found, holds, by omega⟩
            rw [if_pos holds, if_pos holds, accepted.location_eq]
            exact ⟨rfl, rfl⟩
          · rw [start_rejected found holds] at behind
            rw [if_neg holds, if_neg holds]
            exact earlier before.le behind (by omega)

theorem startIndex_eq (enough : list.length < fuel) :
    startIndex base self fuel = some (index (location self._predicate list 0)) := by
  have bounded : list.length - 0 < fuel := by omega
  have skipped := skipRejected_eq traversed (Nat.zero_le list.length) bounded
  rw [start_zero] at skipped
  rw [startIndex, traversed.startIndex]
  exact skipped

theorem scan_location {move : Index → Option Index}
    (moves : ∀ {i : ℕ}, i < list.length → move (index i) = some (index (i + 1)))
    (below : position < (list.filter self._predicate).length) (enough : list.length < fuel) :
    scan base self move fuel (index (location self._predicate list position)) =
      some (index (location self._predicate list (position + 1))) := by
  rcases exists_accepted below with ⟨spot, element, accepted⟩
  rcases List.getElem?_eq_some_iff.mp accepted.found with ⟨inside, _⟩
  have bounded : list.length - spot < fuel := by omega
  rw [accepted.location_eq, scan_eq traversed moves inside bounded,
    start_accepted accepted.found accepted.holds, accepted.position]

theorem formIndexAfter_eq (below : position < (list.filter self._predicate).length)
    (enough : list.length < fuel) :
    formIndexAfter base self fuel (index (location self._predicate list position)) =
      some (index (location self._predicate list (position + 1))) :=
  scan_location traversed traversed.indexAfter below enough

theorem scan_back_location (back : backward)
    (below : position < (list.filter self._predicate).length) (enough : list.length < fuel) :
    scan base self (fun i => base.indexOffsetBy self._base i (-1)) fuel
          (index (location self._predicate list (position + 1))) =
        some (index (location self._predicate list position)) ∧
      scanBack base self fuel (index (location self._predicate list (position + 1))) =
        some (index (location self._predicate list position)) := by
  have following : position + 1 ≤ (list.filter self._predicate).length := below
  have inside := location_le following
  exact scan_back_eq traversed back inside (start_location below) (by omega)

theorem advanceIndex_one (below : position < (list.filter self._predicate).length)
    (enough : list.length < fuel) :
    _advanceIndex base self fuel 1 (index (location self._predicate list position)) =
      some (index (location self._predicate list (position + 1))) := by
  refine scan_location traversed ?_ below enough
  intro i inside
  apply traversed.indexOffsetBy inside.le (by omega) (negatable_one word)
  · left
    rw [toInt_one_int]
    decide
  · rw [toInt_one_int]
    rfl

theorem ensureBidirectional_eq {n : Value word .int} (way : 0 ≤ toInt word .int n ∨ backward) :
    _ensureBidirectional base self (signum word .int n) = some () := by
  rw [_ensureBidirectional]
  by_cases negative : toInt word .int n < 0
  · rcases traversed.limited_back (way.resolve_left (by omega)) (negatable_neg_one word) with
      ⟨result, limited⟩
    rw [if_pos ((less_signum n).mpr negative), signum_of_neg negative, traversed.endIndex,
      traversed.startIndex]
    simp only [Option.bind_eq_bind, Option.bind_some, limited]
    rfl
  · rw [if_neg ((less_signum n).not.mpr negative)]
    rfl

omit traversed in
/-- A filtered collection has the accepted elements in their order. -/
theorem collection_traversed (self : LazyFilterSequence Base Element)
    (traversed : Traversed backward Negatable base self._base list index)
    (enough : list.length < fuel) :
    Traversed backward (fun _ => True) (collection base fuel) self (list.filter self._predicate)
      fun position => index (location self._predicate list position) := by
  have positions : (list.filter self._predicate).length < fuel :=
    (List.length_filter_le _ _).trans_lt enough
  have equal_iff {i j : ℕ} (i_le : i ≤ (list.filter self._predicate).length)
      (j_le : j ≤ (list.filter self._predicate).length) :
      base.equal (index (location self._predicate list i))
        (index (location self._predicate list j)) = true ↔ i = j := by
    rw [traversed.equal (location_le i_le) (location_le j_le), location_inj i_le j_le]
  have less_iff {i j : ℕ} (i_le : i ≤ (list.filter self._predicate).length)
      (j_le : j ≤ (list.filter self._predicate).length) :
      base.less (index (location self._predicate list i))
        (index (location self._predicate list j)) = true ↔ i < j := by
    rw [traversed.less (location_le i_le) (location_le j_le), location_lt_iff i_le j_le]
  have advances : Advances backward (list.filter self._predicate).length
      (fun position => index (location self._predicate list position)) base.equal
      (_advanceIndex base self fuel) :=
    ⟨fun inside => advanceIndex_one traversed inside enough,
      fun back _ inside => (scan_back_location traversed back inside enough).1, equal_iff⟩
  constructor
  · exact startIndex_eq traversed enough
  · change base.endIndex self._base = _
    rw [location_end]
    exact traversed.endIndex
  · intro i j i_le j_le
    exact equal_iff i_le j_le
  · intro i j i_le j_le
    exact less_iff i_le j_le
  · intro i below
    rcases exists_accepted below with ⟨spot, element, accepted⟩
    rcases List.getElem?_eq_some_iff.mp accepted.found with ⟨inside, found⟩
    have same := accepted.getElem?
    rw [List.getElem?_eq_getElem below, Option.some_inj] at same
    change base.subscript self._base _ = _
    rw [accepted.location_eq, traversed.subscript inside, found, same]
  · intro i below
    exact formIndexAfter_eq traversed below enough
  · intro back i below
    exact (scan_back_location traversed back below enough).2
  · intro i j i_le j_le way
    have counted := stepDistance_eq word equal_iff less_iff
      (fun below => formIndexAfter_eq traversed below enough) i_le j_le positions
    have ordered : location self._predicate list i ≤ location self._predicate list j ∨
        backward := by
      refine way.imp_left fun before => ?_
      rw [← not_lt, location_lt_iff j_le i_le]
      exact not_lt.mpr before
    change distance base self fuel _ _ = _
    rw [distance, traversed.distance (location_le i_le) (location_le j_le) ordered]
    exact counted
  · intro i j n i_le j_le _ way apart
    have moved := advances.repeatSteps_eq i_le j_le way apart positions
    change indexOffsetBy base self fuel _ _ = _
    rw [indexOffsetBy, ensureBidirectional_eq traversed way, numericCast_eq]
    exact moved
  · intro i limit n i_le limit_le _ way meets
    have limited := advances.repeatLimited_met i_le limit_le way meets positions
    change indexLimited base self fuel _ _ _ = _
    rw [indexLimited, ensureBidirectional_eq traversed way, numericCast_eq]
    exact limited
  · intro i j limit n i_le j_le limit_le _ way clear apart
    have limited := advances.repeatLimited_unmet i_le j_le limit_le way clear apart positions
    change indexLimited base self fuel _ _ _ = _
    rw [indexLimited, ensureBidirectional_eq traversed way, numericCast_eq]
    exact limited

end Indices

section Iteration

variable {BaseIterator Element : Type}
  {nextBase : BaseIterator → Option (Option (Element × BaseIterator))}

/-- `next()` skips the rejected elements. -/
theorem Iterator.next_eq {self : LazyFilterSequence BaseIterator Element} {elements : List Element}
    {fuel : ℕ} (delivers : Delivers nextBase self._base elements)
    (enough : elements.length < fuel) :
    elements.filter self._predicate = [] ∧ Iterator.next nextBase fuel self = some none ∨
      ∃ element rest _base, elements.filter self._predicate =
          element :: rest.filter self._predicate ∧
        Iterator.next nextBase fuel self = some (some (element, { self with _base := _base })) ∧
        Delivers nextBase _base rest ∧ rest.length < elements.length := by
  induction elements generalizing self fuel with
  | nil =>
      rcases Nat.exists_eq_add_of_lt enough with ⟨more, rfl⟩
      have ended : nextBase self._base = some none := delivers
      left
      rw [Iterator.next, ended]
      exact ⟨rfl, rfl⟩
  | cons element elements shorter =>
      rcases Nat.exists_eq_add_of_lt enough with ⟨more, rfl⟩
      rcases delivers with ⟨_base, advanced, rest⟩
      rw [Iterator.next, advanced]
      simp only [Option.bind_eq_bind, Option.bind_some, Option.pure_def]
      by_cases holds : self._predicate element = true
      · right
        rw [if_pos holds, List.filter_cons_of_pos holds]
        exact ⟨element, elements, _base, rfl, rfl, rest, by simp⟩
      · rw [if_neg holds, List.filter_cons_of_neg holds, List.length_cons]
        have remaining : Delivers nextBase ({ self with _base := _base } :
          LazyFilterSequence BaseIterator Element)._base elements := rest
        have bounded : elements.length < elements.length + 1 + more := by omega
        rcases shorter remaining bounded with
          ended | ⟨other, others, later, shape, found, left, fewer⟩
        · exact Or.inl ended
        · exact Or.inr ⟨other, others, later, shape, found, left, by omega⟩

/-- Iterating a filtered sequence delivers the accepted elements. -/
theorem Iterator.delivers (self : LazyFilterSequence BaseIterator Element)
    {elements : List Element} {fuel : ℕ} (delivers : Delivers nextBase self._base elements)
    (enough : elements.length < fuel) :
    Delivers (Iterator.next nextBase fuel) self (elements.filter self._predicate) := by
  apply Delivers.of_invariant fun later remaining => ∃ left,
    later._predicate = self._predicate ∧ Delivers nextBase later._base left ∧
      left.length ≤ elements.length ∧ remaining = left.filter self._predicate
  · rintro later ⟨left, same, base, fewer, shape⟩
    rcases Iterator.next_eq base (by omega : left.length < fuel) with
      ⟨_, ended⟩ | ⟨element, rest, _base, filled, _⟩
    · exact ended
    · rw [same, ← shape] at filled
      cases filled
  · rintro later element remaining ⟨left, same, base, fewer, shape⟩
    rcases Iterator.next_eq base (by omega : left.length < fuel) with
      ⟨empty, _⟩ | ⟨first, rest, _base, filled, advanced, kept, smaller⟩
    · rw [same, ← shape] at empty
      cases empty
    · rw [same, ← shape, List.cons.injEq] at filled
      rcases filled with ⟨rfl, rfl⟩
      exact ⟨_, advanced, rest, same, kept, by omega, rfl⟩
  · exact ⟨elements, rfl, delivers, le_rfl, rfl⟩

end Iteration

section Results

variable {word : WordSize} {Base BaseIterator Index Element : Type}

/--
Of any base collection and any predicate, the filtered collection is walked by index and
iterated as the accepted elements. Its operations move as many of its indices as single
steps do, and never use the base outside its bounds, where it may have no result. Filtering
it again is filtering the base by both predicates, whether its own filter is called or it is
filtered like any other sequence.
-/
theorem lazyFilter_accepts {backward : Prop}
    {base : BidirectionalCollection word Base Index Element}
    {self : LazyFilterSequence Base Element} {list : List Element} {index : ℕ → Index}
    {nextBase : BaseIterator → Option (Option (Element × BaseIterator))}
    {makeBaseIterator : Base → BaseIterator} {fuel : ℕ}
    (traversed : Traversed backward Negatable base self._base list index)
    (delivers : Delivers nextBase (makeBaseIterator self._base) list)
    (enough : list.length < fuel) (isIncluded : Element → Bool) :
    Traversed backward (fun _ => True) (collection base fuel) self (list.filter self._predicate)
        (fun position => index (location self._predicate list position)) ∧
      (∃ start, (collection base fuel).startIndex self = some start ∧
        Delivers ((collection base fuel).walk self) start (list.filter self._predicate)) ∧
      (backward → ∀ i < (list.filter self._predicate).length,
        ((collection base fuel).indexAfter self (index (location self._predicate list i))).bind
            ((collection base fuel).indexBefore self) =
          some (index (location self._predicate list i))) ∧
      Delivers (Iterator.next nextBase fuel) (self.makeIterator makeBaseIterator)
        (list.filter self._predicate) ∧
      Delivers (Iterator.next nextBase fuel)
        ((self.filter isIncluded).makeIterator makeBaseIterator)
        (list.filter fun element => isIncluded element && self._predicate element) ∧
      Delivers (Iterator.next (Iterator.next nextBase fuel) fuel)
        (makeIterator (makeIterator makeBaseIterator) ⟨self, isIncluded⟩)
        (list.filter fun element => isIncluded element && self._predicate element) ∧
      Traversed backward (fun _ => True) (collection base fuel) (self.filter isIncluded)
        (list.filter fun element => isIncluded element && self._predicate element)
        (fun position => index
          (location (fun element => isIncluded element && self._predicate element) list
            position)) := by
  have filtered := collection_traversed self traversed enough
  have fewer : (list.filter self._predicate).length < fuel :=
    (List.length_filter_le _ _).trans_lt enough
  have iterated : Delivers (Iterator.next nextBase fuel) (self.makeIterator makeBaseIterator)
      (list.filter self._predicate) := Iterator.delivers _ delivers enough
  refine ⟨filtered, filtered.delivers, ?_, iterated, ?_, ?_, ?_⟩
  · intro back i inside
    exact filtered.before_after back inside
  · exact Iterator.delivers ((self.filter isIncluded).makeIterator makeBaseIterator) delivers enough
  · rw [← List.filter_filter]
    exact Iterator.delivers (makeIterator (makeIterator makeBaseIterator) ⟨self, isIncluded⟩)
      iterated fewer
  · exact collection_traversed (self.filter isIncluded) traversed enough

/-- Of six numbers, those that are even, and those that are even and above two. -/
theorem lazyFilter_accepts_even :
    let word := WordSize.word16
    let list := [1, 2, 3, 4, 5, 6]
    let self : LazyFilterSequence (List ℕ) ℕ := ⟨list, fun element => element % 2 == 0⟩
    Traversed True (fun _ => True) (collection (boundedList word) 7) self [2, 4, 6]
        (fun position => location self._predicate list position) ∧
      (∃ start, (collection (boundedList word) 7).startIndex self = some start ∧
        Delivers ((collection (boundedList word) 7).walk self) start [2, 4, 6]) ∧
      (True → ∀ i < 3, ((collection (boundedList word) 7).indexAfter self
          (location self._predicate list i)).bind
            ((collection (boundedList word) 7).indexBefore self) =
          some (location self._predicate list i)) ∧
      Delivers (Iterator.next listNext 7) (self.makeIterator id) [2, 4, 6] ∧
      Delivers (Iterator.next listNext 7) ((self.filter (2 < ·)).makeIterator id) [4, 6] ∧
      Delivers (Iterator.next (Iterator.next listNext 7) 7)
        (makeIterator (makeIterator id) ⟨self, (2 < ·)⟩) [4, 6] ∧
      Traversed True (fun _ => True) (collection (boundedList word) 7) (self.filter (2 < ·)) [4, 6]
        (fun position => location (fun element => decide (2 < element) && element % 2 == 0) list
          position) :=
  lazyFilter_accepts ((boundedList_traversed _ _).mono id fun _ _ => trivial) (delivers_list _)
    (by decide) (2 < ·)

end Results

end LazyFilterSequence

end USwift
