import USwift.Collections.IndexLimits
import USwift.Integer.Random

/-!
# Collections that are traversed

What a bidirectional collection supplies to the collections that wrap it: the first and
the last index, single steps, moves by an offset and up to a limit, distances, elements
and the comparisons of indices. An operation may have no result, where it traps, reads
outside the collection or is not over within a bound on its rounds, so that a wrapper
that is used within its bounds shows that it uses its base within them. The wrappers
share the loops at the end, which count and repeat single steps.
-/

namespace USwift

open Iteration Positions

/-- What a bidirectional collection supplies. -/
structure BidirectionalCollection (word : WordSize) (Elements Index Element : Type) where
  startIndex : Elements → Option Index
  endIndex : Elements → Option Index
  indexAfter : Elements → Index → Option Index
  indexBefore : Elements → Index → Option Index
  indexOffsetBy : Elements → Index → Value word .int → Option Index
  indexLimited : Elements → Index → Value word .int → Index → Option (Option Index)
  distance : Elements → Index → Index → Option (Value word .int)
  subscript : Elements → Index → Option Element
  equal : Index → Index → Bool
  less : Index → Index → Bool

section Operations

variable {word : WordSize} {Elements Index Element : Type}

namespace BidirectionalCollection

variable (collection : BidirectionalCollection word Elements Index Element)

/-- `isEmpty`. -/
def isEmpty (elements : Elements) : Option Bool := do
  let start ← collection.startIndex elements
  let _end ← collection.endIndex elements
  return collection.equal start _end

/-- One round of a walk from an index to `endIndex` with `index(after:)`. -/
def walk (elements : Elements) (position : Index) : Option (Option (Element × Index)) := do
  let _end ← collection.endIndex elements
  if collection.equal position _end then
    return none
  else
    let element ← collection.subscript elements position
    let later ← collection.indexAfter elements position
    return some (element, later)

end BidirectionalCollection

/-- `abs(_:)` of an `Int`. -/
def abs (x : Value word .int) : Value word .int :=
  if less word .int x 0 then 0 - x else x

/-- The loop of `distance(from:to:)`, for at most a number of rounds. -/
def countSteps (equal : Index → Index → Bool) (formIndexAfter : Index → Option Index)
    (_end : Index) (step : Value word .int) :
    ℕ → Index → Value word .int → Option (Value word .int)
  | 0, _, _ => none
  | fuel + 1, _start, count =>
      if equal _start _end then some count
      else do
        let later ← formIndexAfter _start
        countSteps equal formIndexAfter _end step fuel later (count + step)

/-- `distance(from:to:)`, which counts from the smaller of two indices to the greater one. -/
def stepDistance (equal less : Index → Index → Bool) (formIndexAfter : Index → Option Index)
    (fuel : ℕ) (start _end : Index) : Option (Value word .int) :=
  if less _end start then countSteps equal formIndexAfter start (-1) fuel _end 0
  else countSteps equal formIndexAfter _end 1 fuel start 0

/-- The loop of `index(_:offsetBy:)` over a range, for at most a number of rounds. -/
def repeatSteps (_advanceIndex : Index → Option Index) :
    ℕ → IndexingIterator (Range (Value word .int)) (Value word .int) → Index → Option Index
  | 0, _, _ => none
  | fuel + 1, rounds, i =>
      match rounds.next (Range.collection word .int) with
      | none => some i
      | some (_, later) => do
          let i ← _advanceIndex i
          repeatSteps _advanceIndex fuel later i

/-- The loop of `index(_:offsetBy:limitedBy:)`, which looks for the limit before each round. -/
def repeatLimited (equal : Index → Index → Bool) (_advanceIndex : Index → Option Index)
    (limit : Index) :
    ℕ → IndexingIterator (Range (Value word .int)) (Value word .int) → Index →
      Option (Option Index)
  | 0, _, _ => none
  | fuel + 1, rounds, i =>
      match rounds.next (Range.collection word .int) with
      | none => some (some i)
      | some (_, later) =>
          if equal i limit then some none
          else do
            let i ← _advanceIndex i
            repeatLimited equal _advanceIndex limit fuel later i

/-- The rounds of `for _ in 0 ..< count`. -/
def rounds (count : Value word .int) :
    IndexingIterator (Range (Value word .int)) (Value word .int) :=
  .init (Range.collection word .int) (halfOpen 0 count)

/-- A list as a collection, whose operations have no result outside its bounds. -/
def boundedList (word : WordSize) : BidirectionalCollection word (List Element) ℕ Element where
  startIndex _ := some 0
  endIndex list := some list.length
  indexAfter list i := if i < list.length then some (i + 1) else none
  indexBefore list i := if 0 < i ∧ i ≤ list.length then some (i - 1) else none
  indexOffsetBy list i n :=
    if i ≤ list.length ∧ 0 ≤ i + toInt word .int n ∧ i + toInt word .int n ≤ list.length then
      some (i + toInt word .int n).toNat
    else none
  indexLimited list i n limit :=
    if if 0 < toInt word .int n then 0 ≤ (limit : ℤ) - i ∧ limit - i < toInt word .int n
      else (limit : ℤ) - i ≤ 0 ∧ toInt word .int n < limit - i then some none
    else if i ≤ list.length ∧ 0 ≤ i + toInt word .int n ∧ i + toInt word .int n ≤ list.length then
      some (some (i + toInt word .int n).toNat)
    else none
  distance list i j :=
    if i ≤ list.length ∧ j ≤ list.length then some (BitVec.ofInt _ (j - i)) else none
  subscript list i := list[i]?
  equal i j := i == j
  less i j := i < j

end Operations

variable {word : WordSize} {Elements Index Element : Type}

/--
A collection has the elements of a list, its indices number them, and its operations move
as many positions as they should. Steps and offsets backwards are asked for only where
the collection has them, and an offset only where it is permitted.
-/
structure Traversed (backward : Prop) (permitted : Value word .int → Prop)
    (collection : BidirectionalCollection word Elements Index Element) (elements : Elements)
    (list : List Element) (index : ℕ → Index) : Prop where
  startIndex : collection.startIndex elements = some (index 0)
  endIndex : collection.endIndex elements = some (index list.length)
  equal : ∀ {i j : ℕ}, i ≤ list.length → j ≤ list.length →
    (collection.equal (index i) (index j) = true ↔ i = j)
  less : ∀ {i j : ℕ}, i ≤ list.length → j ≤ list.length →
    (collection.less (index i) (index j) = true ↔ i < j)
  subscript : ∀ {i : ℕ} (inside : i < list.length),
    collection.subscript elements (index i) = some list[i]
  indexAfter : ∀ {i : ℕ}, i < list.length →
    collection.indexAfter elements (index i) = some (index (i + 1))
  indexBefore : backward → ∀ {i : ℕ}, i < list.length →
    collection.indexBefore elements (index (i + 1)) = some (index i)
  distance : ∀ {i j : ℕ}, i ≤ list.length → j ≤ list.length → i ≤ j ∨ backward →
    collection.distance elements (index i) (index j) = some (BitVec.ofInt _ ((j : ℤ) - i))
  indexOffsetBy : ∀ {i j : ℕ} {n : Value word .int}, i ≤ list.length → j ≤ list.length →
    permitted n → 0 ≤ toInt word .int n ∨ backward → (j : ℤ) = i + toInt word .int n →
    collection.indexOffsetBy elements (index i) n = some (index j)
  limited_met : ∀ {i limit : ℕ} {n : Value word .int}, i ≤ list.length →
    limit ≤ list.length → permitted n → 0 ≤ toInt word .int n ∨ backward →
    Meets i (toInt word .int n) limit →
    collection.indexLimited elements (index i) n (index limit) = some none
  limited_unmet : ∀ {i j limit : ℕ} {n : Value word .int}, i ≤ list.length →
    j ≤ list.length → limit ≤ list.length → permitted n → 0 ≤ toInt word .int n ∨ backward →
    ¬ Meets i (toInt word .int n) limit → (j : ℤ) = i + toInt word .int n →
    collection.indexLimited elements (index i) n (index limit) = some (some (index j))

/-- The offsets whose negation is an `Int`. -/
def Negatable (n : Value word .int) : Prop :=
  toInt word .int n ≠ TwosComplement.minimum true word.bits

theorem negatable_neg_one (word : WordSize) : Negatable (-1 : Value word .int) := by
  have bounds := int_bounds word
  rw [Negatable, toInt_neg_one_int]
  omega

theorem negatable_one (word : WordSize) : Negatable (1 : Value word .int) := by
  have bounds := int_bounds word
  rw [Negatable, toInt_one_int]
  omega

namespace Traversed

variable {backward : Prop} {permitted : Value word .int → Prop}
  {collection : BidirectionalCollection word Elements Index Element} {elements : Elements}
  {list : List Element} {index : ℕ → Index}

theorem mono (traversed : Traversed backward permitted collection elements list index)
    {less : Prop} {fewer : Value word .int → Prop} (directions : less → backward)
    (offsets : ∀ n, fewer n → permitted n) :
    Traversed less fewer collection elements list index where
  startIndex := traversed.startIndex
  endIndex := traversed.endIndex
  equal := traversed.equal
  less := traversed.less
  subscript := traversed.subscript
  indexAfter := traversed.indexAfter
  indexBefore back := traversed.indexBefore (directions back)
  distance i_le j_le way := traversed.distance i_le j_le (way.imp_right directions)
  indexOffsetBy i_le j_le may way :=
    traversed.indexOffsetBy i_le j_le (offsets _ may) (way.imp_right directions)
  limited_met i_le limit_le may way :=
    traversed.limited_met i_le limit_le (offsets _ may) (way.imp_right directions)
  limited_unmet i_le j_le limit_le may way :=
    traversed.limited_unmet i_le j_le limit_le (offsets _ may) (way.imp_right directions)

variable (traversed : Traversed backward permitted collection elements list index)

include traversed

theorem isEmpty : collection.isEmpty elements = some list.isEmpty := by
  have test := traversed.equal (Nat.zero_le list.length) le_rfl
  rw [BidirectionalCollection.isEmpty, traversed.startIndex, traversed.endIndex]
  simp only [Option.bind_eq_bind, Option.bind_some, Option.pure_def, Option.some_inj]
  rw [Bool.eq_iff_iff, test, List.isEmpty_iff_length_eq_zero]
  exact eq_comm

theorem walk_of_lt {i : ℕ} (inside : i < list.length) :
    collection.walk elements (index i) = some (some (list[i], index (i + 1))) := by
  have going : ¬ collection.equal (index i) (index list.length) = true := by
    rw [traversed.equal inside.le le_rfl]
    omega
  rw [BidirectionalCollection.walk, traversed.endIndex]
  simp [going, traversed.subscript inside, traversed.indexAfter inside]

theorem walk_end : collection.walk elements (index list.length) = some none := by
  have ended : collection.equal (index list.length) (index list.length) = true :=
    (traversed.equal le_rfl le_rfl).mpr rfl
  rw [BidirectionalCollection.walk, traversed.endIndex]
  simp [ended]

theorem delivers_drop {i : ℕ} (inside : i ≤ list.length) :
    Delivers (collection.walk elements) (index i) (list.drop i) := by
  induction remaining : list.length - i generalizing i with
  | zero =>
      have here : i = list.length := by omega
      rw [here, List.drop_length]
      exact traversed.walk_end
  | succ remaining shorter =>
      have before : i < list.length := by omega
      rw [List.drop_eq_getElem_cons before]
      exact ⟨index (i + 1), traversed.walk_of_lt before, shorter before (by omega)⟩

/-- Walking from the first index to the last one gives the list. -/
theorem delivers :
    ∃ start, collection.startIndex elements = some start ∧
      Delivers (collection.walk elements) start list := by
  have walked := traversed.delivers_drop (Nat.zero_le list.length)
  rw [List.drop_zero] at walked
  exact ⟨index 0, traversed.startIndex, walked⟩

/-- A single step back by an offset. -/
theorem offset_neg_one (back : backward) (may : permitted (-1)) {i : ℕ} (inside : i < list.length) :
    collection.indexOffsetBy elements (index (i + 1)) (-1) = some (index i) := by
  apply traversed.indexOffsetBy (by omega) inside.le may (Or.inr back)
  rw [toInt_neg_one_int]
  omega

/-- A single limited step back from the last index is possible, which ends in no trap. -/
theorem limited_back (back : backward) (may : permitted (-1)) :
    ∃ result, collection.indexLimited elements (index list.length) (-1) (index 0) =
      some result := by
  by_cases meets : Meets list.length (toInt word .int (-1)) (0 : ℕ)
  · exact ⟨none, traversed.limited_met le_rfl (Nat.zero_le _) may (Or.inr back) meets⟩
  · have nonempty : list.length ≠ 0 := by
      intro empty
      apply meets
      rw [empty, toInt_neg_one_int]
      exact ⟨0, by simp⟩
    refine ⟨some (index (list.length - 1)), ?_⟩
    apply traversed.limited_unmet le_rfl (by omega) (Nat.zero_le _) may (Or.inr back) meets
    rw [toInt_neg_one_int]
    omega

/-- Stepping back undoes stepping forwards. -/
theorem before_after (back : backward) {i : ℕ} (inside : i < list.length) :
    (collection.indexAfter elements (index i)).bind (collection.indexBefore elements) =
      some (index i) := by
  rw [traversed.indexAfter inside, Option.bind_some, traversed.indexBefore back inside]

end Traversed

section Loops

variable {equal less : Index → Index → Bool} {index : ℕ → Index} {size fuel : ℕ}

theorem countSteps_eq {formIndexAfter : Index → Option Index} (step : Value word .int)
    (equal_iff : ∀ {i j : ℕ}, i ≤ size → j ≤ size →
      (equal (index i) (index j) = true ↔ i = j))
    (after : ∀ {i : ℕ}, i < size → formIndexAfter (index i) = some (index (i + 1)))
    {i steps : ℕ} (inside : i + steps ≤ size) (enough : steps < fuel)
    (count : Value word .int) :
    countSteps equal formIndexAfter (index (i + steps)) step fuel (index i) count =
      some (count + BitVec.ofNat _ steps * step) := by
  induction steps generalizing i fuel count with
  | zero =>
      rcases Nat.exists_eq_add_of_lt enough with ⟨more, rfl⟩
      have ended : equal (index i) (index (i + 0)) = true :=
        (equal_iff (by omega) inside).mpr rfl
      rw [countSteps, if_pos ended]
      simp
  | succ steps shorter =>
      rcases Nat.exists_eq_add_of_lt enough with ⟨more, rfl⟩
      have going : ¬ equal (index i) (index (i + (steps + 1))) = true := by
        rw [equal_iff (by omega) inside]
        omega
      have remaining : i + 1 + steps ≤ size := by omega
      have bounded : steps < steps + 1 + more := by omega
      have further := shorter remaining bounded (count + step)
      rw [countSteps, if_neg going, after (by omega)]
      have place : i + 1 + steps = i + (steps + 1) := by omega
      rw [place] at further
      rw [Option.bind_eq_bind, Option.bind_some, further, Option.some_inj, BitVec.add_assoc,
        BitVec.ofNat_add, BitVec.add_mul, BitVec.add_comm step]
      simp

/-- Counting single steps between two indices gives the difference of their positions. -/
theorem stepDistance_eq (word : WordSize) {formIndexAfter : Index → Option Index}
    (equal_iff : ∀ {i j : ℕ}, i ≤ size → j ≤ size →
      (equal (index i) (index j) = true ↔ i = j))
    (less_iff : ∀ {i j : ℕ}, i ≤ size → j ≤ size →
      (less (index i) (index j) = true ↔ i < j))
    (after : ∀ {i : ℕ}, i < size → formIndexAfter (index i) = some (index (i + 1)))
    {i j : ℕ} (i_le : i ≤ size) (j_le : j ≤ size) (enough : size < fuel) :
    (stepDistance equal less formIndexAfter fuel (index i) (index j) :
      Option (Value word .int)) = some (BitVec.ofInt _ ((j : ℤ) - i)) := by
  rw [stepDistance]
  by_cases reversed : j < i
  · rcases Nat.exists_eq_add_of_lt reversed with ⟨more, rfl⟩
    rw [if_pos ((less_iff j_le i_le).mpr reversed)]
    have inside : j + (more + 1) ≤ size := by omega
    have bounded : more + 1 < fuel := by omega
    have counted := countSteps_eq (-1 : Value word .int) equal_iff after inside bounded 0
    rw [Nat.add_assoc, counted, Option.some_inj]
    have apart : (j : ℤ) - ((j + (more + 1) : ℕ) : ℤ) = -((more + 1 : ℕ) : ℤ) := by
      push_cast
      ring
    rw [apart, BitVec.ofInt_neg, BitVec.ofInt_natCast]
    simp
  · rcases Nat.exists_eq_add_of_le (not_lt.mp reversed) with ⟨more, rfl⟩
    rw [if_neg ((less_iff j_le i_le).not.mpr reversed)]
    have bounded : more < fuel := by omega
    have counted := countSteps_eq (1 : Value word .int) equal_iff after j_le bounded 0
    rw [counted, Option.some_inj]
    have apart : ((i + more : ℕ) : ℤ) - (i : ℤ) = (more : ℤ) := by
      push_cast
      ring
    rw [apart, BitVec.ofInt_natCast]
    simp

theorem toNat_abs (n : Value word .int) :
    BitVec.toNat (abs n) = (toInt word .int n).natAbs := by
  have integer : toInt word .int n = BitVec.toInt n := rfl
  have size := BitVec.isLt n
  rw [abs, less_zero, Bool.true_and, integer, BitVec.toInt_eq_msb_cond]
  cases sign : BitVec.msb n with
  | true =>
      have positive : BitVec.toNat n ≠ 0 := by
        intro none
        have zero : n = 0 := BitVec.eq_of_toNat_eq (none.trans (BitVec.toNat_zero).symm)
        rw [zero] at sign
        simp at sign
      have small : 2 ^ IntegerType.int.bitWidth word - BitVec.toNat n <
          2 ^ IntegerType.int.bitWidth word := by omega
      have magnitude : BitVec.toNat (0 - n : Value word .int) =
          2 ^ IntegerType.int.bitWidth word - BitVec.toNat n := by
        have negated : (0 - n : Value word .int) = -n := BitVec.zero_sub n
        rw [negated, BitVec.toNat_neg, Nat.mod_eq_of_lt small]
      simp only [if_true, magnitude]
      omega
  | false => simp

/-- A loop over a range has as many rounds as the magnitude of a number says. -/
theorem yields_rounds (n : Value word .int) :
    ∃ elements, Yields (IndexingIterator.next (Range.collection word .int)) (rounds (abs n))
      elements ∧ elements.length = (toInt word .int n).natAbs := by
  refine ⟨_, (halfOpen 0 (abs n)).yields_elements, ?_⟩
  have length : (abs n - 0 : Value word .int) = abs n := BitVec.sub_zero _
  rw [Range.elements, successors, List.length_map, List.length_range, halfOpen, length, toNat_abs]

section Rounds

variable {_advanceIndex : Index → Option Index} {limit : Index}
  {iterator : IndexingIterator (Range (Value word .int)) (Value word .int)}
  {values : List (Value word .int)} (place : ℕ → Index)

theorem repeatSteps_of_yields
    (yields : Yields (IndexingIterator.next (Range.collection word .int)) iterator values)
    (steps : ∀ k < values.length, _advanceIndex (place k) = some (place (k + 1)))
    (enough : values.length < fuel) :
    repeatSteps _advanceIndex fuel iterator (place 0) = some (place values.length) := by
  induction values generalizing fuel iterator place with
  | nil =>
      rcases Nat.exists_eq_add_of_lt enough with ⟨more, rfl⟩
      rw [repeatSteps, yields.nil_inv, List.length_nil]
  | cons value values shorter =>
      rcases Nat.exists_eq_add_of_lt enough with ⟨more, rfl⟩
      rcases yields.cons_inv with ⟨later, advanced, rest⟩
      have first := steps 0 (by simp)
      have bounded : values.length < values.length + 1 + more := by omega
      have further := shorter (fun k => place (k + 1)) rest
        (fun k k_lt => steps (k + 1) (by simpa using k_lt)) bounded
      rw [repeatSteps, advanced]
      simp only [first, Option.bind_eq_bind, Option.bind_some]
      exact further

theorem repeatLimited_of_unmet
    (yields : Yields (IndexingIterator.next (Range.collection word .int)) iterator values)
    (apart : ∀ k < values.length, equal (place k) limit = false)
    (steps : ∀ k < values.length, _advanceIndex (place k) = some (place (k + 1)))
    (enough : values.length < fuel) :
    repeatLimited equal _advanceIndex limit fuel iterator (place 0) =
      some (some (place values.length)) := by
  induction values generalizing fuel iterator place with
  | nil =>
      rcases Nat.exists_eq_add_of_lt enough with ⟨more, rfl⟩
      rw [repeatLimited, yields.nil_inv, List.length_nil]
  | cons value values shorter =>
      rcases Nat.exists_eq_add_of_lt enough with ⟨more, rfl⟩
      rcases yields.cons_inv with ⟨later, advanced, rest⟩
      have first := steps 0 (by simp)
      have before := apart 0 (by simp)
      have bounded : values.length < values.length + 1 + more := by omega
      have further := shorter (fun k => place (k + 1)) rest
        (fun k k_lt => apart (k + 1) (by simpa using k_lt))
        (fun k k_lt => steps (k + 1) (by simpa using k_lt)) bounded
      rw [repeatLimited, advanced]
      simp only [before, first, Option.bind_eq_bind, Option.bind_some]
      exact further

theorem repeatLimited_of_met {k : ℕ}
    (yields : Yields (IndexingIterator.next (Range.collection word .int)) iterator values)
    (k_lt : k < values.length) (met : equal (place k) limit = true)
    (apart : ∀ earlier < k, equal (place earlier) limit = false)
    (steps : ∀ earlier < k, _advanceIndex (place earlier) = some (place (earlier + 1)))
    (enough : k < fuel) :
    repeatLimited equal _advanceIndex limit fuel iterator (place 0) = some none := by
  induction k generalizing fuel iterator place values with
  | zero =>
      rcases Nat.exists_eq_add_of_lt enough with ⟨more, rfl⟩
      cases values with
      | nil => simp at k_lt
      | cons value values =>
          rcases yields.cons_inv with ⟨later, advanced, rest⟩
          rw [repeatLimited, advanced]
          exact if_pos met
  | succ k shorter =>
      rcases Nat.exists_eq_add_of_lt enough with ⟨more, rfl⟩
      cases values with
      | nil => simp at k_lt
      | cons value values =>
          rcases yields.cons_inv with ⟨later, advanced, rest⟩
          have first := steps 0 (by omega)
          have before := apart 0 (by omega)
          have bounded : k < k + 1 + more := by omega
          have further := shorter (fun k => place (k + 1)) rest (by simpa using k_lt) met
            (fun earlier less => apart (earlier + 1) (by omega))
            (fun earlier less => steps (earlier + 1) (by omega)) bounded
          rw [repeatLimited, advanced]
          simp only [before, first, Option.bind_eq_bind, Option.bind_some]
          exact further

end Rounds

/-- The single step in the direction of an offset, which is one of at most two steps. -/
theorem signum_cases (n : Value word .int) :
    0 < toInt word .int n ∧ signum word .int n = 1 ∨
      toInt word .int n = 0 ∧ signum word .int n = 0 ∨
      toInt word .int n < 0 ∧ signum word .int n = -1 := by
  have above : less word .int 0 n = true ↔ 0 < toInt word .int n := by
    rw [less_iff, toInt_zero]
  have below : less word .int n 0 = true ↔ toInt word .int n < 0 := by
    rw [less_iff, toInt_zero]
  rcases lt_trichotomy (toInt word .int n) 0 with negative | zero | positive
  · right
    right
    refine ⟨negative, ?_⟩
    rw [signum, if_neg (above.not.mpr (by omega)), if_pos (below.mpr negative)]
    exact BitVec.zero_sub 1
  · right
    left
    refine ⟨zero, ?_⟩
    rw [signum, if_neg (above.not.mpr (by omega)), if_neg (below.not.mpr (by omega))]
    exact BitVec.sub_zero 0
  · left
    refine ⟨positive, ?_⟩
    rw [signum, if_pos (above.mpr positive), if_neg (below.not.mpr (by omega))]
    exact BitVec.sub_zero 1

theorem signum_of_neg {n : Value word .int} (negative : toInt word .int n < 0) :
    signum word .int n = -1 := by
  rcases signum_cases n with ⟨positive, _⟩ | ⟨zero, _⟩ | ⟨_, unit⟩
  · omega
  · omega
  · exact unit

/-- The direction of an offset is looked up in its single step. -/
theorem less_signum (n : Value word .int) :
    USwift.less word .int (signum word .int n) 0 = true ↔ toInt word .int n < 0 := by
  rw [less_iff, toInt_zero]
  rcases signum_cases n with ⟨positive, unit⟩ | ⟨zero, unit⟩ | ⟨negative, unit⟩ <;> rw [unit]
  · rw [toInt_one_int]
    omega
  · rw [toInt_zero]
    omega
  · rw [toInt_neg_one_int]
    omega

section Places

variable {i j k : ℕ} {n : ℤ}

/-- The places on the way between two others. -/
theorem between_of_apart (i_le : i ≤ size) (j_le : j ≤ size) (apart : (j : ℤ) = i + n)
    (k_le : k ≤ n.natAbs) : 0 ≤ (i : ℤ) + k * n.sign ∧ (i : ℤ) + k * n.sign ≤ size := by
  have whole := Int.sign_mul_natAbs n
  rcases Int.sign_trichotomy n with unit | unit | unit <;> rw [unit] at whole ⊢ <;> omega

theorem natAbs_le_of_apart (i_le : i ≤ size) (j_le : j ≤ size) (apart : (j : ℤ) = i + n) :
    n.natAbs ≤ size := by
  omega

theorem toNat_first (i : ℕ) (n : ℤ) : ((i : ℤ) + (0 : ℕ) * n.sign).toNat = i := by
  rw [Int.natCast_zero, zero_mul, add_zero, Int.toNat_natCast]

theorem toNat_last (apart : (j : ℤ) = i + n) :
    ((i : ℤ) + (n.natAbs : ℕ) * n.sign).toNat = j := by
  rw [mul_comm, Int.sign_mul_natAbs, ← apart, Int.toNat_natCast]

end Places

/-- Indices of a collection that single steps lead along and that are told apart. -/
structure Advances (backward : Prop) (size : ℕ) (index : ℕ → Index)
    (equal : Index → Index → Bool) (_advanceIndex : Value word .int → Index → Option Index) :
    Prop where
  forwards : ∀ {i : ℕ}, i < size → _advanceIndex 1 (index i) = some (index (i + 1))
  backwards : backward → ∀ {i : ℕ}, i < size →
    _advanceIndex (-1) (index (i + 1)) = some (index i)
  equal_iff : ∀ {i j : ℕ}, i ≤ size → j ≤ size → (equal (index i) (index j) = true ↔ i = j)

section Offsets

variable {backward : Prop} {index : ℕ → Index}
  {_advanceIndex : Value word .int → Index → Option Index} {i j limit : ℕ} {n : Value word .int}

/-- The steps of a move that stays between the first and the last index. -/
theorem Advances.step (advances : Advances backward size index equal _advanceIndex)
    (way : 0 ≤ toInt word .int n ∨ backward) (i_le : i ≤ size) {k : ℕ}
    (k_lt : k < (toInt word .int n).natAbs)
    (low : 0 ≤ (i : ℤ) + (k + 1 : ℕ) * (toInt word .int n).sign)
    (high : (i : ℤ) + (k + 1 : ℕ) * (toInt word .int n).sign ≤ size) :
    _advanceIndex (signum word .int n)
        (index ((i : ℤ) + k * (toInt word .int n).sign).toNat) =
      some (index ((i : ℤ) + (k + 1 : ℕ) * (toInt word .int n).sign).toNat) := by
  rcases signum_cases n with ⟨positive, unit⟩ | ⟨zero, _⟩ | ⟨negative, unit⟩
  · rw [Int.sign_eq_one_of_pos positive] at low high ⊢
    have here : ((i : ℤ) + k * 1).toNat = i + k := by omega
    have there : ((i : ℤ) + (k + 1 : ℕ) * 1).toNat = i + k + 1 := by omega
    rw [unit, here, there]
    exact advances.forwards (by omega)
  · omega
  · rw [Int.sign_eq_neg_one_of_neg negative] at low high ⊢
    have here : ((i : ℤ) + k * -1).toNat = i - (k + 1) + 1 := by omega
    have there : ((i : ℤ) + (k + 1 : ℕ) * -1).toNat = i - (k + 1) := by omega
    rw [unit, here, there]
    exact advances.backwards (way.resolve_left (by omega)) (by omega)

/-- Repeated steps move by an offset. -/
theorem Advances.repeatSteps_eq (advances : Advances backward size index equal _advanceIndex)
    (i_le : i ≤ size) (j_le : j ≤ size) (way : 0 ≤ toInt word .int n ∨ backward)
    (apart : (j : ℤ) = i + toInt word .int n) (enough : size < fuel) :
    repeatSteps (_advanceIndex (signum word .int n)) fuel (rounds (abs n)) (index i) =
      some (index j) := by
  rcases yields_rounds n with ⟨values, yields, length⟩
  have bounded : values.length < fuel := by
    rw [length]
    exact (natAbs_le_of_apart i_le j_le apart).trans_lt enough
  have steps (k : ℕ) (k_lt : k < values.length) :
      _advanceIndex (signum word .int n)
          (index ((i : ℤ) + k * (toInt word .int n).sign).toNat) =
        some (index ((i : ℤ) + (k + 1 : ℕ) * (toInt word .int n).sign).toNat) := by
    rw [length] at k_lt
    rcases between_of_apart i_le j_le apart (Nat.succ_le_of_lt k_lt) with ⟨low, high⟩
    exact advances.step way i_le k_lt low high
  have walked := repeatSteps_of_yields
    (fun k => index ((i : ℤ) + k * (toInt word .int n).sign).toNat) yields steps bounded
  simp only [length, toNat_first, toNat_last apart] at walked
  exact walked

/-- Repeated steps give up where they meet the limit. -/
theorem Advances.repeatLimited_met (advances : Advances backward size index equal _advanceIndex)
    (i_le : i ≤ size) (limit_le : limit ≤ size) (way : 0 ≤ toInt word .int n ∨ backward)
    (meets : Meets i (toInt word .int n) limit) (enough : size < fuel) :
    repeatLimited equal (_advanceIndex (signum word .int n)) (index limit) fuel (rounds (abs n))
      (index i) = some none := by
  rcases yields_rounds n with ⟨values, yields, length⟩
  rcases meets with ⟨k, k_lt, met⟩
  rw [← Int.natCast_natAbs] at k_lt
  have whole := Int.sign_mul_natAbs (toInt word .int n)
  have sign := Int.sign_trichotomy (toInt word .int n)
  -- The places on the way to the limit are between it and the first index.
  have between {earlier : ℕ} (less : earlier ≤ k) :
      0 ≤ (i : ℤ) + earlier * (toInt word .int n).sign ∧
        (i : ℤ) + earlier * (toInt word .int n).sign ≤ size := by
    rcases sign with unit | unit | unit <;> rw [unit] at met ⊢ <;> omega
  have here : equal (index ((i : ℤ) + k * (toInt word .int n).sign).toNat) (index limit) =
      true := by
    have inside := between le_rfl
    rw [advances.equal_iff (by omega) limit_le]
    omega
  have apart (earlier : ℕ) (less : earlier < k) :
      equal (index ((i : ℤ) + earlier * (toInt word .int n).sign).toNat) (index limit) =
        false := by
    have inside := between less.le
    rw [← Bool.not_eq_true, advances.equal_iff (by omega) limit_le]
    rcases sign with unit | unit | unit <;> rw [unit] at met whole inside ⊢ <;> omega
  have steps (earlier : ℕ) (less : earlier < k) :
      _advanceIndex (signum word .int n)
          (index ((i : ℤ) + earlier * (toInt word .int n).sign).toNat) =
        some (index ((i : ℤ) + (earlier + 1 : ℕ) * (toInt word .int n).sign).toNat) := by
    rcases between (Nat.succ_le_of_lt less) with ⟨low, high⟩
    exact advances.step way i_le (by omega) low high
  have bounded : k < fuel := by
    rcases sign with unit | unit | unit <;> rw [unit] at met whole <;> omega
  have walked := repeatLimited_of_met
    (fun k => index ((i : ℤ) + k * (toInt word .int n).sign).toNat) yields (by omega) here apart
    steps bounded
  simp only [toNat_first] at walked
  exact walked

/-- Repeated steps that do not meet the limit move by an offset. -/
theorem Advances.repeatLimited_unmet
    (advances : Advances backward size index equal _advanceIndex) (i_le : i ≤ size)
    (j_le : j ≤ size) (limit_le : limit ≤ size) (way : 0 ≤ toInt word .int n ∨ backward)
    (clear : ¬ Meets i (toInt word .int n) limit) (moved : (j : ℤ) = i + toInt word .int n)
    (enough : size < fuel) :
    repeatLimited equal (_advanceIndex (signum word .int n)) (index limit) fuel (rounds (abs n))
      (index i) = some (some (index j)) := by
  rcases yields_rounds n with ⟨values, yields, length⟩
  have bounded : values.length < fuel := by
    rw [length]
    exact (natAbs_le_of_apart i_le j_le moved).trans_lt enough
  have apart (k : ℕ) (k_lt : k < values.length) :
      equal (index ((i : ℤ) + k * (toInt word .int n).sign).toNat) (index limit) = false := by
    rw [length] at k_lt
    have inside := between_of_apart i_le j_le moved k_lt.le
    rw [← Bool.not_eq_true, advances.equal_iff (by omega) limit_le]
    intro met
    apply clear
    refine ⟨k, ?_, by omega⟩
    rw [← Int.natCast_natAbs]
    exact_mod_cast k_lt
  have steps (k : ℕ) (k_lt : k < values.length) :
      _advanceIndex (signum word .int n)
          (index ((i : ℤ) + k * (toInt word .int n).sign).toNat) =
        some (index ((i : ℤ) + (k + 1 : ℕ) * (toInt word .int n).sign).toNat) := by
    rw [length] at k_lt
    rcases between_of_apart i_le j_le moved (Nat.succ_le_of_lt k_lt) with ⟨low, high⟩
    exact advances.step way i_le k_lt low high
  have walked := repeatLimited_of_unmet
    (fun k => index ((i : ℤ) + k * (toInt word .int n).sign).toNat) yields apart steps bounded
  simp only [length, toNat_first, toNat_last moved] at walked
  exact walked

end Offsets

end Loops

/-- A list is traversed as itself. -/
theorem boundedList_traversed (word : WordSize) (list : List Element) :
    Traversed True (fun _ => True) (boundedList word) list list id where
  startIndex := rfl
  endIndex := rfl
  equal _ _ := beq_iff_eq
  less _ _ := decide_eq_true_iff
  subscript inside := List.getElem?_eq_getElem inside
  indexAfter inside := if_pos inside
  indexBefore _ _ inside := by
    simp only [boundedList, id]
    rw [if_pos (by omega), Nat.add_sub_cancel]
  distance i_le j_le _ := if_pos ⟨i_le, j_le⟩
  indexOffsetBy i_le j_le _ _ apart := by
    simp only [boundedList, id]
    rw [if_pos (by omega), ← apart, Int.toNat_natCast]
  limited_met i_le limit_le _ _ meets := if_pos (meets_iff.mp meets)
  limited_unmet i_le j_le limit_le _ _ clear apart := by
    simp only [boundedList, id]
    rw [if_neg (meets_iff.not.mp clear), if_pos (by omega), ← apart, Int.toNat_natCast]

end USwift
