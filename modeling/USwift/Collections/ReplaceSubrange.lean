import USwift.Collections.Listed
import USwift.Library.Copying
import USwift.Library.Loops
import USwift.Library.Splices

/-!
# Replacing a range of an array buffer

`_ArrayBufferProtocol.replaceSubrange` moves the tail of a buffer to its new place, and
assigns, initializes or destroys the slots of the range, in an order that depends on
whether the buffer grows and on how long the tail is. A slot either holds an element or is
uninitialized, and an operation on a slot in the other state has no defined result.

Counts and the offsets of pointers from the first slot are integers. The capacity of an
allocation is at most `Int.max`, and its storage does not end with the address space; every
count and every offset below is then at most the capacity, so that none of them wraps around.
-/

namespace USwift

open Copying Loops Splices

section Operations

variable {Element : Type}

/-- The slots of an allocation. -/
abbrev Slots (Element : Type) : Type :=
  List (Option Element)

namespace Slots

variable (slots : Slots Element)

/-- The state of a slot, if there is one at an offset from the first slot. -/
def slot (pointer : ℤ) : Option (Option Element) :=
  if 0 ≤ pointer then slots[pointer.toNat]? else none

/-- The slots with one of them in another state. -/
def put (i : ℕ) (cell : Option Element) : Slots Element :=
  slots.set i cell

/-- `pointer.initialize(to:)` of an uninitialized slot. -/
def initializeTo (pointer : ℤ) (element : Element) : Except Failure (Slots Element) :=
  match slots.slot pointer with
  | some none => .ok (slots.put pointer.toNat (some element))
  | _ => .error .undefined

/-- `pointer.pointee = element`, which destroys the element in the slot. -/
def assign (pointer : ℤ) (element : Element) : Except Failure (Slots Element) :=
  match slots.slot pointer with
  | some (some _) => .ok (slots.put pointer.toNat (some element))
  | _ => .error .undefined

/-- `pointer.move()`, with the slots that it leaves. -/
def move (pointer : ℤ) : Except Failure (Element × Slots Element) :=
  match slots.slot pointer with
  | some (some element) => .ok (element, slots.put pointer.toNat none)
  | _ => .error .undefined

/-- `(self + i).initialize(to: (source + i).move())`. -/
def moveStep (self source : ℤ) (slots : Slots Element) (i : ℕ) :
    Except Failure (Slots Element) := do
  let (element, slots) ← slots.move (source + i)
  slots.initializeTo (self + i) element

/--
`moveInitialize(from:count:)`. The allocation does not wrap around the address space, so that
pointers into it compare as their offsets.
-/
def moveInitialize (self source count : ℤ) : Except Failure (Slots Element) :=
  if self < source ∨ ¬ self < source + count then
    (List.range count.toNat).foldlM (moveStep self source) slots
  else (List.range count.toNat).reverse.foldlM (moveStep self source) slots

/-- `self[i] = (source + i).move()`. -/
def moveUpdateStep (self source : ℤ) (slots : Slots Element) (i : ℕ) :
    Except Failure (Slots Element) := do
  let (element, slots) ← slots.move (source + i)
  slots.assign (self + i) element

/-- `moveAssign(from:count:)`, which is `moveUpdate(from:count:)`. -/
def moveAssign (self source count : ℤ) : Except Failure (Slots Element) :=
  (List.range count.toNat).foldlM (moveUpdateStep self source) slots

/-- `deinitialize(count:)`. -/
def deinitialize (self count : ℤ) : Except Failure (Slots Element) :=
  (List.range count.toNat).foldlM
    (fun slots (i : ℕ) => do
      let (_, slots) ← slots.move (self + i)
      return slots)
    slots

/--
A loop that writes the elements of a collection to the slots from one on, for some rounds, by
assigning or by initializing them.
-/
def write {Values Index : Type} (collection : Collection Values Index Element) (values : Values)
    (place : Slots Element → ℤ → Element → Except Failure (Slots Element)) (first rounds : ℤ)
    (i : Index) : Except Failure (Slots Element × Index) :=
  (List.range rounds.toNat).foldlM
    (fun (slots, i) (k : ℕ) => do
      let slots ← place slots (first + k) (collection.subscript values i)
      return (slots, collection.indexAfter values i))
    (slots, i)

end Slots

/-- An array buffer whose `startIndex` is zero. -/
structure NativeBuffer (Element : Type) where
  count : ℤ
  slots : Slots Element

/--
`_ArrayBufferProtocol.replaceSubrange(_:with:elementsOf:)`. A pointer is its offset from
`subscriptBaseAddress`, and no number is above the capacity.
-/
def NativeBuffer.replaceSubrange {Values Index : Type}
    (collection : Collection Values Index Element) (self : NativeBuffer Element)
    (subrange : Range ℤ) (newCount : ℤ) (newValues : Values) :
    Except Failure (NativeBuffer Element) := do
  let oldCount := self.count
  let eraseCount := subrange.upperBound - subrange.lowerBound
  let growth := newCount - eraseCount
  let count := oldCount + growth
  let elements : ℤ := 0
  let oldTailIndex := subrange.upperBound
  let oldTailStart := elements + oldTailIndex
  let newTailIndex := oldTailIndex + growth
  let newTailStart := oldTailStart + growth
  let tailCount := oldCount - subrange.upperBound
  let i := collection.startIndex newValues
  if growth > 0 then
    let slots ← self.slots.moveInitialize newTailStart oldTailStart tailCount
    let (slots, i) ← slots.write collection newValues Slots.assign
      (elements + subrange.lowerBound) eraseCount i
    let (slots, _) ← slots.write collection newValues Slots.initializeTo
      (elements + oldTailIndex) (newTailIndex - oldTailIndex) i
    return ⟨count, slots⟩
  else
    let (slots, _) ← self.slots.write collection newValues Slots.assign
      (elements + subrange.lowerBound) newCount i
    if growth == 0 then return ⟨count, slots⟩
    let shrinkage := -growth
    if tailCount > shrinkage then
      let slots ← slots.moveAssign newTailStart oldTailStart shrinkage
      let slots ← slots.moveInitialize oldTailStart (oldTailStart + shrinkage)
        (tailCount - shrinkage)
      return ⟨count, slots⟩
    else
      let slots ← slots.moveAssign newTailStart oldTailStart tailCount
      let slots ← slots.deinitialize (newTailStart + tailCount) (shrinkage - tailCount)
      return ⟨count, slots⟩

end Operations

section Specification

variable {Element : Type}

/-- The slots of an allocation of a capacity of which the first ones hold the elements of a list. -/
def Slots.holding (capacity : ℕ) (list : List Element) : Slots Element :=
  list.map some ++ List.replicate (capacity - list.length) none

/-- A buffer of a capacity with the elements of a list. -/
def NativeBuffer.holding (capacity : ℕ) (list : List Element) : NativeBuffer Element :=
  ⟨list.length, .holding capacity list⟩

/-- The slots by their offsets. -/
def Slots.state (slots : Slots Element) (a : ℕ) : Option (Option Element) :=
  slots[a]?

/-- What moving an element out of a slot leaves. -/
def vacated (_ : Option (Option Element)) : Option (Option Element) :=
  some none

end Specification

section Results

variable {Element : Type} {slots : Slots Element} {element : Element} {target source count : ℕ}

namespace Slots

section Single

variable {i j : ℕ} {old : Element}

theorem slot_eq (i : ℕ) : slots.slot i = slots.state i := by
  simp [slot, state]

theorem lt_of_state {cell : Option Element} (known : slots.state i = some cell) :
    i < slots.length := by
  rcases List.getElem?_eq_some_iff.mp known with ⟨inside, _⟩
  exact inside

theorem state_put {cell : Option Element} (inside : i < slots.length) (a : ℕ) :
    (slots.put i cell).state a = if a = i then some cell else slots.state a := by
  rw [state, state, put, List.getElem?_set]
  by_cases here : i = a
  · subst here
    simp [inside]
  · rw [if_neg here, if_neg (Ne.symm here)]

theorem initializeTo_eq (free : slots.state i = some none) :
    slots.initializeTo i element = .ok (slots.put i (some element)) := by
  simp [initializeTo, slot_eq, free]

theorem assign_eq (held : slots.state i = some (some old)) :
    slots.assign i element = .ok (slots.put i (some element)) := by
  simp [assign, slot_eq, held]

theorem move_eq (held : slots.state i = some (some element)) :
    slots.move i = .ok (element, slots.put i none) := by
  simp [move, slot_eq, held]

/-- A slot has been vacated, and its element has been put into another one. -/
theorem state_moved (held : slots.state i = some (some element)) (inside : j < slots.length) :
    ((slots.put i none).put j (some element)).state = transferred vacated j i 1 slots.state := by
  funext a
  rw [state_put (by simpa [put] using inside), state_put (lt_of_state held)]
  by_cases written : a = j
  · rw [if_pos written, transferred_target (by omega) (by omega), written, Nat.sub_self,
      Nat.zero_add, held]
  · rw [if_neg written]
    by_cases read : a = i
    · rw [if_pos read, transferred_source (by omega) (by omega) (by omega), vacated]
    · rw [if_neg read, transferred_elsewhere (by omega) (by omega)]

/-- Moving an element to a slot that is uninitialized once the element has left. -/
theorem moveStep_eq (held : slots.state (source + i) = some (some element))
    (free : target = source ∨ slots.state (target + i) = some none) :
    ∃ slots', moveStep target source slots i = .ok slots' ∧
      slots'.state = transferred vacated (target + i) (source + i) 1 slots.state := by
  have free' : (slots.put (source + i) none).state (target + i) = some none := by
    rw [state_put (lt_of_state held)]
    split
    · rfl
    · rcases free with same | free
      · omega
      · exact free
  have inside : target + i < slots.length := by simpa [put] using lt_of_state free'
  have moved := move_eq held
  have placed := @initializeTo_eq _ _ element _ free'
  push_cast at moved placed
  refine ⟨_, ?_, state_moved held inside⟩
  rw [moveStep, moved]
  exact placed

/-- Moving an element over another one. -/
theorem moveUpdateStep_eq (held : slots.state (source + i) = some (some element))
    (held' : slots.state (target + i) = some (some old)) (differ : target ≠ source) :
    ∃ slots', moveUpdateStep target source slots i = .ok slots' ∧
      slots'.state = transferred vacated (target + i) (source + i) 1 slots.state := by
  have kept : (slots.put (source + i) none).state (target + i) = some (some old) := by
    rw [state_put (lt_of_state held), if_neg (by omega), held']
  have moved := move_eq held
  have placed := @assign_eq _ _ element _ _ kept
  push_cast at moved placed
  refine ⟨_, ?_, state_moved held (lt_of_state held')⟩
  rw [moveUpdateStep, moved]
  exact placed

end Single

section Regions

/-- Moving a region to slots of which those outside the region are uninitialized. -/
theorem moveInitialize_eq
    (held : ∀ i < count, ∃ element, slots.state (source + i) = some (some element))
    (free : ∀ i < count, slots.state (target + i) = some none ∨
      source ≤ target + i ∧ target + i < source + count) :
    ∃ slots', slots.moveInitialize target source count = .ok slots' ∧
      slots'.state = transferred vacated target source count slots.state := by
  rw [moveInitialize, Int.toNat_natCast]
  split
  · rename_i forwards
    have order : target < source ∨ source + count ≤ target := by omega
    apply @foldlM_range _ _ (moveStep target source) fun i slots' =>
      slots'.state = transferred vacated target source i slots.state
    · intro i i_lt middle reached
      rcases held i i_lt with ⟨element, held⟩
      have here := congrFun reached (source + i)
      have there := congrFun reached (target + i)
      rw [transferred_elsewhere (by omega) (by omega), held] at here
      have empty : middle.state (target + i) = some none := by
        rw [there]
        by_cases passed : source ≤ target + i ∧ target + i < source + i
        · rw [transferred_source (by omega) passed.1 passed.2, vacated]
        · rw [transferred_elsewhere (by omega) (by omega)]
          rcases free i i_lt with free | inside
          · exact free
          · omega
      rcases moveStep_eq here (.inr empty) with ⟨slots', stepped, viewed⟩
      refine ⟨slots', stepped, ?_⟩
      rw [viewed, reached, transferred_forward (by omega)]
    · exact transferred_zero.symm
  · rename_i backwards
    have order : source ≤ target ∧ target < source + count := by omega
    have whole := @foldlM_reverse_range _ _ (moveStep target source) (fun i slots' =>
      slots'.state =
        transferred vacated (target + i) (source + i) (count - i) slots.state) count
    rw [Nat.add_zero, Nat.add_zero, Nat.sub_zero] at whole
    apply whole
    · intro i i_lt middle reached
      rcases held i i_lt with ⟨element, held⟩
      have here := congrFun reached (source + i)
      have there := congrFun reached (target + i)
      rw [transferred_elsewhere (by omega) (by omega), held] at here
      have empty : target = source ∨ middle.state (target + i) = some none := by
        by_cases same : target = source
        · exact .inl same
        · right
          rw [there]
          by_cases passed : source + (i + 1) ≤ target + i ∧ target + i < source + count
          · rw [transferred_source (by omega) passed.1 (by omega), vacated]
          · rw [transferred_elsewhere (by omega) (by omega)]
            rcases free i i_lt with free | inside
            · exact free
            · omega
      rcases moveStep_eq here empty with ⟨slots', stepped, viewed⟩
      refine ⟨slots', stepped, ?_⟩
      have split : count - i = 1 + (count - (i + 1)) := by omega
      rw [viewed, reached, split, ← Nat.add_assoc target, ← Nat.add_assoc source,
        transferred_backward (by omega)]
    · rw [Nat.sub_self, transferred_zero]

/-- Moving a region over elements in front of it. -/
theorem moveAssign_eq
    (held : ∀ i < count, ∃ element, slots.state (source + i) = some (some element))
    (held' : ∀ i < count, ∃ old, slots.state (target + i) = some (some old))
    (order : target + count ≤ source) :
    ∃ slots', slots.moveAssign target source count = .ok slots' ∧
      slots'.state = transferred vacated target source count slots.state := by
  rw [moveAssign, Int.toNat_natCast]
  apply @foldlM_range _ _ (moveUpdateStep target source) fun i slots' =>
    slots'.state = transferred vacated target source i slots.state
  · intro i i_lt middle reached
    rcases held i i_lt with ⟨element, held⟩
    rcases held' i i_lt with ⟨old, held'⟩
    have here := congrFun reached (source + i)
    have there := congrFun reached (target + i)
    rw [transferred_elsewhere (by omega) (by omega)] at here there
    rcases moveUpdateStep_eq (here.trans held) (there.trans held') (by omega) with
      ⟨slots', stepped, viewed⟩
    refine ⟨slots', stepped, ?_⟩
    rw [viewed, reached, transferred_forward (by omega)]
  · exact transferred_zero.symm

theorem deinitialize_eq
    (held : ∀ i < count, ∃ element, slots.state (source + i) = some (some element)) :
    ∃ slots', slots.deinitialize source count = .ok slots' ∧ ∀ a, slots'.state a =
      if source ≤ a ∧ a < source + count then some none else slots.state a := by
  rw [ deinitialize, Int.toNat_natCast]
  apply @foldlM_range _ _ _ fun i (slots' : Slots Element) => ∀ a, slots'.state a =
    if source ≤ a ∧ a < source + i then some none else slots.state a
  · intro i i_lt middle reached
    rcases held i i_lt with ⟨element, held⟩
    have here := reached (source + i)
    rw [if_neg (by omega), held] at here
    have moved := move_eq here
    push_cast at moved
    rw [moved]
    refine ⟨_, rfl, ?_⟩
    intro a
    rw [state_put (lt_of_state here), reached]
    split_ifs <;> first | rfl | omega
  · intro a
    rw [if_neg (by omega)]

section Writing

variable {Values Index : Type} {collection : Collection Values Index Element} {values : Values}
  {new : List Element} {index : ℕ → Index} {first rounds i : ℕ}
  {place : Slots Element → ℤ → Element → Except Failure (Slots Element)}

/-- Writing the elements of a collection from one of them on to slots that are ready for them. -/
theorem write_eq (ready : Option Element → Prop) (listed : Listed collection values new index)
    (places : ∀ slots a cell element, state slots a = some cell → ready cell →
      place slots a element = .ok (slots.put a (some element)))
    (readied : ∀ k < rounds, ∃ cell, slots.state (first + k) = some cell ∧ ready cell)
    (inside : i + rounds ≤ new.length) :
    ∃ slots', slots.write collection values place first rounds (index i) =
        .ok (slots', index (i + rounds)) ∧ ∀ a, slots'.state a =
      if first ≤ a ∧ a < first + rounds then some new[a - first + i]? else slots.state a := by
  have runs : ∃ reached, slots.write collection values place first rounds (index i) =
      .ok reached ∧ reached.2 = index (i + rounds) ∧ ∀ a, reached.1.state a =
        if first ≤ a ∧ a < first + rounds then some new[a - first + i]? else slots.state a := by
    rw [write, Int.toNat_natCast]
    apply @foldlM_range _ _ _ fun k (reached : Slots Element × Index) =>
      reached.2 = index (i + k) ∧ ∀ a, reached.1.state a =
        if first ≤ a ∧ a < first + k then some new[a - first + i]? else slots.state a
    · rintro k k_lt ⟨middle, _⟩ ⟨rfl, reached⟩
      rcases readied k k_lt with ⟨cell, held, usable⟩
      have here := reached (first + k)
      rw [if_neg (by omega), held] at here
      have value := listed.subscript (show i + k < new.length by omega)
      have placed := places _ _ _ new[i + k] here usable
      push_cast at placed
      refine ⟨(middle.put (first + k) (some new[i + k]), index (i + (k + 1))), ?_, rfl, ?_⟩
      · simp only [value, placed]
        have next := listed.indexAfter (show i + k < new.length by omega)
        rw [← Nat.add_assoc, ← next]
        rfl
      · intro a
        rw [state_put (lt_of_state here), reached]
        by_cases written : a = first + k
        · have offset : a - first + i = i + k := by omega
          rw [if_pos written, if_pos (by omega), offset, List.getElem?_eq_getElem]
        · rw [if_neg written]
          split_ifs <;> first | rfl | omega
    · refine ⟨rfl, ?_⟩
      intro a
      rw [if_neg (by omega)]
  rcases runs with ⟨⟨slots', _⟩, runs, rfl, viewed⟩
  exact ⟨slots', runs, viewed⟩

theorem write_assign (listed : Listed collection values new index)
    (held : ∀ k < rounds, ∃ old, slots.state (first + k) = some (some old))
    (inside : i + rounds ≤ new.length) :
    ∃ slots', slots.write collection values assign first rounds (index i) =
        .ok (slots', index (i + rounds)) ∧ ∀ a, slots'.state a =
      if first ≤ a ∧ a < first + rounds then some new[a - first + i]? else slots.state a := by
  apply write_eq (fun cell => ∃ old, cell = some old) listed
  · rintro slots a cell element known ⟨old, rfl⟩
    exact assign_eq known
  · intro k k_lt
    rcases held k k_lt with ⟨old, known⟩
    exact ⟨_, known, old, rfl⟩
  · exact inside

theorem write_initialize (listed : Listed collection values new index)
    (free : ∀ k < rounds, slots.state (first + k) = some none)
    (inside : i + rounds ≤ new.length) :
    ∃ slots', slots.write collection values initializeTo first rounds (index i) =
        .ok (slots', index (i + rounds)) ∧ ∀ a, slots'.state a =
      if first ≤ a ∧ a < first + rounds then some new[a - first + i]? else slots.state a := by
  apply write_eq (fun cell => cell = none) listed
  · rintro slots a cell element known rfl
    exact initializeTo_eq known
  · intro k k_lt
    exact ⟨_, free k k_lt, rfl⟩
  · exact inside

end Writing

end Regions

section Holding

variable {capacity : ℕ} {list : List Element}

theorem state_holding (fits : list.length ≤ capacity) (a : ℕ) :
    (holding capacity list).state a = if a < capacity then some list[a]? else none := by
  rw [state, holding, List.getElem?_append, List.length_map, List.getElem?_map,
    List.getElem?_replicate]
  by_cases held : a < list.length
  · rw [if_pos held, if_pos (by omega), List.getElem?_eq_getElem held]
    rfl
  · rw [if_neg held, List.getElem?_eq_none (by omega)]
    split_ifs <;> first | rfl | omega

theorem held_holding (fits : list.length ≤ capacity) {a : ℕ} (inside : a < list.length) :
    (holding capacity list).state a = some (some list[a]) := by
  rw [state_holding fits, if_pos (by omega), List.getElem?_eq_getElem inside]

theorem outside_holding (fits : list.length ≤ capacity) {a : ℕ} (outside : list.length ≤ a) :
    (holding capacity list).state a = if a < capacity then some none else none := by
  rw [state_holding fits, List.getElem?_eq_none outside]

theorem free_holding (fits : list.length ≤ capacity) {a : ℕ} (outside : list.length ≤ a)
    (below : a < capacity) : (holding capacity list).state a = some none := by
  rw [outside_holding fits outside, if_pos below]

/-- Slots with a range replaced: the front, the new elements, the tail, and free slots behind. -/
theorem eq_splice {old new : List Element} {lower upper : ℕ} (ordered : lower ≤ upper)
    (inside : upper ≤ old.length) (held : old.length ≤ capacity)
    (fits : lower + new.length + (old.length - upper) ≤ capacity)
    (front : ∀ a < lower, slots.state a = (holding capacity old).state a)
    (middle : ∀ i < new.length, slots.state (lower + i) = some new[i]?)
    (tail : ∀ i < old.length - upper,
      slots.state (lower + new.length + i) = (holding capacity old).state (upper + i))
    (free : ∀ a, lower + new.length + (old.length - upper) ≤ a →
      slots.state a = if a < capacity then some none else none) :
    slots = holding capacity (splice old lower upper new) := by
  have length := @length_splice _ old new _ _ ordered inside
  have fits' : (splice old lower upper new).length ≤ capacity := by omega
  apply List.ext_getElem?
  intro a
  apply Eq.trans _ (state_holding fits' a).symm
  change slots.state a = _
  rw [getElem?_splice (show lower ≤ old.length by omega)]
  by_cases before : a < lower
  · rw [if_pos (by omega), if_pos before, front a before, state_holding held, if_pos (by omega)]
  · by_cases replaced : a < lower + new.length
    · have here := middle (a - lower) (by omega)
      rw [Nat.add_sub_cancel' (by omega)] at here
      rw [if_pos (by omega), if_neg before, if_pos replaced, here]
    · rw [if_neg before, if_neg replaced]
      by_cases moved : a < lower + new.length + (old.length - upper)
      · have there := tail (a - (lower + new.length)) (by omega)
        rw [Nat.add_sub_cancel' (by omega), state_holding held, if_pos (by omega)] at there
        rw [there, if_pos (by omega)]
      · rw [free a (by omega), List.getElem?_eq_none (by omega)]

/-- The same for a shorter range, where the new elements have overwritten its first slots. -/
theorem eq_splice_of_overwritten {old new : List Element} {lower upper : ℕ}
    {written : Slots Element} (inside : upper ≤ old.length) (held : old.length ≤ capacity)
    (shrinking : lower + new.length ≤ upper)
    (viewed : ∀ a, written.state a =
      if lower ≤ a ∧ a < lower + new.length then some new[a - lower]?
      else (holding capacity old).state a)
    (kept : ∀ a < lower + new.length, slots.state a = written.state a)
    (tail : ∀ i < old.length - upper,
      slots.state (lower + new.length + i) = (holding capacity old).state (upper + i))
    (free : ∀ a, lower + new.length + (old.length - upper) ≤ a →
      slots.state a = if a < capacity then some none else none) :
    slots = holding capacity (splice old lower upper new) := by
  apply eq_splice (by omega) inside held (by omega) _ _ tail free
  · intro a before
    rw [kept a (by omega), viewed, if_neg (by omega)]
  · intro i i_lt
    rw [kept (lower + i) (by omega), viewed, if_pos (by omega), Nat.add_sub_cancel_left]

end Holding

end Slots

section Replacing

variable {Values Index : Type} {collection : Collection Values Index Element} {values : Values}
  {old new : List Element} {index : ℕ → Index} {capacity lower upper : ℕ}

/-- The tail makes room, and the new elements are assigned and then initialized. -/
theorem grows (listed : Listed collection values new index) (ordered : lower ≤ upper)
    (inside : upper ≤ old.length) (growing : upper < lower + new.length)
    (fits : lower + new.length + (old.length - upper) ≤ capacity) :
    ∃ moved assigned,
      (Slots.holding capacity old).moveInitialize (lower + new.length : ℕ) upper
        (old.length - upper : ℕ) = .ok moved ∧
      moved.write collection values Slots.assign lower (upper - lower : ℕ) (index 0) =
        .ok (assigned, index (upper - lower)) ∧
      assigned.write collection values Slots.initializeTo upper (lower + new.length - upper : ℕ)
          (index (upper - lower)) =
        .ok (.holding capacity (splice old lower upper new), index new.length) := by
  have held : old.length ≤ capacity := by omega
  have length := @length_splice _ old new _ _ ordered inside
  have moves := @Slots.moveInitialize_eq _ (Slots.holding capacity old) (lower + new.length) upper
    (old.length - upper)
  rcases moves (by
      intro i i_lt
      exact ⟨_, Slots.held_holding held (by omega)⟩)
    (by
      intro i i_lt
      by_cases free : old.length ≤ lower + new.length + i
      · exact .inl (Slots.free_holding held free (by omega))
      · right
        omega) with ⟨moved, moves, viewed⟩
  have assigns := @Slots.write_assign _ moved _ _ _ _ _ _ lower (upper - lower) 0 listed
  rcases assigns (by
      intro k k_lt
      rw [viewed, transferred_elsewhere (by omega) (by omega)]
      exact ⟨_, Slots.held_holding held (by omega)⟩) (by omega) with ⟨assigned, assigns, viewed'⟩
  have initializes := @Slots.write_initialize _ assigned _ _ _ _ _ _ upper
    (lower + new.length - upper) (upper - lower) listed
  rcases initializes (by
      intro k k_lt
      rw [viewed', if_neg (by omega), viewed]
      by_cases passed : upper + k < old.length
      · rw [transferred_source (by omega) (by omega) (by omega), vacated]
      · rw [transferred_elsewhere (by omega) (by omega)]
        exact Slots.free_holding held (by omega) (by omega)) (by omega) with
    ⟨initialized, initializes, viewed''⟩
  rw [Nat.zero_add] at assigns
  have whole : upper - lower + (lower + new.length - upper) = new.length := by omega
  rw [whole] at initializes
  refine ⟨moved, assigned, moves, assigns, ?_⟩
  rw [initializes]
  congr 2
  have untouched {a : ℕ} (apart : a < lower ∨ lower + new.length ≤ a) :
      initialized.state a = transferred vacated (lower + new.length) upper (old.length - upper)
        (Slots.holding capacity old).state a := by
    rw [viewed'', if_neg (by omega), viewed', if_neg (by omega), viewed]
  apply Slots.eq_splice ordered inside held fits
  · intro a before
    rw [untouched (Or.inl before), transferred_elsewhere (by omega) (by omega)]
  · intro i i_lt
    by_cases first : i < upper - lower
    · rw [viewed'', if_neg (by omega), viewed', if_pos (by omega), Nat.add_sub_cancel_left]
      rfl
    · have place : lower + i - upper + (upper - lower) = i := by omega
      rw [viewed'', if_pos (by omega), place]
  · intro i i_lt
    rw [untouched (by omega), transferred_target (by omega) (by omega), Nat.add_sub_cancel_left,
      Nat.add_comm]
  · intro a behind
    rw [untouched (by omega), transferred_elsewhere (by omega) (by omega),
      Slots.outside_holding held (by omega)]

/-- The new elements are assigned to the first slots of a range that is not shorter. -/
theorem overwrites (listed : Listed collection values new index)
    (inside : upper ≤ old.length) (shrinking : lower + new.length ≤ upper)
    (held : old.length ≤ capacity) :
    ∃ written,
      (Slots.holding capacity old).write collection values Slots.assign lower new.length
        (index 0) = .ok (written, index new.length) ∧
      ∀ a, written.state a = if lower ≤ a ∧ a < lower + new.length then some new[a - lower]?
        else (Slots.holding capacity old).state a := by
  have assigns := @Slots.write_assign _ (Slots.holding capacity old) _ _ _ _ _ _ lower new.length 0
    listed
  rcases assigns (by
      intro k k_lt
      exact ⟨_, Slots.held_holding held (by omega)⟩) (by omega) with ⟨written, assigns, viewed⟩
  rw [Nat.zero_add] at assigns
  exact ⟨written, assigns, viewed⟩

/-- A tail that is longer than the gap is moved over the gap, and then into its own place. -/
theorem slides {written : Slots Element} (ordered : lower ≤ upper)
    (inside : upper ≤ old.length) (shrinking : lower + new.length ≤ upper)
    (held : old.length ≤ capacity) (long : upper - (lower + new.length) < old.length - upper)
    (viewed : ∀ a, written.state a =
      if lower ≤ a ∧ a < lower + new.length then some new[a - lower]?
      else (Slots.holding capacity old).state a) :
    ∃ moved,
      written.moveAssign (lower + new.length : ℕ) upper (upper - (lower + new.length) : ℕ) =
        .ok moved ∧
      moved.moveInitialize upper (upper + (upper - (lower + new.length)) : ℕ)
          (old.length - upper - (upper - (lower + new.length)) : ℕ) =
        .ok (.holding capacity (splice old lower upper new)) := by
  have length := @length_splice _ old new _ _ ordered inside
  have outside {a : ℕ} (above : lower + new.length ≤ a) :
      written.state a = (Slots.holding capacity old).state a := by
    rw [viewed, if_neg (by omega)]
  have assigns := @Slots.moveAssign_eq _ written (lower + new.length) upper
    (upper - (lower + new.length))
  rcases assigns (by
      intro i i_lt
      rw [outside (by omega)]
      exact ⟨_, Slots.held_holding held (by omega)⟩)
    (by
      intro i i_lt
      rw [outside (by omega)]
      exact ⟨_, Slots.held_holding held (by omega)⟩)
    (by omega) with ⟨moved, assigns, viewed'⟩
  have moves := @Slots.moveInitialize_eq _ moved upper (upper + (upper - (lower + new.length)))
    (old.length - upper - (upper - (lower + new.length)))
  rcases moves (by
      intro i i_lt
      rw [viewed', transferred_elsewhere (by omega) (by omega), outside (by omega)]
      exact ⟨_, Slots.held_holding held (by omega)⟩)
    (by
      intro i i_lt
      by_cases passed : upper + i < upper + (upper - (lower + new.length))
      · left
        rw [viewed', transferred_source (by omega) (by omega) passed, vacated]
      · right
        omega) with ⟨slid, moves, viewed''⟩
  refine ⟨moved, assigns, ?_⟩
  rw [moves]
  congr 1
  have untouched (a : ℕ) (below : a < lower + new.length) : slid.state a = written.state a := by
    rw [viewed'', transferred_elsewhere (by omega) (by omega), viewed',
      transferred_elsewhere (by omega) (by omega)]
  apply Slots.eq_splice_of_overwritten inside held shrinking viewed untouched
  · intro i i_lt
    by_cases first : i < upper - (lower + new.length)
    · rw [viewed'', transferred_elsewhere (by omega) (by omega), viewed',
        transferred_target (by omega) (by omega), Nat.add_sub_cancel_left, Nat.add_comm,
        outside (by omega)]
    · have origin : lower + new.length + i - upper + (upper + (upper - (lower + new.length))) =
          upper + i := by omega
      rw [viewed'', transferred_target (by omega) (by omega), origin, viewed',
        transferred_elsewhere (by omega) (by omega), outside (by omega)]
  · intro a behind
    by_cases second : upper + (upper - (lower + new.length)) ≤ a
    · by_cases last : a < old.length
      · rw [viewed'', transferred_source (by omega) second (by omega), vacated, if_pos (by omega)]
      · rw [viewed'', transferred_elsewhere (by omega) (by omega), viewed',
          transferred_elsewhere (by omega) (by omega), outside (by omega),
          Slots.outside_holding held (by omega)]
    · rw [viewed'', transferred_elsewhere (by omega) (by omega), viewed',
        transferred_source (by omega) (by omega) (by omega), vacated, if_pos (by omega)]

/-- A tail that fits into the gap is moved over its front, and the rest of it is destroyed. -/
theorem closes {written : Slots Element} (ordered : lower ≤ upper)
    (inside : upper ≤ old.length) (shrinking : lower + new.length ≤ upper)
    (held : old.length ≤ capacity) (short : old.length - upper ≤ upper - (lower + new.length))
    (viewed : ∀ a, written.state a =
      if lower ≤ a ∧ a < lower + new.length then some new[a - lower]?
      else (Slots.holding capacity old).state a) :
    ∃ moved,
      written.moveAssign (lower + new.length : ℕ) upper (old.length - upper : ℕ) = .ok moved ∧
      moved.deinitialize (lower + new.length + (old.length - upper) : ℕ)
          (upper - (lower + new.length) - (old.length - upper) : ℕ) =
        .ok (.holding capacity (splice old lower upper new)) := by
  have length := @length_splice _ old new _ _ ordered inside
  have outside {a : ℕ} (above : lower + new.length ≤ a) :
      written.state a = (Slots.holding capacity old).state a := by
    rw [viewed, if_neg (by omega)]
  have assigns := @Slots.moveAssign_eq _ written (lower + new.length) upper (old.length - upper)
  rcases assigns (by
      intro i i_lt
      rw [outside (by omega)]
      exact ⟨_, Slots.held_holding held (by omega)⟩)
    (by
      intro i i_lt
      rw [outside (by omega)]
      exact ⟨_, Slots.held_holding held (by omega)⟩)
    (by omega) with ⟨moved, assigns, viewed'⟩
  have destroys := @Slots.deinitialize_eq _ moved (lower + new.length + (old.length - upper))
    (upper - (lower + new.length) - (old.length - upper))
  rcases destroys (by
      intro i i_lt
      rw [viewed', transferred_elsewhere (by omega) (by omega), outside (by omega)]
      exact ⟨_, Slots.held_holding held (by omega)⟩) with ⟨closed, destroys, viewed''⟩
  refine ⟨moved, assigns, ?_⟩
  rw [destroys]
  congr 1
  have untouched (a : ℕ) (below : a < lower + new.length) :
      closed.state a = written.state a := by
    rw [viewed'', if_neg (by omega), viewed', transferred_elsewhere (by omega) (by omega)]
  apply Slots.eq_splice_of_overwritten inside held shrinking viewed untouched
  · intro i i_lt
    rw [viewed'', if_neg (by omega), viewed', transferred_target (by omega) (by omega),
      Nat.add_sub_cancel_left, Nat.add_comm, outside (by omega)]
  · intro a behind
    by_cases gap : a < upper
    · rw [viewed'', if_pos (by omega), if_pos (by omega)]
    · rw [viewed'', if_neg (by omega), viewed']
      by_cases last : a < old.length
      · rw [transferred_source (by omega) (by omega) (by omega), vacated, if_pos (by omega)]
      · rw [transferred_elsewhere (by omega) (by omega), outside (by omega),
          Slots.outside_holding held (by omega)]

/-- The range is replaced, with every operation on a slot that is in the state it needs. -/
theorem replaceSubrange_splices (listed : Listed collection values new index)
    (ordered : lower ≤ upper) (inside : upper ≤ old.length) (held : old.length ≤ capacity)
    (fits : old.length - (upper - lower) + new.length ≤ capacity) :
    NativeBuffer.replaceSubrange collection (.holding capacity old) ⟨lower, upper⟩ new.length
        values = .ok (.holding capacity (splice old lower upper new)) := by
  have length := @length_splice _ old new _ _ ordered inside
  have erased : (upper : ℤ) - lower = (upper - lower : ℕ) := by omega
  have tail : (old.length : ℤ) - upper = (old.length - upper : ℕ) := by omega
  have count : (old.length : ℤ) + (new.length - (upper - lower : ℕ)) =
      (splice old lower upper new).length := by omega
  have place : (upper : ℤ) + (new.length - (upper - lower : ℕ)) = (lower + new.length : ℕ) := by
    omega
  simp only [NativeBuffer.replaceSubrange, NativeBuffer.holding, erased, tail, count, place,
    listed.startIndex, zero_add]
  by_cases growing : upper < lower + new.length
  · have grown : (new.length : ℤ) - (upper - lower : ℕ) > 0 := by omega
    have hole : ((lower + new.length : ℕ) : ℤ) - upper = (lower + new.length - upper : ℕ) := by
      omega
    have fits' : lower + new.length + (old.length - upper) ≤ capacity := by omega
    rcases grows listed ordered inside growing fits' with
      ⟨moved, assigned, moves, assigns, initializes⟩
    rw [if_pos grown, hole, bind_eq_ok]
    refine ⟨moved, moves, ?_⟩
    rw [bind_eq_ok]
    refine ⟨_, assigns, ?_⟩
    rw [bind_eq_ok]
    exact ⟨_, initializes, rfl⟩
  · have shrinking : lower + new.length ≤ upper := by omega
    have shrunk : ¬ (new.length : ℤ) - (upper - lower : ℕ) > 0 := by omega
    have gap : -((new.length : ℤ) - (upper - lower : ℕ)) =
        (upper - (lower + new.length) : ℕ) := by omega
    rcases overwrites listed inside shrinking held with ⟨written, assigns, viewed⟩
    rw [if_neg shrunk, bind_eq_ok]
    refine ⟨_, assigns, ?_⟩
    by_cases same : upper = lower + new.length
    · have settled : ((new.length : ℤ) - (upper - lower : ℕ) == 0) = true := by
        rw [beq_iff_eq]
        omega
      have final : written = .holding capacity (splice old lower upper new) := by
        apply Slots.eq_splice_of_overwritten inside held shrinking viewed fun _ _ => rfl
        · intro i i_lt
          rw [viewed, if_neg (by omega), same]
        · intro a behind
          rw [viewed, if_neg (by omega), Slots.outside_holding held (by omega)]
      rw [if_pos settled, final]
      rfl
    · have changed : ¬ ((new.length : ℤ) - (upper - lower : ℕ) == 0) = true := by
        rw [beq_iff_eq]
        omega
      rw [if_neg changed, gap]
      by_cases long : upper - (lower + new.length) < old.length - upper
      · have longer : ((old.length - upper : ℕ) : ℤ) > (upper - (lower + new.length) : ℕ) := by
          omega
        rcases slides ordered inside shrinking held long viewed with ⟨moved, slid, moves⟩
        rw [if_pos longer, bind_eq_ok]
        refine ⟨moved, slid, ?_⟩
        rw [bind_eq_ok, ← Nat.cast_add, ← Nat.cast_sub (by omega)]
        exact ⟨_, moves, rfl⟩
      · have shorter : ¬ ((old.length - upper : ℕ) : ℤ) > (upper - (lower + new.length) : ℕ) := by
          omega
        rcases closes ordered inside shrinking held (by omega) viewed with ⟨moved, slid, destroys⟩
        rw [if_neg shorter, bind_eq_ok]
        refine ⟨moved, slid, ?_⟩
        rw [bind_eq_ok, ← Nat.cast_add, ← Nat.cast_sub (by omega)]
        exact ⟨_, destroys, rfl⟩

/-- The middle one of three elements is replaced by two, in a buffer of five slots. -/
theorem replaceSubrange_splices_numbers :
    NativeBuffer.replaceSubrange offsetCollection
        (⟨3, [some 1, some 2, some 3, none, none]⟩ : NativeBuffer ℕ) ⟨1, 2⟩ 2 [7, 8] =
      .ok ⟨4, [some 1, some 7, some 8, some 3, none]⟩ :=
  @replaceSubrange_splices ℕ (List ℕ) ℤ offsetCollection [7, 8] [1, 2, 3] [7, 8] (fun i => (i : ℤ))
    5 1 2 (listed_offsets [7, 8]) (by decide) (by decide) (by decide) (by decide)

end Replacing

end Results

end USwift
