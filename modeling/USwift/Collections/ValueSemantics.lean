import USwift.Collections.ArraySlice
import USwift.Library.Loops

/-!
# Sharing between arrays

Copies of an array and its slices have the same storage object. `_makeMutableAndUnique`,
which every assignment calls first, does nothing, so an assignment is seen through every
variable that has the cell.
-/

namespace USwift

open Loops

variable {word : WordSize} {Element Name : Type}

/-- Assigning to the memory that a pointer points to. -/
def ElementPointer.assign (heap : Heap word Element) (pointer : ElementPointer)
    (element : Element) : Except Failure (Heap word Element) :=
  let storage := heap pointer.object
  if 0 ≤ pointer.offset ∧ pointer.offset < storage.elements.length then
    .ok (Function.update heap pointer.object
      { storage with elements := storage.elements.set pointer.offset.toNat (some element) })
  else .error .undefined

section Assignments

variable (heap : Heap word Element)
  (outOfBounds : Index word → Index word → Index word → Index word)

/-- `_makeMutableAndUnique()`, whose body is commented out. -/
def Array.makeMutableAndUnique (array : Array) : Array :=
  array

/-- `subscript(index:)` of an array, when it is assigned to. -/
def Array.modify (array : Array) (index : Index word) (element : Element) :
    Except Failure (Heap word Element) :=
  let array := array.makeMutableAndUnique
  match checkValidSubscript outOfBounds 0 (array.buffer.count heap) index with
  | .error failure => .error failure
  | .ok index => (array.buffer.firstElementAddress.advanced index).assign heap element

/-- `_makeMutableAndUnique()`, whose body is commented out. -/
def ArraySlice.makeMutableAndUnique (slice : ArraySlice word) : ArraySlice word :=
  slice

/-- `subscript(index:)` of a slice, when it is assigned to. -/
def ArraySlice.modify (slice : ArraySlice word) (index : Index word) (element : Element) :
    Except Failure (Heap word Element) :=
  let slice := slice.makeMutableAndUnique
  match checkValidSubscript outOfBounds slice.buffer.startIndex slice.buffer.endIndex index with
  | .error failure => .error failure
  | .ok index => (slice.buffer.subscriptBaseAddress.advanced index).assign heap element

end Assignments

/-- What a variable of one of the two types holds. -/
inductive ArrayValue (word : WordSize) where
  | ofArray (array : Array)
  | ofSlice (slice : ArraySlice word)

namespace ArrayValue

variable (heap : Heap word Element)
  (outOfBounds : Index word → Index word → Index word → Index word)

def startIndex : ArrayValue word → Index word
  | ofArray array => array.startIndex
  | ofSlice slice => slice.startIndex

def endIndex : ArrayValue word → Index word
  | ofArray array => array.endIndex heap
  | ofSlice slice => slice.endIndex

def subscript : ArrayValue word → Index word → Except Failure Element
  | ofArray array => array.subscript heap outOfBounds
  | ofSlice slice => slice.subscript heap outOfBounds

def subscriptRange : ArrayValue word → Range (Index word) → ArraySlice word
  | ofArray array => array.subscriptRange
  | ofSlice slice => slice.subscriptRange

def modify : ArrayValue word → Index word → Element → Except Failure (Heap word Element)
  | ofArray array => array.modify heap outOfBounds
  | ofSlice slice => slice.modify heap outOfBounds

def subscriptBaseAddress : ArrayValue word → ElementPointer
  | ofArray array => array.buffer.firstElementAddress
  | ofSlice slice => slice.buffer.subscriptBaseAddress

/-- The cell that an index is checked to be. -/
def cell (value : ArrayValue word) (index : Index word) : Except Failure ElementPointer :=
  (checkValidSubscript outOfBounds value.startIndex (value.endIndex heap) index).map
    value.subscriptBaseAddress.advanced

end ArrayValue

/-- The storage objects and the variables of a program. -/
structure ArrayState (word : WordSize) (Element Name : Type) where
  heap : Heap word Element
  values : Name → ArrayValue word

inductive ArrayOperation (word : WordSize) (Element Name : Type) where
  /-- `target = source` -/
  | copy (target source : Name)
  /-- `target = source[bounds]` -/
  | slice (target source : Name) (bounds : Range (Index word))
  /-- `target[index] = element` -/
  | assign (target : Name) (index : Index word) (element : Element)

/-- The variable that an operation defines or assigns to. -/
def ArrayOperation.target : ArrayOperation word Element Name → Name
  | .copy target _ | .slice target _ _ | .assign target _ _ => target

namespace ArrayState

variable (outOfBounds : Index word → Index word → Index word → Index word)

def step [DecidableEq Name] (state : ArrayState word Element Name) :
    ArrayOperation word Element Name → Except Failure (ArrayState word Element Name)
  | .copy target source =>
      .ok { state with
        values := Function.update state.values target (state.values source) }
  | .slice target source bounds =>
      .ok { state with
        values := Function.update state.values target
          (.ofSlice ((state.values source).subscriptRange bounds)) }
  | .assign target index element => do
      let heap ← (state.values target).modify state.heap outOfBounds index element
      return { state with heap }

/-- An index of the sequence that is observed through a variable. -/
def contains (state : ArrayState word Element Name) (name : Name) (index : Index word) : Bool :=
  let value := state.values name
  !less word .int index value.startIndex && less word .int index (value.endIndex state.heap)

/-- The sequence that is observed through a variable, by its indices. -/
def observed (state : ArrayState word Element Name) (name : Name) (index : Index word) :
    Option (Except Failure Element) :=
  if state.contains name index then
    some ((state.values name).subscript state.heap outOfBounds index)
  else none

/-- An element of the sequence that is observed through a variable is in a cell. -/
def Sees (state : ArrayState word Element Name) (name : Name) (index : Index word)
    (pointer : ElementPointer) : Prop :=
  state.contains name index = true ∧
    (state.values name).cell state.heap outOfBounds index = .ok pointer

/--
The cell that an assignment goes to is that of no other variable and of no other index,
unless it has the element already.
-/
def Unshared (state : ArrayState word Element Name) (name : Name) (index : Index word)
    (element : Element) : Prop :=
  ∀ pointer, (state.values name).cell state.heap outOfBounds index = .ok pointer →
    pointer.pointee state.heap = .ok element ∨
      ∀ name' index', state.Sees outOfBounds name' index' pointer → name' = name ∧ index' = index

/-- An assignment changes the sequence of its variable, at its index, and no other sequence. -/
structure KeepsValueSemantics (before after : ArrayState word Element Name) (name : Name)
    (index : Index word) (element : Element) : Prop where
  assigned : before.contains name index = true →
    after.observed outOfBounds name index = some (.ok element)
  own : ∀ index', index' ≠ index →
    after.observed outOfBounds name index' = before.observed outOfBounds name index'
  others : ∀ name', name' ≠ name →
    after.observed outOfBounds name' = before.observed outOfBounds name'

/-- A run makes an assignment in one state and goes on in another one. -/
def Assigns [DecidableEq Name] (start : ArrayState word Element Name)
    (operations : List (ArrayOperation word Element Name))
    (before after : ArrayState word Element Name) (name : Name) (index : Index word)
    (element : Element) : Prop :=
  ∃ earlier, earlier ++ [.assign name index element] <+: operations ∧
    earlier.foldlM (step outOfBounds) start = .ok before ∧
    before.step outOfBounds (.assign name index element) = .ok after

end ArrayState

section Cells

variable {heap heap' : Heap word Element} {pointer pointer' : ElementPointer} {element : Element}
  {outOfBounds : Index word → Index word → Index word → Index word}

theorem ElementPointer.count_assign (assigned : pointer.assign heap element = .ok heap')
    (object : ℕ) : (heap' object).count = (heap object).count := by
  rw [assign] at assigned
  split at assigned
  · cases assigned
    by_cases same : object = pointer.object
    · rw [same, Function.update_self]
    · rw [Function.update_of_ne same]
  · cases assigned

theorem ElementPointer.pointee_assign (assigned : pointer.assign heap element = .ok heap')
    (pointer' : ElementPointer) :
    pointer'.pointee heap' =
      if pointer' = pointer then .ok element else pointer'.pointee heap := by
  rw [assign] at assigned
  split at assigned
  · next inside =>
    cases assigned
    by_cases object : pointer'.object = pointer.object
    · rw [pointee, pointee, object, Function.update_self]
      by_cases offset : pointer'.offset = pointer.offset
      · have same : pointer' = pointer := by
          cases pointer'
          cases pointer
          cases object
          cases offset
          rfl
        have position : pointer.offset.toNat < (heap pointer.object).elements.length := by omega
        rw [if_pos same, offset, if_neg (by omega)]
        simp only
        rw [List.getElem?_set_self position]
      · have differ : pointer' ≠ pointer := fun same =>
          offset (congrArg ElementPointer.offset same)
        rw [if_neg differ]
        split
        · rfl
        · next nonnegative =>
          have apart : pointer.offset.toNat ≠ pointer'.offset.toNat := by omega
          simp only
          rw [List.getElem?_set_ne apart]
    · have differ : pointer' ≠ pointer := fun same => object (congrArg ElementPointer.object same)
      rw [if_neg differ, pointee, pointee, Function.update_of_ne object]
  · cases assigned

namespace ArrayValue

theorem subscript_eq (value : ArrayValue word) (index : Index word) :
    value.subscript heap outOfBounds index =
      (value.cell heap outOfBounds index).bind fun pointer => pointer.pointee heap := by
  cases value with
  | ofArray array =>
      simp only [subscript, cell, Array.subscript, startIndex, endIndex, Array.startIndex,
        Array.endIndex, Array.count]
      cases checkValidSubscript outOfBounds 0 (array.buffer.count heap) index with
      | error failure => rfl
      | ok index => rfl
  | ofSlice slice =>
      simp only [subscript, cell, ArraySlice.subscript, startIndex, endIndex,
        ArraySlice.startIndex, ArraySlice.endIndex]
      cases checkValidSubscript outOfBounds slice.buffer.startIndex slice.buffer.endIndex index with
      | error failure => rfl
      | ok index => rfl

theorem modify_eq (value : ArrayValue word) (index : Index word) :
    value.modify heap outOfBounds index element =
      (value.cell heap outOfBounds index).bind fun pointer => pointer.assign heap element := by
  cases value with
  | ofArray array =>
      simp only [modify, cell, Array.modify, Array.makeMutableAndUnique, startIndex, endIndex,
        Array.startIndex, Array.endIndex, Array.count]
      cases checkValidSubscript outOfBounds 0 (array.buffer.count heap) index with
      | error failure => rfl
      | ok index => rfl
  | ofSlice slice =>
      simp only [modify, cell, ArraySlice.modify, ArraySlice.makeMutableAndUnique, startIndex,
        endIndex, ArraySlice.startIndex, ArraySlice.endIndex]
      cases checkValidSubscript outOfBounds slice.buffer.startIndex slice.buffer.endIndex index with
      | error failure => rfl
      | ok index => rfl

theorem endIndex_congr (counts : ∀ object, (heap' object).count = (heap object).count)
    (value : ArrayValue word) : value.endIndex heap' = value.endIndex heap := by
  cases value with
  | ofArray array => exact counts array.buffer.storage
  | ofSlice slice => rfl

end ArrayValue

end Cells

namespace ArrayState

variable {outOfBounds : Index word → Index word → Index word → Index word}
  {before after start final : ArrayState word Element Name} {name : Name} {index : Index word}
  {element : Element} {pointer : ElementPointer}

/-- What an assignment leads to: the variables and their cells stay, and one cell changes. -/
structure Writes (outOfBounds : Index word → Index word → Index word → Index word)
    (before after : ArrayState word Element Name) (pointer : ElementPointer)
    (element : Element) : Prop where
  contains : after.contains = before.contains
  cell : ∀ name index, (after.values name).cell after.heap outOfBounds index =
    (before.values name).cell before.heap outOfBounds index
  pointee : ∀ pointer', pointer'.pointee after.heap =
    if pointer' = pointer then .ok element else pointer'.pointee before.heap

theorem step_assign [DecidableEq Name]
    (stepped : before.step outOfBounds (.assign name index element) = .ok after) :
    ∃ pointer, (before.values name).cell before.heap outOfBounds index = .ok pointer ∧
      Writes outOfBounds before after pointer element := by
  rcases bind_eq_ok.mp stepped with ⟨heap, modified, stored⟩
  cases stored
  rw [ArrayValue.modify_eq] at modified
  rcases bind_eq_ok.mp modified with ⟨pointer, cell, assigned⟩
  have counts := ElementPointer.count_assign assigned
  refine ⟨pointer, cell, ?_, ?_, ElementPointer.pointee_assign assigned⟩
  · funext name index
    rw [contains, contains, ArrayValue.endIndex_congr counts]
  · intro name index
    rw [ArrayValue.cell, ArrayValue.cell, ArrayValue.endIndex_congr counts]

theorem Writes.observed_of_sees (writes : Writes outOfBounds before after pointer element)
    (sees : before.Sees outOfBounds name index pointer) :
    after.observed outOfBounds name index = some (.ok element) := by
  rcases sees with ⟨contained, cell⟩
  rw [observed, writes.contains, if_pos contained, ArrayValue.subscript_eq, writes.cell, cell,
    Except.bind, writes.pointee, if_pos rfl]

theorem Writes.observed_of_not_sees (writes : Writes outOfBounds before after pointer element)
    (unseen : ¬ before.Sees outOfBounds name index pointer) :
    after.observed outOfBounds name index = before.observed outOfBounds name index := by
  rw [observed, observed, writes.contains]
  by_cases contained : before.contains name index = true
  · rw [if_pos contained, if_pos contained, ArrayValue.subscript_eq, ArrayValue.subscript_eq,
      writes.cell]
    cases cell : (before.values name).cell before.heap outOfBounds index with
    | error failure => rfl
    | ok pointer' =>
        have differ : pointer' ≠ pointer := by
          rintro rfl
          exact unseen ⟨contained, cell⟩
        rw [Except.bind, Except.bind, writes.pointee, if_neg differ]
  · rw [if_neg contained, if_neg contained]

theorem observed_eq_of_sees (sees : before.Sees outOfBounds name index pointer) :
    before.observed outOfBounds name index = some (pointer.pointee before.heap) := by
  rcases sees with ⟨contained, cell⟩
  rw [observed, if_pos contained, ArrayValue.subscript_eq, cell, Except.bind]

theorem Writes.unchanged_iff (writes : Writes outOfBounds before after pointer element) :
    after.observed outOfBounds name index = before.observed outOfBounds name index ↔
      (before.Sees outOfBounds name index pointer →
        pointer.pointee before.heap = .ok element) := by
  by_cases sees : before.Sees outOfBounds name index pointer
  · rw [writes.observed_of_sees sees, observed_eq_of_sees sees, Option.some_inj]
    exact ⟨fun same _ => same.symm, fun held => (held sees).symm⟩
  · exact iff_of_true (writes.observed_of_not_sees sees) fun seen => absurd seen sees

theorem keepsValueSemantics_iff [DecidableEq Name]
    (stepped : before.step outOfBounds (.assign name index element) = .ok after) :
    KeepsValueSemantics outOfBounds before after name index element ↔
      before.Unshared outOfBounds name index element := by
  rcases step_assign stepped with ⟨pointer, cell, writes⟩
  constructor
  · intro keeps pointer' cell'
    cases cell.symm.trans cell'
    by_cases held : pointer.pointee before.heap = .ok element
    · exact .inl held
    · refine .inr fun name' index' sees => ?_
      by_contra other
      apply held
      refine writes.unchanged_iff.mp ?_ sees
      by_cases own : name' = name
      · subst own
        exact keeps.own index' fun same => other ⟨rfl, same⟩
      · exact congrFun (keeps.others name' own) index'
  · intro unshared
    have unchanged : ∀ name' index', ¬ (name' = name ∧ index' = index) →
        after.observed outOfBounds name' index' = before.observed outOfBounds name' index' := by
      intro name' index' other
      refine writes.unchanged_iff.mpr fun sees => ?_
      rcases unshared pointer cell with held | alone
      · exact held
      · exact absurd (alone name' index' sees) other
    refine ⟨?_, ?_, ?_⟩
    · intro contained
      exact writes.observed_of_sees ⟨contained, cell⟩
    · intro index' differ
      exact unchanged name index' fun same => differ same.2
    · intro name' differ
      funext index'
      exact unchanged name' index' fun same => differ same.1

section Runs

variable [DecidableEq Name] {operations : List (ArrayOperation word Element Name)}

theorem observed_update (value : ArrayValue word) {target : Name} (other : name ≠ target) :
    ArrayState.observed outOfBounds
        ⟨before.heap, Function.update before.values target value⟩ name =
      before.observed outOfBounds name := by
  funext index
  simp only [observed, contains, Function.update_of_ne other]
  rfl

theorem step_keeps {operation : ArrayOperation word Element Name}
    (stepped : before.step outOfBounds operation = .ok after)
    (unshared : ∀ index element, operation = .assign operation.target index element →
      before.Unshared outOfBounds operation.target index element)
    (other : name ≠ operation.target) :
    after.observed outOfBounds name = before.observed outOfBounds name := by
  cases operation with
  | copy target source =>
      cases stepped
      exact observed_update _ other
  | slice target source bounds =>
      cases stepped
      exact observed_update _ other
  | assign target index element =>
      exact ((keepsValueSemantics_iff stepped).mpr (unshared index element rfl)).others name other

theorem run_keeps
    (unshared : ∀ before after name index element,
      Assigns outOfBounds start operations before after name index element →
      before.Unshared outOfBounds name index element)
    (runs : operations.foldlM (step outOfBounds) start = .ok final)
    (untouched : ∀ operation ∈ operations, operation.target ≠ name) :
    final.observed outOfBounds name = start.observed outOfBounds name := by
  induction operations using List.reverseRecOn generalizing final with
  | nil =>
      cases runs
      rfl
  | append_singleton earlier operation further =>
      rw [List.foldlM_append] at runs
      rcases bind_eq_ok.mp runs with ⟨before, ran, stepped⟩
      simp only [List.foldlM_cons, List.foldlM_nil, bind_pure] at stepped
      have same : before.observed outOfBounds name = start.observed outOfBounds name := by
        apply further
        · rintro before' after' name' index' element' ⟨first, within, rest⟩
          exact unshared before' after' name' index' element'
            ⟨first, within.trans (List.prefix_append _ _), rest⟩
        · exact ran
        · exact fun operation' member => untouched operation' (List.mem_append_left _ member)
      rw [← same]
      refine step_keeps stepped ?_ (untouched operation (by simp)).symm
      rintro index element assigns
      refine unshared before final operation.target index element ⟨earlier, ?_, ran, ?_⟩
      · rw [← assigns]
      · rw [← assigns]
        exact stepped

end Runs

/--
A run has value semantics exactly when its assignments go to cells that are not shared. In
such a run, a variable that no operation defines or assigns to is the same in every state.
-/
theorem valueSemantics_iff (word : WordSize) (Element Name : Type) [DecidableEq Name]
    (outOfBounds : Index word → Index word → Index word → Index word)
    (start : ArrayState word Element Name)
    (operations : List (ArrayOperation word Element Name)) :
    ((∀ before after name index element,
        Assigns outOfBounds start operations before after name index element →
        KeepsValueSemantics outOfBounds before after name index element) ↔
      ∀ before after name index element,
        Assigns outOfBounds start operations before after name index element →
        before.Unshared outOfBounds name index element) ∧
    ((∀ before after name index element,
        Assigns outOfBounds start operations before after name index element →
        before.Unshared outOfBounds name index element) →
      ∀ final, operations.foldlM (step outOfBounds) start = .ok final →
        ∀ name, (∀ operation ∈ operations, operation.target ≠ name) →
          final.observed outOfBounds name = start.observed outOfBounds name) := by
  refine ⟨?_, fun unshared final runs name untouched => run_keeps unshared runs untouched⟩
  refine forall₅_congr fun before after name index element => ?_
  refine forall_congr' fun assigns => ?_
  rcases assigns with ⟨earlier, within, ran, stepped⟩
  exact keepsValueSemantics_iff stepped

end ArrayState

/-- Two variables with an array each. -/
def twoArrays : ArrayState .word16 ℕ Bool :=
  ⟨fun _ => ⟨3, [some 10, some 20, some 30]⟩, fun name => .ofArray ⟨⟨name.toNat⟩⟩⟩

/-- After `b = a`, the assignment `b[0] = 99` changes `a`. -/
theorem twoArrays_share :
    let outOfBounds : Index .word16 → Index .word16 → Index .word16 → Index .word16 :=
      fun index _ _ => index
    ∃ before after,
      ArrayState.Assigns outOfBounds twoArrays [.copy true false, .assign true 0 99]
        before after true 0 99 ∧
      ¬ ArrayState.KeepsValueSemantics outOfBounds before after true 0 99 := by
  intro outOfBounds
  refine ⟨_, _, ⟨[.copy true false], List.prefix_rfl, rfl, rfl⟩, ?_⟩
  intro keeps
  have unchanged := congrFun (keeps.others false (by decide)) 0
  exact absurd unchanged (by decide)

end USwift
