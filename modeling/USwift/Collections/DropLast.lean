import USwift.Collections.SequenceAlgorithms

/-!
# Mapping a sequence and dropping its last elements

Since arrays do not grow, `map` and `dropLast` return as many elements as the underestimate
promises, and leave the rest of a longer sequence out. `dropLast` delays the elements in a
ring buffer of as many cells as are dropped, and stops storing them once its result is full.
-/

namespace USwift

open ContiguousArrayStorage Loops RingBuffers

section Operations

variable {word : WordSize} {Element Result : Type}
  (outOfBounds : Index word → Index word → Index word → Index word)

/-- A round of the loop of `map(_:)`, whose iterator is what remains of the sequence. -/
def mapStep (transform : Element → Result)
    (state : ContiguousArrayStorage word Result × List Element) (i : Value word .int) :
    Except Failure (ContiguousArrayStorage word Result × List Element) :=
  match state with
  | (result, element :: iterator) => do
      let result ← result.assign outOfBounds i (transform element)
      return (result, iterator)
  -- What a missing element is unwrapped to has no defined result.
  | (_, []) => .error .undefined

/-- `map(_:)`. -/
def Sequence.map (self : Sequence word Element) (transform : Element → Result) :
    Except Failure (ContiguousArrayStorage word Result) := do
  let (result, initialCapacity) := uninitialized self.underestimatedCount
  let (result, _) ← (halfOpen 0 initialCapacity).elements.foldlM (mapStep outOfBounds transform)
    (result, self.elements)
  return result

/-- The variables of the loop of `dropLast(_:)`. -/
structure Tank (word : WordSize) (Element : Type) extends Ring word Element where
  result : ContiguousArrayStorage word Element
  resultCount : Value word .int

/-- A round of the loop of `dropLast(_:)`. -/
def dropLastStep (k resultBufferCapacity : Value word .int) (tank : Tank word Element)
    (element : Element) : Except Failure (Tank word Element) :=
  if less word .int tank.ringBufferCount k then do
    let ringBuffer ← tank.ringBuffer.assign outOfBounds tank.ringBufferCount element
    return { tank with ringBuffer, ringBufferCount := tank.ringBufferCount + 1 }
  else if less word .int tank.resultCount resultBufferCapacity then do
    let oldest ← tank.ringBuffer.element outOfBounds tank.i
    let result ← tank.result.assign outOfBounds tank.resultCount oldest
    let ringBuffer ← tank.ringBuffer.assign outOfBounds tank.i element
    let i ← remainder (tank.i + 1) k
    return { tank with ringBuffer, i, result, resultCount := tank.resultCount + 1 }
  else return tank

/-- `dropLast(_:)`, where an array is made of the whole sequence if nothing is dropped. -/
def Sequence.dropLast
    (array : Sequence word Element → Except Failure (ContiguousArrayStorage word Element))
    (self : Sequence word Element) (k : Value word .int) :
    Except Failure (ContiguousArrayStorage word Element) :=
  if k == 0 then array self
  else if !less word .int k self.underestimatedCount then return empty
  else do
    let (result, resultBufferCapacity) := uninitialized (self.underestimatedCount - k)
    let (ringBuffer, k) := uninitialized k
    let tank ← self.elements.foldlM (dropLastStep outOfBounds k resultBufferCapacity)
      ⟨⟨ringBuffer, 0, 0⟩, result, 0⟩
    return tank.result

end Operations

variable {word : WordSize} {Element Result : Type}
  {outOfBounds : Index word → Index word → Index word → Index word}

section Map

variable {transform : Element → Result} {self : Sequence word Element}

end Map

section DropLast

variable {self : Sequence word Element} {k resultBufferCapacity : Value word .int}
  {size capacity : ℕ} {visited seen : List Element} {element : Element} {tank : Tank word Element}
  {ring : Ring word Element}

/-- The oldest element of a full ring buffer. -/
theorem Full.oldest (full : Full size visited ring) :
    ring.ringBuffer.elements[(toInt word .int ring.i).toNat]? =
      (visited[visited.length - size]?).map some := by
  have length := full.length_elements
  have inside := full.inside
  have nonnegative := full.nonnegative
  have first := congrArg (fun cells => cells[0]?) full.elements
  rw [List.getElem?_rotate (by omega), Nat.zero_add, Nat.mod_eq_of_lt (by omega),
    List.getElem?_map, List.rtake, List.getElem?_drop, Nat.add_zero] at first
  exact first

/--
A full tank holds the last elements that it has seen, and the result those before them. It
has seen all elements that have been visited until the result is full.
-/
structure Delayed (size capacity : ℕ) (visited seen : List Element) (tank : Tank word Element) :
    Prop where
  full : Full size seen tank.toRing
  seen_eq : seen = visited.take (size + capacity)
  filled : tank.result.Filled capacity (seen.take (seen.length - size))
  resultCount : toInt word .int tank.resultCount = (seen.length - size : ℕ)

/-- One of the two phases of the loop. -/
def TankInvariant (size capacity : ℕ) (visited : List Element) (tank : Tank word Element) : Prop :=
  (Filling size visited tank.toRing ∧ visited.length < size ∧ tank.result.Filled capacity [] ∧
      tank.resultCount = 0) ∨
    ∃ seen, Delayed size capacity visited seen tank

theorem Filling.dropLastStep (filling : Filling size visited tank.toRing)
    (limit : toInt word .int k = size) (short : visited.length < size)
    (vacant : tank.result.Filled capacity []) (none : tank.resultCount = 0) :
    ∃ tank', USwift.dropLastStep outOfBounds k resultBufferCapacity tank element = .ok tank' ∧
      TankInvariant size capacity (visited ++ [element]) tank' := by
  rcases filling.filled.assign outOfBounds filling.ringBufferCount short element with
    ⟨ringBuffer, assigned, filled⟩
  have below : less word .int tank.ringBufferCount k = true := by
    rw [less_iff, filling.ringBufferCount, limit]
    exact_mod_cast short
  have count : toInt word .int (tank.ringBufferCount + 1) = (visited ++ [element]).length := by
    rw [List.length_append, List.length_singleton]
    exact toInt_add_one filling.ringBufferCount (less_iff.mp below)
  have later : Filling size (visited ++ [element])
      ⟨ringBuffer, tank.i, tank.ringBufferCount + 1⟩ := ⟨filled, count, filling.i⟩
  refine ⟨{ tank with ringBuffer, ringBufferCount := tank.ringBufferCount + 1 }, ?_, ?_⟩
  · rw [USwift.dropLastStep, if_pos below, assigned]
    rfl
  · by_cases whole : (visited ++ [element]).length = size
    · right
      refine ⟨visited ++ [element], ?_, ?_, ?_, ?_⟩
      · rw [← whole]
        exact later.full (by simp) whole
      · rw [List.take_of_length_le (by omega)]
      · rw [whole, Nat.sub_self, List.take_zero]
        exact vacant
      · rw [none, whole, Nat.sub_self]
        exact toInt_zero word .int
    · left
      refine ⟨later, ?_, vacant, none⟩
      rw [List.length_append, List.length_singleton] at whole ⊢
      omega

/-- The oldest element moves to the result, and the new one takes its place. -/
theorem Delayed.stores (delayed : Delayed size capacity visited seen tank)
    (limit : toInt word .int k = size) (positive : 0 < size)
    (room : toInt word .int resultBufferCapacity = capacity)
    (stored : less word .int tank.resultCount resultBufferCapacity = true) :
    ∃ tank', dropLastStep outOfBounds k resultBufferCapacity tank element = .ok tank' ∧
      Delayed size capacity (visited ++ [element]) (visited ++ [element]) tank' := by
  rcases delayed with ⟨full, seen_eq, filled, resultCount⟩
  have enough := full.enough
  have vacant := less_iff.mp stored
  rw [resultCount, room] at vacant
  have seen_length := congrArg List.length seen_eq
  rw [List.length_take] at seen_length
  have all : seen = visited := by
    rw [seen_eq]
    exact List.take_of_length_le (by omega)
  subst all
  have before : seen.length - size < seen.length := by omega
  have oldest := full.oldest
  rw [List.getElem?_eq_getElem before, Option.map_some] at oldest
  have read : tank.ringBuffer.element outOfBounds tank.i = .ok seen[seen.length - size] := by
    apply element_inside full.nonnegative _ oldest
    rw [full.count]
    exact full.inside
  have written : (seen.take (seen.length - size)).length = seen.length - size := by
    rw [List.length_take]
    omega
  rcases filled.assign outOfBounds (by rw [resultCount, written]) (by rw [written]; omega)
    seen[seen.length - size] with ⟨result, moved, filled'⟩
  -- The ring buffer takes the same step as that of `suffix(_:)`.
  have suffix : ∃ ring', suffixStep outOfBounds k tank.toRing element = .ok ring' ∧
      Full size (seen ++ [element]) ring' := full.step limit
  have notBelow := full.not_below limit
  rcases suffix with ⟨ring', stepped, full'⟩
  rw [suffixStep, if_neg notBelow] at stepped
  rcases bind_eq_ok.mp stepped with ⟨ringBuffer, assigned, reduces⟩
  rcases bind_eq_ok.mp reduces with ⟨i, reduced, updated⟩
  have ring_eq : ring' = { tank.toRing with ringBuffer, i } := (Except.ok.inj updated).symm
  subst ring_eq
  have following : (seen ++ [element]).length - size = seen.length - size + 1 := by
    rw [List.length_append, List.length_singleton]
    omega
  refine ⟨{ tank with ringBuffer, i, result, resultCount := tank.resultCount + 1 }, ?_,
    full', ?_, ?_, ?_⟩
  · rw [dropLastStep, if_neg notBelow, if_pos stored, read]
    simp only [bind, Except.bind, moved, assigned, reduced]
    rfl
  · rw [List.take_of_length_le]
    rw [List.length_append, List.length_singleton]
    omega
  · rw [following, List.take_append_of_le_length (by omega),
      List.take_succ_eq_append_getElem before]
    exact filled'
  · rw [following]
    exact toInt_add_one resultCount (less_iff.mp stored)

/-- Once the result is full, the rest of the sequence is left out. -/
theorem Delayed.skips (delayed : Delayed size capacity visited seen tank)
    (limit : toInt word .int k = size) (room : toInt word .int resultBufferCapacity = capacity)
    (whole : ¬ less word .int tank.resultCount resultBufferCapacity = true) :
    dropLastStep outOfBounds k resultBufferCapacity tank element = .ok tank ∧
      Delayed size capacity (visited ++ [element]) seen tank := by
  rcases delayed with ⟨full, seen_eq, filled, resultCount⟩
  constructor
  · rw [dropLastStep, if_neg (full.not_below limit), if_neg whole]
    rfl
  · have enough := full.enough
    have seen_length := congrArg List.length seen_eq
    have fits := filled.fits
    rw [List.length_take] at seen_length fits
    rw [less_iff, resultCount, room] at whole
    refine ⟨full, ?_, filled, resultCount⟩
    rw [seen_eq, List.take_append_of_le_length (by omega)]

theorem TankInvariant.dropLastStep (invariant : TankInvariant size capacity visited tank)
    (limit : toInt word .int k = size) (positive : 0 < size)
    (room : toInt word .int resultBufferCapacity = capacity) :
    ∃ tank', USwift.dropLastStep outOfBounds k resultBufferCapacity tank element = .ok tank' ∧
      TankInvariant size capacity (visited ++ [element]) tank' := by
  rcases invariant with ⟨filling, short, vacant, none⟩ | ⟨seen, delayed⟩
  · exact filling.dropLastStep limit short vacant none
  · by_cases stored : less word .int tank.resultCount resultBufferCapacity = true
    · rcases delayed.stores limit positive room stored with ⟨tank', stepped, later⟩
      exact ⟨tank', stepped, Or.inr ⟨_, later⟩⟩
    · rcases delayed.skips limit room stored with ⟨stepped, later⟩
      exact ⟨tank, stepped, Or.inr ⟨seen, later⟩⟩

end DropLast

end USwift
