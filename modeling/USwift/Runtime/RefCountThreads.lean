import USwift.Library.Interleaving
import USwift.Runtime.RefCount

/-!
# Reference counts under interleaving threads

`swift_retain_n_` and `swift_release_n_` load the word, compare it with the immortal mark,
and change it by an atomic addition or subtraction, so that other threads may come in
between. The threads' accesses are modelled one by one, in any order. References are held by
variables, which a call relies on or takes its references from.
-/

namespace USwift

open HeapObject RefCountOperation Interleaving

variable {word : WordSize}

def loadRelaxed (object : HeapObject word) : Value word .int := object.refcount

def loadAcquire (object : HeapObject word) : Value word .int := object.refcount

def addRelaxed (object : HeapObject word) (n : Value word .int) : HeapObject word :=
  ⟨object.refcount + n⟩

/-- The object afterwards, and the new value that is computed from the old one. -/
def subFetchAcquireRelease (object : HeapObject word) (n : Value word .int) :
    HeapObject word × Value word .int :=
  (⟨object.refcount - n⟩, object.refcount - n)

/-- Where a thread is between two accesses to the object. -/
inductive Position (Holder : Type*) where
  | outside
  /-- `swift_retain_n_` before its load. -/
  | retaining (n : BitVec 32) (source target : Holder)
  /-- `swift_retain_n_` after it saw a count. -/
  | adding (n : BitVec 32) (source target : Holder)
  /-- `swift_release_n_` before its load. -/
  | releasing (n : BitVec 32)
  /-- `swift_release_n_` after it saw a count. -/
  | subtracting (n : BitVec 32)
  /-- The object's destroy function, which ends in `swift_deallocClassInstance`. -/
  | destroying
  /-- `swift_isUniquelyReferenced_nonNull_native`. -/
  | testing (holder : Holder)
  | failed
  deriving DecidableEq

/-- What an access means for the references. -/
inductive Effect (Holder : Type*) where
  | silent
  | retained (n : BitVec 32) (target : Holder)
  | released (n : BitVec 32) (outcome : Outcome)
  | tested (holder : Holder) (unique : Bool)
  | deallocated (freed : Bool)
  deriving DecidableEq

section Accesses

variable {Holder : Type*}

/-- The code of a thread up to and with its next access to the object. -/
def access (object : HeapObject word) :
    Position Holder → HeapObject word × Position Holder × Effect Holder
  | .outside => (object, .outside, .silent)
  | .retaining n source target =>
      if loadRelaxed object == immortalRefCount word then (object, .outside, .retained n target)
      else (object, .adding n source target, .silent)
  | .adding n _ target =>
      (addRelaxed object (truncatingIfNeeded word .int .uint32 n), .outside, .retained n target)
  | .releasing n =>
      if loadRelaxed object == immortalRefCount word then (object, .outside, .released n .returned)
      else (object, .subtracting n, .silent)
  | .subtracting n =>
      let fetched := subFetchAcquireRelease object (truncatingIfNeeded word .int .uint32 n)
      let resultingRefcount := fetched.2 &&& refcountMask word
      if resultingRefcount == 0 then (fetched.1, .destroying, .released n .destroyed)
      else if less word .int resultingRefcount 0 then (fetched.1, .failed, .released n .fatalError)
      else (fetched.1, .outside, .released n .returned)
  | .destroying => (object, .outside, .deallocated (swiftDeallocClassInstance object))
  | .testing holder => (object, .outside, .tested holder (loadAcquire object == 1))
  | .failed => (object, .failed, .silent)

namespace Position

/-- The holder whose reference keeps the object alive during a call. -/
def ReliesOn (holder : Holder) : Position Holder → Prop
  | retaining _ source _ | adding _ source _ | testing source => source = holder
  | outside | releasing _ | subtracting _ | destroying | failed => False

/-- The references that a call has been given to release. -/
def carried : Position Holder → ℕ
  | releasing n | subtracting n => n.toNat
  | outside | retaining .. | adding .. | destroying | testing _ | failed => 0

/-- The references that a call is about to create. -/
def pending : Position Holder → ℕ
  | retaining n _ _ | adding n _ _ => n.toNat
  | outside | releasing _ | subtracting _ | destroying | testing _ | failed => 0

/-- The destroy functions that have begun. -/
def destruction : Position Holder → ℕ
  | destroying => 1
  | outside | retaining .. | adding .. | releasing _ | subtracting _ | testing _ | failed => 0

/-- The positions that threads reach in calls on an object of a kind. -/
def Allowed (kind : ObjectKind) : Position Holder → Prop
  | adding .. | destroying => kind ≠ .static
  | releasing n => 0 < n.toNat
  | subtracting n => kind ≠ .static ∧ 0 < n.toNat
  | failed => False
  | outside | retaining .. | testing _ => True

end Position

namespace Effect

/-- What the holders gain by an effect. -/
def credit [DecidableEq Holder] (held : Holder → ℕ) : Effect Holder → Holder → ℕ
  | retained n target => Function.update held target (held target + n.toNat)
  | silent | released .. | tested .. | deallocated _ => held

/-- The call that an effect completes, with its outcome. -/
def completed : Effect Holder → Option (RefCountOperation × Outcome)
  | retained n _ => some (.retainN n, .returned)
  | released n outcome => some (.releaseN n, outcome)
  | silent | tested .. | deallocated _ => none

/-- Whether the memory was given back, for each return from a destroy function. -/
def freed : Effect Holder → List Bool
  | deallocated freed => [freed]
  | silent | retained .. | released .. | tested .. => []

end Effect

end Accesses

/-- The threads of a program and the references that it holds to one object. -/
structure Machine (word : WordSize) (Thread Holder : Type*) where
  object : HeapObject word
  position : Thread → Position Holder
  held : Holder → ℕ
  ended : List Bool

/-- What can happen next: a call by a thread, a reference that moves, or an access. -/
inductive Label (Thread Holder : Type*) where
  | retain (thread : Thread) (n : BitVec 32) (source target : Holder)
  | release (thread : Thread) (n : BitVec 32) (source : Holder)
  | test (thread : Thread) (holder : Holder)
  | move (n : ℕ) (source target : Holder)
  | access (thread : Thread) (effect : Effect Holder)

/-- The call that a step completes, with its outcome. -/
def Label.completed {Thread Holder : Type*} :
    Label Thread Holder → Option (RefCountOperation × Outcome)
  | access _ effect => effect.completed
  | retain .. | release .. | test .. | move .. => none

/-- The holders whose references a step uses, the accesses of calls aside. -/
def Label.Uses {Thread Holder : Type*} (holder : Holder) : Label Thread Holder → Prop
  | retain _ _ source _ | release _ _ source | test _ source | move _ source _ => source = holder
  | access .. => False

variable {Thread Holder : Type*} [Fintype Thread] [Fintype Holder]

namespace Machine

/-- An object that has just been created, with its reference in one variable. -/
def start [DecidableEq Holder] (object : HeapObject word) (holder : Holder) :
    Machine word Thread Holder where
  object := object
  position := fun _ => .outside
  held := Pi.single holder 1
  ended := []

/-- The references that have not been released. -/
def total (machine : Machine word Thread Holder) : ℕ :=
  ∑ holder, machine.held holder + ∑ thread, (machine.position thread).carried

def pending (machine : Machine word Thread Holder) : ℕ :=
  ∑ thread, (machine.position thread).pending

def destructions (machine : Machine word Thread Holder) : ℕ :=
  ∑ thread, (machine.position thread).destruction

/-- A holder's reference is needed by a thread that is in a call. -/
def Needed (machine : Machine word Thread Holder) (holder : Holder) : Prop :=
  ∃ thread, (machine.position thread).ReliesOn holder

variable [DecidableEq Thread]

/-- A thread goes on, and the holders get new references. -/
def advance (machine : Machine word Thread Holder) (thread : Thread)
    (position : Position Holder) (held : Holder → ℕ) : Machine word Thread Holder where
  object := machine.object
  position := Function.update machine.position thread position
  held := held
  ended := machine.ended

/-- The next access of a thread. -/
def accessed [DecidableEq Holder] (machine : Machine word Thread Holder) (thread : Thread) :
    Machine word Thread Holder × Effect Holder :=
  let result := access machine.object (machine.position thread)
  ({ machine.advance thread result.2.1 (result.2.2.credit machine.held) with
    object := result.1
    ended := machine.ended ++ result.2.2.freed }, result.2.2)

end Machine

section Step

variable [DecidableEq Thread] [DecidableEq Holder]

/--
One step of a program that keeps to the rules of references. A call relies on a reference
that stays where it is, or takes references away from their holder. The uniqueness test has
exclusive access to its variable. The references never become as many as the immortal mark.
-/
inductive Step (kind : ObjectKind) (machine : Machine word Thread Holder) :
    Label Thread Holder → Machine word Thread Holder → Prop
  | retain {thread : Thread} {n : BitVec 32} {source target : Holder}
      (outside : machine.position thread = .outside) (referenced : 0 < machine.held source)
      (untested : ∀ other, machine.position other ≠ .testing source)
      (room : kind ≠ .static →
        machine.total + machine.pending + n.toNat < (immortalRefCount word).toNat) :
      Step kind machine (.retain thread n source target)
        (machine.advance thread (.retaining n source target) machine.held)
  | release {thread : Thread} {n : BitVec 32} {source : Holder}
      (outside : machine.position thread = .outside) (positive : 0 < n.toNat)
      (covered : n.toNat ≤ machine.held source)
      (kept : machine.Needed source → n.toNat < machine.held source) :
      Step kind machine (.release thread n source)
        (machine.advance thread (.releasing n)
          (Function.update machine.held source (machine.held source - n.toNat)))
  | test {thread : Thread} {holder : Holder} (outside : machine.position thread = .outside)
      (referenced : 0 < machine.held holder) (exclusive : ¬ machine.Needed holder) :
      Step kind machine (.test thread holder)
        (machine.advance thread (.testing holder) machine.held)
  | move {n : ℕ} {source target : Holder} (different : source ≠ target) (positive : 0 < n)
      (covered : n ≤ machine.held source)
      (kept : machine.Needed source → n < machine.held source) :
      Step kind machine (.move n source target)
        { machine with held := Function.update (Function.update machine.held source
            (machine.held source - n)) target (machine.held target + n) }
  | access {thread : Thread} (inside : machine.position thread ≠ .outside) :
      Step kind machine (.access thread (machine.accessed thread).2) (machine.accessed thread).1

end Step

/-- What holds of the machine between any two steps. -/
structure Accounted (kind : ObjectKind) (machine : Machine word Thread Holder) : Prop where
  header : machine.object = kind.header word machine.total
  bounded : kind ≠ .static →
    machine.total + machine.pending < (immortalRefCount word).toNat
  relied : ∀ thread holder, (machine.position thread).ReliesOn holder → 0 < machine.held holder
  allowed : ∀ thread, (machine.position thread).Allowed kind
  alone : ∀ thread other holder, machine.position thread = .testing holder →
    (machine.position other).ReliesOn holder → other = thread
  ended : machine.ended.length + machine.destructions =
    if kind ≠ .static ∧ machine.total = 0 then 1 else 0
  freed : ∀ freed ∈ machine.ended, freed = decide (kind = .heap)

section Access

variable {Holder : Type*} {kind : ObjectKind} {count : ℕ} {n : BitVec 32}
  {object : HeapObject word}

/-- Where a thread goes on after the last access of a release. -/
def Outcome.position : Outcome → Position Holder
  | returned => .outside
  | destroyed => .destroying
  | fatalError => .failed

theorem Outcome.carried_position (Holder : Type*) (outcome : Outcome) :
    (outcome.position : Position Holder).carried = 0 := by
  cases outcome <;> rfl

theorem access_adding (counted : (object.refcount == immortalRefCount word) = false)
    (source target : Holder) :
    access object (.adding n source target) =
      (swiftRetainN_ object n, .outside, .retained n target) := by
  rw [swiftRetainN_, counted, if_neg Bool.false_ne_true]
  rfl

theorem access_subtracting (Holder : Type*) (n : BitVec 32)
    (counted : (object.refcount == immortalRefCount word) = false) :
    access object (.subtracting n : Position Holder) =
      ((swiftReleaseN_ object n).1, (swiftReleaseN_ object n).2.position,
        .released n (swiftReleaseN_ object n).2) := by
  rw [swiftReleaseN_, counted, if_neg Bool.false_ne_true]
  dsimp only [access, subFetchAcquireRelease]
  by_cases none : (object.refcount - truncatingIfNeeded word .int .uint32 n &&&
      refcountMask word == 0) = true
  · rw [if_pos none]
    exact if_pos none
  · rw [if_neg none]
    apply (if_neg none).trans
    by_cases negative : less word .int (object.refcount -
        truncatingIfNeeded word .int .uint32 n &&& refcountMask word) 0 = true
    · rw [if_pos negative]
      exact if_pos negative
    · rw [if_neg negative]
      exact if_neg negative

theorem access_retaining_counted (counted : (object.refcount == immortalRefCount word) = false)
    (source target : Holder) :
    access object (.retaining n source target) =
      (object, .adding n source target, .silent) := by
  simp [access, loadRelaxed, counted]

theorem access_releasing_counted (counted : (object.refcount == immortalRefCount word) = false) :
    access object (.releasing n : Position Holder) = (object, .subtracting n, .silent) := by
  simp [access, loadRelaxed, counted]

theorem access_retaining_static (word : WordSize) (count : ℕ) (n : BitVec 32)
    (source target : Holder) :
    access (ObjectKind.static.header word count) (.retaining n source target) =
      (ObjectKind.static.header word count, .outside, .retained n target) := by
  simp [access, loadRelaxed, ObjectKind.header]

theorem access_releasing_static (Holder : Type*) (word : WordSize) (count : ℕ) (n : BitVec 32) :
    access (ObjectKind.static.header word count) (.releasing n : Position Holder) =
      (ObjectKind.static.header word count, .outside, .released n .returned) := by
  simp [access, loadRelaxed, ObjectKind.header]

end Access

section Advance

variable {kind : ObjectKind} {machine : Machine word Thread Holder} {thread : Thread}
  {position : Position Holder} {held : Holder → ℕ} {object : HeapObject word}
  {ended : List Bool}

theorem held_le_total (machine : Machine word Thread Holder) (holder : Holder) :
    machine.held holder ≤ machine.total :=
  (le_sum machine.held holder).trans (Nat.le_add_right _ _)

theorem carried_le_total (machine : Machine word Thread Holder) (thread : Thread) :
    (machine.position thread).carried ≤ machine.total :=
  (le_sum (fun other => (machine.position other).carried) thread).trans (Nat.le_add_left _ _)

theorem Accounted.total_pos (accounted : Accounted kind machine) {holder : Holder}
    (needed : machine.Needed holder) : 0 < machine.total := by
  rcases needed with ⟨thread, relies⟩
  exact (accounted.relied thread holder relies).trans_le (held_le_total machine holder)

/-- While there are references, no destroy function has begun. -/
theorem Accounted.not_ended (accounted : Accounted kind machine)
    (alive : 0 < machine.total) : machine.ended = [] ∧ machine.destructions = 0 := by
  have ended := accounted.ended
  rw [if_neg (by omega)] at ended
  exact ⟨List.length_eq_zero_iff.mp (by omega), by omega⟩

variable [DecidableEq Thread]

theorem total_advance : (machine.advance thread position held).total +
    (machine.position thread).carried + ∑ holder, machine.held holder =
      machine.total + position.carried + ∑ holder, held holder := by
  have parts := sum_update_add machine.position Position.carried thread position
  simp only [Machine.total, Machine.advance]
  omega

omit [Fintype Holder] in
theorem destructions_advance : (machine.advance thread position held).destructions +
    (machine.position thread).destruction = machine.destructions + position.destruction :=
  sum_update_add machine.position Position.destruction thread position

omit [Fintype Holder] in
theorem pending_advance : (machine.advance thread position held).pending +
    (machine.position thread).pending = machine.pending + position.pending :=
  sum_update_add machine.position Position.pending thread position

omit [Fintype Thread] [Fintype Holder] in
theorem position_advance (other : Thread) :
    (machine.advance thread position held).position other =
      if other = thread then position else machine.position other :=
  Function.update_apply _ _ _ _

/-- What a thread's move has to keep. -/
theorem Accounted.advanced (accounted : Accounted kind machine)
    (header : object = kind.header word (machine.advance thread position held).total)
    (bounded : kind ≠ .static → (machine.advance thread position held).total +
      (machine.advance thread position held).pending < (immortalRefCount word).toNat)
    (keeps : ∀ holder, machine.Needed holder → 0 < held holder)
    (relied : ∀ holder, position.ReliesOn holder → 0 < held holder)
    (allowed : position.Allowed kind)
    (testing : ∀ holder, position = .testing holder → ¬ machine.Needed holder)
    (tested : ∀ other holder, position.ReliesOn holder →
      machine.position other = .testing holder → other = thread)
    (finished : ended.length + (machine.advance thread position held).destructions =
      if kind ≠ .static ∧ (machine.advance thread position held).total = 0 then 1 else 0)
    (freed : ∀ freed ∈ ended, freed = decide (kind = .heap)) :
    Accounted kind
      { machine.advance thread position held with object := object, ended := ended } where
  header := header
  bounded := bounded
  ended := finished
  freed := freed
  relied := by
    intro other holder relies
    rw [position_advance] at relies
    split_ifs at relies with same
    · exact relied holder relies
    · exact keeps holder ⟨other, relies⟩
  allowed := by
    intro other
    rw [position_advance]
    split_ifs with same
    · exact allowed
    · exact accounted.allowed other
  alone := by
    intro first second holder tests relies
    rw [position_advance] at tests relies
    split_ifs at tests relies with firstSame secondSame secondSame
    · rw [firstSame, secondSame]
    · exact absurd ⟨second, relies⟩ (testing holder tests)
    · rw [secondSame, tested first holder relies tests]
    · exact accounted.alone first second holder tests relies

end Advance

section Credit

variable [DecidableEq Holder]

omit [Fintype Holder] in
theorem le_credit (effect : Effect Holder) (held : Holder → ℕ) (holder : Holder) :
    held holder ≤ effect.credit held holder := by
  cases effect with
  | retained n target =>
      rcases eq_or_ne holder target with rfl | different
      · simp [Effect.credit]
      · simp [Effect.credit, different]
  | silent | released | tested | deallocated => exact le_rfl

theorem sum_credit (held : Holder → ℕ) (n : BitVec 32) (target : Holder) :
    ∑ holder, (Effect.retained n target).credit held holder =
      ∑ holder, held holder + n.toNat := by
  have parts := sum_update_add held id target (held target + n.toNat)
  simp only [id, Effect.credit] at parts ⊢
  omega

end Credit

theorem dealloc_header_zero {kind : ObjectKind} (counted : kind ≠ .static) :
    swiftDeallocClassInstance (kind.header word 0) = decide (kind = .heap) := by
  cases kind with
  | static => exact absurd rfl counted
  | heap => cases word <;> decide
  | stack => cases word <;> decide

section Accessed

variable [DecidableEq Thread] [DecidableEq Holder] {kind : ObjectKind}
  {machine : Machine word Thread Holder} {thread : Thread} {before after : Position Holder}
  {effect : Effect Holder} {object : HeapObject word} {held : Holder → ℕ}

/-- What an access has to keep. -/
theorem Accounted.accessed_of (accounted : Accounted kind machine)
    (stands : machine.position thread = before)
    (accesses : access machine.object before = (object, after, effect))
    (credits : effect.credit machine.held = held)
    (header : object = kind.header word (machine.advance thread after held).total)
    (bounded : kind ≠ .static → (machine.advance thread after held).total +
      (machine.advance thread after held).pending < (immortalRefCount word).toNat)
    (relies : ∀ holder, after.ReliesOn holder → before.ReliesOn holder)
    (allowed : after.Allowed kind) (untested : ∀ holder, after ≠ .testing holder)
    (finished : (machine.ended ++ effect.freed).length +
        (machine.advance thread after held).destructions =
      if kind ≠ .static ∧ (machine.advance thread after held).total = 0 then 1 else 0)
    (freed : ∀ freed ∈ effect.freed, freed = decide (kind = .heap)) :
    Accounted kind (machine.accessed thread).1 := by
  have grows := le_credit effect machine.held
  subst stands credits
  simp only [Machine.accessed, accesses]
  apply accounted.advanced header bounded
  · intro holder needed
    rcases needed with ⟨other, needs⟩
    exact (accounted.relied other holder needs).trans_le (grows holder)
  · intro holder needs
    exact (accounted.relied thread holder (relies holder needs)).trans_le (grows holder)
  · exact allowed
  · intro holder tests
    exact absurd tests (untested holder)
  · intro other holder needs tests
    exact (accounted.alone other thread holder tests (relies holder needs)).symm
  · exact finished
  · intro value present
    rcases List.mem_append.mp present with old | new
    · exact accounted.freed value old
    · exact freed value new

/-- An access that completes no call only moves its thread. -/
theorem Accounted.accessed_silent (accounted : Accounted kind machine)
    (stands : machine.position thread = before)
    (accesses : access machine.object before = (machine.object, after, effect))
    (credits : effect.credit machine.held = machine.held) (freed : effect.freed = [])
    (carried : after.carried = before.carried) (pending : after.pending = before.pending)
    (destruction : after.destruction = before.destruction)
    (relies : ∀ holder, after.ReliesOn holder → before.ReliesOn holder)
    (allowed : after.Allowed kind) (untested : ∀ holder, after ≠ .testing holder) :
    Accounted kind (machine.accessed thread).1 := by
  have total := @total_advance _ _ _ _ _ machine thread after machine.held _
  have adds := @pending_advance _ _ _ _ machine thread after machine.held _
  have ends := @destructions_advance _ _ _ _ machine thread after machine.held _
  rw [stands] at total adds ends
  have same : (machine.advance thread after machine.held).total = machine.total := by omega
  apply accounted.accessed_of stands accesses credits
  · rw [same]
    exact accounted.header
  · intro counted
    have bounded := accounted.bounded counted
    omega
  · exact relies
  · exact allowed
  · exact untested
  · have finished := accounted.ended
    rw [freed, List.append_nil, same]
    omega
  · simp [freed]

/-- An access to an immortal object that completes a call. -/
theorem Accounted.accessed_static (accounted : Accounted .static machine)
    (stands : machine.position thread = before)
    (accesses : access machine.object before = (machine.object, .outside, effect))
    (destruction : before.destruction = 0) (freed : effect.freed = []) :
    Accounted .static (machine.accessed thread).1 := by
  have ends := @destructions_advance _ _ _ _ machine thread .outside
    (effect.credit machine.held) _
  rw [stands, destruction] at ends
  apply accounted.accessed_of stands accesses rfl
  · exact accounted.header
  · intro counted
    exact absurd rfl counted
  · exact fun _ => False.elim
  · trivial
  · intro holder tests
    cases tests
  · have finished := accounted.ended
    simp only [ne_eq, not_true_eq_false, false_and, if_false, Position.destruction, freed,
      List.append_nil] at finished ends ⊢
    omega
  · simp [freed]

section Calls

variable {n : BitVec 32} {source target holder : Holder}

theorem Accounted.accessed_retaining (accounted : Accounted kind machine)
    (stands : machine.position thread = .retaining n source target) :
    Accounted kind (machine.accessed thread).1 := by
  by_cases static : kind = .static
  · subst static
    have accesses := access_retaining_static word machine.total n source target
    rw [← accounted.header] at accesses
    exact accounted.accessed_static stands accesses rfl rfl
  · have bounded := accounted.bounded static
    have counted := header_ne_immortal word static (by omega : machine.total < _)
    rw [← accounted.header] at counted
    apply accounted.accessed_silent stands (access_retaining_counted counted source target)
    · rfl
    · rfl
    · rfl
    · rfl
    · rfl
    · exact fun _ relies => relies
    · exact static
    · intro holder tests
      cases tests

theorem Accounted.accessed_releasing (accounted : Accounted kind machine)
    (stands : machine.position thread = .releasing n) :
    Accounted kind (machine.accessed thread).1 := by
  by_cases static : kind = .static
  · subst static
    have accesses := access_releasing_static Holder word machine.total n
    rw [← accounted.header] at accesses
    exact accounted.accessed_static stands accesses rfl rfl
  · have bounded := accounted.bounded static
    have counted := header_ne_immortal word static (by omega : machine.total < _)
    have positive := accounted.allowed thread
    rw [← accounted.header] at counted
    rw [stands] at positive
    apply accounted.accessed_silent stands (access_releasing_counted counted)
    · rfl
    · rfl
    · rfl
    · rfl
    · rfl
    · exact fun _ relies => relies
    · exact ⟨static, positive⟩
    · intro holder tests
      cases tests

theorem Accounted.accessed_testing (accounted : Accounted kind machine)
    (stands : machine.position thread = .testing holder) :
    Accounted kind (machine.accessed thread).1 := by
  apply accounted.accessed_silent stands rfl
  · rfl
  · rfl
  · rfl
  · rfl
  · rfl
  · exact fun _ => False.elim
  · trivial
  · intro holder tests
    cases tests

theorem Accounted.accessed_adding (accounted : Accounted kind machine)
    (stands : machine.position thread = .adding n source target) :
    Accounted kind (machine.accessed thread).1 := by
  have static := accounted.allowed thread
  rw [stands] at static
  have alive := accounted.total_pos
    (⟨thread, by rw [stands]; rfl⟩ : machine.Needed source)
  rcases accounted.not_ended alive with ⟨unended, none⟩
  have bounded := accounted.bounded static
  have counted := header_ne_immortal word static (by omega : machine.total < _)
  rw [← accounted.header] at counted
  generalize credit : (Effect.retained n target).credit machine.held = held
  have credited := sum_credit machine.held n target
  have total := @total_advance _ _ _ _ _ machine thread .outside held _
  have adds := @pending_advance _ _ _ _ machine thread .outside held _
  have ends := @destructions_advance _ _ _ _ machine thread .outside held _
  rw [credit] at credited
  rw [stands] at total adds ends
  change _ + 0 + _ = _ + 0 + _ at total
  change _ + n.toNat = _ + 0 at adds
  change _ + 0 = _ + 0 at ends
  have sum : (machine.advance thread .outside held).total = machine.total + n.toNat := by omega
  have header : swiftRetainN_ machine.object n =
      kind.header word (machine.advance thread .outside held).total := by
    rw [accounted.header, sum]
    apply retain_header static
    omega
  apply accounted.accessed_of stands (access_adding counted source target) credit
  · exact header
  · intro _
    omega
  · exact fun _ => False.elim
  · trivial
  · intro holder tests
    cases tests
  · rw [if_neg (by omega)]
    simp only [unended, Effect.freed, List.append_nil, List.length_nil]
    omega
  · simp [Effect.freed]

theorem Accounted.accessed_subtracting (accounted : Accounted kind machine)
    (stands : machine.position thread = .subtracting n) :
    Accounted kind (machine.accessed thread).1 := by
  have allowed := accounted.allowed thread
  have covered := carried_le_total machine thread
  rw [stands] at allowed covered
  rcases allowed with ⟨static, positive⟩
  change n.toNat ≤ machine.total at covered
  rcases accounted.not_ended (by omega) with ⟨unended, none⟩
  have bounded := accounted.bounded static
  have counted := header_ne_immortal word static (by omega : machine.total < _)
  have released := @release_header word _ static _ _ (by omega) covered
  rw [← accounted.header] at counted released
  have accesses := access_subtracting Holder n counted
  rw [released] at accesses
  generalize outcome : (if machine.total - n.toNat = 0 then Outcome.destroyed else .returned) = o
    at accesses
  dsimp only at accesses
  have credits : (Effect.released n o).credit machine.held = machine.held := rfl
  have total := @total_advance _ _ _ _ _ machine thread o.position machine.held _
  have adds := @pending_advance _ _ _ _ machine thread o.position machine.held _
  have ends := @destructions_advance _ _ _ _ machine thread o.position machine.held _
  rw [stands] at total adds ends
  have pending : (o.position : Position Holder).pending = 0 := by cases o <;> rfl
  rw [o.carried_position] at total
  rw [pending] at adds
  change _ + n.toNat + _ = _ at total
  change _ + 0 = _ at adds
  change _ + 0 = _ at ends
  have sum : (machine.advance thread o.position machine.held).total = machine.total - n.toNat := by
    omega
  apply accounted.accessed_of stands accesses credits
  · rw [sum]
  · intro _
    omega
  · intro holder relies
    cases o <;> exact relies.elim
  · split_ifs at outcome <;> subst outcome
    · exact static
    · trivial
  · intro holder tests
    cases o <;> cases tests
  · rw [sum]
    simp only [unended, Effect.freed, List.append_nil, List.length_nil]
    split_ifs at outcome with last <;> subst outcome
    · rw [if_pos ⟨static, last⟩]
      change _ = _ + 1 at ends
      omega
    · rw [if_neg (by omega)]
      change _ = _ + 0 at ends
      omega
  · simp [Effect.freed]

theorem Accounted.accessed_destroying (accounted : Accounted kind machine)
    (stands : machine.position thread = .destroying) :
    Accounted kind (machine.accessed thread).1 := by
  have static := accounted.allowed thread
  have ended := accounted.ended
  have begun := le_sum (fun other => (machine.position other).destruction) thread
  simp only [stands] at static begun
  change 1 ≤ machine.destructions at begun
  split_ifs at ended with gone
  · have total := @total_advance _ _ _ _ _ machine thread .outside machine.held _
    have adds := @pending_advance _ _ _ _ machine thread .outside machine.held _
    have ends := @destructions_advance _ _ _ _ machine thread .outside machine.held _
    rw [stands] at total adds ends
    change _ + 0 + _ = _ + 0 + _ at total
    change _ + 0 = _ + 0 at adds
    change _ + 1 = _ + 0 at ends
    have bounded := accounted.bounded static
    have sum : (machine.advance thread .outside machine.held).total = 0 := by omega
    have header := accounted.header
    have credits : (Effect.deallocated (swiftDeallocClassInstance machine.object)).credit
        machine.held = machine.held := rfl
    apply accounted.accessed_of stands rfl credits
    · rw [header, gone.2, sum]
    · intro _
      omega
    · exact fun _ => False.elim
    · trivial
    · intro holder tests
      cases tests
    · rw [if_pos ⟨static, sum⟩]
      simp only [Effect.freed, List.length_append, List.length_singleton]
      omega
    · intro freed present
      rw [List.mem_singleton.mp present, header, gone.2]
      exact dealloc_header_zero static
  · omega

/-- The accesses of all calls together. -/
theorem Accounted.accessed (accounted : Accounted kind machine)
    (inside : machine.position thread ≠ .outside) :
    Accounted kind (machine.accessed thread).1 := by
  cases stands : machine.position thread with
  | outside => exact absurd stands inside
  | retaining n source target => exact accounted.accessed_retaining stands
  | adding n source target => exact accounted.accessed_adding stands
  | releasing n => exact accounted.accessed_releasing stands
  | subtracting n => exact accounted.accessed_subtracting stands
  | destroying => exact accounted.accessed_destroying stands
  | testing holder => exact accounted.accessed_testing stands
  | failed =>
      have allowed := accounted.allowed thread
      rw [stands] at allowed
      exact allowed.elim

end Calls

end Accessed

section Calls

variable [DecidableEq Thread] [DecidableEq Holder] {kind : ObjectKind}
  {machine changed : Machine word Thread Holder} {thread : Thread} {after : Position Holder}
  {held : Holder → ℕ} {label : Label Thread Holder} {source target : Holder} {n : ℕ}

omit [DecidableEq Holder] in
theorem total_called (outside : machine.position thread = .outside)
    (taken : ∑ holder, held holder + after.carried = ∑ holder, machine.held holder) :
    (machine.advance thread after held).total = machine.total := by
  have total := @total_advance _ _ _ _ _ machine thread after held _
  rw [outside] at total
  change _ + 0 + _ = _ at total
  omega

omit [DecidableEq Holder] in
/-- What a thread has to keep that begins a call. -/
theorem Accounted.called (accounted : Accounted kind machine)
    (outside : machine.position thread = .outside)
    (taken : ∑ holder, held holder + after.carried = ∑ holder, machine.held holder)
    (room : kind ≠ .static →
      machine.total + machine.pending + after.pending < (immortalRefCount word).toNat)
    (none : after.destruction = 0)
    (keeps : ∀ holder, machine.Needed holder → 0 < held holder)
    (relied : ∀ holder, after.ReliesOn holder → 0 < held holder)
    (allowed : after.Allowed kind)
    (testing : ∀ holder, after = .testing holder → ¬ machine.Needed holder)
    (untested : ∀ other holder, after.ReliesOn holder →
      machine.position other ≠ .testing holder) :
    Accounted kind (machine.advance thread after held) := by
  have same := total_called outside taken
  have adds := @pending_advance _ _ _ _ machine thread after held _
  have ends := @destructions_advance _ _ _ _ machine thread after held _
  rw [outside] at adds ends
  change _ + 0 = _ at adds
  change _ + 0 = _ at ends
  apply accounted.advanced
  · rw [same]
    exact accounted.header
  · intro counted
    have below := room counted
    omega
  · exact keeps
  · exact relied
  · exact allowed
  · exact testing
  · intro other holder relies tests
    exact absurd tests (untested other holder relies)
  · have ended := accounted.ended
    rw [same]
    omega
  · exact accounted.freed

theorem sum_taken {held : Holder → ℕ} (covered : n ≤ held source) :
    ∑ holder, Function.update held source (held source - n) holder + n =
      ∑ holder, held holder := by
  have parts := sum_update_add held id source (held source - n)
  simp only [id] at parts
  omega

omit [Fintype Holder] in
theorem taken_pos {held : Holder → ℕ} {holder : Holder} (positive : 0 < held holder)
    (kept : holder = source → n < held source) :
    0 < Function.update held source (held source - n) holder := by
  rcases eq_or_ne holder source with rfl | different
  · have more := kept rfl
    rw [Function.update_self]
    omega
  · rwa [Function.update_of_ne different]

omit [DecidableEq Thread] in
theorem total_moved (different : source ≠ target) (covered : n ≤ machine.held source) :
    ({ machine with held := Function.update (Function.update machine.held source
        (machine.held source - n)) target (machine.held target + n) } :
      Machine word Thread Holder).total = machine.total := by
  have taken := sum_taken covered
  have given := sum_update_add (Function.update machine.held source (machine.held source - n)) id
    target (machine.held target + n)
  simp only [id, Function.update_of_ne different.symm] at given
  simp only [Machine.total]
  omega

omit [DecidableEq Thread] in
theorem Accounted.moved (accounted : Accounted kind machine) (different : source ≠ target)
    (covered : n ≤ machine.held source)
    (kept : machine.Needed source → n < machine.held source) :
    Accounted kind
      { machine with held := Function.update (Function.update machine.held source
          (machine.held source - n)) target (machine.held target + n) } := by
  have same := total_moved different covered
  constructor
  · rw [same]
    exact accounted.header
  · intro counted
    rw [same]
    exact accounted.bounded counted
  · intro other holder relies
    have positive := accounted.relied other holder relies
    rcases eq_or_ne holder target with rfl | elsewhere
    · simp only [Function.update_self]
      omega
    · simp only [Function.update_of_ne elsewhere]
      apply taken_pos positive
      rintro rfl
      exact kept ⟨other, relies⟩
  · exact accounted.allowed
  · exact accounted.alone
  · rw [same]
    exact accounted.ended
  · exact accounted.freed

theorem accounted_step (accounted : Accounted kind machine)
    (step : Step kind machine label changed) : Accounted kind changed := by
  have referenced : ∀ holder, machine.Needed holder → 0 < machine.held holder := by
    rintro holder ⟨other, relies⟩
    exact accounted.relied other holder relies
  cases step with
  | @retain thread n source target outside positive untested room =>
      apply accounted.called outside
      · rfl
      · exact room
      · rfl
      · exact referenced
      · rintro holder rfl
        exact positive
      · trivial
      · rintro holder ⟨⟩
      · rintro other holder rfl
        exact untested other
  | @release thread n source outside positive covered kept =>
      apply accounted.called outside
      · exact sum_taken covered
      · exact accounted.bounded
      · rfl
      · intro holder needed
        apply taken_pos (referenced holder needed)
        rintro rfl
        exact kept needed
      · exact fun _ => False.elim
      · exact positive
      · rintro holder ⟨⟩
      · exact fun _ _ => False.elim
  | @test thread holder outside positive exclusive =>
      apply accounted.called outside
      · rfl
      · exact accounted.bounded
      · rfl
      · exact referenced
      · rintro holder rfl
        exact positive
      · trivial
      · rintro holder ⟨⟩
        exact exclusive
      · rintro other holder rfl tests
        exact exclusive ⟨other, by rw [tests]; rfl⟩
  | move different positive covered kept => exact accounted.moved different covered kept
  | access inside => exact accounted.accessed inside

omit [DecidableEq Thread] in
theorem total_start (object : HeapObject word) (holder : Holder) :
    (Machine.start object holder : Machine word Thread Holder).total = 1 := by
  have one := sum_update_add (fun _ : Holder => 0) id holder 1
  simp only [id, Finset.sum_const_zero, Nat.add_zero, Nat.zero_add] at one
  simp only [Machine.total, Machine.start, Position.carried, Finset.sum_const_zero, Nat.add_zero]
  exact one

omit [DecidableEq Thread] in
theorem accounted_start (kind : ObjectKind) (holder : Holder) :
    Accounted kind (Machine.start (kind.header word 1) holder : Machine word Thread Holder) := by
  have total := @total_start word Thread _ _ _ _ (kind.header word 1) holder
  have below : 1 < (immortalRefCount word).toNat := by cases word <;> decide
  constructor
  · rw [total]
    rfl
  · intro _
    rw [total]
    simpa [Machine.pending, Machine.start, Position.pending] using below
  · exact fun _ _ => False.elim
  · exact fun _ => trivial
  · exact fun _ _ _ _ => False.elim
  · rw [total, if_neg (by omega)]
    simp [Machine.destructions, Machine.start, Position.destruction]
  · simp [Machine.start]

end Calls

end USwift
