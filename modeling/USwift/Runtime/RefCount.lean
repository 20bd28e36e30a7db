import USwift.Integer.Conversion

/-!
# Reference counts of class instances

The runtime keeps the number of references to an object in one signed word. The
top bit of the word marks objects that must not be freed, and the largest
positive value marks objects that are never counted. This file models the entry
points over a single object, and relates every run of them to the number of
outstanding references.
-/

namespace USwift

variable {word : WordSize}

/-- The part of an object's header that the runtime counts in. -/
structure HeapObject (word : WordSize) where
  refcount : Value word .int
  deriving DecidableEq

namespace HeapObject

def doNotFreeBit : (word : WordSize) → Value word .int
  | .word16 => 0x8000
  | .word32 => 0x80000000

def refcountMask : (word : WordSize) → Value word .int
  | .word16 => 0x7fff
  | .word32 => 0x7fffffff

def immortalRefCount : (word : WordSize) → Value word .int
  | .word16 => 0x7fff
  | .word32 => 0x7fffffff

end HeapObject

open HeapObject

/-- What a call of the runtime does beside changing the count. -/
inductive Outcome where
  | returned
  | destroyed
  | fatalError
  deriving DecidableEq, Repr

/-- `swift_allocObject`, which ends in `fatalError` when the allocator has no memory. -/
def swiftAllocObject (word : WordSize) (slowAllocSucceeds : Bool) : Option (HeapObject word) :=
  if slowAllocSucceeds then some ⟨1⟩ else none

def swiftInitStaticObject (word : WordSize) : HeapObject word :=
  ⟨immortalRefCount word⟩

def swiftInitStackObject (word : WordSize) : HeapObject word :=
  ⟨1 ||| doNotFreeBit word⟩

/-- `swift_deallocClassInstance`, as whether it calls `free`. -/
def swiftDeallocClassInstance (object : HeapObject word) : Bool :=
  if (object.refcount &&& doNotFreeBit word) != 0 then false else true

def swiftRetainN_ (object : HeapObject word) (n : BitVec 32) : HeapObject word :=
  if object.refcount == immortalRefCount word then object
  else ⟨object.refcount + truncatingIfNeeded word .int .uint32 n⟩

def swiftReleaseN_ (object : HeapObject word) (n : BitVec 32) : HeapObject word × Outcome :=
  if object.refcount == immortalRefCount word then (object, .returned)
  else
    let decremented := object.refcount - truncatingIfNeeded word .int .uint32 n
    let resultingRefcount := decremented &&& refcountMask word
    if resultingRefcount == 0 then (⟨decremented⟩, .destroyed)
    else if less word .int resultingRefcount 0 then (⟨decremented⟩, .fatalError)
    else (⟨decremented⟩, .returned)

/-- The calls that change the number of references. Their object is never a null pointer. -/
inductive RefCountOperation where
  | retain
  | retainN (n : BitVec 32)
  | release
  | releaseN (n : BitVec 32)
  deriving DecidableEq, Repr

/-- `swift_retain`, `swift_retain_n`, `swift_release` and `swift_release_n`. -/
def perform (object : HeapObject word) : RefCountOperation → HeapObject word × Outcome
  | .retain => (swiftRetainN_ object 1, .returned)
  | .retainN n => (swiftRetainN_ object n, .returned)
  | .release => swiftReleaseN_ object 1
  | .releaseN n => swiftReleaseN_ object n

/-- A run ends early when a call does not return. -/
def execute (object : HeapObject word) :
    List RefCountOperation → HeapObject word × List Outcome
  | [] => (object, [])
  | operation :: rest =>
      match perform object operation with
      | (changed, .fatalError) => (changed, [.fatalError])
      | (changed, outcome) =>
          let later := execute changed rest
          (later.1, outcome :: later.2)

/-- The ways the runtime creates an object. -/
inductive ObjectKind where
  | heap
  | stack
  | static
  deriving DecidableEq, Repr

/-- An object as its creating function leaves it. -/
inductive Created : ObjectKind → HeapObject word → Prop
  | heap {object : HeapObject word} (allocated : swiftAllocObject word true = some object) :
      Created .heap object
  | stack : Created .stack (swiftInitStackObject word)
  | static : Created .static (swiftInitStaticObject word)

namespace RefCountOperation

def retained : RefCountOperation → ℕ
  | retain => 1
  | retainN n => n.toNat
  | release | releaseN _ => 0

def released : RefCountOperation → ℕ
  | retain | retainN _ => 0
  | release => 1
  | releaseN n => n.toNat

def IsRelease : RefCountOperation → Prop
  | retain | retainN _ => False
  | release | releaseN _ => True

instance (operation : RefCountOperation) : Decidable operation.IsRelease := by
  cases operation <;> unfold IsRelease <;> infer_instance

/-- The outstanding references after an operation. -/
def outstanding (count : ℕ) (operation : RefCountOperation) : ℕ :=
  count + operation.retained - operation.released

end RefCountOperation

open RefCountOperation

/-- The outstanding references after a list of operations. -/
def outstandingAfter (count : ℕ) (operations : List RefCountOperation) : ℕ :=
  operations.foldl outstanding count

/-- No release exceeds the outstanding references, which stay below the immortal count. -/
def Admissible (word : WordSize) : ℕ → List RefCountOperation → Prop
  | _, [] => True
  | count, operation :: rest =>
      operation.released ≤ count ∧
        outstanding count operation < (immortalRefCount word).toNat ∧
        Admissible word (outstanding count operation) rest

/-- Every operation is made while a reference is outstanding. -/
def Live : ℕ → List RefCountOperation → Prop
  | _, [] => True
  | count, operation :: rest => 0 < count ∧ Live (outstanding count operation) rest

/-- The header of an object with a number of outstanding references. -/
def ObjectKind.header (word : WordSize) (count : ℕ) : ObjectKind → HeapObject word
  | heap => ⟨BitVec.ofNat _ count⟩
  | stack => ⟨BitVec.ofNat _ count ||| doNotFreeBit word⟩
  | static => ⟨immortalRefCount word⟩

/-- The effect that an operation should have on an object of a kind. -/
def ObjectKind.outcome (count : ℕ) (operation : RefCountOperation) (kind : ObjectKind) :
    Outcome :=
  if kind ≠ .static ∧ operation.IsRelease ∧ operation.outstanding count = 0 then .destroyed
  else .returned

/-- The effects that a list of operations should have on an object of a kind. -/
def ObjectKind.outcomes (kind : ObjectKind) : ℕ → List RefCountOperation → List Outcome
  | _, [] => []
  | count, operation :: rest =>
      kind.outcome count operation :: kind.outcomes (outstanding count operation) rest

/-- The number of references that the count can tell apart. -/
def countBound (word : WordSize) : ℕ := 2 ^ (word.bits - 1)

theorem two_pow_eq_countBound (word : WordSize) :
    2 ^ IntegerType.int.bitWidth word = 2 * countBound word := by
  cases word <;> rfl

theorem toNat_doNotFreeBit (word : WordSize) :
    (doNotFreeBit word).toNat = countBound word := by
  cases word <;> rfl

theorem toNat_immortalRefCount (word : WordSize) :
    (immortalRefCount word).toNat = countBound word - 1 := by
  cases word <;> rfl

theorem countBound_pos (word : WordSize) : 1 < countBound word := by
  cases word <;> decide

theorem toNat_and_refcountMask (field : Value word .int) :
    (field &&& refcountMask word).toNat = field.toNat % countBound word := by
  rw [BitVec.toNat_and, countBound, ← Nat.and_two_pow_sub_one_eq_mod]
  cases word <;> rfl

theorem toNat_field (word : WordSize) {kind : ObjectKind} (counted : kind ≠ .static) {count : ℕ}
    (bounded : count < countBound word) :
    (kind.header word count).refcount.toNat =
      count + if kind = .stack then countBound word else 0 := by
  have width := two_pow_eq_countBound word
  have low : (BitVec.ofNat (IntegerType.int.bitWidth word) count).toNat = count := by
    rw [BitVec.toNat_ofNat]
    exact Nat.mod_eq_of_lt (by omega)
  cases kind with
  | static => exact absurd rfl counted
  | heap => simpa [ObjectKind.header] using low
  | stack =>
      have sum := Nat.two_pow_add_eq_or_of_lt bounded 1
      rw [Nat.mul_one] at sum
      rw [ObjectKind.header, BitVec.toNat_or, low, toNat_doNotFreeBit, if_pos rfl, Nat.or_comm,
        countBound, ← sum, Nat.add_comm]

theorem header_of_created {kind : ObjectKind} {object : HeapObject word}
    (created : Created kind object) : object = kind.header word 1 := by
  cases created with
  | heap allocated =>
      simp only [swiftAllocObject, if_true, Option.some_inj] at allocated
      exact allocated.symm
  | stack => rfl
  | static => rfl

theorem toNat_truncated {n : BitVec 32} (small : n.toNat < countBound word) :
    (truncatingIfNeeded word .int .uint32 n).toNat = n.toNat := by
  have width := two_pow_eq_countBound word
  rw [truncatingIfNeeded_eq_extend ((extendsSign_eq_iff word .uint32).mpr (by simp)) n]
  simp only [TwosComplement.extend, Bool.false_eq_true, if_false, BitVec.toNat_setWidth]
  exact Nat.mod_eq_of_lt (by omega)

/-- A counted object never carries the immortal mark. -/
theorem header_ne_immortal (word : WordSize) {kind : ObjectKind} (counted : kind ≠ .static)
    {count : ℕ} (bounded : count < (immortalRefCount word).toNat) :
    ((kind.header word count).refcount == immortalRefCount word) = false := by
  have room := countBound_pos word
  rw [toNat_immortalRefCount] at bounded
  apply beq_false_of_ne
  intro immortal
  have field := toNat_field word counted (Nat.lt_of_lt_of_le bounded (Nat.sub_le _ 1))
  rw [immortal, toNat_immortalRefCount] at field
  split_ifs at field <;> omega

theorem header_ext {kind : ObjectKind} (counted : kind ≠ .static) {count : ℕ}
    (bounded : count < countBound word) {field : Value word .int}
    (agrees : field.toNat = count + if kind = .stack then countBound word else 0) :
    (⟨field⟩ : HeapObject word) = kind.header word count := by
  have same : field = (kind.header word count).refcount := by
    apply BitVec.eq_of_toNat_eq
    rw [agrees, toNat_field word counted bounded]
  rw [same]

theorem retain_header {kind : ObjectKind} (counted : kind ≠ .static) {count : ℕ} {n : BitVec 32}
    (bounded : count + n.toNat < (immortalRefCount word).toNat) :
    swiftRetainN_ (kind.header word count) n = kind.header word (count + n.toNat) := by
  have width := two_pow_eq_countBound word
  have notImmortal := header_ne_immortal word counted
    (Nat.lt_of_le_of_lt (Nat.le_add_right count n.toNat) bounded)
  rw [toNat_immortalRefCount] at bounded
  rw [swiftRetainN_, notImmortal, if_neg Bool.false_ne_true]
  apply header_ext counted (by omega)
  rw [BitVec.toNat_add, toNat_field word counted (by omega), toNat_truncated (by omega)]
  split_ifs
  · rw [Nat.mod_eq_of_lt (by omega)]
    omega
  · rw [Nat.mod_eq_of_lt (by omega)]
    omega

theorem release_header {kind : ObjectKind} (counted : kind ≠ .static) {count : ℕ} {n : BitVec 32}
    (bounded : count < (immortalRefCount word).toNat) (covered : n.toNat ≤ count) :
    swiftReleaseN_ (kind.header word count) n =
      (kind.header word (count - n.toNat),
        if count - n.toNat = 0 then .destroyed else .returned) := by
  have width := two_pow_eq_countBound word
  have room := countBound_pos word
  have notImmortal := header_ne_immortal word counted bounded
  rw [toNat_immortalRefCount] at bounded
  have decremented : ((kind.header word count).refcount -
      truncatingIfNeeded word .int .uint32 n).toNat =
      count - n.toNat + if kind = .stack then countBound word else 0 := by
    rw [BitVec.toNat_sub, toNat_field word counted (by omega), toNat_truncated (by omega)]
    split_ifs
    · rw [width, show 2 * countBound word - n.toNat + (count + countBound word) =
        (count - n.toNat + countBound word) + 2 * countBound word by omega,
        Nat.add_mod_right, Nat.mod_eq_of_lt (by omega)]
    · rw [width, show 2 * countBound word - n.toNat + (count + 0) =
        (count - n.toNat + 0) + 2 * countBound word by omega,
        Nat.add_mod_right, Nat.mod_eq_of_lt (by omega)]
  have masked : (((kind.header word count).refcount -
      truncatingIfNeeded word .int .uint32 n) &&& refcountMask word).toNat =
      count - n.toNat := by
    rw [toNat_and_refcountMask, decremented]
    split_ifs
    · rw [Nat.add_mod_right, Nat.mod_eq_of_lt (by omega)]
    · exact Nat.mod_eq_of_lt (by omega)
  have nonnegative : less word .int (((kind.header word count).refcount -
      truncatingIfNeeded word .int .uint32 n) &&& refcountMask word) 0 = false := by
    have positive : 2 * (((kind.header word count).refcount -
        truncatingIfNeeded word .int .uint32 n) &&& refcountMask word).toNat <
        2 ^ IntegerType.int.bitWidth word := by omega
    rw [less_zero, BitVec.msb_eq_false_iff_two_mul_lt.mpr positive, Bool.and_false]
  rw [swiftReleaseN_, notImmortal, if_neg Bool.false_ne_true]
  simp only [nonnegative, Bool.false_eq_true, if_false]
  rw [header_ext counted (by omega) decremented]
  by_cases last : count - n.toNat = 0
  · rw [if_pos last, if_pos]
    rw [beq_iff_eq]
    apply BitVec.eq_of_toNat_eq
    rw [masked, last]
    rfl
  · rw [if_neg last, if_neg]
    rw [beq_iff_eq]
    intro zero
    rw [zero] at masked
    exact last masked.symm

section Unbalanced

/-- The references that an object has do not look like none to a release. -/
def HeapObject.Outlives (object : HeapObject word) : Prop :=
  object.refcount &&& refcountMask word ≠ 0

instance (object : HeapObject word) : Decidable object.Outlives :=
  inferInstanceAs (Decidable (_ ≠ _))

theorem HeapObject.outlives_immortal (word : WordSize) :
    (⟨immortalRefCount word⟩ : HeapObject word).Outlives := by
  cases word <;> decide

theorem not_less_refcountMask (field : Value word .int) :
    less word .int (field &&& refcountMask word) 0 = false := by
  have mask : (refcountMask word).msb = false := by cases word <;> decide
  rw [less_zero, BitVec.msb_and, mask, Bool.and_false, Bool.and_false]

/--
A reference that is taken and released again destroys the object if the others look like
none. They may be marked as immortal on the way.
-/
theorem release_retain (object : HeapObject word) :
    ∃ object', swiftReleaseN_ (swiftRetainN_ object 1) 1 =
        (object', if object.Outlives then .returned else .destroyed) ∧
      (object.Outlives → object'.Outlives) := by
  have one : truncatingIfNeeded word .int .uint32 1 = 1 := by cases word <;> rfl
  have lasting := HeapObject.outlives_immortal word
  by_cases marked : object.refcount = immortalRefCount word
  · have outlives : object.Outlives := by
      rw [HeapObject.Outlives, marked]
      exact lasting
    refine ⟨object, ?_, id⟩
    rw [swiftRetainN_, if_pos (beq_iff_eq.mpr marked), swiftReleaseN_,
      if_pos (beq_iff_eq.mpr marked), if_pos outlives]
  · rw [swiftRetainN_, if_neg (by simpa using marked), one]
    by_cases reached : object.refcount + 1 = immortalRefCount word
    · have before : object.refcount = immortalRefCount word - 1 := by
        rw [← reached]
        exact (BitVec.add_sub_cancel _ _).symm
      have outlives : object.Outlives := by
        rw [HeapObject.Outlives, before]
        cases word <;> decide
      refine ⟨⟨object.refcount + 1⟩, ?_, fun _ => ?_⟩
      · rw [swiftReleaseN_, if_pos (beq_iff_eq.mpr reached), if_pos outlives]
      · rw [reached]
        exact lasting
    · have restored : object.refcount + 1 - 1 = object.refcount := BitVec.add_sub_cancel _ _
      refine ⟨object, ?_, id⟩
      rw [swiftReleaseN_, if_neg (by simpa using reached), one]
      dsimp only
      rw [restored, not_less_refcountMask, if_neg Bool.false_ne_true]
      by_cases none : object.refcount &&& refcountMask word = 0
      · have ended : ¬ object.Outlives := not_not.mpr none
        rw [if_pos (beq_iff_eq.mpr none), if_neg ended]
      · have outlives : object.Outlives := none
        rw [if_neg (by simpa using none), if_pos outlives]

end Unbalanced

theorem perform_static (word : WordSize) (count : ℕ) (operation : RefCountOperation) :
    perform (ObjectKind.static.header word count) operation =
      (ObjectKind.static.header word count, .returned) := by
  cases operation <;> simp [perform, swiftRetainN_, swiftReleaseN_, ObjectKind.header]

theorem perform_header (word : WordSize) (kind : ObjectKind) {count : ℕ}
    {operation : RefCountOperation} (bounded : count < (immortalRefCount word).toNat)
    (covered : operation.released ≤ count)
    (below : operation.outstanding count < (immortalRefCount word).toNat) :
    perform (kind.header word count) operation =
      (kind.header word (operation.outstanding count), kind.outcome count operation) := by
  by_cases static : kind = .static
  · subst static
    rw [perform_static]
    simp [ObjectKind.header, ObjectKind.outcome]
  · cases operation with
    | retain =>
        have retained := retain_header static (n := 1#32) below
        simp [perform, retained, ObjectKind.outcome, outstanding, RefCountOperation.retained,
          released, IsRelease]
    | retainN n =>
        have retained := retain_header static (n := n) below
        simp [perform, retained, ObjectKind.outcome, outstanding, RefCountOperation.retained,
          released, IsRelease]
    | release =>
        have result := release_header static (n := 1#32) bounded covered
        simp [perform, result, ObjectKind.outcome, outstanding, RefCountOperation.retained,
          released, IsRelease, static]
    | releaseN n =>
        have result := release_header static bounded covered
        simp [perform, result, ObjectKind.outcome, outstanding, RefCountOperation.retained,
          released, IsRelease, static]

theorem execute_cons {object : HeapObject word} {operation : RefCountOperation}
    (rest : List RefCountOperation) (returns : (perform object operation).2 ≠ .fatalError) :
    execute object (operation :: rest) =
      ((execute (perform object operation).1 rest).1,
        (perform object operation).2 :: (execute (perform object operation).1 rest).2) := by
  rw [execute]
  split
  · rename_i failed
    rw [failed] at returns
    exact absurd rfl returns
  · rename_i succeeded
    rw [succeeded]

theorem execute_header (word : WordSize) (kind : ObjectKind) {count : ℕ}
    {operations : List RefCountOperation} (bounded : count < (immortalRefCount word).toNat)
    (admissible : Admissible word count operations) :
    execute (kind.header word count) operations =
      (kind.header word (outstandingAfter count operations),
        kind.outcomes count operations) := by
  induction operations generalizing count with
  | nil => rfl
  | cons operation rest later =>
      rcases admissible with ⟨covered, below, admissible⟩
      have returns : kind.outcome count operation ≠ .fatalError := by
        rw [ObjectKind.outcome]
        split_ifs <;> decide
      have performed := perform_header word kind bounded covered below
      rw [execute_cons rest (by rw [performed]; exact returns), performed,
        later below admissible]
      rfl

theorem length_outcomes (kind : ObjectKind) (count : ℕ) (operations : List RefCountOperation) :
    (kind.outcomes count operations).length = operations.length := by
  induction operations generalizing count with
  | nil => rfl
  | cons operation rest later => simp [ObjectKind.outcomes, later]

theorem fatalError_not_mem_outcomes (kind : ObjectKind) (count : ℕ)
    (operations : List RefCountOperation) :
    Outcome.fatalError ∉ kind.outcomes count operations := by
  induction operations generalizing count with
  | nil => simp [ObjectKind.outcomes]
  | cons operation rest later =>
      simp only [ObjectKind.outcomes, List.mem_cons, not_or]
      refine ⟨?_, later _⟩
      rw [ObjectKind.outcome]
      split_ifs <;> decide

theorem outcomes_destroyed_iff (kind : ObjectKind) (count : ℕ)
    (operations : List RefCountOperation) (index : ℕ) :
    (kind.outcomes count operations)[index]? = some .destroyed ↔
      ∃ operation, operations[index]? = some operation ∧ operation.IsRelease ∧
        kind ≠ .static ∧ outstandingAfter count (operations.take (index + 1)) = 0 := by
  induction operations generalizing count index with
  | nil => simp [ObjectKind.outcomes]
  | cons operation rest later =>
      cases index with
      | zero =>
          simp only [ObjectKind.outcomes, ObjectKind.outcome, List.getElem?_cons_zero,
            Option.some_inj, List.take_succ_cons, List.take_zero, outstandingAfter,
            List.foldl_cons, List.foldl_nil]
          constructor
          · intro destroyed
            split_ifs at destroyed with reaches
            exact ⟨operation, rfl, reaches.2.1, reaches.1, reaches.2.2⟩
          · rintro ⟨_, rfl, isRelease, counted, reaches⟩
            rw [if_pos ⟨counted, isRelease, reaches⟩]
      | succ index =>
          simpa [ObjectKind.outcomes, outstandingAfter] using
            later (outstanding count operation) index

theorem count_destroyed_of_live {kind : ObjectKind} {count : ℕ}
    {operations : List RefCountOperation} (positive : 0 < count)
    (live : Live count operations) :
    (kind.outcomes count operations).count .destroyed =
      if kind ≠ .static ∧ outstandingAfter count operations = 0 then 1 else 0 := by
  induction operations generalizing count with
  | nil =>
      have referenced : ¬ count = 0 := by omega
      simp [ObjectKind.outcomes, outstandingAfter, referenced]
  | cons operation rest later =>
      rcases live with ⟨_, live⟩
      by_cases last : outstanding count operation = 0
      · -- The object is gone, so that nothing may follow.
        have ended : rest = [] := by
          cases rest with
          | nil => rfl
          | cons _ _ => exact absurd live.1 (by omega)
        have isRelease : operation.IsRelease := by
          cases operation with
          | retain => simp [outstanding, RefCountOperation.retained, released] at last
          | retainN n =>
              simp only [outstanding, RefCountOperation.retained, released] at last
              omega
          | release | releaseN n => trivial
        subst ended
        by_cases static : kind = .static
        · simp [ObjectKind.outcomes, ObjectKind.outcome, static]
        · simp [ObjectKind.outcomes, ObjectKind.outcome, outstandingAfter, static, isRelease, last]
      · have remains := later (Nat.pos_of_ne_zero last) live
        have returns : kind.outcome count operation = .returned := by
          simp [ObjectKind.outcome, last]
        rw [ObjectKind.outcomes, returns, List.count_cons_of_ne (by decide), remains]
        rfl

/--
Every admissible run on a created object keeps the number of outstanding
references in the header, destroys the object in exactly the releases that leave
none, and frees heap objects only.
-/
theorem referenceCounting {kind : ObjectKind} {object : HeapObject word}
    (created : Created kind object) {operations : List RefCountOperation}
    (admissible : Admissible word 1 operations) :
    (execute object operations).1 =
        kind.header word (outstandingAfter 1 operations) ∧
      (execute object operations).2.length = operations.length ∧
      Outcome.fatalError ∉ (execute object operations).2 ∧
      (∀ index, (execute object operations).2[index]? = some .destroyed ↔
        ∃ operation, operations[index]? = some operation ∧ operation.IsRelease ∧
          kind ≠ .static ∧ outstandingAfter 1 (operations.take (index + 1)) = 0) ∧
      (Live 1 operations → (execute object operations).2.count .destroyed =
        if kind ≠ .static ∧ outstandingAfter 1 operations = 0 then 1 else 0) ∧
      (kind ≠ .static → outstandingAfter 1 operations = 0 →
        swiftDeallocClassInstance (execute object operations).1 = decide (kind = .heap)) := by
  have one_lt : 1 < (immortalRefCount word).toNat := by cases word <;> decide
  rw [header_of_created created, execute_header word kind one_lt admissible]
  refine ⟨rfl, length_outcomes kind 1 operations,
    fatalError_not_mem_outcomes kind 1 operations, outcomes_destroyed_iff kind 1 operations,
    count_destroyed_of_live Nat.one_pos, ?_⟩
  intro counted none
  simp only [none]
  cases kind with
  | static => exact absurd rfl counted
  | heap => cases word <;> decide
  | stack => cases word <;> decide

theorem referenceCounting_single :
    (execute (⟨1⟩ : HeapObject .word16) [.retain, .release, .release]).2.count .destroyed = 1 :=
  (referenceCounting (Created.heap rfl) (by simp [Admissible]; decide)).2.2.2.2.1
    (by simp [Live]; decide)

/-- A reference taken after the last one was released makes the object be destroyed again. -/
theorem not_destroyed_once :
    ¬ ∀ (object : HeapObject .word16) (operations : List RefCountOperation),
      Created .heap object → Admissible .word16 1 operations →
      outstandingAfter 1 operations = 0 →
      (execute object operations).2.count .destroyed = 1 := by
  intro once
  have destroyed := once ⟨1⟩ [.release, .retain, .release] (Created.heap rfl)
    (by simp [Admissible]; decide) rfl
  revert destroyed
  decide

end USwift
