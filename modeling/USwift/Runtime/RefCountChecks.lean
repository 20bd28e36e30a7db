import USwift.Runtime.RefCount

/-!
# What the runtime checks of a reference count

`swift_isUniquelyReferenced_nonNull_native` compares the whole word with one, whose top bit
is set for stack objects. `swift_release_n_` looks for a negative count after it has masked
the sign away, so that releasing more references than there are is never noticed.
-/

namespace USwift

open HeapObject RefCountOperation

variable {word : WordSize}

/-- `swift_isUniquelyReferenced_nonNull_native`. -/
def swiftIsUniquelyReferencedNonNullNative (object : HeapObject word) : Bool :=
  object.refcount == 1

/-- The references that are left after a list of operations, which may be fewer than none. -/
def balance (operations : List RefCountOperation) : ℤ :=
  1 + (operations.map fun operation => (operation.retained : ℤ) - operation.released).sum

section Uniqueness

variable {kind : ObjectKind} {object : HeapObject word} {operations : List RefCountOperation}

theorem execute_static (operations : List RefCountOperation) :
    (execute (ObjectKind.static.header word 1) operations).1 = ObjectKind.static.header word 1 := by
  induction operations with
  | nil => rfl
  | cons operation rest unchanged =>
      have performed := perform_static word 1 operation
      rw [execute_cons rest (by rw [performed]; exact Outcome.noConfusion), performed]
      exact unchanged

theorem isUniquelyReferenced_heap {count : ℕ} (bounded : count < countBound word) :
    swiftIsUniquelyReferencedNonNullNative (ObjectKind.heap.header word count) = true ↔
      count = 1 := by
  have room := countBound_pos word
  have one : (1 : Value word .int) = (ObjectKind.heap.header word 1).refcount := rfl
  rw [swiftIsUniquelyReferencedNonNullNative, beq_iff_eq, one, ← BitVec.toNat_inj,
    toNat_field word (by decide) bounded, toNat_field word (by decide) room]
  omega

theorem isUniquelyReferenced_stack {count : ℕ} (bounded : count < countBound word) :
    swiftIsUniquelyReferencedNonNullNative (ObjectKind.stack.header word count) = false := by
  have room := countBound_pos word
  have one : (1 : Value word .int) = (ObjectKind.heap.header word 1).refcount := rfl
  rw [swiftIsUniquelyReferencedNonNullNative, beq_eq_false_iff_ne, one, ne_eq, ← BitVec.toNat_inj,
    toNat_field word (by decide) bounded, toNat_field word (by decide) room]
  simp only [if_true, if_neg (by decide : ¬ ObjectKind.heap = ObjectKind.stack)]
  omega

theorem outstandingAfter_lt {count : ℕ} (bounded : count < (immortalRefCount word).toNat)
    (admissible : Admissible word count operations) :
    outstandingAfter count operations < (immortalRefCount word).toNat := by
  induction operations generalizing count with
  | nil => exact bounded
  | cons operation rest later => exact later admissible.2.1 admissible.2.2

/--
In every state that a run reaches, the test tells whether one reference to a counted object
is outstanding if and only if it is not the only reference to a stack object. Static objects
are never uniquely referenced.
-/
theorem isUniquelyReferenced_iff (created : Created kind object)
    (admissible : kind ≠ .static → Admissible word 1 operations) :
    (swiftIsUniquelyReferencedNonNullNative (execute object operations).1 = true ↔
        kind ≠ .static ∧ outstandingAfter 1 operations = 1) ↔
      ¬ (kind = .stack ∧ outstandingAfter 1 operations = 1) := by
  have room := countBound_pos word
  have immortal := toNat_immortalRefCount word
  have one_lt : 1 < (immortalRefCount word).toNat := by cases word <;> decide
  rw [header_of_created created]
  cases kind with
  | static =>
      have different : swiftIsUniquelyReferencedNonNullNative
          (ObjectKind.static.header word 1) = false := by cases word <;> decide
      rw [execute_static, different]
      simp
  | heap =>
      have admissible := admissible (by decide)
      have bounded := outstandingAfter_lt one_lt admissible
      rw [execute_header word .heap one_lt admissible, isUniquelyReferenced_heap (by omega)]
      simp
  | stack =>
      have admissible := admissible (by decide)
      have bounded := outstandingAfter_lt one_lt admissible
      rw [execute_header word .stack one_lt admissible, isUniquelyReferenced_stack (by omega)]
      simp

/-- Two references to a stack object, which the test sees not to be one. -/
theorem isUniquelyReferenced_iff_two :
    (swiftIsUniquelyReferencedNonNullNative
        (execute (swiftInitStackObject .word16) [.retain]).1 = true ↔
      ObjectKind.stack ≠ .static ∧ outstandingAfter 1 [.retain] = 1) ↔
    ¬ (ObjectKind.stack = .stack ∧ outstandingAfter 1 [.retain] = 1) :=
  isUniquelyReferenced_iff .stack fun _ => by simp [Admissible]; decide

/-- The only reference to a stack object is not seen to be the only one. -/
theorem stack_not_uniquelyReferenced :
    Created .stack (swiftInitStackObject .word16) ∧ Admissible .word16 1 [] ∧
      ¬ (swiftIsUniquelyReferencedNonNullNative
          (execute (swiftInitStackObject .word16) []).1 = true ↔
        outstandingAfter 1 [] = 1) :=
  ⟨.stack, trivial, by decide⟩

end Uniqueness

section OverRelease

variable {kind : ObjectKind} {object : HeapObject word} {operations : List RefCountOperation}
  {x y : Value word .int} {n : BitVec 32}

theorem countBound_dvd (word : WordSize) :
    (countBound word : ℤ) ∣ ((2 ^ IntegerType.int.bitWidth word : ℕ) : ℤ) := by
  rw [two_pow_eq_countBound, Nat.cast_mul]
  exact dvd_mul_left _ _

theorem toNat_add_modEq (x y : Value word .int) :
    ((x + y).toNat : ℤ) ≡ x.toNat + y.toNat [ZMOD countBound word] := by
  rw [BitVec.toNat_add, Int.natCast_mod, Nat.cast_add]
  exact (Int.mod_modEq _ _).of_dvd (countBound_dvd word)

theorem toNat_sub_modEq (x y : Value word .int) :
    ((x - y).toNat : ℤ) ≡ x.toNat - y.toNat [ZMOD countBound word] := by
  have restored := toNat_add_modEq (x - y) y
  rw [BitVec.sub_add_cancel] at restored
  have difference := restored.sub_right (y.toNat : ℤ)
  rw [add_sub_cancel_right] at difference
  exact difference.symm

theorem toNat_truncated_modEq (n : BitVec 32) :
    ((truncatingIfNeeded word .int .uint32 n).toNat : ℤ) ≡ n.toNat [ZMOD countBound word] := by
  rw [truncatingIfNeeded_eq_extend ((extendsSign_eq_iff word .uint32).mpr (by simp)) n]
  simp only [TwosComplement.extend, Bool.false_eq_true, if_false, BitVec.toNat_setWidth]
  rw [Int.natCast_mod]
  exact (Int.mod_modEq _ _).of_dvd (countBound_dvd word)

/-- Without its sign, a count is not negative. -/
theorem not_less_zero_masked (field : Value word .int) :
    less word .int (field &&& refcountMask word) 0 = false := by
  have width := two_pow_eq_countBound word
  have room := countBound_pos word
  have masked := toNat_and_refcountMask field
  have below := Nat.mod_lt field.toNat (by omega : 0 < countBound word)
  rw [less_zero, BitVec.msb_eq_false_iff_two_mul_lt.mpr (by omega), Bool.and_false]

theorem releaseN_ne_fatalError (object : HeapObject word) (n : BitVec 32) :
    (swiftReleaseN_ object n).2 ≠ .fatalError := by
  by_cases immortal : (object.refcount == immortalRefCount word) = true
  · rw [swiftReleaseN_, if_pos immortal]
    exact Outcome.noConfusion
  · rw [swiftReleaseN_, if_neg immortal]
    dsimp only
    rw [not_less_zero_masked, if_neg Bool.false_ne_true]
    split_ifs <;> exact Outcome.noConfusion

theorem perform_ne_fatalError (object : HeapObject word) (operation : RefCountOperation) :
    (perform object operation).2 ≠ .fatalError := by
  cases operation with
  | retain | retainN n => exact Outcome.noConfusion
  | release | releaseN n => exact releaseN_ne_fatalError _ _

theorem retain_modEq (counted : object.refcount ≠ immortalRefCount word) (n : BitVec 32) :
    ((swiftRetainN_ object n).refcount.toNat : ℤ) ≡ object.refcount.toNat + n.toNat
      [ZMOD countBound word] := by
  rw [swiftRetainN_, if_neg (by rw [beq_iff_eq]; exact counted)]
  exact (toNat_add_modEq _ _).trans ((toNat_truncated_modEq n).add_left _)

theorem release_modEq (counted : object.refcount ≠ immortalRefCount word) (n : BitVec 32) :
    ((swiftReleaseN_ object n).1.refcount.toNat : ℤ) ≡ object.refcount.toNat - n.toNat
      [ZMOD countBound word] := by
  have decremented := (toNat_sub_modEq object.refcount _).trans
    ((toNat_truncated_modEq n).sub_left _)
  rw [swiftReleaseN_, if_neg (by rw [beq_iff_eq]; exact counted)]
  dsimp only
  split_ifs <;> exact decremented

theorem perform_modEq (counted : object.refcount ≠ immortalRefCount word)
    (operation : RefCountOperation) :
    ((perform object operation).1.refcount.toNat : ℤ) ≡
      object.refcount.toNat + (operation.retained - operation.released)
      [ZMOD countBound word] := by
  cases operation with
  | retain => simpa [perform, retained, released] using retain_modEq counted 1
  | retainN n => simpa [perform, retained, released] using retain_modEq counted n
  | release => simpa [perform, retained, released, sub_eq_add_neg] using release_modEq counted 1
  | releaseN n => simpa [perform, retained, released, sub_eq_add_neg] using release_modEq counted n

/-- A run that never meets the immortal mark counts modulo the masked part of the word. -/
theorem execute_modEq
    (counted : ∀ reached, reached <+: operations →
      (execute object reached).1.refcount ≠ immortalRefCount word) :
    ((execute object operations).1.refcount.toNat : ℤ) ≡ object.refcount.toNat +
        (operations.map fun operation => (operation.retained : ℤ) - operation.released).sum
      [ZMOD countBound word] := by
  induction operations generalizing object with
  | nil =>
      rw [execute, List.map_nil, List.sum_nil, add_zero]
  | cons operation rest later =>
      have unfolds : ∀ others, (execute object (operation :: others)).1 =
          (execute (perform object operation).1 others).1 := by
        intro others
        rw [execute_cons others (perform_ne_fatalError object operation)]
      have first := perform_modEq (counted [] List.nil_prefix) operation
      have others := @later (perform object operation).1 fun reached begins => by
        rw [← unfolds]
        exact counted (operation :: reached) (List.cons_prefix_cons.mpr ⟨rfl, begins⟩)
      rw [unfolds, List.map_cons, List.sum_cons, ← add_assoc]
      exact others.trans (first.add_right _)

theorem created_modEq (created : Created kind object) (counted : kind ≠ .static) :
    (object.refcount.toNat : ℤ) ≡ 1 [ZMOD countBound word] := by
  rw [header_of_created created, toNat_field word counted (countBound_pos word)]
  split_ifs with stack
  · rw [Nat.cast_add, Nat.cast_one]
    exact Int.add_modEq_right
  · exact Int.ModEq.refl _

/--
Releasing more references than are left of a counted object never reaches `fatalError`. It
returns, and leaves a count that is too large by as many as the word can tell apart.
-/
theorem overRelease_returns (created : Created kind object) (counted : kind ≠ .static)
    (nonImmortal : ∀ reached, reached <+: operations →
      (execute object reached).1.refcount ≠ immortalRefCount word)
    (positive : 0 < balance operations) (exceeds : balance operations < n.toNat)
    (fits : n.toNat ≤ TwosComplement.maximum true word.bits) :
    (perform (execute object operations).1 (.releaseN n)).2 ≠ .fatalError ∧
      ∃ field, perform (execute object operations).1 (.releaseN n) = (⟨field⟩, .returned) ∧
        (field &&& refcountMask word).toNat =
          balance operations - n.toNat + countBound word := by
  refine ⟨perform_ne_fatalError _ _, ?_⟩
  have largest : TwosComplement.maximum true word.bits = countBound word - 1 := by
    cases word <;> rfl
  have mortal := nonImmortal operations (List.prefix_refl operations)
  have reached : ((execute object operations).1.refcount.toNat : ℤ) ≡ balance operations
      [ZMOD countBound word] :=
    (execute_modEq nonImmortal).trans ((created_modEq created counted).add_right _)
  have decremented := (toNat_sub_modEq (execute object operations).1.refcount
    (truncatingIfNeeded word .int .uint32 n)).trans
      (reached.sub (toNat_truncated_modEq n))
  have masked : ((((execute object operations).1.refcount -
      truncatingIfNeeded word .int .uint32 n) &&& refcountMask word).toNat : ℤ) =
      balance operations - n.toNat + countBound word := by
    rw [toNat_and_refcountMask, Int.natCast_mod]
    calc _ = (balance operations - n.toNat) % countBound word := decremented
      _ = (balance operations - n.toNat + countBound word) % countBound word :=
        (Int.add_emod_right _ _).symm
      _ = balance operations - n.toNat + countBound word :=
        Int.emod_eq_of_lt (by omega) (by omega)
  refine ⟨_, ?_, masked⟩
  rw [perform, swiftReleaseN_, if_neg (by rw [beq_iff_eq]; exact mortal)]
  dsimp only
  rw [not_less_zero_masked, if_neg, if_neg Bool.false_ne_true]
  rw [beq_iff_eq]
  intro zero
  have none : BitVec.toNat (0 : Value word .int) = 0 := by cases word <;> rfl
  rw [zero, none] at masked
  omega

/-- Two references are released where there is one. -/
theorem overRelease_returns_two :
    (perform (execute (⟨1⟩ : HeapObject .word16) []).1 (.releaseN 2)).2 ≠ .fatalError ∧
      ∃ field, perform (execute (⟨1⟩ : HeapObject .word16) []).1 (.releaseN 2) =
          (⟨field⟩, .returned) ∧
        (field &&& refcountMask .word16).toNat = balance [] - 2 + countBound .word16 := by
  have mortal : ∀ reached, reached <+: [] →
      (execute (⟨1⟩ : HeapObject .word16) reached).1.refcount ≠ immortalRefCount .word16 := by
    intro reached begins
    rw [List.prefix_nil.mp begins]
    decide
  exact overRelease_returns (.heap rfl) (by decide) mortal (by decide) (by decide) (by decide)

/-- The count is then far from what it was, and the object is not destroyed. -/
theorem overRelease_undetected :
    Created .heap (⟨1⟩ : HeapObject .word16) ∧ balance [] = 1 ∧
      perform (execute (⟨1⟩ : HeapObject .word16) []).1 (.releaseN 2) = (⟨0xffff⟩, .returned) :=
  ⟨.heap rfl, rfl, by decide⟩

end OverRelease

end USwift
