import USwift.Runtime.RefCountThreads
import USwift.Runtime.RefCountChecks

/-!
# What holds of every interleaving

The atomic updates of a run, in the order in which they happen, are a run of the sequential
model with the same outcomes. An object is given back once, after its last reference, and
nothing follows. A variable that is seen to hold the only reference keeps the object to
itself until it is used again.
-/

namespace USwift

open HeapObject RefCountOperation Interleaving

variable {word : WordSize} {Thread Holder : Type*} [Fintype Thread] [Fintype Holder]
  [DecidableEq Thread] [DecidableEq Holder]

/-- The calls that a run completes, in the order of their last accesses. -/
def completed {Thread Holder : Type*} (labels : List (Label Thread Holder)) :
    List (RefCountOperation × Outcome) :=
  labels.filterMap Label.completed

/-- The references that an effect adds. -/
def Effect.gained {Holder : Type*} : Effect Holder → ℕ
  | retained n _ => n.toNat
  | silent | released .. | tested .. | deallocated _ => 0

section Sequential

variable {count : ℕ} {operations : List RefCountOperation} {operation : RefCountOperation}

theorem outstandingAfter_append :
    outstandingAfter count (operations ++ [operation]) =
      outstanding (outstandingAfter count operations) operation := by
  simp [outstandingAfter]

theorem live_append (live : Live count operations)
    (positive : 0 < outstandingAfter count operations) :
    Live count (operations ++ [operation]) := by
  induction operations generalizing count with
  | nil => exact ⟨positive, trivial⟩
  | cons first rest later => exact ⟨live.1, later live.2 positive⟩

theorem admissible_append (admissible : Admissible word count operations)
    (covered : operation.released ≤ outstandingAfter count operations)
    (below : outstandingAfter count (operations ++ [operation]) <
      (immortalRefCount word).toNat) :
    Admissible word count (operations ++ [operation]) := by
  induction operations generalizing count with
  | nil => exact ⟨covered, below, trivial⟩
  | cons first rest later =>
      exact ⟨admissible.1, admissible.2.1, later admissible.2.2 covered below⟩

theorem outcomes_append (kind : ObjectKind) :
    kind.outcomes count (operations ++ [operation]) =
      kind.outcomes count operations ++
        [kind.outcome (outstandingAfter count operations) operation] := by
  induction operations generalizing count with
  | nil => rfl
  | cons first rest later =>
      simpa [ObjectKind.outcomes, outstandingAfter] using later

theorem execute_static_outcomes (word : WordSize) (first : ℕ) :
    execute (ObjectKind.static.header word first) operations =
      (ObjectKind.static.header word first, ObjectKind.static.outcomes count operations) := by
  induction operations generalizing count with
  | nil => rfl
  | cons operation rest later =>
      have performed := perform_static word first operation
      have rest' := @later (outstanding count operation)
      rw [execute_cons rest (by rw [performed]; exact Outcome.noConfusion), performed, rest']
      simp [ObjectKind.outcomes, ObjectKind.outcome]

end Sequential

section Steps

variable {kind : ObjectKind} {machine changed : Machine word Thread Holder} {thread : Thread}
  {before after : Position Holder} {effect : Effect Holder} {object : HeapObject word}
  {label : Label Thread Holder}

omit [Fintype Thread] [DecidableEq Thread] in
theorem sum_gained (effect : Effect Holder) (held : Holder → ℕ) :
    ∑ holder, effect.credit held holder = ∑ holder, held holder + effect.gained := by
  cases effect with
  | retained n target => exact sum_credit held n target
  | silent | released | tested | deallocated => rfl

theorem total_accessed (stands : machine.position thread = before)
    (accesses : access machine.object before = (object, after, effect)) :
    (machine.accessed thread).1.total + before.carried =
      machine.total + after.carried + effect.gained := by
  have total := @total_advance _ _ _ _ _ machine thread after
    (effect.credit machine.held) _
  have gained := sum_gained effect machine.held
  rw [stands] at total
  have same : (machine.accessed thread).1.total =
      (machine.advance thread after (effect.credit machine.held)).total := by
    subst stands
    simp only [Machine.accessed, accesses]
    rfl
  omega

/-- What a step means for the sequential model. -/
def Follows (kind : ObjectKind) (before after : ℕ) :
    Option (RefCountOperation × Outcome) → Prop
  | none => after = before
  | some (operation, outcome) =>
      0 < before ∧ operation.released ≤ before ∧ after = operation.outstanding before ∧
        outcome = kind.outcome before operation

theorem follows_retained {count : ℕ} (positive : 0 < count) (n : BitVec 32) :
    Follows kind count (count + n.toNat) (some (.retainN n, .returned)) := by
  refine ⟨positive, Nat.zero_le _, rfl, ?_⟩
  simp [ObjectKind.outcome, IsRelease]

theorem follows_released (kind : ObjectKind) {count : ℕ} {n : BitVec 32} (positive : 0 < n.toNat)
    (covered : n.toNat ≤ count) :
    Follows kind count (count - n.toNat) (some (.releaseN n,
      if kind ≠ .static ∧ count - n.toNat = 0 then .destroyed else .returned)) := by
  refine ⟨positive.trans_le covered, covered, rfl, ?_⟩
  simp [ObjectKind.outcome, IsRelease, outstanding, retained, released]

theorem follows_of {total : ℕ} (stands : machine.position thread = before)
    (accesses : access machine.object before = (object, after, effect))
    (sum : machine.total + after.carried + effect.gained = total + before.carried)
    (follows : Follows kind machine.total total effect.completed) :
    Follows kind machine.total (machine.accessed thread).1.total
      (machine.accessed thread).2.completed := by
  have accessed := total_accessed stands accesses
  have same : (machine.accessed thread).1.total = total := by omega
  have completes : (machine.accessed thread).2 = effect := by
    subst stands
    simp only [Machine.accessed, accesses]
  rw [same, completes]
  exact follows

theorem follows_accessed (accounted : Accounted kind machine) (thread : Thread) :
    Follows kind machine.total (machine.accessed thread).1.total
      (machine.accessed thread).2.completed := by
  have allowed := accounted.allowed thread
  have covered := carried_le_total machine thread
  have needed : ∀ holder, (machine.position thread).ReliesOn holder → 0 < machine.total :=
    fun _ relies => accounted.total_pos ⟨thread, relies⟩
  have counted : kind ≠ .static →
      (machine.object.refcount == immortalRefCount word) = false := by
    intro static
    have bounded := accounted.bounded static
    rw [accounted.header]
    exact header_ne_immortal word static (by omega)
  have immortal : kind = .static → machine.object = ObjectKind.static.header word 0 := by
    rintro rfl
    exact accounted.header
  cases stands : machine.position thread with
  | outside => exact follows_of stands rfl rfl rfl
  | retaining n source target =>
      rw [stands] at needed
      by_cases static : kind = .static
      · have accesses := access_retaining_static word 0 n source target
        rw [← immortal static] at accesses
        exact follows_of stands accesses rfl (follows_retained (needed source rfl) n)
      · exact follows_of stands (access_retaining_counted (counted static) source target) rfl rfl
  | adding n source target =>
      rw [stands] at allowed needed
      exact follows_of stands (access_adding (counted allowed) source target) rfl
        (follows_retained (needed source rfl) n)
  | releasing n =>
      rw [stands] at allowed covered
      change n.toNat ≤ machine.total at covered
      by_cases static : kind = .static
      · have accesses := access_releasing_static Holder word 0 n
        have follows := follows_released kind allowed covered
        rw [← immortal static] at accesses
        rw [if_neg (by simp [static])] at follows
        apply follows_of stands accesses _ follows
        exact (Nat.sub_add_cancel covered).symm
      · exact follows_of stands (access_releasing_counted (counted static)) rfl rfl
  | subtracting n =>
      rw [stands] at allowed covered
      rcases allowed with ⟨static, positive⟩
      change n.toNat ≤ machine.total at covered
      have bounded := accounted.bounded static
      have released := @release_header word _ static _ _ (by omega) covered
      have accesses := access_subtracting Holder n (counted static)
      have follows := follows_released kind positive covered
      rw [← accounted.header] at released
      rw [released] at accesses
      simp only [static, ne_eq, not_false_eq_true, true_and] at follows
      apply follows_of stands accesses _ follows
      rw [Outcome.carried_position]
      exact (Nat.sub_add_cancel covered).symm
  | destroying => exact follows_of stands rfl rfl rfl
  | testing holder => exact follows_of stands rfl rfl rfl
  | failed =>
      rw [stands] at allowed
      exact allowed.elim

theorem follows_step (accounted : Accounted kind machine)
    (step : Step kind machine label changed) :
    Follows kind machine.total changed.total label.completed := by
  cases step with
  | retain outside referenced untested room => exact total_called outside rfl
  | release outside positive covered kept => exact total_called outside (sum_taken covered)
  | test outside referenced exclusive => exact total_called outside rfl
  | move different positive covered kept => exact total_moved different covered
  | @access thread inside => exact follows_accessed accounted thread

end Steps

section Runs

variable {kind : ObjectKind} {object : HeapObject word} {holder : Holder} {thread : Thread}
  {labels : List (Label Thread Holder)} {machine changed : Machine word Thread Holder}
  {unique : Bool}

/-- The sequential run that the completed calls of a run are. -/
structure Linearized (kind : ObjectKind) (labels : List (Label Thread Holder))
    (machine : Machine word Thread Holder) : Prop where
  accounted : Accounted kind machine
  total : machine.total = outstandingAfter 1 ((completed labels).map Prod.fst)
  live : Live 1 ((completed labels).map Prod.fst)
  admissible : kind ≠ .static → Admissible word 1 ((completed labels).map Prod.fst)
  outcomes : kind.outcomes 1 ((completed labels).map Prod.fst) =
    (completed labels).map Prod.snd

theorem linearized_step {label : Label Thread Holder} (linearized : Linearized kind labels machine)
    (step : Step kind machine label changed) : Linearized kind (labels ++ [label]) changed := by
  have follows := follows_step linearized.accounted step
  have accounted := accounted_step linearized.accounted step
  have total := linearized.total
  have appended : completed (labels ++ [label]) = completed labels ++ label.completed.toList := by
    cases completes : label.completed <;> simp [completed, completes]
  cases completes : label.completed with
  | none =>
      rw [completes] at follows appended
      have same : completed (labels ++ [label]) = completed labels := by simpa using appended
      refine ⟨accounted, ?_, ?_, ?_, ?_⟩
      all_goals rw [same]
      · exact follows.trans total
      · exact linearized.live
      · exact linearized.admissible
      · exact linearized.outcomes
  | some call =>
      rcases call with ⟨operation, outcome⟩
      rw [completes] at follows appended
      rcases follows with ⟨positive, covered, reached, result⟩
      rw [total] at positive covered reached result
      have operations : (completed (labels ++ [label])).map Prod.fst =
          (completed labels).map Prod.fst ++ [operation] := by simp [appended]
      have reached' : changed.total =
          outstandingAfter 1 ((completed labels).map Prod.fst ++ [operation]) := by
        rw [outstandingAfter_append, reached]
      refine ⟨accounted, ?_, ?_, ?_, ?_⟩
      all_goals rw [operations]
      · exact reached'
      · exact live_append linearized.live positive
      · intro counted
        have bounded := accounted.bounded counted
        apply admissible_append (linearized.admissible counted) covered
        omega
      · rw [outcomes_append, linearized.outcomes, ← result]
        simp [appended]

theorem linearized_run (created : Created kind object)
    (run : Run (Step kind) (Machine.start object holder) labels machine) :
    Linearized kind labels machine := by
  rw [header_of_created created] at run
  have start : Linearized kind []
      (Machine.start (kind.header word 1) holder : Machine word Thread Holder) := by
    refine ⟨accounted_start kind holder, ?_, trivial, fun _ => trivial, rfl⟩
    exact total_start (kind.header word 1) holder
  exact run.keeps start linearized_step

/--
The calls that a run completes, in the order of their last accesses, are a run of the
sequential model. It leaves the same word and has the same outcomes, and every call of it is
made while there are references.
-/
theorem interleaved_linearizes (created : Created kind object)
    (run : Run (Step kind) (Machine.start object holder) labels machine) :
    execute object ((completed labels).map Prod.fst) =
        (machine.object, (completed labels).map Prod.snd) ∧
      outstandingAfter 1 ((completed labels).map Prod.fst) = machine.total ∧
      Live 1 ((completed labels).map Prod.fst) := by
  have linearized := linearized_run created run
  have one_lt : 1 < (immortalRefCount word).toNat := by cases word <;> decide
  refine ⟨?_, linearized.total.symm, linearized.live⟩
  rw [header_of_created created, linearized.accounted.header, linearized.total,
    ← linearized.outcomes]
  by_cases static : kind = .static
  · subst static
    exact execute_static_outcomes word 1
  · exact execute_header word kind one_lt (linearized.admissible static)

/-- Two threads retain at the same time, and the second one is the first to add. -/
theorem interleaved_linearizes_race :
    ∃ labels machine,
      Run (Step .heap) (Machine.start (⟨1⟩ : HeapObject .word16) (0 : Fin 2)) labels machine ∧
        (completed (labels : List (Label (Fin 2) (Fin 2)))).map Prod.fst =
          [.retainN 2, .retainN 1] ∧
        execute (⟨1⟩ : HeapObject .word16) [.retainN 2, .retainN 1] =
          (machine.object, [.returned, .returned]) := by
  have untested : ∀ other : Fin 2, (Machine.start (⟨1⟩ : HeapObject .word16) (0 : Fin 2) :
      Machine .word16 (Fin 2) (Fin 2)).position other ≠ .testing 0 := by decide
  have run := Run.next .start (@Step.retain _ _ _ _ _ _ _ .heap _ (0 : Fin 2) 1 0 1 rfl
    (by decide) untested (by decide))
  have run := run.next (@Step.access _ _ _ _ _ _ _ .heap _ (0 : Fin 2) (by decide))
  have run := run.next (@Step.retain _ _ _ _ _ _ _ .heap _ (1 : Fin 2) 2 0 1 rfl
    (by decide) (by decide) (by decide))
  have run := run.next (@Step.access _ _ _ _ _ _ _ .heap _ (1 : Fin 2) (by decide))
  have run := run.next (@Step.access _ _ _ _ _ _ _ .heap _ (1 : Fin 2) (by decide))
  have run := run.next (@Step.access _ _ _ _ _ _ _ .heap _ (0 : Fin 2) (by decide))
  exact ⟨_, _, run, rfl, (interleaved_linearizes (.heap rfl) run).1⟩

omit [DecidableEq Thread] [DecidableEq Holder] in
theorem Accounted.idle_or_destroying (accounted : Accounted kind machine)
    (none : machine.total = 0) (thread : Thread) :
    machine.position thread = .outside ∨ machine.position thread = .destroying := by
  have covered := carried_le_total machine thread
  have allowed := accounted.allowed thread
  have needed : ∀ holder, ¬ (machine.position thread).ReliesOn holder := by
    intro holder relies
    have positive := accounted.total_pos ⟨thread, relies⟩
    omega
  cases stands : machine.position thread with
  | outside => exact Or.inl rfl
  | destroying => exact Or.inr rfl
  | retaining n source target | adding n source target =>
      rw [stands] at needed
      exact absurd rfl (needed source)
  | testing holder =>
      rw [stands] at needed
      exact absurd rfl (needed holder)
  | releasing n =>
      rw [stands] at covered allowed
      change n.toNat ≤ _ at covered
      change 0 < n.toNat at allowed
      omega
  | subtracting n =>
      rw [stands] at covered allowed
      change n.toNat ≤ _ at covered
      have positive := allowed.2
      omega
  | failed =>
      rw [stands] at allowed
      exact allowed.elim

omit [DecidableEq Holder] in
/-- An object without references is being destroyed by one thread, or has been. -/
theorem Accounted.ending (accounted : Accounted kind machine) (counted : kind ≠ .static)
    (none : machine.total = 0) :
    (machine.ended = [] ∧ ∃! thread, machine.position thread = .destroying) ∨
      (machine.ended = [decide (kind = .heap)] ∧
        ∀ thread, machine.position thread = .outside) := by
  have ended := accounted.ended
  have idle := accounted.idle_or_destroying none
  rw [if_pos ⟨counted, none⟩] at ended
  by_cases exists_ : ∃ thread, machine.position thread = .destroying
  · rcases exists_ with ⟨thread, destroying⟩
    have one := le_sum (fun other => (machine.position other).destruction) thread
    simp only [destroying] at one
    change 1 ≤ machine.destructions at one
    refine Or.inl ⟨List.length_eq_zero_iff.mp (by omega), thread, destroying, ?_⟩
    intro other also
    by_contra different
    have two := add_le_sum (fun third => (machine.position third).destruction) different
    simp only [destroying, also] at two
    change 1 + 1 ≤ machine.destructions at two
    omega
  · have outside : ∀ thread, machine.position thread = .outside := by
      intro thread
      exact (idle thread).resolve_right fun destroying => exists_ ⟨thread, destroying⟩
    have zero : machine.destructions = 0 := by
      apply Finset.sum_eq_zero
      intro thread _
      rw [outside thread]
      rfl
    rcases List.length_eq_one_iff.mp (by omega : machine.ended.length = 1) with ⟨freed, single⟩
    refine Or.inr ⟨?_, outside⟩
    rw [single, accounted.freed freed (by rw [single]; exact List.mem_singleton_self freed)]

/-- Without references, nothing can happen outside the destroy function. -/
theorem stuck_of_total_eq_zero (none : machine.total = 0)
    (outside : ∀ thread, machine.position thread = .outside)
    (label : Label Thread Holder) (changed : Machine word Thread Holder) :
    ¬ Step kind machine label changed := by
  have held : ∀ holder, machine.held holder = 0 := by
    intro holder
    have bounded := held_le_total machine holder
    omega
  intro step
  cases step with
  | @retain _ _ source _ _ referenced _ _ =>
      rw [held source] at referenced
      omega
  | @release _ _ source _ positive covered _ =>
      rw [held source] at covered
      omega
  | @test _ holder _ referenced _ =>
      rw [held holder] at referenced
      omega
  | @move _ source _ _ positive covered _ =>
      rw [held source] at covered
      omega
  | @access thread inside => exact inside (outside thread)

/--
No interleaving fails. While there are references, nobody destroys the object. Without
references, one thread is destroying it or has done so, and its memory is given back if it is
a heap object. After that, no thread does anything with the object.
-/
theorem interleaved_ends_once (created : Created kind object) (counted : kind ≠ .static)
    (run : Run (Step kind) (Machine.start object holder) labels machine) :
    (∀ thread, machine.position thread ≠ .failed) ∧
      (0 < machine.total →
        machine.ended = [] ∧ ∀ thread, machine.position thread ≠ .destroying) ∧
      (machine.total = 0 →
        (machine.ended = [] ∧ ∃! thread, machine.position thread = .destroying) ∨
          (machine.ended = [decide (kind = .heap)] ∧
            ∀ thread, machine.position thread = .outside)) ∧
      (machine.ended ≠ [] → ∀ label changed, ¬ Step kind machine label changed) := by
  have accounted := (linearized_run created run).accounted
  refine ⟨?_, ?_, accounted.ending counted, ?_⟩
  · intro thread failed
    have allowed := accounted.allowed thread
    rw [failed] at allowed
    exact allowed
  · intro alive
    rcases accounted.not_ended alive with ⟨unended, none⟩
    refine ⟨unended, ?_⟩
    intro thread destroying
    have one := le_sum (fun other => (machine.position other).destruction) thread
    simp only [destroying] at one
    change 1 ≤ machine.destructions at one
    omega
  · intro ended
    have none : machine.total = 0 := by
      by_contra alive
      exact ended (accounted.not_ended (Nat.pos_of_ne_zero alive)).1
    rcases accounted.ending counted none with ⟨unended, _⟩ | ⟨_, outside⟩
    · exact absurd unended ended
    · exact stuck_of_total_eq_zero none outside

/-- The last reference is released, and the object destroyed. -/
theorem interleaved_ends_once_released :
    ∃ labels machine,
      Run (Step .heap) (Machine.start (⟨1⟩ : HeapObject .word16) (0 : Fin 2)) labels machine ∧
        machine.ended = [true] ∧
        ∀ (label : Label (Fin 2) (Fin 2)) changed, ¬ Step .heap machine label changed := by
  have unneeded : ¬ (Machine.start (⟨1⟩ : HeapObject .word16) (0 : Fin 2) :
      Machine .word16 (Fin 2) (Fin 2)).Needed 0 := by
    rintro ⟨_, relies⟩
    exact relies
  have run := Run.next .start (@Step.release _ _ _ _ _ _ _ .heap _ (0 : Fin 2) 1 0 rfl
    (by decide) (by decide) (fun needed => absurd needed unneeded))
  have run := run.next (@Step.access _ _ _ _ _ _ _ .heap _ (0 : Fin 2) (by decide))
  have run := run.next (@Step.access _ _ _ _ _ _ _ .heap _ (0 : Fin 2) (by decide))
  have run := run.next (@Step.access _ _ _ _ _ _ _ .heap _ (0 : Fin 2) (by decide))
  have once := interleaved_ends_once (.heap rfl) (by decide) run
  exact ⟨_, _, run, rfl, once.2.2.2 (by decide)⟩

theorem isUniquelyReferenced_static (word : WordSize) (count : ℕ) :
    swiftIsUniquelyReferencedNonNullNative (ObjectKind.static.header word count) = false := by
  cases word <;> rfl

omit [DecidableEq Thread] [DecidableEq Holder] in
theorem isUniquelyReferenced_header (accounted : Accounted kind machine) :
    swiftIsUniquelyReferencedNonNullNative machine.object = true ↔
      kind = .heap ∧ machine.total = 1 := by
  have immortal := toNat_immortalRefCount word
  rw [accounted.header]
  cases kind with
  | static =>
      simp [isUniquelyReferenced_static word machine.total]
  | heap =>
      have bounded := accounted.bounded (by decide)
      rw [isUniquelyReferenced_heap (by omega)]
      simp
  | stack =>
      have bounded := accounted.bounded (by decide)
      rw [isUniquelyReferenced_stack (by omega)]
      simp

omit [DecidableEq Thread] in
/-- With one reference, which a test relies on, there is nothing else. -/
theorem Accounted.alone_with (accounted : Accounted kind machine) (one : machine.total = 1)
    (tests : machine.position thread = .testing holder) :
    (∀ other, machine.held other = if other = holder then 1 else 0) ∧
      ∀ other, other ≠ thread → machine.position other = .outside := by
  have relied := accounted.relied thread holder (by rw [tests]; rfl)
  have elsewhere : ∀ other, other ≠ holder → machine.held other = 0 := by
    intro other different
    have two := add_le_sum machine.held different
    simp only [Machine.total] at one
    omega
  have uncarried : ∀ other, (machine.position other).carried = 0 := by
    intro other
    have here := le_sum machine.held holder
    have there := le_sum (fun third => (machine.position third).carried) other
    simp only [Machine.total] at one
    omega
  have unneeded : ∀ other source, other ≠ thread →
      ¬ (machine.position other).ReliesOn source := by
    intro other source different relies
    have positive := accounted.relied other source relies
    rcases eq_or_ne source holder with rfl | apart
    · exact different (accounted.alone thread other source tests relies)
    · have zero := elsewhere source apart
      omega
  constructor
  · intro other
    have bounded := held_le_total machine holder
    split_ifs with same
    · subst same
      omega
    · exact elsewhere other same
  · intro other different
    have allowed := accounted.allowed other
    have carried := uncarried other
    have unneeded := fun source => unneeded other source different
    have unended := (accounted.not_ended (by omega)).2
    cases stands : machine.position other with
    | outside => rfl
    | retaining n source target | adding n source target =>
        rw [stands] at unneeded
        exact absurd rfl (unneeded source)
    | testing source =>
        rw [stands] at unneeded
        exact absurd rfl (unneeded source)
    | releasing n =>
        rw [stands] at allowed carried
        change n.toNat = 0 at carried
        change 0 < n.toNat at allowed
        omega
    | subtracting n =>
        rw [stands] at allowed carried
        change n.toNat = 0 at carried
        have positive := allowed.2
        omega
    | destroying =>
        have begun := le_sum (fun third => (machine.position third).destruction) other
        simp only [stands] at begun
        change 1 ≤ machine.destructions at begun
        omega
    | failed =>
        rw [stands] at allowed
        exact allowed.elim

/-- While all threads are outside, every step uses a holder with references. -/
theorem uses_of_outside {label : Label Thread Holder}
    (alone : ∀ other, machine.held other = if other = holder then 1 else 0)
    (outside : ∀ thread, machine.position thread = .outside)
    (step : Step kind machine label changed) : label.Uses holder := by
  have only : ∀ other, 0 < machine.held other → other = holder := by
    intro other positive
    by_contra different
    rw [alone other, if_neg different] at positive
    omega
  cases step with
  | @retain _ _ source _ _ referenced _ _ => exact only source referenced
  | @release _ _ source _ positive covered _ => exact only source (positive.trans_le covered)
  | @test _ other _ referenced _ => exact only other referenced
  | @move _ source _ _ positive covered _ => exact only source (positive.trans_le covered)
  | @access thread inside => exact absurd (outside thread) inside

theorem accessed_of_tested
    (step : Step kind machine (.access thread (.tested holder unique)) changed) :
    machine.position thread = .testing holder ∧
      unique = swiftIsUniquelyReferencedNonNullNative machine.object ∧
      changed.held = machine.held ∧
      changed.position = Function.update machine.position thread .outside := by
  generalize effect : Effect.tested holder unique = result at step
  cases step with
  | access inside =>
      cases stands : machine.position thread with
      | testing other =>
          simp only [Machine.accessed, Machine.advance, stands, access, Effect.tested.injEq,
            Effect.credit, loadAcquire] at effect ⊢
          rcases effect with ⟨rfl, rfl⟩
          simp [swiftIsUniquelyReferencedNonNullNative]
      | outside => exact absurd stands inside
      | retaining n source target | releasing n =>
          simp only [Machine.accessed, stands, access] at effect
          split_ifs at effect
      | adding n source target | destroying | failed =>
          simp only [Machine.accessed, stands, access] at effect
          cases effect
      | subtracting n =>
          simp only [Machine.accessed, stands, access] at effect
          split_ifs at effect

/--
The uniqueness test succeeds if and only if its variable holds the only reference to a heap
object. Then no call is under way, and no run changes anything before it uses the variable.
-/
theorem tested_unique (created : Created kind object)
    (run : Run (Step kind) (Machine.start object holder) labels machine) {tested : Holder}
    (step : Step kind machine (.access thread (.tested tested unique)) changed) :
    (unique = true ↔ kind = .heap ∧ machine.total = 1) ∧
      (unique = true →
        (∀ other, changed.held other = if other = tested then 1 else 0) ∧
          (∀ other, changed.position other = .outside) ∧
          ∀ later last, Run (Step kind) changed later last →
            (∀ label ∈ later, ¬ label.Uses tested) → last = changed) := by
  have accounted := (linearized_run created run).accounted
  rcases accessed_of_tested step with ⟨tests, result, held, positions⟩
  have decides : unique = true ↔ kind = .heap ∧ machine.total = 1 := by
    rw [result]
    exact isUniquelyReferenced_header accounted
  refine ⟨decides, ?_⟩
  intro isUnique
  rcases accounted.alone_with (decides.mp isUnique).2 tests with ⟨alone, others⟩
  have outside : ∀ other, changed.position other = .outside := by
    intro other
    rw [positions]
    rcases eq_or_ne other thread with rfl | different
    · exact Function.update_self _ _ _
    · rw [Function.update_of_ne different]
      exact others other different
  rw [← held] at alone
  refine ⟨alone, outside, ?_⟩
  intro later last further unused
  have stuck : ∀ label next, Step kind changed label next → ¬ ¬ label.Uses tested :=
    fun _ _ stepped unused => unused (uses_of_outside alone outside stepped)
  exact further.eq_of_stuck stuck unused

/-- A thread tests the variable of a new object. -/
theorem tested_unique_new :
    ∃ labels machine changed,
      Run (Step .heap) (Machine.start (⟨1⟩ : HeapObject .word16) (0 : Fin 2)) labels machine ∧
        Step .heap machine (.access (0 : Fin 2) (.tested 0 true)) changed ∧
        (true = true ↔ ObjectKind.heap = .heap ∧ machine.total = 1) := by
  have unneeded : ¬ (Machine.start (⟨1⟩ : HeapObject .word16) (0 : Fin 2) :
      Machine .word16 (Fin 2) (Fin 2)).Needed 0 := by
    rintro ⟨_, relies⟩
    exact relies
  have run := Run.next .start (@Step.test _ _ _ _ _ _ _ .heap _ (0 : Fin 2) 0 rfl (by decide)
    unneeded)
  refine ⟨_, _, _, run, @Step.access _ _ _ _ _ _ _ .heap _ (0 : Fin 2) (by decide), ?_⟩
  exact (tested_unique (.heap rfl) run
    (@Step.access _ _ _ _ _ _ _ .heap _ (0 : Fin 2) (by decide))).1

end Runs

end USwift
