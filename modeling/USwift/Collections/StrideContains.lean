import USwift.Collections.Stride
import USwift.Integer.Exactly

/-!
# Membership in strides

`contains(_:)` of a stride asks `_customContainsEquatableElement(_:)` first and iterates
only where that has no answer. The answer of the strides compares the element with the
start from below and with the end from above, whatever the direction of the stride.
-/

namespace USwift

open Iteration Progression TwosComplement

section Contains

universe u v

variable {State : Type u} {Element : Type v} (next : State → Option (Element × State))

/-- `contains(where:)`, with no result behind a number of calls of `next()`. -/
def containsWhere (predicate : Element → Bool) : ℕ → State → Option Bool
  | 0, _ => none
  | fuel + 1, state =>
      match next state with
      | none => some false
      | some (e, later) => if predicate e then some true else containsWhere predicate fuel later

/-- `Sequence.contains(_:)`, given what a sequence answers by itself. -/
def sequenceContains [BEq Element] (custom : Element → Option Bool) (iterator : State)
    (element : Element) (fuel : ℕ) : Option Bool :=
  match custom element with
  | some result => some result
  | none => containsWhere next (fun e => e == element) fuel iterator

variable {next}

theorem containsWhere_of_yields {predicate : Element → Bool} {state : State}
    {elements : List Element} (yields : Yields next state elements) {fuel : ℕ}
    (enough : elements.length < fuel) :
    containsWhere next predicate fuel state = some (elements.any predicate) := by
  induction elements generalizing fuel state with
  | nil =>
      rcases Nat.exists_eq_add_of_lt enough with ⟨more, rfl⟩
      rw [containsWhere, yields.nil_inv]
      rfl
  | cons element elements shorter =>
      rcases Nat.exists_eq_add_of_lt enough with ⟨more, rfl⟩
      rcases yields.cons_inv with ⟨later, advanced, rest⟩
      rw [containsWhere, advanced]
      dsimp only
      cases held : predicate element with
      | true => simp [held]
      | false =>
          rw [if_neg Bool.false_ne_true, shorter rest (by simp; omega)]
          simp [held]

/-- `contains(_:)` tells what iterating produces, unless the sequence answers something else. -/
theorem exists_sequenceContains_iff [BEq Element] [LawfulBEq Element] [DecidableEq Element]
    {custom : Element → Option Bool} {iterator : State} {elements : List Element}
    (yields : Yields next iterator elements) (element : Element) :
    (∃ elements fuel, Yields next iterator elements ∧
      sequenceContains next custom iterator element fuel = some (decide (element ∈ elements))) ↔
      ∀ result, custom element = some result → result = decide (element ∈ elements) := by
  have searched : containsWhere next (fun e => e == element) (elements.length + 1) iterator =
      some (elements.any fun e => e == element) :=
    containsWhere_of_yields yields (Nat.lt_succ_self _)
  have found : (elements.any fun e => e == element) = decide (element ∈ elements) := by
    rw [Bool.eq_iff_iff]
    simp
  cases answer : custom element with
  | none =>
      refine iff_of_true ⟨elements, elements.length + 1, yields, ?_⟩ (by simp)
      rw [sequenceContains, answer]
      dsimp only
      rw [searched, found]
  | some result =>
      simp only [sequenceContains, answer, Option.some_inj, forall_eq']
      constructor
      · rintro ⟨others, _, again, same⟩
        rw [same, again.unique yields]
      · intro same
        exact ⟨elements, 0, yields, same⟩

end Contains

section Operations

variable {word : WordSize} {type : IntegerType}

/-- `_customContainsEquatableElement(_:)`. -/
def StrideTo._customContainsEquatableElement (self : StrideTo word type)
    (element : Value word type) : Option Bool :=
  if less word type element self._start || !less word type element self._end then some false
  else none

/-- `_customContainsEquatableElement(_:)`. -/
def StrideThrough._customContainsEquatableElement (self : StrideThrough word type)
    (element : Value word type) : Option Bool :=
  if less word type element self._start || less word type self._end element then some false
  else none

/-- `contains(_:)`. -/
def StrideTo.contains (self : StrideTo word type) (element : Value word type) (fuel : ℕ) :
    Option Bool :=
  sequenceContains StrideToIterator.next self._customContainsEquatableElement self.makeIterator
    element fuel

/-- `contains(_:)`. -/
def StrideThrough.contains (self : StrideThrough word type) (element : Value word type)
    (fuel : ℕ) : Option Bool :=
  sequenceContains StrideThroughIterator.next self._customContainsEquatableElement
    self.makeIterator element fuel

end Operations

variable {word : WordSize} {type : IntegerType}

/-- The iterators compute no integer outside of the type on their way to the end. -/
def StaysInside (start _end : Value word type) (stride : Value word .int) : Prop :=
  ∃ count : ℕ,
    (∀ k < count, Precedes (toInt word .int stride)
      (term (toInt word type start) (moved word type stride) k) (toInt word type _end)) ∧
    ¬ Precedes (toInt word .int stride)
      (term (toInt word type start) (moved word type stride) count) (toInt word type _end) ∧
    ∀ k ≤ count, InRange word type (term (toInt word type start) (moved word type stride) k)

/-- `contains(_:)` of a stride that ends tells whether iterating it produces an element. -/
def StrideTo.ContainsExactly (self : StrideTo word type) (element : Value word type) : Prop :=
  ∃ elements fuel, Yields StrideToIterator.next self.makeIterator elements ∧
    self.contains element fuel = some (decide (element ∈ elements))

/-- `contains(_:)` of a stride that ends tells whether iterating it produces an element. -/
def StrideThrough.ContainsExactly (self : StrideThrough word type) (element : Value word type) :
    Prop :=
  ∃ elements fuel, Yields StrideThroughIterator.next self.makeIterator elements ∧
    self.contains element fuel = some (decide (element ∈ elements))

variable {start _end : Value word type} {stride : Value word .int}

theorem moved_of_backwards (backwards : MovesBackwards word type stride) :
    toInt word .int stride < 0 ∧ 0 < moved word type stride := by
  have least : toInt word .int stride < 0 := by
    rw [backwards.2.2]
    cases word <;> decide
  rw [moved, if_pos backwards]
  omega

namespace StaysInside

/-- The iterators move as they should, or do not move at all. -/
theorem counts (nonzero : stride ≠ 0) (inside : StaysInside start _end stride) :
    InRange word type (term (toInt word type start) (moved word type stride)
        (stridesBefore start _end stride)) ∧
      (stridesBefore start _end stride = 0 ∨ ¬ MovesBackwards word type stride) := by
  rcases inside with ⟨count, before, past, bounds⟩
  have stride_ne := toInt_stride_ne_zero nonzero
  by_cases backwards : MovesBackwards word type stride
  · rcases moved_of_backwards backwards with ⟨downward, upward⟩
    have none : ¬ Precedes (toInt word .int stride) (toInt word type start)
        (toInt word type _end) := by
      intro first
      rw [Precedes, if_neg (by omega)] at first past
      have onward : 0 ≤ (count : ℤ) * moved word type stride :=
        mul_nonneg (by omega) upward.le
      rw [term] at past
      omega
    have zero : stridesBefore start _end stride = 0 := by
      have first : ¬ 0 < stridesBefore start _end stride := by
        rwa [stridesBefore, lt_termsBefore_iff stride_ne, term_zero]
      omega
    rw [zero]
    exact ⟨bounds 0 (Nat.zero_le count), Or.inl rfl⟩
  · rw [moved, if_neg backwards] at before past bounds ⊢
    have same : stridesBefore start _end stride = count := by
      apply eq_of_lt_iff
      intro k
      rw [stridesBefore, lt_termsBefore_iff stride_ne]
      constructor
      · intro holds
        by_contra late
        rcases (not_lt.mp late).eq_or_lt with rfl | later
        · exact past holds
        · exact (precedes_of_precedes_term stride_ne later past).asymm holds
      · exact before k
    exact ⟨same ▸ bounds count le_rfl, Or.inr backwards⟩

theorem stopsBeyondOrAt (nonzero : stride ≠ 0) (inside : StaysInside start _end stride) :
    StopsBeyondOrAt start _end stride := by
  rcases inside.counts nonzero with ⟨bounds, moves⟩
  have exact : reached start stride (stridesBefore start _end stride) =
      term (toInt word type start) (toInt word .int stride) (stridesBefore start _end stride) := by
    rw [reached, wrap_of_bounds (type.bitWidth_pos word) bounds.1 bounds.2]
    rcases moves with none | forwards
    · rw [none, term_zero, term_zero]
    · rw [moved, if_neg forwards]
  rw [StopsBeyondOrAt, StopsBeyond, exact]
  refine ⟨⟨moves.imp_left fun none => by omega, ?_⟩, Iff.rfl⟩
  exact (lt_termsBefore_iff (toInt_stride_ne_zero nonzero)).not.mp (Nat.lt_irrefl _)

end StaysInside

theorem mem_iff_of_lists {included : ℤ → Prop} {a : ℤ} {elements : List (Value word type)}
    (lists : Lists a (toInt word .int stride) included (elements.map (toInt word type)))
    (x : Value word type) :
    x ∈ elements ↔
      ∃ k, term a (toInt word .int stride) k = toInt word type x ∧
        included (toInt word type x) := by
  rw [← lists.mem_iff, List.mem_map]
  constructor
  · intro member
    exact ⟨x, member, rfl⟩
  · rintro ⟨y, member, same⟩
    exact toInt_injective same ▸ member

theorem start_le_of_term {a b s : ℤ} {k : ℕ} (upward : 0 < s) (reached : term a s k = b) :
    a ≤ b := by
  have onward : 0 ≤ (k : ℤ) * s := mul_nonneg (by omega) upward.le
  rw [term] at reached
  omega

theorem le_start_of_term {a b s : ℤ} {k : ℕ} (downward : s ≤ 0) (reached : term a s k = b) :
    b ≤ a := by
  have onward : (k : ℤ) * s ≤ 0 := mul_nonpos_of_nonneg_of_nonpos (by omega) downward
  rw [term] at reached
  omega

theorem answer_eq_iff {outside answer : Bool} :
    (∀ result, (if outside then some false else none) = some result → result = answer) ↔
      (outside = true → answer = false) := by
  cases outside <;> simp [eq_comm]

theorem StrideTo.answer_iff {x : Value word type} {answer : Bool} :
    (∀ result, (strideTo start _end stride)._customContainsEquatableElement x = some result →
        result = answer) ↔
      (toInt word type x < toInt word type start ∨ toInt word type _end ≤ toInt word type x →
        answer = false) := by
  refine answer_eq_iff.trans ?_
  rw [Bool.or_eq_true, Bool.not_eq_true', ← Bool.not_eq_true, less_iff, less_iff, not_lt]
  rfl

theorem StrideThrough.answer_iff {x : Value word type} {answer : Bool} :
    (∀ result, (strideThrough start _end stride)._customContainsEquatableElement x = some result →
        result = answer) ↔
      (toInt word type x < toInt word type start ∨ toInt word type _end < toInt word type x →
        answer = false) := by
  refine answer_eq_iff.trans ?_
  rw [Bool.or_eq_true, less_iff, less_iff]
  rfl

/-- What the answer of `StrideTo` says about an element that iterating may produce. -/
theorem StrideTo.containsExactly_iff (strides : StridesTo start _end stride)
    (x : Value word type) :
    (strideTo start _end stride).ContainsExactly x ↔
      (0 < toInt word .int stride ∨
        ¬ ∃ k, term (toInt word type start) (toInt word .int stride) k = toInt word type x ∧
          toInt word type _end < toInt word type x) := by
  rcases strides with ⟨elements, yields, lists⟩
  have member := mem_iff_of_lists lists x
  have reading := @exists_sequenceContains_iff _ _ StrideToIterator.next _ _ _
    (strideTo start _end stride)._customContainsEquatableElement _ _ yields x
  refine reading.trans ?_
  rw [answer_iff, decide_eq_false_iff_not, member]
  constructor
  · intro answered
    by_contra wrong
    rw [not_or, not_not] at wrong
    rcases wrong with ⟨downward, k, hit, past⟩
    refine answered (Or.inr past.le) ⟨k, hit, ?_⟩
    rw [Precedes, if_neg downward]
    exact past
  · rintro (upward | missed) outside ⟨k, hit, before⟩
    · have above := start_le_of_term upward hit
      rw [Precedes, if_pos upward] at before
      omega
    · rw [Precedes] at before
      split at before
      · next upward =>
        have above := start_le_of_term upward hit
        omega
      · exact missed ⟨k, hit, before⟩

/-- What the answer of `StrideThrough` says about an element that iterating may produce. -/
theorem StrideThrough.containsExactly_iff (strides : StridesThrough start _end stride)
    (x : Value word type) :
    (strideThrough start _end stride).ContainsExactly x ↔
      (0 < toInt word .int stride ∨ start = _end ∨
        ¬ ∃ k, term (toInt word type start) (toInt word .int stride) k = toInt word type x ∧
          toInt word type _end ≤ toInt word type x) := by
  rcases strides with ⟨elements, yields, lists⟩
  have member := mem_iff_of_lists lists x
  have reading := @exists_sequenceContains_iff _ _ StrideThroughIterator.next _ _ _
    (strideThrough start _end stride)._customContainsEquatableElement _ _ yields x
  refine reading.trans ?_
  rw [answer_iff, decide_eq_false_iff_not, member]
  constructor
  · intro answered
    by_contra wrong
    rw [not_or, not_or, not_not] at wrong
    rcases wrong with ⟨downward, apart, k, hit, past⟩
    have below := le_start_of_term (by omega) hit
    have distinct : toInt word type start ≠ toInt word type _end := fun same =>
      apart (toInt_injective same)
    -- The element lies between the end and the start, and one of the two is not equal to it.
    refine answered (by omega) ⟨k, hit, ?_⟩
    rw [Precedes, if_neg downward]
    omega
  · rintro (upward | rfl | missed) outside ⟨k, hit, before⟩
    · have above := start_le_of_term upward hit
      rw [Precedes, if_pos upward] at before
      omega
    · rw [Precedes] at before
      split at before
      · next upward =>
        have above := start_le_of_term upward hit
        omega
      · next downward =>
        have below := le_start_of_term (by omega) hit
        omega
    · rw [Precedes] at before
      split at before
      · next upward =>
        have above := start_le_of_term upward hit
        omega
      · exact missed ⟨k, hit, by omega⟩

/--
For strides that stay inside of the type `contains(_:)` is right, except for the elements of
a descending stride: `StrideTo` denies all of them, and `StrideThrough` all but the one of a
stride that starts at its end.
-/
theorem stride_contains_iff (word : WordSize) (type : IntegerType) (start _end : Value word type)
    (stride : Value word .int) (nonzero : stride ≠ 0) (inside : StaysInside start _end stride)
    (x : Value word type) :
    ((strideTo start _end stride).ContainsExactly x ↔
      (0 < toInt word .int stride ∨
        ¬ ∃ k, term (toInt word type start) (toInt word .int stride) k = toInt word type x ∧
          toInt word type _end < toInt word type x)) ∧
    ((strideThrough start _end stride).ContainsExactly x ↔
      (0 < toInt word .int stride ∨ start = _end ∨
        ¬ ∃ k, term (toInt word type start) (toInt word .int stride) k = toInt word type x ∧
          toInt word type _end ≤ toInt word type x)) := by
  have stops := inside.stopsBeyondOrAt nonzero
  exact ⟨StrideTo.containsExactly_iff ((stridesTo_iff nonzero).mpr stops.1) x,
    StrideThrough.containsExactly_iff ((stridesThrough_iff nonzero).mpr stops) x⟩

theorem int_stride_contains :
    (@strideTo .word16 .int 0 10 3).ContainsExactly 6 ∧
      (@strideThrough .word16 .int 0 9 3).ContainsExactly 9 :=
  ⟨(stride_contains_iff .word16 .int 0 10 3 (by decide)
      ⟨4, by decide, by decide, by decide⟩ 6).1.mpr (Or.inl (by decide)),
    (stride_contains_iff .word16 .int 0 9 3 (by decide)
      ⟨3, by decide, by decide, by decide⟩ 9).2.mpr (Or.inl (by decide))⟩

/-- `stride(from: 10, to: 0, by: -1)` does not contain the five that it produces. -/
theorem int_descending_stride_denies :
    ¬ ∀ (word : WordSize) (type : IntegerType) (start _end : Value word type)
      (stride : Value word .int), stride ≠ 0 → StaysInside start _end stride →
      ∀ x, (strideTo start _end stride).ContainsExactly x := by
  intro right
  have contained := right .word16 .int 10 0 (-1) (by decide)
    ⟨10, by decide, by decide, by decide⟩ 5
  have strides : @StridesTo .word16 .int 10 0 (-1) :=
    (stridesTo_iff (by decide)).mpr (by decide)
  rcases (StrideTo.containsExactly_iff strides 5).mp contained with upward | missed
  · exact absurd upward (by decide)
  · exact missed ⟨5, by decide, by decide⟩

end USwift
