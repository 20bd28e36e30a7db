import USwift.Integer.Strideable
import USwift.Library.Iteration
import USwift.Library.Progression

/-!
# Strides

The iterators of `stride(from:to:by:)` and `stride(from:through:by:)` over the integer
types. Both advance by an addition that wraps around and compare the result with the
end, so they are right exactly when the value behind the last one shows that it is
past the end.
-/

namespace USwift

open Iteration Progression TwosComplement

section Iterators

variable (word : WordSize) (type : IntegerType)

/-- The current value of a stride, with the index that floating-point strides keep. -/
abbrev StrideCurrent : Type :=
  Option (Value word .int) × Value word type

/-- `_step(after:from:by:)`, which ignores the index. -/
def _step (current : StrideCurrent word type) (_start : Value word type)
    (distance : Value word .int) : StrideCurrent word type :=
  (none, advanced word type current.2 distance)

/-- The test that ends both iterators. -/
def reachedEnd (_stride : Value word .int) (result _end : Value word type) : Bool :=
  if less word .int 0 _stride then !less word type result _end else !less word type _end result

structure StrideToIterator where
  _start : Value word type
  _end : Value word type
  _stride : Value word .int
  _current : StrideCurrent word type

/-- The same fields, and whether the end has been returned. -/
structure StrideThroughIterator extends StrideToIterator word type where
  _didReturnEnd : Bool

variable {word type}

namespace StrideToIterator

def init (_start _end : Value word type) (stride : Value word .int) : StrideToIterator word type :=
  ⟨_start, _end, stride, (some 0, _start)⟩

/-- `next()`. -/
def next (self : StrideToIterator word type) :
    Option (Value word type × StrideToIterator word type) :=
  let result := self._current.2
  if reachedEnd word type self._stride result self._end then none
  else
    some (result,
      { self with _current := _step word type self._current self._start self._stride })

end StrideToIterator

namespace StrideThroughIterator

def init (_start _end : Value word type) (stride : Value word .int) :
    StrideThroughIterator word type :=
  ⟨⟨_start, _end, stride, (some 0, _start)⟩, false⟩

/-- `next()`. -/
def next (self : StrideThroughIterator word type) :
    Option (Value word type × StrideThroughIterator word type) :=
  let result := self._current.2
  if reachedEnd word type self._stride result self._end then
    if result == self._end && !self._didReturnEnd then
      some (result, { self with _didReturnEnd := true })
    else none
  else
    some (result,
      { self with _current := _step word type self._current self._start self._stride })

end StrideThroughIterator

variable (word type)

/-- `StrideTo`, whose check of the stride is commented out. -/
structure StrideTo where
  _start : Value word type
  _end : Value word type
  _stride : Value word .int

/-- `StrideThrough`, whose check of the stride has no effect. -/
structure StrideThrough where
  _start : Value word type
  _end : Value word type
  _stride : Value word .int

variable {word type}

/-- `makeIterator()`. -/
def StrideTo.makeIterator (self : StrideTo word type) : StrideToIterator word type :=
  .init self._start self._end self._stride

/-- `makeIterator()`. -/
def StrideThrough.makeIterator (self : StrideThrough word type) :
    StrideThroughIterator word type :=
  .init self._start self._end self._stride

/-- `stride(from:to:by:)`. -/
def strideTo (start _end : Value word type) (stride : Value word .int) : StrideTo word type :=
  ⟨start, _end, stride⟩

/-- `stride(from:through:by:)`. -/
def strideThrough (start _end : Value word type) (stride : Value word .int) :
    StrideThrough word type :=
  ⟨start, _end, stride⟩

end Iterators

variable {word : WordSize} {type : IntegerType}

/-- The integer that the iterators hold after a number of steps. -/
def reached (start : Value word type) (stride : Value word .int) (k : ℕ) : ℤ :=
  wrap type.isSigned (type.bitWidth word) (term (toInt word type start) (moved word type stride) k)

/-- The number of values from the start on that lie before the end. -/
def stridesBefore (start _end : Value word type) (stride : Value word .int) : ℕ :=
  termsBefore (toInt word type start) (toInt word .int stride) (toInt word type _end)

/-- `stride(from:to:by:)` produces the values before the end and then stops. -/
def StridesTo (start _end : Value word type) (stride : Value word .int) : Prop :=
  ∃ elements, Yields StrideToIterator.next (strideTo start _end stride).makeIterator elements ∧
    Lists (toInt word type start) (toInt word .int stride)
      (fun value => Precedes (toInt word .int stride) value (toInt word type _end))
      (elements.map (toInt word type))

/-- `stride(from:through:by:)` produces the values up to the end and then stops. -/
def StridesThrough (start _end : Value word type) (stride : Value word .int) : Prop :=
  ∃ elements,
    Yields StrideThroughIterator.next (strideThrough start _end stride).makeIterator elements ∧
      Lists (toInt word type start) (toInt word .int stride)
        (fun value => ¬ Precedes (toInt word .int stride) (toInt word type _end) value)
        (elements.map (toInt word type))

/--
The stride moves as it should where it is used more than once, and the value behind
the last one that lies before the end, wrapped around, does not lie before the end.
-/
def StopsBeyond (start _end : Value word type) (stride : Value word .int) : Prop :=
  (stridesBefore start _end stride ≤ 1 ∨ ¬ MovesBackwards word type stride) ∧
    ¬ Precedes (toInt word .int stride) (reached start stride (stridesBefore start _end stride))
      (toInt word type _end)

/-- Moreover, the wrapped value hits the end only where the value itself does. -/
def StopsBeyondOrAt (start _end : Value word type) (stride : Value word .int) : Prop :=
  StopsBeyond start _end stride ∧
    (reached start stride (stridesBefore start _end stride) = toInt word type _end ↔
      term (toInt word type start) (toInt word .int stride) (stridesBefore start _end stride) =
        toInt word type _end)

instance (start _end : Value word type) (stride : Value word .int) :
    Decidable (StopsBeyond start _end stride) :=
  inferInstanceAs (Decidable (_ ∧ ¬ Precedes _ _ _))

instance (start _end : Value word type) (stride : Value word .int) :
    Decidable (StopsBeyondOrAt start _end stride) :=
  inferInstanceAs (Decidable (StopsBeyond start _end stride ∧ (_ ↔ _)))

theorem reachedEnd_iff {stride : Value word .int} {result _end : Value word type} :
    reachedEnd word type stride result _end = true ↔
      ¬ Precedes (toInt word .int stride) (toInt word type result) (toInt word type _end) := by
  have upward : less word .int 0 stride = true ↔ 0 < toInt word .int stride := by
    rw [less_iff, toInt_zero]
  rw [reachedEnd, Precedes]
  split
  · next positive =>
    rw [if_pos (upward.mp positive), Bool.not_eq_true', ← less_iff, Bool.not_eq_true]
  · next negative =>
    rw [if_neg (upward.not.mp negative), Bool.not_eq_true', ← less_iff, Bool.not_eq_true]

theorem map_toInt_inj {list list' : List (Value word type)} :
    list.map (toInt word type) = list'.map (toInt word type) ↔ list = list' :=
  (List.map_injective_iff.mpr fun _ _ => toInt_injective).eq_iff

namespace StrideToIterator

/-- What `next()` leaves behind before the end. -/
def advance (self : StrideToIterator word type) : StrideToIterator word type :=
  { self with _current := _step word type self._current self._start self._stride }

variable (self : StrideToIterator word type) (k : ℕ)

theorem end_iterate : (advance^[k] self)._end = self._end := by
  induction k generalizing self with
  | zero => rfl
  | succ k rest => exact rest self.advance

theorem stride_iterate : (advance^[k] self)._stride = self._stride := by
  induction k generalizing self with
  | zero => rfl
  | succ k rest => exact rest self.advance

theorem toInt_iterate :
    toInt word type (advance^[k] self)._current.2 = reached self._current.2 self._stride k := by
  apply value_eq_wrap (type.bitWidth_pos word)
  induction k with
  | zero => simp [term, toInt]
  | succ k rest =>
      rw [Function.iterate_succ_apply', advance, _step]
      have advances := toInt_advanced_modEq (advance^[k] self)._current.2 (advance^[k] self)._stride
      rw [stride_iterate] at advances
      rw [stride_iterate, term, Nat.cast_succ, add_mul, one_mul, ← add_assoc]
      exact advances.trans (rest.add_right _)

theorem next_of_not_reachedEnd
    (running : ¬ reachedEnd word type self._stride self._current.2 self._end = true) :
    self.next = some (self._current.2, self.advance) := by
  rw [next, if_neg running]
  rfl

theorem map_toInt_iterate (count : ℕ) :
    ((List.range count).map fun k => (advance^[k] self)._current.2).map (toInt word type) =
      (List.range count).map (reached self._current.2 self._stride) := by
  rw [List.map_map]
  exact List.map_congr_left fun k _ => toInt_iterate self k

theorem reachedEnd_iterate_iff :
    reachedEnd word type (advance^[k] self)._stride (advance^[k] self)._current.2
        (advance^[k] self)._end = true ↔
      ¬ Precedes (toInt word .int self._stride) (reached self._current.2 self._stride k)
        (toInt word type self._end) := by
  rw [reachedEnd_iff, toInt_iterate, stride_iterate, end_iterate]

theorem precedes_of_iterate
    (running : ¬ reachedEnd word type (advance^[k] self)._stride (advance^[k] self)._current.2
      (advance^[k] self)._end = true) :
    Precedes (toInt word .int self._stride) (reached self._current.2 self._stride k)
      (toInt word type self._end) :=
  not_not.mp ((reachedEnd_iterate_iff self k).not.mp running)

theorem next_of_reachedEnd
    (stopped : reachedEnd word type self._stride self._current.2 self._end = true) :
    self.next = none := by
  rw [next, if_pos stopped]

theorem yields_iff {elements : List (Value word type)} :
    Yields next self elements ↔
      ∃ count, (∀ k < count, Precedes (toInt word .int self._stride)
          (reached self._current.2 self._stride k) (toInt word type self._end)) ∧
        ¬ Precedes (toInt word .int self._stride) (reached self._current.2 self._stride count)
          (toInt word type self._end) ∧
        elements.map (toInt word type) =
          (List.range count).map (reached self._current.2 self._stride) := by
  rw [yields_iff_stops next_of_not_reachedEnd]
  refine exists_congr fun count => ?_
  rw [← reachedEnd_iterate_iff self count, ← map_toInt_iterate self count, map_toInt_inj]
  constructor
  · rintro ⟨tail, before, stopped, ending, rfl⟩
    have empty : tail = [] := ending.unique (.done (next_of_reachedEnd _ stopped))
    refine ⟨fun k k_lt => precedes_of_iterate self k (before k k_lt), stopped, ?_⟩
    rw [empty, List.append_nil]
  · rintro ⟨before, stopped, rfl⟩
    refine ⟨[], ?_, stopped, .done (next_of_reachedEnd _ stopped), (List.append_nil _).symm⟩
    intro k k_lt
    exact (reachedEnd_iterate_iff self k).not.mpr (not_not.mpr (before k k_lt))

end StrideToIterator

namespace StrideThroughIterator

/-- What `next()` leaves behind before the end. -/
def advance (self : StrideThroughIterator word type) : StrideThroughIterator word type :=
  { self with toStrideToIterator := self.toStrideToIterator.advance }

variable (self : StrideThroughIterator word type) (k : ℕ)

theorem iterate_advance :
    advance^[k] self =
      { self with toStrideToIterator := StrideToIterator.advance^[k] self.toStrideToIterator } := by
  induction k generalizing self with
  | zero => rfl
  | succ k rest => exact rest self.advance

theorem next_of_not_reachedEnd
    (running : ¬ reachedEnd word type self._stride self._current.2 self._end = true) :
    self.next = some (self._current.2, self.advance) := by
  rw [next, if_neg running]
  rfl

theorem yields_of_reachedEnd
    (stopped : reachedEnd word type self._stride self._current.2 self._end = true)
    (pending : self._didReturnEnd = false) :
    Yields next self (if self._current.2 = self._end then [self._current.2] else []) := by
  split
  · next hit =>
    have returned : self.next = some (self._current.2, { self with _didReturnEnd := true }) := by
      rw [next, if_pos stopped, pending, beq_iff_eq.mpr hit]
      rfl
    refine .step returned (.done ?_)
    rw [next, if_pos stopped, Bool.not_true, Bool.and_false, if_neg Bool.false_ne_true]
  · next missed =>
    refine .done ?_
    rw [next, if_pos stopped, beq_eq_false_iff_ne.mpr missed, Bool.false_and,
      if_neg Bool.false_ne_true]

theorem map_toInt_last (a b : Value word type) :
    (if a = b then [a] else []).map (toInt word type) =
      boundIf (toInt word type b) (toInt word type a) := by
  rw [boundIf]
  split_ifs with same images images
  · rw [same, List.map_singleton]
  · exact absurd (congrArg _ same) images
  · exact absurd (toInt_injective images) same
  · rfl

theorem yields_iff (pending : self._didReturnEnd = false) {elements : List (Value word type)} :
    Yields next self elements ↔
      ∃ count, (∀ k < count, Precedes (toInt word .int self._stride)
          (reached self._current.2 self._stride k) (toInt word type self._end)) ∧
        ¬ Precedes (toInt word .int self._stride) (reached self._current.2 self._stride count)
          (toInt word type self._end) ∧
        elements.map (toInt word type) =
          (List.range count).map (reached self._current.2 self._stride) ++
            boundIf (toInt word type self._end) (reached self._current.2 self._stride count) := by
  rw [yields_iff_stops next_of_not_reachedEnd]
  simp only [iterate_advance]
  refine exists_congr fun count => ?_
  have last := map_toInt_last (StrideToIterator.advance^[count] self.toStrideToIterator)._current.2
    self._end
  rw [StrideToIterator.toInt_iterate] at last
  rw [← StrideToIterator.reachedEnd_iterate_iff self.toStrideToIterator count, ← last,
    ← StrideToIterator.map_toInt_iterate self.toStrideToIterator count, ← List.map_append,
    map_toInt_inj]
  constructor
  · rintro ⟨tail, before, stopped, ending, rfl⟩
    refine ⟨fun k k_lt => StrideToIterator.precedes_of_iterate _ k (before k k_lt), stopped, ?_⟩
    have returned := ending.unique (yields_of_reachedEnd _ stopped pending)
    simp only [StrideToIterator.end_iterate] at returned
    rw [returned]
  · rintro ⟨before, stopped, rfl⟩
    have returned := yields_of_reachedEnd ⟨_, self._didReturnEnd⟩ stopped pending
    simp only [StrideToIterator.end_iterate] at returned
    refine ⟨_, ?_, stopped, returned, rfl⟩
    intro k k_lt
    exact (StrideToIterator.reachedEnd_iterate_iff _ k).not.mpr (not_not.mpr (before k k_lt))

end StrideThroughIterator

section Results

variable {start _end : Value word type} {stride : Value word .int}

theorem toInt_stride_ne_zero (nonzero : stride ≠ 0) : toInt word .int stride ≠ 0 := by
  intro zero
  exact nonzero (toInt_injective (zero.trans (toInt_zero word .int).symm))

theorem reached_zero : reached start stride 0 = toInt word type start := by
  rw [reached, term_zero]
  exact wrap_of_bounds (type.bitWidth_pos word) (minimum_le_toInt start) (toInt_le_maximum start)

theorem precedes_of_lt_stridesBefore (nonzero : stride ≠ 0) {k : ℕ}
    (earlier : k < stridesBefore start _end stride) :
    Precedes (toInt word .int stride) (term (toInt word type start) (toInt word .int stride) k)
      (toInt word type _end) :=
  (lt_termsBefore_iff (toInt_stride_ne_zero nonzero)).mp earlier

/-- A value before the end is not wrapped around. -/
theorem reached_of_lt_stridesBefore (nonzero : stride ≠ 0)
    (forwards : ¬ MovesBackwards word type stride) {k : ℕ}
    (earlier : k < stridesBefore start _end stride) :
    reached start stride k = term (toInt word type start) (toInt word .int stride) k := by
  have between := term_between (precedes_of_lt_stridesBefore nonzero earlier)
  rw [reached, moved, if_neg forwards]
  have lowStart := minimum_le_toInt start
  have highStart := toInt_le_maximum start
  have lowEnd := minimum_le_toInt _end
  have highEnd := toInt_le_maximum _end
  exact wrap_of_bounds (type.bitWidth_pos word) (by omega) (by omega)

theorem reached_one_ne (backwards : MovesBackwards word type stride) :
    reached start stride 1 ≠ term (toInt word type start) (toInt word .int stride) 1 := by
  intro same
  have congruent := @wrap_modEq (type.bitWidth word) type.isSigned
    (term (toInt word type start) (moved word type stride) 1)
  rw [← reached, same, moved, if_pos backwards] at congruent
  have least : toInt word .int stride = -2 ^ (word.bits - 1) := by
    rw [backwards.2.2]
    cases word <;> decide
  have difference := congruent.dvd
  simp only [term, least] at difference
  have double : (2 : ℤ) ^ word.bits = 2 * 2 ^ (word.bits - 1) := by
    rw [← pow_succ', Nat.sub_add_cancel word.bits_pos]
  have divides : (2 : ℤ) ^ type.bitWidth word ∣ 2 ^ word.bits := by
    convert difference using 1
    push_cast
    omega
  have smaller : (2 : ℤ) ^ word.bits < 2 ^ type.bitWidth word :=
    pow_lt_pow_right₀ (by norm_num) backwards.2.1
  exact absurd (Int.le_of_dvd (by positivity) divides) (by omega)

theorem reached_eq_term_iff (nonzero : stride ≠ 0) :
    (∀ k < stridesBefore start _end stride,
        reached start stride k = term (toInt word type start) (toInt word .int stride) k) ↔
      stridesBefore start _end stride ≤ 1 ∨ ¬ MovesBackwards word type stride := by
  constructor
  · intro agree
    by_contra wrong
    rw [not_or, not_not] at wrong
    exact reached_one_ne wrong.2 (agree 1 (by omega))
  · rintro (few | forwards) k k_lt
    · have first : k = 0 := by omega
      rw [first, reached_zero, term_zero]
    · exact reached_of_lt_stridesBefore nonzero forwards k_lt

theorem reached_mem_range (k : ℕ) : reached start stride k ∈ Set.range (toInt word type) :=
  ⟨_, StrideToIterator.toInt_iterate (strideTo start start stride).makeIterator k⟩

theorem exists_elements_iff {before stopped : ℕ → Prop} {listed : ℕ → List ℤ} {list : List ℤ}
    (images : ∀ count, ∀ x ∈ listed count, x ∈ Set.range (toInt word type)) :
    (∃ elements : List (Value word type),
        (∃ count, before count ∧ stopped count ∧
          elements.map (toInt word type) = listed count) ∧
        elements.map (toInt word type) = list) ↔
      ∃ count, before count ∧ stopped count ∧ listed count = list := by
  constructor
  · rintro ⟨elements, ⟨count, runs, ended, mapped⟩, rfl⟩
    exact ⟨count, runs, ended, mapped.symm⟩
  · rintro ⟨count, runs, ended, rfl⟩
    have mapped : listed count ∈ Set.range (List.map (toInt word type)) := by
      rw [Set.range_list_map]
      exact images count
    rcases mapped with ⟨elements, mapped⟩
    exact ⟨elements, ⟨count, runs, ended, mapped⟩, mapped⟩

theorem yields_strideTo_iff {elements : List (Value word type)} :
    Yields StrideToIterator.next (strideTo start _end stride).makeIterator elements ↔
      ∃ count, (∀ k < count, Precedes (toInt word .int stride) (reached start stride k)
          (toInt word type _end)) ∧
        ¬ Precedes (toInt word .int stride) (reached start stride count) (toInt word type _end) ∧
        elements.map (toInt word type) = (List.range count).map (reached start stride) :=
  (strideTo start _end stride).makeIterator.yields_iff

theorem yields_strideThrough_iff {elements : List (Value word type)} :
    Yields StrideThroughIterator.next (strideThrough start _end stride).makeIterator elements ↔
      ∃ count, (∀ k < count, Precedes (toInt word .int stride) (reached start stride k)
          (toInt word type _end)) ∧
        ¬ Precedes (toInt word .int stride) (reached start stride count) (toInt word type _end) ∧
        elements.map (toInt word type) = (List.range count).map (reached start stride) ++
          boundIf (toInt word type _end) (reached start stride count) :=
  (strideThrough start _end stride).makeIterator.yields_iff rfl

theorem stridesTo_iff (nonzero : stride ≠ 0) :
    StridesTo start _end stride ↔ StopsBeyond start _end stride := by
  have inside (k : ℕ) (k_lt : k < stridesBefore start _end stride) :=
    precedes_of_lt_stridesBefore nonzero k_lt
  simp only [StridesTo, yields_strideTo_iff, lists_before_iff (toInt_stride_ne_zero nonzero)]
  rw [exists_elements_iff, StopsBeyond, ← reached_eq_term_iff nonzero]
  · exact @exists_stop_iff_of_no_tail ℤ
      (fun value => Precedes (toInt word .int stride) value (toInt word type _end))
      (reached start stride) (term (toInt word type start) (toInt word .int stride)) _ inside
  · intro count x member
    rcases List.mem_map.mp member with ⟨k, _, rfl⟩
    exact reached_mem_range k

theorem stridesThrough_iff (nonzero : stride ≠ 0) :
    StridesThrough start _end stride ↔ StopsBeyondOrAt start _end stride := by
  have inside (k : ℕ) (k_lt : k < stridesBefore start _end stride) :=
    precedes_of_lt_stridesBefore nonzero k_lt
  simp only [StridesThrough, yields_strideThrough_iff,
    lists_through_iff (toInt_stride_ne_zero nonzero)]
  rw [exists_elements_iff, StopsBeyondOrAt, StopsBeyond, ← reached_eq_term_iff nonzero, and_assoc,
    ← boundIf_eq_iff]
  · exact @exists_stop_iff ℤ
      (fun value => Precedes (toInt word .int stride) value (toInt word type _end))
      (reached start stride) (term (toInt word type start) (toInt word .int stride))
      (boundIf (toInt word type _end)) _ (fun a => boundIf_fails a) inside
  · intro count x member
    rcases List.mem_append.mp member with before | hit
    · rcases List.mem_map.mp before with ⟨k, _, rfl⟩
      exact reached_mem_range k
    · rw [boundIf] at hit
      split at hit
      · exact ⟨_end, (List.mem_singleton.mp hit).symm⟩
      · simp at hit

/-- The strides are right exactly where the wrapped value behind the last one shows the end. -/
theorem strides_iff (word : WordSize) (type : IntegerType) (start _end : Value word type)
    (stride : Value word .int) (nonzero : stride ≠ 0) :
    (StridesTo start _end stride ↔ StopsBeyond start _end stride) ∧
      (StridesThrough start _end stride ↔ StopsBeyondOrAt start _end stride) :=
  ⟨stridesTo_iff nonzero, stridesThrough_iff nonzero⟩

theorem uint8_strides_by_three :
    @StridesTo .word16 .uint8 0 10 3 ∧
      @StridesThrough .word16 .uint8 0 9 3 :=
  ⟨(strides_iff .word16 .uint8 0 10 3 (by decide)).1.mpr (by decide),
    (strides_iff .word16 .uint8 0 9 3 (by decide)).2.mpr (by decide)⟩

/-- A `UInt8` that moves by two up to 255 comes back to zero behind 254. -/
theorem uint8_strides_by_two_wrap :
    ¬ @StridesTo .word16 .uint8 0 255 2 ∧
      ¬ @StridesThrough .word16 .uint8 0 255 2 := by
  rw [stridesTo_iff (by decide), stridesThrough_iff (by decide)]
  decide

end Results

end USwift
