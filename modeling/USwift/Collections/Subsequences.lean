import USwift.Collections.RandomAccess
import USwift.Library.Streams

/-!
# Sequences without or up to their first elements

`DropFirstSequence`, `PrefixSequence` and `DropWhileSequence` wrap a sequence. The operation
that made such a wrapper does not wrap it again: it adds to the number of elements to drop,
takes the smaller number of elements to keep, or goes on from an iterator and an element
that it has already delivered.
-/

namespace USwift

open Streams
open Stream' (Seq)

section Operations

variable {word : WordSize} {Base BaseIterator Element : Type}
  (makeBaseIterator : Base → BaseIterator)
  (nextBase : BaseIterator → Option Element × BaseIterator)

/-- The sequence that `dropFirst(_:)` makes of its base. -/
structure DropFirstSequence (word : WordSize) (Base : Type) where
  _base : Base
  _limit : Value word .int

/-- The loop of `makeIterator()`, for at most a number of rounds. -/
def DropFirstSequence.skip (_limit : Value word .int) :
    ℕ → Value word .int → BaseIterator → Option BaseIterator
  | 0, _, _ => none
  | fuel + 1, dropped, it =>
      if less word .int dropped _limit then
        match nextBase it with
        | (some _, it) => skip _limit fuel (dropped + 1) it
        | (none, it) => some it
      else some it

/-- `makeIterator()`. -/
def DropFirstSequence.makeIterator (fuel : ℕ) (self : DropFirstSequence word Base) :
    Option BaseIterator :=
  skip nextBase self._limit fuel 0 (makeBaseIterator self._base)

/-- `dropFirst(_:)` of such a sequence. -/
def DropFirstSequence.dropFirst (self : DropFirstSequence word Base) (k : Value word .int) :
    DropFirstSequence word Base :=
  ⟨self._base, self._limit + k⟩

/-- The sequence that `prefix(_:)` makes of its base. -/
structure PrefixSequence (word : WordSize) (Base : Type) where
  _base : Base
  _maxLength : Value word .int

structure PrefixSequence.Iterator (word : WordSize) (BaseIterator : Type) where
  _base : BaseIterator
  _remaining : Value word .int

/-- `next()`. -/
def PrefixSequence.Iterator.next (self : Iterator word BaseIterator) :
    Option Element × Iterator word BaseIterator :=
  if self._remaining != 0 then
    let (element, _base) := nextBase self._base
    (element, ⟨_base, self._remaining - 1⟩)
  else (none, self)

/-- `makeIterator()`. -/
def PrefixSequence.makeIterator (self : PrefixSequence word Base) : Iterator word BaseIterator :=
  ⟨makeBaseIterator self._base, self._maxLength⟩

/-- `prefix(_:)` of such a sequence. -/
def PrefixSequence.prefixMaxLength (self : PrefixSequence word Base) (maxLength : Value word .int) :
    PrefixSequence word Base :=
  ⟨self._base, minimum maxLength self._maxLength⟩

/--
The sequence that `drop(while:)` makes of its base: an iterator, and the element that it has
delivered last.
-/
structure DropWhileSequence (BaseIterator Element : Type) where
  _iterator : BaseIterator
  _nextElement : Option Element

structure DropWhileSequence.Iterator (BaseIterator Element : Type) where
  _iterator : BaseIterator
  _nextElement : Option Element

/-- The loop of `init(iterator:predicate:)`, for at most a number of rounds. -/
def DropWhileSequence.advance (predicate : Element → Bool) :
    ℕ → BaseIterator → Option Element → Option (DropWhileSequence BaseIterator Element)
  | 0, _, _ => none
  | _ + 1, _iterator, none => some ⟨_iterator, none⟩
  | fuel + 1, _iterator, some x =>
      if predicate x then
        let (_nextElement, _iterator) := nextBase _iterator
        advance predicate fuel _iterator _nextElement
      else some ⟨_iterator, some x⟩

/-- `init(iterator:predicate:)`. -/
def DropWhileSequence.init (fuel : ℕ) (iterator : BaseIterator) (predicate : Element → Bool) :
    Option (DropWhileSequence BaseIterator Element) :=
  let (_nextElement, _iterator) := nextBase iterator
  advance nextBase predicate fuel _iterator _nextElement

/-- `next()`. -/
def DropWhileSequence.Iterator.next (self : Iterator BaseIterator Element) :
    Option Element × Iterator BaseIterator Element :=
  match self._nextElement with
  | none => (none, self)
  | some next =>
      let (_nextElement, _iterator) := nextBase self._iterator
      (some next, ⟨_iterator, _nextElement⟩)

/-- `makeIterator()`. -/
def DropWhileSequence.makeIterator (self : DropWhileSequence BaseIterator Element) :
    Iterator BaseIterator Element :=
  ⟨self._iterator, self._nextElement⟩

/-- `drop(while:)` of such a sequence. -/
def DropWhileSequence.dropWhile (fuel : ℕ) (self : DropWhileSequence BaseIterator Element)
    (predicate : Element → Bool) : Option (DropWhileSequence BaseIterator Element) :=
  match self._nextElement with
  | some x => if predicate x then init nextBase fuel self._iterator predicate else some self
  | none => some self

end Operations

variable {word : WordSize} {Base BaseIterator Element : Type}
  {makeBaseIterator : Base → BaseIterator}
  {nextBase : BaseIterator → Option Element × BaseIterator} {elements : Seq Element}

theorem drop_of_ended (ended : elements.get? 0 = none) (n : ℕ) : elements.drop n = elements := by
  rw [Seq.get?_zero_eq_none] at ended
  rw [ended, Seq.drop_nil]

namespace DropFirstSequence

theorem skip_answers {it : BaseIterator} {_limit dropped : Value word .int} {position size fuel : ℕ}
    (answers : Answers nextBase it elements) (limit : toInt word .int _limit = size)
    (count : toInt word .int dropped = position) (below : position ≤ size)
    (enough : size < fuel + position) :
    ∃ it', skip nextBase _limit fuel dropped it = some it' ∧
      Answers nextBase it' (elements.drop (size - position)) := by
  induction fuel generalizing it dropped position elements with
  | zero => omega
  | succ fuel later =>
      by_cases more : less word .int dropped _limit = true
      · have following : toInt word .int (dropped + 1) = (position + 1 : ℕ) := by
          rw [toInt_succ (less_iff.mp more) (by omega), count]
          rfl
        rw [less_iff, count, limit] at more
        have answered := answers.first
        have rest := answers.rest
        rcases called : nextBase it with ⟨element, it'⟩
        rw [called] at answered rest
        cases element with
        | none =>
            refine ⟨it', ?_, ?_⟩
            · rw [skip, if_pos (by rw [less_iff, count, limit]; exact more), called]
            · rw [drop_of_ended answered.symm] at rest ⊢
              exact rest
        | some element =>
            rcases later rest following (by omega) (by omega) with ⟨final, runs, left⟩
            refine ⟨final, ?_, ?_⟩
            · rw [skip, if_pos (by rw [less_iff, count, limit]; exact more), called]
              exact runs
            · rw [← Seq.dropn_add] at left
              have sum : 1 + (size - (position + 1)) = size - position := by omega
              rw [← sum]
              exact left
      · refine ⟨it, ?_, ?_⟩
        · rw [skip, if_neg more]
        · rw [less_iff, count, limit] at more
          have none : size - position = 0 := by omega
          rw [none]
          exact answers

/-- The iterator goes on behind the elements that are dropped. -/
theorem makeIterator_answers {self : DropFirstSequence word Base} {size fuel : ℕ}
    (answers : Answers nextBase (makeBaseIterator self._base) elements)
    (limit : toInt word .int self._limit = size) (enough : size < fuel) :
    ∃ it, self.makeIterator makeBaseIterator nextBase fuel = some it ∧
      Answers nextBase it (elements.drop size) := by
  rw [makeIterator]
  exact skip_answers answers limit (toInt_zero word .int) (Nat.zero_le _) enough

end DropFirstSequence

namespace PrefixSequence

theorem makeIterator_answers {self : PrefixSequence word Base} {size : ℕ}
    (answers : Answers nextBase (makeBaseIterator self._base) elements)
    (limit : toInt word .int self._maxLength = size) :
    Answers (Iterator.next nextBase) (self.makeIterator makeBaseIterator)
      (Seq.ofList (elements.take size)) := by
  have zero := toInt_zero word .int
  have least := minimum_int word
  have atZero {x : Value word .int} : (x != 0) = true ↔ toInt word .int x ≠ 0 := by
    rw [bne_iff_ne, ← zero]
    exact (Function.Injective.ne_iff fun _ _ same => toInt_injective same).symm
  -- What is left is a prefix of what is left of the base.
  apply Answers.of_invariant fun (it : Iterator word BaseIterator) (left : Seq Element) =>
    ∃ others : Seq Element, ∃ count : ℕ, Answers nextBase it._base others ∧
      toInt word .int it._remaining = count ∧ left = Seq.ofList (others.take count)
  · rintro it _ ⟨others, count, answers, remaining, rfl⟩
    rw [Seq.ofList_get?, Seq.getElem?_take, Iterator.next]
    by_cases more : 0 < count
    · rw [if_pos (by rw [atZero]; omega), if_pos more]
      exact answers.first
    · rw [if_neg (by rw [atZero]; omega), if_neg more]
  · rintro it _ ⟨others, count, answers, remaining, rfl⟩
    rw [drop_ofList, Seq.take_drop, Iterator.next]
    by_cases more : 0 < count
    · rw [if_pos (by rw [atZero]; omega)]
      refine ⟨others.drop 1, count - 1, answers.rest, ?_, rfl⟩
      have one : toInt word .int (1 : Value word .int) = 1 := by cases word <;> decide
      have largest := toInt_le_maximum it._remaining
      have difference : toInt word .int (it._remaining - 1) =
          toInt word .int it._remaining - toInt word .int (1 : Value word .int) :=
        toInt_sub (by omega) (by omega)
      dsimp only
      omega
    · rw [if_neg (by rw [atZero]; omega)]
      have none : count = 0 := by omega
      refine ⟨others, count, answers, remaining, ?_⟩
      rw [none]
      rfl
  · exact ⟨elements, size, answers, limit, rfl⟩

end PrefixSequence

namespace DropWhileSequence

/-- The element that is held is the first one, and the iterator delivers the others. -/
structure Holds (nextBase : BaseIterator → Option Element × BaseIterator)
    (wrapper : DropWhileSequence BaseIterator Element) (elements : Seq Element) : Prop where
  held : wrapper._nextElement = elements.get? 0
  others : Answers nextBase wrapper._iterator (elements.drop 1)

variable {self : DropWhileSequence BaseIterator Element} {predicate : Element → Bool}
  {count fuel : ℕ}

theorem Holds.of_answers {it : BaseIterator} (answers : Answers nextBase it elements) :
    Holds nextBase ⟨(nextBase it).2, (nextBase it).1⟩ elements :=
  ⟨answers.first, answers.rest⟩

theorem Holds.answers (holds : Holds nextBase self elements) :
    Answers (Iterator.next nextBase) self.makeIterator elements := by
  apply Answers.of_invariant fun (it : Iterator BaseIterator Element) left =>
    Holds nextBase ⟨it._iterator, it._nextElement⟩ left
  · rintro ⟨_iterator, _nextElement⟩ left ⟨held, others⟩
    dsimp only at held
    subst held
    rw [Iterator.next]
    cases found : left.get? 0 <;> rfl
  · rintro ⟨_iterator, _nextElement⟩ left ⟨held, others⟩
    dsimp only at held others
    subst held
    rw [Iterator.next]
    cases found : left.get? 0 with
    | none =>
        rw [drop_of_ended found] at others ⊢
        refine ⟨found.symm, ?_⟩
        rw [drop_of_ended found]
        exact others
    | some element => exact Holds.of_answers others
  · exact holds

/-- The loop ends at the first element that the predicate does not accept. -/
theorem Holds.advance (holds : Holds nextBase self elements)
    (accepted : Accepts predicate elements count) (enough : count < fuel) :
    ∃ self', DropWhileSequence.advance nextBase predicate fuel self._iterator self._nextElement =
        some self' ∧ Holds nextBase self' (elements.drop count) := by
  induction count generalizing self elements fuel with
  | zero =>
      rcases Nat.exists_eq_add_of_lt enough with ⟨more, rfl⟩
      rcases self with ⟨_iterator, _nextElement⟩
      refine ⟨⟨_iterator, _nextElement⟩, ?_, holds⟩
      cases _nextElement with
      | none => rfl
      | some x =>
          have rejected := accepted.2 x holds.held.symm
          rw [DropWhileSequence.advance, if_neg (by rw [rejected]; exact Bool.false_ne_true)]
  | succ count later =>
      rcases Nat.exists_eq_add_of_lt enough with ⟨more, rfl⟩
      rcases self with ⟨_iterator, _nextElement⟩
      rcases accepted.1 0 (by omega) with ⟨x, first, accepts⟩
      rcases holds with ⟨held, others⟩
      dsimp only at held others
      rw [first] at held
      subst held
      have accepted' : Accepts predicate (elements.drop 1) count := by
        constructor
        · intro i inside
          rw [Seq.drop_get?]
          exact accepted.1 (1 + i) (by omega)
        · intro element found
          rw [Seq.drop_get?, Nat.add_comm] at found
          exact accepted.2 element found
      have continued := @later _ _ (count + 1 + more) (Holds.of_answers others) accepted' (by omega)
      rcases continued with ⟨self', runs, kept⟩
      refine ⟨self', ?_, ?_⟩
      · rw [DropWhileSequence.advance, if_pos accepts]
        exact runs
      · rw [← Seq.dropn_add, Nat.add_comm] at kept
        exact kept

theorem init_holds {it : BaseIterator} (answers : Answers nextBase it elements)
    (accepted : Accepts predicate elements count) (enough : count < fuel) :
    ∃ self, init nextBase fuel it predicate = some self ∧
      Holds nextBase self (elements.drop count) :=
  (Holds.of_answers answers).advance accepted enough

/-- Going on is a further round of the loop, which looks at the held element first. -/
theorem dropWhile_eq :
    self.dropWhile nextBase fuel predicate =
      DropWhileSequence.advance nextBase predicate (fuel + 1) self._iterator self._nextElement := by
  rcases self with ⟨_iterator, _nextElement⟩
  cases _nextElement with
  | none => rfl
  | some x => rfl

/-- Going on from the held element drops what the predicate accepts of what is left. -/
theorem Holds.dropWhile (holds : Holds nextBase self elements)
    (accepted : Accepts predicate elements count) (enough : count < fuel) :
    ∃ self', self.dropWhile nextBase fuel predicate = some self' ∧
      Holds nextBase self' (elements.drop count) := by
  rcases holds.advance accepted (enough.trans (Nat.lt_succ_self fuel)) with ⟨self', runs, kept⟩
  refine ⟨self', ?_, kept⟩
  rw [dropWhile_eq]
  exact runs

/-- The wrapper of a sequence, and the one that it makes of itself with a second predicate. -/
theorem rewrapped {it : BaseIterator} {p q : Element → Bool} {first second : ℕ}
    (answers : Answers nextBase it elements) (accepted : Accepts p elements first)
    (accepted' : Accepts q (elements.drop first) second) (enough : first < fuel)
    (enough' : second < fuel) :
    ∃ once twice, init nextBase fuel it p = some once ∧
      Answers (Iterator.next nextBase) once.makeIterator (elements.drop first) ∧
      once.dropWhile nextBase fuel q = some twice ∧
      Answers (Iterator.next nextBase) twice.makeIterator
        ((elements.drop first).drop second) := by
  rcases init_holds answers accepted enough with ⟨once, made, holds⟩
  rcases holds.dropWhile accepted' enough' with ⟨twice, went, holds'⟩
  exact ⟨once, twice, made, holds.answers, went, holds'.answers⟩

/-- Of a finite sequence, both are iterated as the lists without their accepted elements. -/
theorem rewrapped_list {it : BaseIterator} {list : List Element} (p q : Element → Bool)
    (answers : Answers nextBase it (Seq.ofList list)) (enough : list.length < fuel) :
    ∃ once twice, init nextBase fuel it p = some once ∧
      Answers (Iterator.next nextBase) once.makeIterator (Seq.ofList (list.dropWhile p)) ∧
      once.dropWhile nextBase fuel q = some twice ∧
      Answers (Iterator.next nextBase) twice.makeIterator
        (Seq.ofList ((list.dropWhile p).dropWhile q)) := by
  have first := accepts_ofList p list
  have second := accepts_ofList q (list.dropWhile p)
  have kept : (list.takeWhile p).length ≤ list.length := (List.takeWhile_prefix p).length_le
  have left : (list.dropWhile p).length ≤ list.length := (List.dropWhile_suffix p).length_le
  have further : ((list.dropWhile p).takeWhile q).length ≤ (list.dropWhile p).length :=
    (List.takeWhile_prefix q).length_le
  have composed := @rewrapped _ _ nextBase _ fuel it p q _
    ((list.dropWhile p).takeWhile q).length answers first
  rw [drop_ofList, drop_takeWhile_length, drop_ofList, drop_takeWhile_length] at composed
  exact composed second (by omega) (by omega)

end DropWhileSequence

section Results

/--
The wrappers of a sequence, finite or not, are iterated as the sequence without or up to its
first elements, and an operation on its own wrapper gives the wrapper that the whole takes:
the numbers of elements to drop are added, the smaller number of elements is kept, and the
second predicate drops what it accepts of what the first one leaves.
-/
theorem rewrapping_composes {base : Base} {a b : Value word .int} {m n : ℕ}
    (answers : Answers nextBase (makeBaseIterator base) elements)
    (a_eq : toInt word .int a = m) (b_eq : toInt word .int b = n)
    (sum : m + n ≤ TwosComplement.maximum true word.bits) (p q : Element → Bool) :
    let dropping : DropFirstSequence word Base := ⟨base, a⟩
    let keeping : PrefixSequence word Base := ⟨base, a⟩
    (∀ fuel > m + n,
      (∃ it, dropping.makeIterator makeBaseIterator nextBase fuel = some it ∧
        Answers nextBase it (elements.drop m)) ∧
      ∃ it, (dropping.dropFirst b).makeIterator makeBaseIterator nextBase fuel = some it ∧
        Answers nextBase it (elements.drop (m + n))) ∧
    dropping.dropFirst b = ⟨base, a + b⟩ ∧ toInt word .int (a + b) = m + n ∧
    Answers (PrefixSequence.Iterator.next nextBase) (keeping.makeIterator makeBaseIterator)
      (Seq.ofList (elements.take m)) ∧
    keeping.prefixMaxLength b = ⟨base, if m ≤ n then a else b⟩ ∧
    Answers (PrefixSequence.Iterator.next nextBase)
      ((keeping.prefixMaxLength b).makeIterator makeBaseIterator)
      (Seq.ofList (elements.take (min m n))) ∧
    (∀ first second fuel, Accepts p elements first →
      Accepts q (elements.drop first) second → first < fuel → second < fuel →
      ∃ once twice, DropWhileSequence.init nextBase fuel (makeBaseIterator base) p = some once ∧
        Answers (DropWhileSequence.Iterator.next nextBase) once.makeIterator
          (elements.drop first) ∧
        once.dropWhile nextBase fuel q = some twice ∧
        Answers (DropWhileSequence.Iterator.next nextBase) twice.makeIterator
          ((elements.drop first).drop second)) ∧
    ∀ list, elements = Seq.ofList list →
      elements.drop m = Seq.ofList (list.drop m) ∧ elements.take m = list.take m ∧
      ∀ fuel > list.length, ∃ once twice,
        DropWhileSequence.init nextBase fuel (makeBaseIterator base) p = some once ∧
        Answers (DropWhileSequence.Iterator.next nextBase) once.makeIterator
          (Seq.ofList (list.dropWhile p)) ∧
        once.dropWhile nextBase fuel q = some twice ∧
        Answers (DropWhileSequence.Iterator.next nextBase) twice.makeIterator
          (Seq.ofList ((list.dropWhile p).dropWhile q)) := by
  have least := TwosComplement.minimum_le_zero true word.bits
  have total : toInt word .int (a + b) = (m + n : ℕ) := by
    have added : toInt word .int (a + b) = toInt word .int a + toInt word .int b := by
      apply toInt_add
      · change TwosComplement.minimum true word.bits ≤ _
        omega
      · rw [a_eq, b_eq]
        exact sum
    rw [added, a_eq, b_eq, Nat.cast_add]
  have smaller : minimum b a = if m ≤ n then a else b := by
    apply toInt_injective
    rw [toInt_minimum]
    split <;> omega
  have least_eq : toInt word .int (minimum b a) = (min m n : ℕ) := by
    rw [toInt_minimum, a_eq, b_eq]
    omega
  refine ⟨?_, rfl, total, ?_, ?_, ?_, ?_, ?_⟩
  · intro fuel enough
    constructor
    · exact DropFirstSequence.makeIterator_answers answers a_eq (by omega)
    · exact DropFirstSequence.makeIterator_answers answers total enough
  · exact PrefixSequence.makeIterator_answers answers a_eq
  · rw [PrefixSequence.prefixMaxLength, smaller]
  · exact PrefixSequence.makeIterator_answers answers least_eq
  · intro first second fuel accepted accepted' enough enough'
    exact DropWhileSequence.rewrapped answers accepted accepted' enough enough'
  · rintro list rfl
    refine ⟨drop_ofList list m, take_ofList list m, ?_⟩
    intro fuel enough
    exact DropWhileSequence.rewrapped_list p q answers enough

/-- Of four elements, dropping one and then two leaves the last one. -/
theorem rewrapping_composes_four :
    (∃ it, ((⟨[1, 2, 3, 4], 1⟩ : DropFirstSequence .word16 (List ℕ)).dropFirst 2).makeIterator id
        listNext 4 = some it ∧ Answers listNext it ((Seq.ofList [1, 2, 3, 4]).drop 3)) ∧
      Answers (PrefixSequence.Iterator.next listNext)
        (((⟨[1, 2, 3, 4], 1⟩ : PrefixSequence .word16 (List ℕ)).prefixMaxLength 2).makeIterator id)
        (Seq.ofList ((Seq.ofList [1, 2, 3, 4]).take 1)) ∧
      ∃ once twice, DropWhileSequence.init listNext 5 [1, 2, 3, 4] (· < 2) = some once ∧
        Answers (DropWhileSequence.Iterator.next listNext) once.makeIterator
          (Seq.ofList [2, 3, 4]) ∧
        once.dropWhile listNext 5 (· < 4) = some twice ∧
        Answers (DropWhileSequence.Iterator.next listNext) twice.makeIterator
          (Seq.ofList [4]) := by
  rcases rewrapping_composes (answers_list [1, 2, 3, 4]) (by decide : toInt .word16 .int 1 = 1)
    (by decide : toInt .word16 .int 2 = 2) (by decide) (· < 2) (· < 4) with
    ⟨drops, -, -, -, -, keeps, -, lists⟩
  exact ⟨(drops 4 (by decide)).2, keeps, (lists _ rfl).2.2 5 (by decide)⟩

end Results

end USwift
