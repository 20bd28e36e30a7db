import USwift.Collections.Listed

/-!
# Partitioning a collection

`partition(by:)` moves the elements that satisfy a predicate behind those that do not. The
forward implementation swaps each element that does not with the first one that does, and
keeps the order of the former. The bidirectional one moves two cursors towards each other,
in the buffer of the collection if it has one.
-/

namespace USwift

open Swaps

section Operations

variable {Elements Index Element : Type}

/-- The loop of `firstIndex(where:)`, for at most a number of rounds. -/
def Collection.firstIndexWhere (collection : Collection Elements Index Element)
    (predicate : Element → Bool) (elements : Elements) : ℕ → Index → Option (Option Index)
  | 0, _ => none
  | fuel + 1, i =>
      if collection.equal i (collection.endIndex elements) then some none
      else if predicate (collection.subscript elements i) then some (some i)
      else collection.firstIndexWhere predicate elements fuel (collection.indexAfter elements i)

section Forward

variable (collection : Collection Elements Index Element)
  (swapAt : Elements → Index → Index → Elements) (isSuffixElement : Element → Bool)

/-- The loop of `_halfStablePartition(isSuffixElement:)`. -/
def halfStableLoop : ℕ → Elements → Index → Index → Option (Index × Elements)
  | 0, _, _, _ => none
  | fuel + 1, elements, i, j =>
      if collection.equal j (collection.endIndex elements) then some (i, elements)
      else if !isSuffixElement (collection.subscript elements j) then
        let elements := swapAt elements i j
        halfStableLoop fuel elements (collection.indexAfter elements i)
          (collection.indexAfter elements j)
      else halfStableLoop fuel elements i (collection.indexAfter elements j)

/-- `_halfStablePartition(isSuffixElement:)`. -/
def halfStablePartition (fuel : ℕ) (elements : Elements) : Option (Index × Elements) := do
  let start := collection.startIndex elements
  match ← collection.firstIndexWhere isSuffixElement elements fuel start with
  | none => return (collection.endIndex elements, elements)
  | some i =>
      let j := collection.indexAfter elements i
      halfStableLoop collection swapAt isSuffixElement fuel elements i j

end Forward

section Bidirectional

variable (collection : Collection Elements Index Element) (indexBefore : Elements → Index → Index)
  (less : Index → Index → Bool) (swapAt : Elements → Index → Index → Elements)
  (belongsInSecondPartition : Element → Bool)

/-- `FindLo`, with whether it has been broken out of. -/
def findLo (elements : Elements) (hi : Index) : ℕ → Index → Option (Bool × Index)
  | 0, _ => none
  | fuel + 1, lo =>
      if less lo hi then
        if belongsInSecondPartition (collection.subscript elements lo) then some (true, lo)
        else findLo elements hi fuel (collection.indexAfter elements lo)
      else some (false, lo)

/-- `FindHi` behind its first step, with whether it has been broken out of. -/
def findHi (elements : Elements) (lo : Index) : ℕ → Index → Option (Bool × Index)
  | 0, _ => none
  | fuel + 1, hi =>
      if less lo hi then
        if !belongsInSecondPartition (collection.subscript elements hi) then some (true, hi)
        else findHi elements lo fuel (indexBefore elements hi)
      else some (false, hi)

/-- `Loop`. -/
def partitionLoop : ℕ → Elements → Index → Index → Option (Index × Elements)
  | 0, _, _, _ => none
  | fuel + 1, elements, lo, hi => do
      let (found, lo) ← findLo collection less belongsInSecondPartition elements hi (fuel + 1) lo
      if !found then return (lo, elements)
      let (found, hi) ← findHi collection indexBefore less belongsInSecondPartition elements lo
        (fuel + 1) (indexBefore elements hi)
      if !found then return (lo, elements)
      let elements := swapAt elements lo hi
      partitionLoop fuel elements (collection.indexAfter elements lo) hi

/-- `_partitionImpl(by:)`. -/
def partitionImpl (fuel : ℕ) (elements : Elements) : Option (Index × Elements) :=
  partitionLoop collection indexBefore less swapAt belongsInSecondPartition fuel elements
    (collection.startIndex elements) (collection.endIndex elements)

end Bidirectional

/-- `UnsafeMutableBufferPointer.swapAt(_:_:)`, with the list of the elements of the buffer. -/
def bufferSwapAt (elements : List Element) (i j : ℤ) : List Element :=
  if i == j then elements else swap elements i.toNat j.toNat

/-- `_withUnsafeMutableBufferPointerIfSupported(_:)`, before and behind its closure. -/
structure BufferSupport (Elements Element : Type) where
  buffer : Elements → Option (List Element)
  written : Elements → List Element → Elements

/-- `partition(by:)` of a bidirectional collection. -/
def partitionBidirectional [Inhabited Element] (collection : Collection Elements Index Element)
    (indexBefore : Elements → Index → Index) (indexOffsetBy : Elements → Index → ℤ → Index)
    (less : Index → Index → Bool) (swapAt : Elements → Index → Index → Elements)
    (support : BufferSupport Elements Element) (belongsInSecondPartition : Element → Bool)
    (fuel : ℕ) (elements : Elements) : Option (Index × Elements) :=
  match support.buffer elements with
  | some buffer => do
      let (unsafeBufferPivot, buffer) ← partitionImpl offsetCollection (fun _ i => i - 1)
        (fun lhs rhs => lhs < rhs) bufferSwapAt belongsInSecondPartition fuel buffer
      let offset := unsafeBufferPivot - offsetCollection.startIndex buffer
      let elements := support.written elements buffer
      return (indexOffsetBy elements (collection.startIndex elements) offset, elements)
  | none =>
      partitionImpl collection indexBefore less swapAt belongsInSecondPartition fuel elements

end Operations

section Specification

variable {Elements Index Element : Type}

/-- The indices of a collection are compared and walked backwards. -/
structure Walked (indexBefore : Elements → Index → Index) (less : Index → Index → Bool)
    (list : Elements → List Element) (index : Elements → ℕ → Index) : Prop where
  indexBefore : ∀ elements {i : ℕ}, i < (list elements).length →
    indexBefore elements (index elements (i + 1)) = index elements i
  less : ∀ elements {i j : ℕ}, i ≤ (list elements).length → j ≤ (list elements).length →
    (less (index elements i) (index elements j) = true ↔ i < j)

/-- The result of partitioning a collection, with the elements before and from the index. -/
structure Partitioned (predicate : Element → Bool) (list : Elements → List Element)
    (index : Elements → ℕ → Index) (elements : Elements) (result : Index × Elements)
    (front back : List Element) : Prop where
  shape : list result.2 = front ++ back
  place : result.1 = index result.2 front.length
  fails : ∀ x ∈ front, predicate x = false
  holds : ∀ x ∈ back, predicate x = true
  perm : (list result.2).Perm (list elements)

/-- The closure that a collection runs with its buffer sees and leaves its elements. -/
structure SupportsBuffer (indexOffsetBy : Elements → Index → ℤ → Index)
    (support : BufferSupport Elements Element) (list : Elements → List Element)
    (index : Elements → ℕ → Index) : Prop where
  indexOffsetBy : ∀ elements {i : ℕ}, i ≤ (list elements).length →
    indexOffsetBy elements (index elements 0) i = index elements i
  buffer : ∀ elements buffer, support.buffer elements = some buffer → buffer = list elements
  written : ∀ elements buffer, buffer.length = (list elements).length →
    list (support.written elements buffer) = buffer

end Specification

section Results

variable {Elements Index Element : Type} {collection : Collection Elements Index Element}
  {swapAt : Elements → Index → Index → Elements} {predicate : Element → Bool}
  {list : Elements → List Element} {index : Elements → ℕ → Index} {elements : Elements}
  {front middle back : List Element} {fuel : ℕ}

section Forward

/-- The first index whose element satisfies a predicate, if there is one. -/
theorem Listed.firstIndexWhere {list : List Element} {index : ℕ → Index}
    (listed : Listed collection elements list index) (shape : list = front ++ back)
    (enough : back.length < fuel) :
    (∀ x ∈ back, predicate x = false) ∧
        collection.firstIndexWhere predicate elements fuel (index front.length) = some none ∨
      ∃ skipped x rest, back = skipped ++ x :: rest ∧ (∀ y ∈ skipped, predicate y = false) ∧
        predicate x = true ∧
        collection.firstIndexWhere predicate elements fuel (index front.length) =
          some (some (index (front ++ skipped).length)) := by
  induction back generalizing front fuel with
  | nil =>
      rcases Nat.exists_eq_add_of_lt enough with ⟨more, rfl⟩
      have atEnd : collection.equal (index front.length) (index list.length) = true := by
        rw [listed.equal (by simp [shape]) le_rfl, shape]
        simp
      left
      rw [Collection.firstIndexWhere, listed.endIndex, if_pos atEnd]
      simp
  | cons x back further =>
      rcases Nat.exists_eq_add_of_lt enough with ⟨more, rfl⟩
      have inside : front.length < list.length := by simp [shape]
      have going : ¬ collection.equal (index front.length) (index list.length) = true := by
        rw [listed.equal inside.le le_rfl]
        omega
      have element : list[front.length] = x := by simp [shape]
      rw [Collection.firstIndexWhere, listed.endIndex, if_neg going, listed.subscript inside,
        element]
      cases holds : predicate x with
      | true =>
          right
          exact ⟨[], x, back, rfl, by simp, holds, by simp⟩
      | false =>
          have next : (front ++ [x]).length = front.length + 1 := by simp
          have later := @further (front ++ [x]) ((x :: back).length + more) (by simp [shape])
            (by simp; omega)
          rw [next] at later
          rw [if_neg (by simp), listed.indexAfter inside]
          rcases later with ⟨fails, ended⟩ | ⟨skipped, y, rest, rfl, fails, found, stopped⟩
          · left
            exact ⟨by simpa [holds] using fails, ended⟩
          · right
            refine ⟨x :: skipped, y, rest, rfl, by simpa [holds] using fails, found, ?_⟩
            rw [stopped, List.append_assoc, List.singleton_append]

variable (rearranges : Rearranges collection swapAt list index)

include rearranges

/--
From a front without and a middle with the elements that satisfy the predicate, the loop
appends the others of the rest to the front, in their order.
-/
theorem halfStableLoop_eq (shape : list elements = front ++ middle ++ back)
    (holds : ∀ x ∈ middle, predicate x = true) (nonempty : middle ≠ [])
    (enough : back.length < fuel) :
    ∃ elements' suffix,
      halfStableLoop collection swapAt predicate fuel elements (index elements front.length)
          (index elements (front ++ middle).length) =
        some (index elements' (front ++ back.filter (!predicate ·)).length, elements') ∧
      list elements' = front ++ back.filter (!predicate ·) ++ suffix ∧
      (∀ x ∈ suffix, predicate x = true) ∧ (list elements').Perm (list elements) := by
  induction back generalizing elements front middle fuel with
  | nil =>
      rcases Nat.exists_eq_add_of_lt enough with ⟨more, rfl⟩
      have listed := rearranges.listed elements
      have atEnd : collection.equal (index elements (front ++ middle).length)
          (index elements (list elements).length) = true := by
        rw [listed.equal (by simp [shape]) le_rfl, shape, List.append_nil]
      rw [halfStableLoop, listed.endIndex, if_pos atEnd]
      exact ⟨elements, middle, by simp, by simpa using shape, holds, .refl _⟩
  | cons x back rest =>
      rcases Nat.exists_eq_add_of_lt enough with ⟨more, rfl⟩
      have listed := rearranges.listed elements
      have j_lt : (front ++ middle).length < (list elements).length := by simp [shape]
      have going : ¬ collection.equal (index elements (front ++ middle).length)
          (index elements (list elements).length) = true := by
        rw [listed.equal j_lt.le le_rfl]
        omega
      have element : (list elements)[(front ++ middle).length] = x := by
        simp [shape, -List.append_assoc]
      rw [halfStableLoop, listed.endIndex, if_neg going, listed.subscript j_lt, element]
      cases satisfied : predicate x with
      | true =>
          have next : (front ++ (middle ++ [x])).length = (front ++ middle).length + 1 := by
            simp [Nat.add_assoc]
          have further := @rest elements front (middle ++ [x]) ((x :: back).length + more)
            (by simp [shape]) (by simpa [or_imp, forall_and, satisfied] using holds) (by simp)
            (by simp; omega)
          rw [if_neg (by simp), listed.indexAfter j_lt, ← next,
            List.filter_cons_of_neg (by simp [satisfied])]
          exact further
      | false =>
          cases middle with
          | nil => exact absurd rfl nonempty
          | cons y middle =>
              rcases rearranges.swap_apart shape with ⟨later, swapped, shape', kept, perm⟩
              have listed' := rearranges.listed later
              have i_next : (front ++ [x]).length = front.length + 1 := by simp
              have j_next : (front ++ [x] ++ (middle ++ [y])).length =
                  (front ++ y :: middle).length + 1 := by
                simp
                omega
              have further := @rest later (front ++ [x]) (middle ++ [y])
                ((x :: back).length + more) (by simp [shape'])
                (by simpa [or_imp, forall_and, and_comm] using holds) (by simp) (by simp; omega)
              rw [kept] at further listed'
              rw [if_pos (by simp), List.filter_cons_of_pos (by simp [satisfied])]
              dsimp only
              rw [swapped, listed'.indexAfter (by simp [shape']),
                listed'.indexAfter (by simp [shape']), ← i_next, ← j_next]
              rcases further with ⟨elements', suffix, ran, shape'', holds', perm'⟩
              refine ⟨elements', suffix, ?_, ?_, holds', perm'.trans perm⟩
              · rw [ran, List.append_assoc, List.singleton_append]
              · rw [shape'', List.append_assoc front, List.singleton_append]

theorem halfStablePartition_eq (enough : (list elements).length < fuel) :
    ∃ result suffix, halfStablePartition collection swapAt predicate fuel elements = some result ∧
      Partitioned predicate list index elements result ((list elements).filter (!predicate ·))
        suffix := by
  have listed := rearranges.listed elements
  have searched := @Listed.firstIndexWhere _ _ _ _ predicate elements [] (list elements) fuel _ _
    listed rfl enough
  rw [List.length_nil, ← listed.startIndex] at searched
  rcases searched with ⟨fails, ended⟩ | ⟨skipped, x, rest, shape, fails, found, stopped⟩
  · have all : (list elements).filter (!predicate ·) = list elements :=
      List.filter_eq_self.mpr fun x member => by simp [fails x member]
    refine ⟨(collection.endIndex elements, elements), [], ?_, ?_⟩
    · simp [halfStablePartition, ended]
    · rw [all]
      exact ⟨by simp, listed.endIndex, fails, by simp, .refl _⟩
  · rw [List.nil_append] at stopped
    have shape' : list elements = skipped ++ [x] ++ rest := by simp [shape]
    have after := listed.indexAfter (show skipped.length < (list elements).length by simp [shape])
    have next : (skipped ++ [x]).length = skipped.length + 1 := by simp
    have kept : (list elements).filter (!predicate ·) =
        skipped ++ rest.filter (!predicate ·) := by
      rw [shape, List.filter_append, List.filter_cons_of_neg (by simp [found]),
        List.filter_eq_self.mpr fun y member => by simp [fails y member]]
    have short : rest.length < fuel := by
      rw [shape] at enough
      simp only [List.length_append, List.length_cons] at enough
      omega
    rcases halfStableLoop_eq rearranges shape' (by simpa using found) (by simp) short with
      ⟨elements', suffix, ran, shape'', holds, perm⟩
    rw [next, ← after] at ran
    refine ⟨(index elements' (skipped ++ rest.filter (!predicate ·)).length, elements'), suffix,
      ?_, ?_⟩
    · simp only [halfStablePartition, stopped]
      exact ran
    · rw [kept]
      refine ⟨shape'', rfl, ?_, holds, perm⟩
      intro y member
      rcases List.mem_append.mp member with earlier | later
      · exact fails y earlier
      · simpa using (List.mem_filter.mp later).2

end Forward

section Bidirectional

variable {indexBefore : Elements → Index → Index} {less : Index → Index → Bool}

section Cursors

variable (listed : Listed collection elements (list elements) (index elements))
  (walked : Walked indexBefore less list index)

include listed walked

theorem findLo_eq (predicate : Element → Bool) (shape : list elements = front ++ middle ++ back)
    (enough : middle.length < fuel) :
    (∀ x ∈ middle, predicate x = false) ∧
        findLo collection less predicate elements (index elements (front ++ middle).length) fuel
          (index elements front.length) = some (false, index elements (front ++ middle).length) ∨
      ∃ skipped x rest, middle = skipped ++ x :: rest ∧ (∀ y ∈ skipped, predicate y = false) ∧
        predicate x = true ∧
        findLo collection less predicate elements (index elements (front ++ middle).length) fuel
          (index elements front.length) =
            some (true, index elements (front ++ skipped).length) := by
  induction middle generalizing front fuel with
  | nil =>
      rcases Nat.exists_eq_add_of_lt enough with ⟨more, rfl⟩
      have met : ¬ less (index elements front.length)
          (index elements (front ++ []).length) = true := by
        rw [walked.less elements (by simp [shape]) (by simp [shape])]
        simp
      left
      rw [findLo, if_neg met]
      simp
  | cons x middle further =>
      rcases Nat.exists_eq_add_of_lt enough with ⟨more, rfl⟩
      have inside : front.length < (list elements).length := by simp [shape]
      have apart : less (index elements front.length)
          (index elements (front ++ x :: middle).length) = true := by
        rw [walked.less elements inside.le (by simp [shape])]
        simp
      have element : (list elements)[front.length] = x := by simp [shape]
      rw [findLo, if_pos apart, listed.subscript inside, element]
      cases holds : predicate x with
      | true =>
          right
          exact ⟨[], x, middle, rfl, by simp, holds, by simp⟩
      | false =>
          have next : (front ++ [x]).length = front.length + 1 := by simp
          have later := @further (front ++ [x]) ((x :: middle).length + more) (by simp [shape])
            (by simp; omega)
          rw [next, List.append_assoc, List.singleton_append] at later
          rw [if_neg (by simp), listed.indexAfter inside]
          rcases later with ⟨fails, ended⟩ | ⟨skipped, y, rest, rfl, fails, found, stopped⟩
          · left
            exact ⟨by simpa [holds] using fails, ended⟩
          · right
            refine ⟨x :: skipped, y, rest, rfl, by simpa [holds] using fails, found, ?_⟩
            rw [stopped, List.append_assoc, List.singleton_append]

theorem findHi_eq (predicate : Element → Bool) {x : Element}
    (shape : list elements = front ++ x :: middle ++ back) (enough : middle.length < fuel) :
    (∀ y ∈ middle, predicate y = true) ∧
        findHi collection indexBefore less predicate elements (index elements front.length) fuel
          (index elements (front ++ middle).length) = some (false, index elements front.length) ∨
      ∃ rest y passed, middle = rest ++ y :: passed ∧ (∀ z ∈ passed, predicate z = true) ∧
        predicate y = false ∧
        findHi collection indexBefore less predicate elements (index elements front.length) fuel
          (index elements (front ++ middle).length) =
            some (true, index elements (front ++ x :: rest).length) := by
  induction middle using List.reverseRecOn generalizing back fuel with
  | nil =>
      rcases Nat.exists_eq_add_of_lt enough with ⟨more, rfl⟩
      have met : ¬ less (index elements front.length)
          (index elements (front ++ []).length) = true := by
        rw [walked.less elements (by simp [shape]) (by simp [shape])]
        simp
      left
      rw [findHi, if_neg met]
      simp
  | append_singleton middle y further =>
      rcases Nat.exists_eq_add_of_lt enough with ⟨more, rfl⟩
      have place : (front ++ (middle ++ [y])).length = (front ++ middle).length + 1 := by
        simp [Nat.add_assoc]
      have place' : (front ++ x :: middle).length = (front ++ middle).length + 1 := by
        simp [Nat.add_assoc]
      have inside : (front ++ middle).length + 1 < (list elements).length := by
        simp [shape]
        omega
      have apart : less (index elements front.length)
          (index elements ((front ++ middle).length + 1)) = true := by
        rw [walked.less elements (by simp [shape]) inside.le, List.length_append]
        omega
      have shape' : list elements = (front ++ x :: middle) ++ y :: back := by simp [shape]
      have element : (list elements)[(front ++ middle).length + 1] = y :=
        List.getElem_of_append shape' place'
      rw [place, findHi, if_pos apart, listed.subscript inside, element]
      cases holds : predicate y with
      | false =>
          right
          refine ⟨middle, y, [], by simp, by simp, holds, ?_⟩
          rw [if_pos (by simp), place']
      | true =>
          have later := @further (y :: back) ((middle ++ [y]).length + more) (by simp [shape])
            (by simp; omega)
          rw [if_neg (by simp), walked.indexBefore elements (by omega)]
          rcases later with ⟨all, ended⟩ | ⟨rest, z, passed, rfl, all, found, stopped⟩
          · left
            exact ⟨by simpa [or_imp, forall_and, holds] using all, ended⟩
          · right
            refine ⟨rest, z, passed ++ [y], by simp,
              by simpa [or_imp, forall_and, holds] using all, found, stopped⟩

end Cursors

variable (rearranges : Rearranges collection swapAt list index)
  (walked : Walked indexBefore less list index)

include rearranges walked

/-- What is between the cursors becomes shorter, and the elements outside stay apart. -/
theorem partitionLoop_eq (shape : list elements = front ++ middle ++ back)
    (fails : ∀ x ∈ front, predicate x = false) (holds : ∀ x ∈ back, predicate x = true)
    (enough : middle.length < fuel) :
    ∃ result prior suffix,
      partitionLoop collection indexBefore less swapAt predicate fuel elements
          (index elements front.length) (index elements (front ++ middle).length) =
        some result ∧ Partitioned predicate list index elements result prior suffix := by
  induction fuel generalizing elements front middle back with
  | zero => omega
  | succ fuel further =>
      have listed := rearranges.listed elements
      rcases findLo_eq listed walked predicate shape enough with
        ⟨middle_fails, ended⟩ | ⟨skipped, x, rest, rfl, skipped_fails, x_holds, stopped⟩
      · refine ⟨(index elements (front ++ middle).length, elements), front ++ middle, back, ?_,
          shape, rfl, ?_, holds, .refl _⟩
        · rw [partitionLoop, ended]
          rfl
        · simpa [or_imp, forall_and] using ⟨fails, middle_fails⟩
      · have shape' : list elements = (front ++ skipped) ++ x :: rest ++ back := by simp [shape]
        have short : rest.length < fuel + 1 := by
          simp only [List.length_append, List.length_cons] at enough
          omega
        have place : (front ++ (skipped ++ x :: rest)).length =
            (front ++ skipped ++ rest).length + 1 := by
          simp
          omega
        have before := walked.indexBefore elements
          (show (front ++ skipped ++ rest).length < (list elements).length by
            rw [shape']
            simp only [List.length_append, List.length_cons]
            omega)
        have prior_fails : ∀ y ∈ front ++ skipped, predicate y = false := by
          simpa [or_imp, forall_and] using ⟨fails, skipped_fails⟩
        rw [place] at stopped ⊢
        rcases findHi_eq listed walked predicate shape' short with
          ⟨rest_holds, ended⟩ | ⟨between, y, passed, rfl, passed_holds, y_fails, stopped'⟩
        · refine ⟨(index elements (front ++ skipped).length, elements), front ++ skipped,
            x :: rest ++ back, ?_, by simpa using shape', rfl, prior_fails, ?_, .refl _⟩
          · rw [partitionLoop, stopped]
            dsimp only [bind, Option.bind]
            rw [if_neg (by simp), before, ended]
            rfl
          · simpa [or_imp, forall_and] using ⟨x_holds, rest_holds, holds⟩
        · have shape'' : list elements =
              (front ++ skipped) ++ x :: between ++ y :: (passed ++ back) := by simp [shape']
          rcases rearranges.swap_apart shape'' with ⟨later, swapped, swapped_shape, kept, perm⟩
          have listed' := rearranges.listed later
          have i_next : (front ++ skipped ++ [y]).length = (front ++ skipped).length + 1 := by
            simp [Nat.add_assoc]
          have j_same : (front ++ skipped ++ [y] ++ between).length =
              (front ++ skipped ++ x :: between).length := by simp
          have done := @further later (front ++ skipped ++ [y]) between (x :: (passed ++ back))
            (by simp [swapped_shape])
            (by simpa [or_imp, forall_and] using ⟨fails, skipped_fails, y_fails⟩)
            (by simpa [or_imp, forall_and] using ⟨x_holds, passed_holds, holds⟩)
            (by simp at short; omega)
          rw [kept] at listed' done
          rw [i_next, j_same] at done
          rcases done with ⟨result, prior, suffix, ran, partitioned⟩
          refine ⟨result, prior, suffix, ?_, ?_⟩
          · rw [partitionLoop, stopped]
            dsimp only [bind, Option.bind]
            rw [if_neg (by simp), before, stopped']
            dsimp only
            rw [if_neg (by simp), swapped, listed'.indexAfter (by simp [swapped_shape]), ran]
          · exact ⟨partitioned.shape, partitioned.place, partitioned.fails, partitioned.holds,
              partitioned.perm.trans perm⟩

theorem partitionImpl_eq (enough : (list elements).length < fuel) :
    ∃ result prior suffix,
      partitionImpl collection indexBefore less swapAt predicate fuel elements = some result ∧
        Partitioned predicate list index elements result prior suffix := by
  have listed := rearranges.listed elements
  rw [partitionImpl, listed.startIndex, listed.endIndex]
  exact partitionLoop_eq rearranges walked
    (show list elements = [] ++ list elements ++ [] by simp) (by simp) (by simp) enough

omit rearranges walked

theorem buffer_rearranges [Inhabited Element] :
    Rearranges offsetCollection (@bufferSwapAt Element) id fun _ i => i where
  listed := listed_offsets
  swaps list i j _ _ := by
    rw [bufferSwapAt]
    split
    · rename_i same
      have equal : i = j := by simpa using same
      rw [equal, swap_self]
    · rfl
  keeps _ _ _ _ _ := rfl

theorem offsets_walked :
    Walked (fun (_ : List Element) i => i - 1) (fun (lhs rhs : ℤ) => lhs < rhs) id
      fun _ i => i := by
  constructor <;> simp

include rearranges walked

theorem partitionBidirectional_eq [Inhabited Element]
    {indexOffsetBy : Elements → Index → ℤ → Index} {support : BufferSupport Elements Element}
    (supports : SupportsBuffer indexOffsetBy support list index)
    (enough : (list elements).length < fuel) :
    ∃ result prior suffix,
      partitionBidirectional collection indexBefore indexOffsetBy less swapAt support predicate
          fuel elements = some result ∧
        Partitioned predicate list index elements result prior suffix := by
  rw [partitionBidirectional]
  split
  · rename_i buffer supported
    have same := supports.buffer elements buffer supported
    rcases @partitionImpl_eq _ _ _ _ _ predicate _ _ buffer _ _ _ buffer_rearranges offsets_walked
      (show buffer.length < fuel by rw [same]; exact enough) with
      ⟨⟨pivot, buffer'⟩, prior, suffix, ran, shape, place, fails, holds, perm⟩
    simp only [id_eq] at shape place perm
    have written := supports.written elements buffer' (by rw [perm.length_eq, same])
    have start := (rearranges.listed (support.written elements buffer')).startIndex
    refine ⟨(index (support.written elements buffer') prior.length,
      support.written elements buffer'), prior, suffix, ?_, ?_⟩
    · rw [ran, place]
      simp only [bind, Option.bind, offsetCollection, sub_zero, start]
      rw [supports.indexOffsetBy _ (by rw [written, shape]; simp)]
      rfl
    · exact ⟨written.trans shape, rfl, fails, holds, by rw [written, ← same]; exact perm⟩
  · exact partitionImpl_eq rearranges walked enough

end Bidirectional

/--
Both implementations of `partition(by:)` end and permute the elements, with those that
satisfy the predicate from the index on. The forward one keeps the order of the others.
-/
theorem partition_partitions {collection : MutableCollection Elements Index Element}
    (assignable : Assignable collection list index) (enough : (list elements).length < fuel) :
    (∃ result suffix,
      halfStablePartition collection.toCollection collection.swapAt predicate fuel elements =
          some result ∧
        Partitioned predicate list index elements result
          ((list elements).filter (!predicate ·)) suffix) ∧
    ∀ indexBefore less, Walked indexBefore less list index →
      (∃ result prior suffix,
        partitionImpl collection.toCollection indexBefore less collection.swapAt predicate fuel
            elements = some result ∧
          Partitioned predicate list index elements result prior suffix) ∧
      ∀ [Inhabited Element] indexOffsetBy support,
        SupportsBuffer indexOffsetBy support list index →
          ∃ result prior suffix,
            partitionBidirectional collection.toCollection indexBefore indexOffsetBy less
                collection.swapAt support predicate fuel elements = some result ∧
              Partitioned predicate list index elements result prior suffix := by
  refine ⟨halfStablePartition_eq assignable.rearranges enough, ?_⟩
  intro indexBefore less walked
  refine ⟨partitionImpl_eq assignable.rearranges walked enough, ?_⟩
  intro _ indexOffsetBy support supports
  exact partitionBidirectional_eq assignable.rearranges walked supports enough

/-- The even numbers of a list behind the odd ones. -/
theorem partition_partitions_numbers :
    (∃ result suffix, halfStablePartition offsetCollection offsetMutableCollection.swapAt
        (fun n : ℕ => n % 2 == 0) 6 [1, 2, 3, 4, 5] = some result ∧
      Partitioned (fun n => n % 2 == 0) id (fun _ i => (i : ℤ)) [1, 2, 3, 4, 5] result
        [1, 3, 5] suffix) ∧
    ∃ result prior suffix, partitionBidirectional offsetCollection (fun _ i => i - 1)
        (fun _ i n => i + n) (fun lhs rhs => lhs < rhs) offsetMutableCollection.swapAt
        ⟨some, fun _ buffer => buffer⟩ (fun n : ℕ => n % 2 == 0) 6 [1, 2, 3, 4, 5] =
          some result ∧
      Partitioned (fun n => n % 2 == 0) id (fun _ i => (i : ℤ)) [1, 2, 3, 4, 5] result
        prior suffix := by
  have supports : SupportsBuffer (fun _ i n => i + n)
      ⟨some, fun _ buffer => buffer⟩ (@id (List ℕ)) fun _ i => (i : ℤ) := by
    constructor <;> simp
  have both := @partition_partitions _ _ _ (fun n : ℕ => n % 2 == 0) _ _ [1, 2, 3, 4, 5] 6 _
    (@offsets_assignable ℕ _) (by simp)
  exact ⟨both.1, (both.2 _ _ offsets_walked).2 _ _ supports⟩

end Results

end USwift
