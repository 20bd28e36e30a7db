import Mathlib.Algebra.GroupWithZero.Nat
import Mathlib.Algebra.Order.BigOperators.Group.List
import Mathlib.Algebra.Order.Group.Nat
import Mathlib.Data.List.GetD
import Mathlib.Data.Nat.Basic
import Mathlib.Tactic.Common

/-!
# Blocks behind one another

A list of sizes lays out blocks behind one another, of which any number are empty. Every
position below the sum of the sizes lies in one block, at a distance from its start, and
the order of the positions is that of the blocks and then of the distances. The elements
of a concatenation lie in such blocks, and those that a filter keeps lie in blocks of at
most one element.
-/

namespace Blocks

universe u

/-- Where a block starts. -/
def start (sizes : List ℕ) (block : ℕ) : ℕ :=
  (sizes.take block).sum

/-- The block of a position, and the distance from its start. -/
def locate : List ℕ → ℕ → ℕ × ℕ
  | [], _ => (0, 0)
  | size :: sizes, position =>
      if position < size then (0, position)
      else
        let (block, distance) := locate sizes (position - size)
        (block + 1, distance)

/-- A position lies in a block, at a distance from its start. -/
structure Within (sizes : List ℕ) (block distance position : ℕ) : Prop where
  inside : distance < sizes.getD block 0
  position : position = start sizes block + distance

variable {sizes : List ℕ} {block other distance position : ℕ}

theorem start_zero (sizes : List ℕ) : start sizes 0 = 0 := by
  rw [start, List.take_zero, List.sum_nil]

theorem start_cons_succ (size : ℕ) (sizes : List ℕ) (block : ℕ) :
    start (size :: sizes) (block + 1) = size + start sizes block := by
  rw [start, List.take_succ_cons, List.sum_cons, start]

theorem start_succ (sizes : List ℕ) (block : ℕ) :
    start sizes (block + 1) = start sizes block + sizes.getD block 0 := by
  induction sizes generalizing block with
  | nil => simp [start]
  | cons size sizes later =>
      cases block with
      | zero => simp [start]
      | succ block =>
          rw [start_cons_succ, start_cons_succ, later, List.getD_cons_succ, Nat.add_assoc]

theorem start_length (sizes : List ℕ) : start sizes sizes.length = sizes.sum := by
  rw [start, List.take_length]

theorem start_mono (ordered : block ≤ other) : start sizes block ≤ start sizes other := by
  induction ordered with
  | refl => exact le_rfl
  | step _ shorter =>
      rw [Nat.succ_eq_add_one, start_succ]
      omega

theorem start_le_sum (sizes : List ℕ) (block : ℕ) : start sizes block ≤ sizes.sum := by
  exact (List.take_sublist block sizes).sum_le_sum (by simp)

namespace Within

variable {there further : ℕ}

theorem block_lt (within : Within sizes block distance position) : block < sizes.length := by
  by_contra beyond
  have inside := within.inside
  rw [List.getD_eq_default _ _ (by omega)] at inside
  omega

theorem lt_sum (within : Within sizes block distance position) : position < sizes.sum := by
  have next := start_le_sum sizes (block + 1)
  have inside := within.inside
  rw [start_succ] at next
  rw [within.position]
  omega

theorem lt_of_block_lt (within : Within sizes block distance position)
    (beyond : start sizes other ≤ there) (earlier : block < other) : position < there := by
  have ordered : start sizes (block + 1) ≤ start sizes other := start_mono earlier
  have inside := within.inside
  rw [start_succ] at ordered
  rw [within.position]
  omega

theorem lt_iff (within : Within sizes block distance position)
    (and : Within sizes other further there) :
    position < there ↔ block < other ∨ block = other ∧ distance < further := by
  have first := within.position
  have second := and.position
  rcases lt_trichotomy block other with earlier | rfl | later
  · have beyond : start sizes other ≤ there := by omega
    have ordered := within.lt_of_block_lt beyond earlier
    omega
  · omega
  · have beyond : start sizes block ≤ position := by omega
    have ordered := and.lt_of_block_lt beyond later
    omega

theorem unique (within : Within sizes block distance position)
    (same : Within sizes other further position) : block = other ∧ distance = further := by
  have less := within.lt_iff same
  have greater := same.lt_iff within
  omega

end Within

theorem locate_within (below : position < sizes.sum) :
    Within sizes (locate sizes position).1 (locate sizes position).2 position := by
  induction sizes generalizing position with
  | nil => simp at below
  | cons size sizes later =>
      rw [locate]
      by_cases inside : position < size
      · rw [if_pos inside]
        exact ⟨by simpa using inside, by simp [start_zero]⟩
      · rw [if_neg inside]
        rw [List.sum_cons] at below
        have beyond : position - size < sizes.sum := by omega
        have rest := later beyond
        refine ⟨by simpa using rest.inside, ?_⟩
        have place := rest.position
        dsimp only
        rw [start_cons_succ]
        omega

theorem Within.locate_eq (within : Within sizes block distance position) :
    locate sizes position = (block, distance) := by
  rcases (locate_within within.lt_sum).unique within with ⟨same, equal⟩
  rw [← same, ← equal]

/-- Behind all blocks is the block that does not exist. -/
theorem locate_sum (sizes : List ℕ) : locate sizes sizes.sum = (sizes.length, 0) := by
  induction sizes with
  | nil => rfl
  | cons size sizes later =>
      rw [locate, List.sum_cons, if_neg (by omega), Nat.add_sub_cancel_left, later,
        List.length_cons]

section Concatenations

variable {Element : Type u} {Item : Type*}

theorem Within.getElem?_flatMap {list : Item → List Element} {items : List Item}
    (within : Within (items.map fun item => (list item).length) block distance position) :
    (items.flatMap list)[position]? = items[block]?.bind fun item => (list item)[distance]? := by
  rcases within with ⟨inside, rfl⟩
  induction items generalizing block with
  | nil => simp at inside
  | cons item items later =>
      rw [List.flatMap_cons, List.map_cons]
      cases block with
      | zero =>
          have inner : distance < (list item).length := by simpa using inside
          rw [start_zero, Nat.zero_add, List.getElem?_append_left inner]
          simp
      | succ block =>
          rw [start_cons_succ, Nat.add_assoc, List.getElem?_append_right (by omega),
            Nat.add_sub_cancel_left, List.getElem?_cons_succ]
          exact later (by simpa using inside)

/-- The sizes of the blocks that a filter keeps. -/
def kept (predicate : Element → Bool) (list : List Element) : List ℕ :=
  list.map fun element => (if predicate element then [element] else []).length

theorem filter_eq_flatMap (predicate : Element → Bool) (list : List Element) :
    list.filter predicate = list.flatMap fun element =>
      if predicate element then [element] else [] := by
  induction list with
  | nil => rfl
  | cons element list rest =>
      rw [List.flatMap_cons, ← rest]
      by_cases holds : predicate element = true
      · rw [List.filter_cons_of_pos holds, if_pos holds, List.singleton_append]
      · rw [List.filter_cons_of_neg holds, if_neg holds, List.nil_append]

theorem length_filter_eq (predicate : Element → Bool) (list : List Element) :
    (list.filter predicate).length = (kept predicate list).sum := by
  rw [filter_eq_flatMap, List.length_flatMap, kept]

end Concatenations

end Blocks
