import Mathlib.Data.List.Nodup
import Mathlib.Data.List.OfFn
import Mathlib.Tactic.Common

/-!
# Lists rearranged by swaps

`swap` exchanges two elements of a list. Taking a position of what is left of the list
again and again, and swapping the element there to the front, arranges the list, and each
order of its elements is the arrangement of exactly one sequence of positions.
-/

namespace Swaps

universe u

variable {Element : Type u}

section Swap

/-- A list with the elements at two positions exchanged. -/
def swap (list : List Element) (i j : ℕ) : List Element :=
  match list[i]?, list[j]? with
  | some x, some y => (list.set i y).set j x
  | _, _ => list

variable {list front middle back : List Element} {x y : Element} {i j : ℕ}

theorem swap_eq (i_lt : i < list.length) (j_lt : j < list.length) :
    swap list i j = (list.set i list[j]).set j list[i] := by
  rw [swap, List.getElem?_eq_getElem i_lt, List.getElem?_eq_getElem j_lt]

theorem swap_self (list : List Element) (i : ℕ) : swap list i i = list := by
  by_cases i_lt : i < list.length
  · rw [swap_eq i_lt i_lt]
    simp
  · rw [swap, List.getElem?_eq_none (by omega)]

theorem swap_perm (list : List Element) (i j : ℕ) : (swap list i j).Perm list := by
  by_cases i_lt : i < list.length
  · by_cases j_lt : j < list.length
    · rw [swap_eq i_lt j_lt]
      exact List.set_set_perm i_lt j_lt
    · rw [swap, List.getElem?_eq_none (by omega : list.length ≤ j)]
      split <;> first | contradiction | rfl
  · rw [swap, List.getElem?_eq_none (by omega : list.length ≤ i)]

theorem swap_append (front list : List Element) (i j : ℕ) :
    swap (front ++ list) (front.length + i) (front.length + j) = front ++ swap list i j := by
  rw [swap, swap, List.getElem?_append_right (Nat.le_add_right _ _),
    List.getElem?_append_right (Nat.le_add_right _ _), Nat.add_sub_cancel_left,
    Nat.add_sub_cancel_left]
  split <;> simp

/-- Two elements of a list that are written out. -/
theorem swap_apart (front middle back : List Element) (x y : Element) :
    swap (front ++ x :: middle ++ y :: back) front.length (front.length + 1 + middle.length) =
      front ++ y :: middle ++ x :: back := by
  have later : front.length + 1 + middle.length = front.length + (middle.length + 1) := by omega
  have moved := swap_append front (x :: middle ++ y :: back) 0 (middle.length + 1)
  rw [← List.append_assoc, Nat.add_zero, ← later] at moved
  rw [moved, swap_eq (by simp) (by simp)]
  simp

end Swap

section Arrangements

/--
Swap an element of what is left of a list to its front, for each of some positions that
are counted from there.
-/
def arrange : List Element → List ℕ → List Element
  | list, [] => list
  | list, draw :: draws =>
      match swap list 0 draw with
      | [] => []
      | first :: rest => first :: arrange rest draws

/-- Positions that are drawn from a list of a length until one element is left. -/
def Drawn (count : ℕ) (draws : List ℕ) : Prop :=
  draws.length = count - 1 ∧ ∀ {i : ℕ} (inside : i < draws.length), draws[i] < count - i

variable {list rest : List Element} {first : Element} {draw count : ℕ} {draws others : List ℕ}

theorem drawn_nil_iff : Drawn count [] ↔ count ≤ 1 := by
  simp [Drawn]
  omega

theorem drawn_cons_iff :
    Drawn (count + 1) (draw :: draws) ↔ 1 ≤ count ∧ draw ≤ count ∧ Drawn count draws := by
  constructor
  · rintro ⟨length, below⟩
    rw [List.length_cons] at length
    refine ⟨by omega, ?_, by omega, ?_⟩
    · have lowest := @below 0 (by simp)
      rw [List.getElem_cons_zero] at lowest
      omega
    · intro i inside
      have next := @below (i + 1) (by simpa using inside)
      rw [List.getElem_cons_succ] at next
      omega
  · rintro ⟨nonempty, low, length, below⟩
    refine ⟨by rw [List.length_cons]; omega, ?_⟩
    intro i inside
    cases i with
    | zero =>
        rw [List.getElem_cons_zero]
        omega
    | succ i =>
        have next := @below i (by simpa using inside)
        rw [List.getElem_cons_succ]
        omega

theorem exists_swap_front (draw_lt : draw < list.length) :
    ∃ rest, swap list 0 draw = list[draw] :: rest ∧ (list[draw] :: rest).Perm list := by
  have rearranged := swap_perm list 0 draw
  have moved : swap list 0 draw = list[draw] :: (swap list 0 draw).tail := by
    cases list with
    | nil => simp at draw_lt
    | cons first later =>
        rw [swap_eq (Nat.zero_lt_of_lt draw_lt) draw_lt]
        cases draw <;> simp
  refine ⟨(swap list 0 draw).tail, moved, ?_⟩
  rwa [← moved]

theorem arrange_cons (draw_lt : draw < list.length)
    (moved : swap list 0 draw = list[draw] :: rest) :
    arrange list (draw :: draws) = list[draw] :: arrange rest draws := by
  rw [arrange, moved]

theorem arrange_perm (list : List Element) (draws : List ℕ) : (arrange list draws).Perm list := by
  induction draws generalizing list with
  | nil => rfl
  | cons draw draws rest =>
      have rearranged := swap_perm list 0 draw
      rw [arrange]
      split
      · rename_i shape
        rwa [shape] at rearranged
      · rename_i first later shape
        rw [shape] at rearranged
        exact (List.Perm.cons first (rest later)).trans rearranged

/-- Different positions arrange different elements in different orders. -/
theorem arrange_injective (distinct : list.Nodup) (drawn : Drawn list.length draws)
    (drawn' : Drawn list.length others) (same : arrange list draws = arrange list others) :
    draws = others := by
  induction draws generalizing list others with
  | nil =>
      have short := drawn_nil_iff.mp drawn
      have none : others.length = 0 := by
        rw [drawn'.1]
        omega
      exact (List.eq_nil_of_length_eq_zero none).symm
  | cons draw draws shorter =>
      have nonempty : list.length ≠ 0 := by
        intro none
        have length := drawn.1
        rw [none, List.length_cons] at length
        omega
      rcases Nat.exists_eq_succ_of_ne_zero nonempty with ⟨count, length⟩
      rw [length] at drawn drawn'
      rcases drawn_cons_iff.mp drawn with ⟨several, low, drawn⟩
      cases others with
      | nil =>
          have short := drawn_nil_iff.mp drawn'
          omega
      | cons other others =>
          rcases drawn_cons_iff.mp drawn' with ⟨_, low', others_drawn⟩
          have draw_lt : draw < list.length := by omega
          have other_lt : other < list.length := by omega
          rcases exists_swap_front draw_lt with ⟨rest, moved, rearranged⟩
          rcases exists_swap_front other_lt with ⟨rest', moved', _⟩
          rw [arrange_cons draw_lt moved, arrange_cons other_lt moved', List.cons.injEq] at same
          rcases same with ⟨first, later⟩
          have equal : draw = other := (distinct.getElem_inj_iff).mp first
          subst equal
          rw [moved, List.cons.injEq] at moved'
          rcases moved' with ⟨_, rfl⟩
          have rest_distinct : rest.Nodup := (rearranged.nodup_iff.mpr distinct).of_cons
          have rest_length : rest.length = count := by
            have lengths := rearranged.length_eq
            rw [List.length_cons] at lengths
            omega
          rw [shorter rest_distinct (rest_length ▸ drawn) (rest_length ▸ others_drawn) later]

/-- Every order of the elements of a list is an arrangement of it. -/
theorem arrange_surjective {order : List Element} (rearranged : order.Perm list) :
    ∃ draws, Drawn list.length draws ∧ arrange list draws = order := by
  induction order generalizing list with
  | nil =>
      rw [List.nil_perm] at rearranged
      subst rearranged
      exact ⟨[], drawn_nil_iff.mpr (by simp), rfl⟩
  | cons first order shorter =>
      have member : first ∈ list := rearranged.mem_iff.mp List.mem_cons_self
      rcases List.getElem_of_mem member with ⟨draw, draw_lt, found⟩
      rcases exists_swap_front draw_lt with ⟨rest, moved, kept⟩
      have rest_order : order.Perm rest := by
        rw [found] at kept
        exact List.Perm.cons_inv (rearranged.trans kept.symm)
      have length := kept.length_eq
      rw [List.length_cons] at length
      rcases shorter rest_order with ⟨draws, drawn, arranged⟩
      by_cases last : rest.length = 0
      · -- no position is drawn when one element is left
        have empty := List.eq_nil_of_length_eq_zero last
        rw [empty, List.perm_nil] at rest_order
        rw [empty, found] at kept
        refine ⟨[], drawn_nil_iff.mpr (by omega), ?_⟩
        rw [arrange, rest_order]
        exact (List.perm_singleton.mp kept.symm)
      · refine ⟨draw :: draws, ?_, ?_⟩
        · rw [← length]
          exact drawn_cons_iff.mpr ⟨by omega, by omega, drawn⟩
        · rw [arrange_cons draw_lt moved, found, arranged]

/-- The values of a product of ranges, each of them one shorter than the one before it. -/
def positions {count : ℕ} (draws : (i : Fin (count - 1)) → Fin (count - i)) : List ℕ :=
  List.ofFn fun i => (draws i : ℕ)

theorem drawn_positions (draws : (i : Fin (count - 1)) → Fin (count - i)) :
    Drawn count (positions draws) := by
  refine ⟨List.length_ofFn, ?_⟩
  intro i inside
  simp [positions]

theorem positions_injective :
    Function.Injective (@positions count) := by
  intro draws others same
  funext i
  have values := congrFun (List.ofFn_injective same) i
  exact Fin.ext values

theorem exists_positions (drawn : Drawn count draws) :
    ∃ values : (i : Fin (count - 1)) → Fin (count - i), positions values = draws := by
  rcases drawn with ⟨length, below⟩
  have inside (i : Fin (count - 1)) : i < draws.length := by omega
  refine ⟨fun i => ⟨draws.get ⟨i, inside i⟩, below (inside i)⟩, ?_⟩
  apply List.ext_getElem
  · rw [positions, List.length_ofFn, length]
  · intro i _ _
    simp [positions]

/-- The orders of different elements are the arrangements of a product of ranges. -/
theorem arrange_bijective (distinct : list.Nodup) :
    Function.Bijective
      fun draws : (i : Fin (list.length - 1)) → Fin (list.length - i) =>
        (⟨arrange list (positions draws), arrange_perm list (positions draws)⟩ :
          {order : List Element // order.Perm list}) := by
  constructor
  · intro draws others same
    apply positions_injective
    exact arrange_injective distinct (drawn_positions draws) (drawn_positions others)
      (congrArg Subtype.val same)
  · rintro ⟨order, rearranged⟩
    rcases arrange_surjective rearranged with ⟨draws, drawn, arranged⟩
    rcases exists_positions drawn with ⟨values, rfl⟩
    exact ⟨values, Subtype.ext arranged⟩

end Arrangements

end Swaps
