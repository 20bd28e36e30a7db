import Mathlib.Data.List.Basic
import Mathlib.Tactic.Common

/-!
# Lists with a range replaced

`splice` puts a list in the place of a range of another one. Insertions and removals are
splices, and a splice in the middle of a list leaves what is around the middle.
-/

namespace Splices

universe u

variable {Element : Type u}

/-- A list with the range from `lower` to `upper` replaced. -/
def splice (list : List Element) (lower upper : ℕ) (replacement : List Element) : List Element :=
  list.take lower ++ replacement ++ list.drop upper

variable {list replacement : List Element} {lower upper : ℕ}

theorem length_splice (ordered : lower ≤ upper) (inside : upper ≤ list.length) :
    (splice list lower upper replacement).length + (upper - lower) =
      list.length + replacement.length := by
  simp only [splice, List.length_append, List.length_take, List.length_drop]
  omega

theorem getElem?_splice (inside : lower ≤ list.length) (i : ℕ) :
    (splice list lower upper replacement)[i]? =
      if i < lower then list[i]?
      else if i < lower + replacement.length then replacement[i - lower]?
      else list[upper + (i - (lower + replacement.length))]? := by
  have length : (list.take lower ++ replacement).length = lower + replacement.length := by
    rw [List.length_append, List.length_take_of_le inside]
  rw [splice, List.getElem?_append, List.getElem?_append, length, List.length_take_of_le inside,
    List.getElem?_drop]
  by_cases front : i < lower
  · rw [if_pos (by omega), if_pos front, if_pos front, List.getElem?_take_of_lt front]
  · rw [if_neg front, if_neg front]

/-- A splice in the middle of a list. -/
theorem splice_append (front list back : List Element) (ordered : lower ≤ upper)
    (inside : upper ≤ list.length) :
    splice (front ++ list ++ back) (front.length + lower) (front.length + upper) replacement =
      front ++ splice list lower upper replacement ++ back := by
  rw [splice, List.append_assoc front, List.take_length_add_append, List.drop_length_add_append,
    List.take_append_of_le_length (Nat.le_trans ordered inside),
    List.drop_append_of_le_length inside]
  simp [splice]

section Middle

variable {front back : List Element} {i : ℕ}

theorem getElem_middle (inside : i < list.length)
    (inside' : front.length + i < (front ++ list ++ back).length) :
    (front ++ list ++ back)[front.length + i] = list[i] := by
  rw [List.getElem_append_left (by rw [List.length_append]; omega),
    List.getElem_append_right (Nat.le_add_right _ _)]
  simp only [Nat.add_sub_cancel_left]

theorem getElem?_middle (inside : i < list.length) :
    (front ++ list ++ back)[front.length + i]? = list[i]? := by
  rw [List.getElem?_append_left (by rw [List.length_append]; omega),
    List.getElem?_append_right (Nat.le_add_right _ _), Nat.add_sub_cancel_left]

theorem set_middle (element : Element) (inside : i < list.length) :
    (front ++ list ++ back).set (front.length + i) element =
      front ++ list.set i element ++ back := by
  rw [List.set_append_left _ _ (by rw [List.length_append]; omega),
    List.set_append_right _ _ (Nat.le_add_right _ _), Nat.add_sub_cancel_left]

end Middle

theorem splice_length (list replacement : List Element) :
    splice list list.length list.length replacement = list ++ replacement := by
  simp [splice]

theorem splice_all (list replacement : List Element) :
    splice list 0 list.length replacement = replacement := by
  simp [splice]

theorem splice_nil (list : List Element) (position : ℕ) :
    splice list position position [] = list := by
  rw [splice, List.append_nil, List.take_append_drop]

theorem splice_zero (list : List Element) (count : ℕ) :
    splice list 0 count [] = list.drop count := by
  simp [splice]

theorem splice_to_end (list : List Element) (count : ℕ) :
    splice list count list.length [] = list.take count := by
  simp [splice]

/-- The element behind a range that has been replaced is replaced, too. -/
theorem splice_set (element : Element) (inside : lower + replacement.length < list.length) :
    (splice list lower (lower + replacement.length) replacement).set (lower + replacement.length)
        element =
      splice list lower (lower + replacement.length + 1) (replacement ++ [element]) := by
  have length : (list.take lower ++ replacement).length = lower + replacement.length := by
    rw [List.length_append, List.length_take_of_le (by omega)]
  rw [splice, List.set_append_right _ _ (Nat.le_of_eq length), length, Nat.sub_self,
    List.drop_eq_getElem_cons inside, List.set_cons_zero, splice, List.append_assoc,
    List.append_assoc, List.append_assoc]
  rfl

/-- A range that is replaced by its own elements stays as it is. -/
theorem splice_self (list : List Element) (ordered : lower ≤ upper) :
    splice list lower upper ((list.take upper).drop lower) = list := by
  have front : list.take lower = (list.take upper).take lower := by
    rw [List.take_take, Nat.min_eq_left ordered]
  rw [splice, front, List.take_append_drop, List.take_append_drop]

theorem splice_injective {replacement' : List Element}
    (same : splice list lower upper replacement = splice list lower upper replacement') :
    replacement = replacement' :=
  List.append_cancel_left (List.append_cancel_right same)

theorem splice_insert (list : List Element) (element : Element) {position : ℕ}
    (inside : position ≤ list.length) :
    splice list position position [element] = list.insertIdx position element := by
  induction position generalizing list with
  | zero => simp [splice]
  | succ position rest =>
      cases list with
      | nil => simp at inside
      | cons first list =>
          have shorter := @rest list (by simpa using inside)
          simpa [splice] using shorter

theorem splice_erase (list : List Element) (position : ℕ) :
    splice list position (position + 1) [] = list.eraseIdx position := by
  rw [splice, List.append_nil, List.eraseIdx_eq_take_drop_succ]

end Splices
