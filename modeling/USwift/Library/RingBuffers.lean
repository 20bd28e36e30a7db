import Mathlib.Data.List.DropRight
import Mathlib.Data.List.Rotate

/-!
# Ring buffers

A full ring buffer is a list of cells with the position of the oldest one. Read from
there, its contents are the last items that were put in.
-/

namespace RingBuffers

variable {Item : Type*}

theorem rotate_set (cells : List Item) {oldest : ℕ} (inside : oldest < cells.length) (item : Item) :
    (cells.set oldest item).rotate (oldest + 1) = (cells.rotate oldest).tail ++ [item] := by
  have split : cells = cells.take oldest ++ cells[oldest] :: cells.drop (oldest + 1) := by
    rw [← List.drop_eq_getElem_cons inside, List.take_append_drop]
  have front_length : (cells.take oldest).length = oldest := List.length_take_of_le inside.le
  generalize cells.take oldest = front at split front_length
  generalize cells.drop (oldest + 1) = back at split
  generalize cells[oldest] = old at split
  rw [split, ← front_length, List.set_append_right _ _ le_rfl, Nat.sub_self, List.set_cons_zero,
    List.rotate_append_length_eq, List.cons_append, List.tail_cons]
  have shifted : (front ++ item :: back).rotate (front.length + 1) =
      ((front ++ [item]) ++ back).rotate (front ++ [item]).length := by simp
  rw [shifted, List.rotate_append_length_eq, List.append_assoc]

theorem rtake_append_singleton {items : List Item} {size : ℕ} (positive : 0 < size)
    (full : size ≤ items.length) (item : Item) :
    (items ++ [item]).rtake size = (items.rtake size).tail ++ [item] := by
  have later : items.length + 1 - size = items.length - size + 1 := by omega
  rw [List.rtake, List.rtake, List.length_append, List.length_singleton, later,
    List.drop_append_of_le_length (by omega), List.tail_drop]

theorem length_rtake {items : List Item} {size : ℕ} (enough : size ≤ items.length) :
    (items.rtake size).length = size := by
  rw [List.rtake, List.length_drop]
  omega

theorem rtake_of_length_le {items : List Item} {size : ℕ} (short : items.length ≤ size) :
    items.rtake size = items := by
  rw [List.rtake, Nat.sub_eq_zero_of_le short, List.drop_zero]

end RingBuffers
