import Mathlib.Data.List.Range
import Mathlib.Tactic.Common

/-!
# Copying between regions that may overlap

A memory is a function from places. `transferred` reads a region and writes another one at
once. Transferring the elements of a region one after the other has the same effect when
the order is such that no element is written before it is read: from the front towards a
target in front of the source, from the back towards one behind it, and in any order when
the regions are disjoint.
-/

namespace Copying

universe u

variable {Cell : Type u}

/--
A memory after a region has been read at a source, where reading leaves something behind,
and written at a target.
-/
def transferred (left : Cell → Cell) (target source size : ℕ) (memory : ℕ → Cell) : ℕ → Cell :=
  fun a =>
    if target ≤ a ∧ a < target + size then memory (a - target + source)
    else if source ≤ a ∧ a < source + size then left (memory a)
    else memory a

variable {left : Cell → Cell} {target source size more count : ℕ} {memory : ℕ → Cell} {a : ℕ}

theorem transferred_target (low : target ≤ a) (high : a < target + size) :
    transferred left target source size memory a = memory (a - target + source) := by
  rw [transferred, if_pos ⟨low, high⟩]

theorem transferred_source (apart : a < target ∨ target + size ≤ a) (low : source ≤ a)
    (high : a < source + size) :
    transferred left target source size memory a = left (memory a) := by
  rw [transferred, if_neg (by omega), if_pos ⟨low, high⟩]

theorem transferred_elsewhere (apart : a < target ∨ target + size ≤ a)
    (apart' : a < source ∨ source + size ≤ a) :
    transferred left target source size memory a = memory a := by
  rw [transferred, if_neg (by omega), if_neg (by omega)]

theorem transferred_zero : transferred left target source 0 memory = memory := by
  funext a
  exact transferred_elsewhere (by omega) (by omega)

/-- Both parts of a region, the first of them first. -/
theorem transferred_forward (order : target ≤ source ∨ source + (size + more) ≤ target) :
    transferred left (target + size) (source + size) more
        (transferred left target source size memory) =
      transferred left target source (size + more) memory := by
  funext a
  by_cases later : target + size ≤ a ∧ a < target + size + more
  · rw [transferred_target later.1 later.2, transferred_elsewhere (by omega) (by omega),
      transferred_target (by omega) (by omega)]
    congr 1
    omega
  · by_cases earlier : target ≤ a ∧ a < target + size
    · rw [transferred_elsewhere (by omega) (by omega), transferred_target earlier.1 earlier.2,
        transferred_target (by omega) (by omega)]
    · by_cases vacated : source + size ≤ a ∧ a < source + size + more
      · rw [transferred_source (by omega) vacated.1 vacated.2,
          transferred_elsewhere (by omega) (by omega),
          transferred_source (by omega) (by omega) (by omega)]
      · rw [transferred_elsewhere (by omega) (by omega)]
        by_cases vacated' : source ≤ a ∧ a < source + size
        · rw [transferred_source (by omega) vacated'.1 vacated'.2,
            transferred_source (by omega) (by omega) (by omega)]
        · rw [transferred_elsewhere (by omega) (by omega),
            transferred_elsewhere (by omega) (by omega)]

/-- Both parts of a region, the second of them first. -/
theorem transferred_backward (order : source ≤ target ∨ target + (size + more) ≤ source) :
    transferred left target source size
        (transferred left (target + size) (source + size) more memory) =
      transferred left target source (size + more) memory := by
  funext a
  by_cases earlier : target ≤ a ∧ a < target + size
  · rw [transferred_target earlier.1 earlier.2, transferred_elsewhere (by omega) (by omega),
      transferred_target (by omega) (by omega)]
  · by_cases later : target + size ≤ a ∧ a < target + size + more
    · rw [transferred_elsewhere (by omega) (by omega), transferred_target later.1 later.2,
        transferred_target (by omega) (by omega)]
      congr 1
      omega
    · by_cases vacated : source ≤ a ∧ a < source + size
      · rw [transferred_source (by omega) vacated.1 vacated.2,
          transferred_elsewhere (by omega) (by omega),
          transferred_source (by omega) (by omega) (by omega)]
      · rw [transferred_elsewhere (by omega) (by omega)]
        by_cases vacated' : source + size ≤ a ∧ a < source + size + more
        · rw [transferred_source (by omega) vacated'.1 vacated'.2,
            transferred_source (by omega) (by omega) (by omega)]
        · rw [transferred_elsewhere (by omega) (by omega),
            transferred_elsewhere (by omega) (by omega)]

end Copying
