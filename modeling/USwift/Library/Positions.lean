import Mathlib.Algebra.Order.Group.Unbundled.Int
import Mathlib.Logic.Function.Iterate
import Mathlib.Tactic.Linarith
import Mathlib.Tactic.Ring

/-!
# Indices with positions

The indices of a collection stand for the positions from zero up to a count, which is
the position behind the last element. An operation on indices is known by how far it
moves the position, as long as it stays between these bounds, and two operations that
move as far are the same there.
-/

namespace Positions

universe u v

variable {Index : Type u} {Offset : Type v}

/-- Indices that are told apart by their positions. -/
structure Numbered (valid : Index → Prop) (position : Index → ℤ) (count : ℤ) : Prop where
  low : ∀ i, valid i → 0 ≤ position i
  high : ∀ i, valid i → position i ≤ count
  injective : ∀ i j, valid i → valid j → position i = position j → i = j

/-- A step moves every index by a distance, where this leads to a position. -/
def Moves (valid : Index → Prop) (position : Index → ℤ) (count distance : ℤ)
    (step : Index → Index) : Prop :=
  ∀ i, valid i → 0 ≤ position i + distance → position i + distance ≤ count →
    valid (step i) ∧ position (step i) = position i + distance

variable {valid : Index → Prop} {position : Index → ℤ} {count d : ℤ} {step other : Index → Index}

namespace Moves

theorem unique (numbered : Numbered valid position count)
    (moves : Moves valid position count d step) (same : Moves valid position count d other)
    {i : Index} (i_valid : valid i) (low : 0 ≤ position i + d) (high : position i + d ≤ count) :
    step i = other i := by
  rcases moves i i_valid low high with ⟨step_valid, step_position⟩
  rcases same i i_valid low high with ⟨other_valid, other_position⟩
  exact numbered.injective _ _ step_valid other_valid (step_position.trans other_position.symm)

theorem inverse (numbered : Numbered valid position count)
    (moves : Moves valid position count d step) (back : Moves valid position count (-d) other)
    {i : Index} (i_valid : valid i) (low : 0 ≤ position i + d) (high : position i + d ≤ count) :
    other (step i) = i := by
  rcases moves i i_valid low high with ⟨step_valid, step_position⟩
  have i_low := numbered.low i i_valid
  have i_high := numbered.high i i_valid
  rcases back (step i) step_valid (by omega) (by omega) with ⟨other_valid, other_position⟩
  exact numbered.injective _ _ other_valid i_valid (by omega)

/-- Steps in one direction stay between the first and the last index. -/
theorem iterate (numbered : Numbered valid position count)
    (moves : Moves valid position count d step) (steps : ℕ) :
    Moves valid position count (steps * d) step^[steps] := by
  intro i i_valid low high
  have i_low := numbered.low i i_valid
  have i_high := numbered.high i i_valid
  induction steps with
  | zero => simpa using i_valid
  | succ steps earlier =>
      have split : ((steps + 1 : ℕ) : ℤ) * d = steps * d + d := by
        push_cast
        ring
      rw [split] at low high ⊢
      have between : 0 ≤ position i + steps * d ∧ position i + steps * d ≤ count := by
        rcases le_total 0 d with upward | downward
        · have onward : 0 ≤ (steps : ℤ) * d := mul_nonneg (by omega) upward
          constructor <;> omega
        · have onward : (steps : ℤ) * d ≤ 0 := mul_nonpos_of_nonneg_of_nonpos (by omega) downward
          constructor <;> omega
      rcases earlier between.1 between.2 with ⟨there, place⟩
      rw [Function.iterate_succ_apply']
      rcases moves _ there (by omega) (by omega) with ⟨further, further_place⟩
      exact ⟨further, by omega⟩

end Moves

/-- A number of steps, given up at an index that is met before the last one of them. -/
def limited [DecidableEq Index] (step : Index → Index) (limit : Index) : ℕ → Index → Option Index
  | 0, i => some i
  | steps + 1, i => if i = limit then none else limited step limit steps (step i)

theorem limited_eq_none [DecidableEq Index] {limit i : Index} {steps k : ℕ} (earlier : k < steps)
    (met : step^[k] i = limit) : limited step limit steps i = none := by
  induction k generalizing i steps with
  | zero =>
      rcases Nat.exists_eq_add_of_lt earlier with ⟨rest, rfl⟩
      have here : i = limit := met
      rw [Nat.zero_add, limited, if_pos here]
  | succ k further =>
      rcases Nat.exists_eq_add_of_lt earlier with ⟨rest, rfl⟩
      rw [limited]
      split
      · rfl
      · exact further (by omega) met

theorem limited_eq_some [DecidableEq Index] {limit i : Index} {steps : ℕ}
    (missed : ∀ k < steps, step^[k] i ≠ limit) :
    limited step limit steps i = some (step^[steps] i) := by
  induction steps generalizing i with
  | zero => rfl
  | succ steps further =>
      have elsewhere : i ≠ limit := missed 0 (by omega)
      rw [limited, if_neg elsewhere]
      exact further fun k earlier => missed (k + 1) (by omega)

/-- The index operations of a random-access collection agree with each other. -/
structure Consistent (valid : Index → Prop) (position : Index → ℤ) (count : ℤ)
    (amount : Offset → ℤ) (after before : Index → Index) (offsetBy : Index → Offset → Index)
    (distance : Index → Index → Offset) : Prop where
  before_after : ∀ i, valid i → position i < count → before (after i) = i
  after_before : ∀ i, valid i → 0 < position i → after (before i) = i
  forward : ∀ i n (steps : ℕ), valid i → amount n = steps → position i + steps ≤ count →
    offsetBy i n = after^[steps] i
  backward : ∀ i n (steps : ℕ), valid i → amount n = -steps → steps ≤ position i →
    offsetBy i n = before^[steps] i
  amount_distance : ∀ i j, valid i → valid j → amount (distance i j) = position j - position i
  offset_iff : ∀ i j n, valid i → valid j → 0 ≤ position i + amount n →
    position i + amount n ≤ count → (offsetBy i n = j ↔ n = distance i j)

theorem Consistent.of_moves {amount : Offset → ℤ} {after before : Index → Index}
    {offsetBy : Index → Offset → Index} {distance : Index → Index → Offset}
    (numbered : Numbered valid position count) (amounts : Function.Injective amount)
    (afterMoves : Moves valid position count 1 after)
    (beforeMoves : Moves valid position count (-1) before)
    (offsetMoves : ∀ n, Moves valid position count (amount n) fun i => offsetBy i n)
    (measures : ∀ i j, valid i → valid j → amount (distance i j) = position j - position i) :
    Consistent valid position count amount after before offsetBy distance where
  before_after i i_valid inside := by
    have low := numbered.low i i_valid
    exact afterMoves.inverse numbered beforeMoves i_valid (by omega) (by omega)
  after_before i i_valid inside := by
    have high := numbered.high i i_valid
    exact beforeMoves.inverse numbered afterMoves i_valid (by omega) (by omega)
  forward i n steps i_valid n_eq inside := by
    have low := numbered.low i i_valid
    have walked := afterMoves.iterate numbered steps
    rw [mul_one, ← n_eq] at walked
    exact (offsetMoves n).unique numbered walked i_valid (by omega) (by omega)
  backward i n steps i_valid n_eq inside := by
    have high := numbered.high i i_valid
    have walked := beforeMoves.iterate numbered steps
    rw [mul_neg_one, ← n_eq] at walked
    exact (offsetMoves n).unique numbered walked i_valid (by omega) (by omega)
  amount_distance := measures
  offset_iff i j n i_valid j_valid low high := by
    rcases offsetMoves n i i_valid low high with ⟨there, place⟩
    dsimp only at there place
    have apart := measures i j i_valid j_valid
    constructor
    · rintro rfl
      exact amounts (by omega)
    · rintro rfl
      exact numbered.injective _ _ there j_valid (by omega)

end Positions
