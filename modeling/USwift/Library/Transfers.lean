import Mathlib.Data.List.Range
import Mathlib.Tactic.Common

/-!
# Elements that are transferred one after the other

A transfer reads the elements of a source in their order and writes each of them to the next
place of a target before it reads another one. Where the two share storage, an element may
have been overwritten when it is read. The transfer writes what the source has in the
beginning if and only if storing those elements leaves every element alone that is still to
be read.
-/

namespace Transfers

universe u v

variable {State : Type u} {Element : Type v}

section Operations

variable (read : State → ℕ → Element) (write : State → ℕ → Element → State) (start : ℕ)
  (state : State)

/-- The state after the transfer of some elements to the places from `start` on. -/
def transferred : ℕ → State
  | 0 => state
  | count + 1 =>
      write (transferred count) (start + count) (read (transferred count) count)

/-- The state after known elements have been written to the places from `start` on. -/
def stored (values : ℕ → Element) : ℕ → State
  | 0 => state
  | count + 1 => write (stored values count) (start + count) (values count)

/-- Storing the first elements of the source does not change the one behind them. -/
def Undisturbed (count : ℕ) : Prop :=
  ∀ t < count, read (stored write start state (read state) t) t = read state t

end Operations

section Reads

variable {read : State → ℕ → Element} {write : State → ℕ → Element → State} {start count : ℕ}
  {state : State}

/-- A transfer stores what it reads on its way. -/
theorem transferred_eq_stored (read : State → ℕ → Element)
    (write : State → ℕ → Element → State) (start count : ℕ) (state : State) :
    transferred read write start state count =
      stored write start state (fun t => read (transferred read write start state t) t) count := by
  induction count with
  | zero => rfl
  | succ count same => rw [transferred, stored, ← same]

theorem stored_congr {values values' : ℕ → Element} (same : ∀ t < count, values t = values' t) :
    stored write start state values count = stored write start state values' count := by
  induction count with
  | zero => rfl
  | succ count shorter =>
      have before := shorter fun t t_lt => same t (Nat.lt_succ_of_lt t_lt)
      rw [stored, stored, before, same count (Nat.lt_succ_self count)]

/-- Without a disturbance, every element is read as it was in the beginning. -/
theorem Undisturbed.read_eq (undisturbed : Undisturbed read write start state count) {t : ℕ}
    (t_lt : t < count) : read (transferred read write start state t) t = read state t := by
  induction t using Nat.strongRecOn with
  | ind t earlier =>
      have same := transferred_eq_stored read write start t state
      rw [stored_congr fun s s_lt => earlier s s_lt (s_lt.trans t_lt)] at same
      rw [same]
      exact undisturbed t t_lt

/-- A transfer reads what the source has in the beginning if and only if nothing is disturbed. -/
theorem reads_iff_undisturbed :
    (∀ t < count, read (transferred read write start state t) t = read state t) ↔
      Undisturbed read write start state count := by
  constructor
  · intro reads t t_lt
    have same := transferred_eq_stored read write start t state
    rw [stored_congr fun s s_lt => reads s (s_lt.trans t_lt)] at same
    rw [← same]
    exact reads t t_lt
  · intro undisturbed t t_lt
    exact undisturbed.read_eq t_lt

end Reads

section Storage

variable {read : State → ℕ → Element} {write : State → ℕ → Element → State} {start count : ℕ}
  {state : State} {values : ℕ → Element} (holds : State → Prop) {place : ℕ → Option ℕ}
  (kept : ∀ {state t element}, holds state → t < count → holds (write state (start + t) element))
  (shares : ∀ {state t j element}, holds state → t < count → j < count →
    read (write state (start + t) element) j =
      if place j = some (start + t) then element else read state j)

include kept

theorem holds_stored (initially : holds state) {t : ℕ} (t_le : t ≤ count) :
    holds (stored write start state values t) := by
  induction t with
  | zero => exact initially
  | succ t before => exact kept (before (Nat.le_of_lt t_le)) t_le

include shares

/-- An element that shares its storage with an earlier place has become the one stored there. -/
theorem read_stored_of_earlier (initially : holds state) {s t j : ℕ} (s_lt : s < t)
    (t_le : t ≤ count) (j_lt : j < count) (earlier : place j = some (start + s)) :
    read (stored write start state values t) j = values s := by
  induction t with
  | zero => omega
  | succ t before =>
      have held : holds (stored write start state values t) :=
        holds_stored holds kept initially (Nat.le_of_lt t_le)
      rw [stored, shares held t_le j_lt, earlier]
      by_cases last : s = t
      · rw [if_pos (by rw [last]), last]
      · rw [if_neg (by rw [Option.some_inj]; omega)]
        exact before (by omega) (Nat.le_of_lt t_le)

theorem read_stored_of_apart (initially : holds state) {t j : ℕ} (t_le : t ≤ count)
    (j_lt : j < count) (apart : ∀ s < t, place j ≠ some (start + s)) :
    read (stored write start state values t) j = read state j := by
  induction t with
  | zero => rfl
  | succ t before =>
      have held : holds (stored write start state values t) :=
        holds_stored holds kept initially (Nat.le_of_lt t_le)
      rw [stored, shares held t_le j_lt, if_neg (apart t (Nat.lt_succ_self t))]
      exact before (Nat.le_of_lt t_le) fun s s_lt => apart s (Nat.lt_succ_of_lt s_lt)

/--
Where every element of the source is stored at one place or at none, nothing is disturbed if
and only if those that share a place with an earlier element are equal to it.
-/
theorem undisturbed_iff (initially : holds state) :
    Undisturbed read write start state count ↔
      ∀ s t, s < t → t < count → place t = some (start + s) → read state s = read state t := by
  constructor
  · intro undisturbed s t s_lt t_lt earlier
    have stays := undisturbed t t_lt
    rw [read_stored_of_earlier holds kept shares initially s_lt t_lt.le t_lt earlier] at stays
    exact stays
  · intro equal t t_lt
    by_cases shared : ∃ s < t, place t = some (start + s)
    · rcases shared with ⟨s, s_lt, earlier⟩
      rw [read_stored_of_earlier holds kept shares initially s_lt t_lt.le t_lt earlier]
      exact equal s t s_lt t_lt earlier
    · push Not at shared
      exact read_stored_of_apart holds kept shares initially t_lt.le t_lt shared

end Storage

end Transfers
