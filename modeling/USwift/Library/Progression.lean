import Mathlib.Algebra.Order.Group.Unbundled.Int
import Mathlib.Data.Int.ModEq
import Mathlib.Tactic.Linarith
import Mathlib.Tactic.Ring

/-!
# Bounded arithmetic progressions

The terms of an arithmetic progression of integers that lie before a bound, in the
direction in which the progression runs, and those that lie before it or on it. The
terms before the bound are counted by a division.
-/

namespace Progression

/-- One integer comes before another in the direction of a stride. -/
def Precedes (stride a b : ℤ) : Prop :=
  if 0 < stride then a < b else b < a

instance (stride a b : ℤ) : Decidable (Precedes stride a b) :=
  inferInstanceAs (Decidable (if 0 < stride then a < b else b < a))

def term (start stride : ℤ) (k : ℕ) : ℤ :=
  start + k * stride

/-- A list consists of the terms of a kind, which are the first ones. -/
def Lists (start stride : ℤ) (included : ℤ → Prop) (elements : List ℤ) : Prop :=
  ∃ count : ℕ, elements = (List.range count).map (term start stride) ∧
    ∀ k, k < count ↔ included (term start stride k)

/-- The number of terms that come before a bound. -/
def termsBefore (start stride bound : ℤ) : ℕ :=
  (-(-(if 0 < stride then bound - start else start - bound) / |stride|)).toNat

/-- The bound itself, where it is hit. -/
def boundIf (bound a : ℤ) : List ℤ :=
  if a = bound then [bound] else []

variable {start stride bound : ℤ}

@[simp]
theorem term_zero : term start stride 0 = start := by
  simp [term]

theorem not_precedes_self (a : ℤ) : ¬ Precedes stride a a := by
  simp [Precedes]

theorem lt_termsBefore_iff (nonzero : stride ≠ 0) {k : ℕ} :
    k < termsBefore start stride bound ↔ Precedes stride (term start stride k) bound := by
  have positive : 0 < |stride| := abs_pos.mpr nonzero
  rw [termsBefore, Int.lt_toNat, lt_neg, Int.ediv_lt_iff_lt_mul positive, Precedes, term]
  rcases lt_or_gt_of_ne nonzero with negative | upward
  · rw [if_neg (by omega), if_neg (by omega), abs_of_neg negative, neg_mul_neg]
    omega
  · rw [if_pos upward, if_pos upward, abs_of_pos upward, neg_mul]
    omega

theorem eq_of_lt_iff {m n : ℕ} (same : ∀ k, k < m ↔ k < n) : m = n := by
  apply Nat.le_antisymm
  · by_contra above
    exact Nat.lt_irrefl n ((same n).mp (by omega))
  · by_contra above
    exact Nat.lt_irrefl m ((same m).mpr (by omega))

theorem lists_of_lt_iff {included : ℤ → Prop} {count : ℕ}
    (counts : ∀ k, k < count ↔ included (term start stride k)) {elements : List ℤ} :
    Lists start stride included elements ↔
      elements = (List.range count).map (term start stride) := by
  constructor
  · rintro ⟨other, rfl, otherCounts⟩
    rw [eq_of_lt_iff fun k => (otherCounts k).trans (counts k).symm]
  · intro listed
    exact ⟨count, listed, counts⟩

theorem Lists.mem_iff {included : ℤ → Prop} {elements : List ℤ}
    (lists : Lists start stride included elements) {a : ℤ} :
    a ∈ elements ↔ ∃ k, term start stride k = a ∧ included a := by
  rcases lists with ⟨count, rfl, counts⟩
  simp only [List.mem_map, List.mem_range, counts]
  constructor
  · rintro ⟨k, holds, rfl⟩
    exact ⟨k, rfl, holds⟩
  · rintro ⟨k, rfl, holds⟩
    exact ⟨k, holds, rfl⟩

theorem lists_before_iff (nonzero : stride ≠ 0) {elements : List ℤ} :
    Lists start stride (Precedes stride · bound) elements ↔
      elements = (List.range (termsBefore start stride bound)).map (term start stride) :=
  lists_of_lt_iff fun _ => lt_termsBefore_iff nonzero

theorem precedes_of_precedes_term (nonzero : stride ≠ 0) {j k : ℕ} (earlier : j < k)
    {a : ℤ} (past : ¬ Precedes stride (term start stride j) a) :
    Precedes stride a (term start stride k) := by
  have between : (j : ℤ) + 1 ≤ k := by omega
  simp only [Precedes, term] at *
  split at past
  · rw [if_pos ‹_›]
    nlinarith
  · rw [if_neg ‹_›]
    have negative : stride < 0 := by omega
    nlinarith

theorem Precedes.asymm {a b : ℤ} (before : Precedes stride a b) : ¬ Precedes stride b a := by
  by_cases upward : 0 < stride
  · simp only [Precedes, if_pos upward] at *
    omega
  · simp only [Precedes, if_neg upward] at *
    omega

theorem not_precedes_iff_eq {a b : ℤ} (notBefore : ¬ Precedes stride a b) :
    ¬ Precedes stride b a ↔ a = b := by
  by_cases upward : 0 < stride
  · simp only [Precedes, if_pos upward] at *
    omega
  · simp only [Precedes, if_neg upward] at *
    omega

theorem lists_through_iff (nonzero : stride ≠ 0) {elements : List ℤ} :
    Lists start stride (fun a => ¬ Precedes stride bound a) elements ↔
      elements = (List.range (termsBefore start stride bound)).map (term start stride) ++
        boundIf bound (term start stride (termsBefore start stride bound)) := by
  have first_past : ¬ Precedes stride (term start stride (termsBefore start stride bound)) bound :=
    (lt_termsBefore_iff nonzero).not.mp (Nat.lt_irrefl _)
  generalize before : termsBefore start stride bound = count at first_past ⊢
  have counts : ∀ k, k < count + (boundIf bound (term start stride count)).length ↔
      ¬ Precedes stride bound (term start stride k) := by
    intro k
    have atMost : (boundIf bound (term start stride count)).length ≤ 1 := by
      rw [boundIf]
      split <;> simp
    rcases lt_trichotomy k count with earlier | rfl | later
    · refine iff_of_true (by omega) ?_
      rw [← before, lt_termsBefore_iff nonzero] at earlier
      exact earlier.asymm
    · rw [not_precedes_iff_eq first_past, boundIf]
      split <;> simp_all
    · refine iff_of_false (by omega) (not_not.mpr ?_)
      exact precedes_of_precedes_term nonzero later first_past
  rw [lists_of_lt_iff counts, List.range_add, List.map_append]
  have last : ((List.range (boundIf bound (term start stride count)).length).map
      (count + ·)).map (term start stride) = boundIf bound (term start stride count) := by
    rw [boundIf]
    split <;> simp_all
  rw [last]

theorem append_eq_append_iff_of_holds {Element : Type*} {holds : Element → Prop}
    {front front' back back' : List Element} (front_holds : ∀ x ∈ front, holds x)
    (front'_holds : ∀ x ∈ front', holds x) (back_fails : ∀ x ∈ back, ¬ holds x)
    (back'_fails : ∀ x ∈ back', ¬ holds x) :
    front ++ back = front' ++ back' ↔ front = front' ∧ back = back' := by
  classical
  constructor
  · intro same
    have kept (list : List Element) (all : ∀ x ∈ list, holds x) :
        list.filter (fun x => decide (holds x)) = list :=
      List.filter_eq_self.mpr fun x member => decide_eq_true (all x member)
    have dropped (list : List Element) (none : ∀ x ∈ list, ¬ holds x) :
        list.filter (fun x => decide (holds x)) = [] :=
      List.filter_eq_nil_iff.mpr fun x member => by simpa using none x member
    have fronts := congrArg (List.filter fun x => decide (holds x)) same
    rw [List.filter_append, List.filter_append, kept front front_holds, kept front' front'_holds,
      dropped back back_fails, dropped back' back'_fails, List.append_nil, List.append_nil]
      at fronts
    rw [fronts, List.append_cancel_left_eq] at same
    exact ⟨fronts, same⟩
  · rintro ⟨rfl, rfl⟩
    rfl

/--
A sequence that is read while a property holds gives the values of another one, with
what each adds behind its last value, exactly when the two sequences agree that far.
-/
theorem exists_stop_iff {Element : Type*} {holds : Element → Prop} {actual expected : ℕ → Element}
    {tail : Element → List Element} {bound : ℕ} (tail_fails : ∀ a, ∀ x ∈ tail a, ¬ holds x)
    (inside : ∀ k < bound, holds (expected k)) :
    (∃ count, (∀ k < count, holds (actual k)) ∧ ¬ holds (actual count) ∧
        (List.range count).map actual ++ tail (actual count) =
          (List.range bound).map expected ++ tail (expected bound)) ↔
      (∀ k < bound, actual k = expected k) ∧ ¬ holds (actual bound) ∧
        tail (actual bound) = tail (expected bound) := by
  have expected_holds : ∀ x ∈ (List.range bound).map expected, holds x := by
    simpa using inside
  have maps_eq : (List.range bound).map actual = (List.range bound).map expected ↔
      ∀ k < bound, actual k = expected k := by
    simp
  constructor
  · rintro ⟨count, before, stopped, same⟩
    have actual_holds : ∀ x ∈ (List.range count).map actual, holds x := by
      simpa using before
    rw [append_eq_append_iff_of_holds actual_holds expected_holds (tail_fails _) (tail_fails _)]
      at same
    have lengths : count = bound := by simpa using congrArg List.length same.1
    rw [lengths] at same stopped
    exact ⟨maps_eq.mp same.1, stopped, same.2⟩
  · rintro ⟨agree, stopped, tails⟩
    refine ⟨bound, fun k k_lt => agree k k_lt ▸ inside k k_lt, stopped, ?_⟩
    rw [maps_eq.mpr agree, tails]

theorem exists_stop_iff_of_no_tail {Element : Type*} {holds : Element → Prop}
    {actual expected : ℕ → Element} {bound : ℕ} (inside : ∀ k < bound, holds (expected k)) :
    (∃ count, (∀ k < count, holds (actual k)) ∧ ¬ holds (actual count) ∧
        (List.range count).map actual = (List.range bound).map expected) ↔
      (∀ k < bound, actual k = expected k) ∧ ¬ holds (actual bound) := by
  have no_tail : ∀ a : Element, ∀ x ∈ ([] : List Element), ¬ holds x := by simp
  simpa using @exists_stop_iff _ holds actual expected (fun _ => []) bound no_tail inside

theorem boundIf_fails (a : ℤ) : ∀ x ∈ boundIf bound a, ¬ Precedes stride x bound := by
  intro x member
  rw [boundIf] at member
  split at member
  · rw [List.mem_singleton.mp member]
    exact not_precedes_self bound
  · simp at member

theorem boundIf_eq_iff {a b : ℤ} : boundIf bound a = boundIf bound b ↔ (a = bound ↔ b = bound) := by
  rw [boundIf, boundIf]
  split <;> split <;> simp_all

theorem term_between {k : ℕ} (before : Precedes stride (term start stride k) bound) :
    min start bound ≤ term start stride k ∧ term start stride k ≤ max start bound := by
  have steps : (0 : ℤ) ≤ k := by omega
  simp only [Precedes, term] at *
  split at before
  · have onward : 0 ≤ (k : ℤ) * stride := mul_nonneg steps (by omega)
    omega
  · have onward : (k : ℤ) * stride ≤ 0 := mul_nonpos_of_nonneg_of_nonpos steps (by omega)
    omega

end Progression
