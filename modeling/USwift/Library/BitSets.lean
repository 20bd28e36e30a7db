import Mathlib.Algebra.Ring.Nat
import Mathlib.Data.Fintype.Basic
import Mathlib.Data.Finset.SymmDiff
import Mathlib.Data.List.Sort
import Mathlib.Data.Nat.Bits

/-!
# Bit vectors as sets

The set of the indices at which a bit vector has a one. The bitwise operations are
the operations on these sets, and a vector is determined by its set.
-/

namespace BitSets

variable {width : ℕ}

/-- The indices of the ones of a vector. -/
def bits (x : BitVec width) : Finset (Fin width) :=
  Finset.univ.filter fun i => x.getLsbD i = true

@[simp]
theorem mem_bits {x : BitVec width} {i : Fin width} : i ∈ bits x ↔ x.getLsbD i = true := by
  simp [bits]

theorem bits_injective {x y : BitVec width} (same : bits x = bits y) : x = y := by
  apply BitVec.eq_of_getLsbD_eq
  intro i i_lt
  have member : (⟨i, i_lt⟩ : Fin width) ∈ bits x ↔ ⟨i, i_lt⟩ ∈ bits y := by rw [same]
  rw [mem_bits, mem_bits] at member
  exact Bool.eq_iff_iff.mpr member

@[simp]
theorem bits_zero : bits (0 : BitVec width) = ∅ := by
  ext i
  simp

@[simp]
theorem bits_or (x y : BitVec width) : bits (x ||| y) = bits x ∪ bits y := by
  ext i
  simp

@[simp]
theorem bits_and (x y : BitVec width) : bits (x &&& y) = bits x ∩ bits y := by
  ext i
  simp

@[simp]
theorem bits_xor (x y : BitVec width) : bits (x ^^^ y) = symmDiff (bits x) (bits y) := by
  ext i
  rw [mem_bits, BitVec.getLsbD_xor, Finset.mem_symmDiff, mem_bits, mem_bits]
  cases x.getLsbD i <;> cases y.getLsbD i <;> simp

section Ones

/-- The indices of the ones of a vector, in increasing order. -/
def ones (x : BitVec width) : List ℕ :=
  (List.range width).filter fun i => x.getLsbD i

variable {x : BitVec width}

theorem mem_ones {i : ℕ} : i ∈ ones x ↔ x.getLsbD i = true := by
  rw [ones, List.mem_filter, List.mem_range]
  apply and_iff_right_of_imp
  exact BitVec.lt_of_getLsbD

theorem ones_increasing (x : BitVec width) : (ones x).Pairwise (· < ·) :=
  List.pairwise_lt_range.filter _

theorem ones_zero : ones (0 : BitVec width) = [] := by
  simp [ones]

/-- An increasing list is known by its members. -/
theorem eq_of_increasing {first second : List ℕ} (firstOrder : first.Pairwise (· < ·))
    (secondOrder : second.Pairwise (· < ·)) (same : ∀ n, n ∈ first ↔ n ∈ second) :
    first = second := by
  have firstDistinct : first.Nodup := firstOrder.imp fun less => Nat.ne_of_lt less
  have secondDistinct : second.Nodup := secondOrder.imp fun less => Nat.ne_of_lt less
  apply List.Perm.eq_of_pairwise _ firstOrder secondOrder
    ((List.perm_ext_iff_of_nodup firstDistinct secondDistinct).mpr same)
  intro a b _ _ below above
  exact absurd below (Nat.lt_asymm above)

theorem toNat_eq_of_ctz (nonzero : x ≠ 0) :
    x.toNat = 2 ^ (x.ctz.toNat + 1) * (x.toNat / 2 ^ (x.ctz.toNat + 1)) + 2 ^ x.ctz.toNat := by
  have low : x.toNat % 2 ^ (x.ctz.toNat + 1) = 2 ^ x.ctz.toNat := by
    apply Nat.eq_of_testBit_eq
    intro index
    rw [Nat.testBit_mod_two_pow, Nat.testBit_two_pow]
    rcases Nat.lt_trichotomy index x.ctz.toNat with below | same | above
    · have clear := BitVec.getLsbD_false_of_lt_ctz below
      rw [BitVec.getLsbD] at clear
      simp [clear, show x.ctz.toNat ≠ index by omega]
    · have set := BitVec.getLsbD_true_ctz_of_ne_zero nonzero
      rw [BitVec.getLsbD] at set
      simp [same, set]
    · simp [show ¬ index < x.ctz.toNat + 1 by omega, show x.ctz.toNat ≠ index by omega]
  have parts := Nat.div_add_mod x.toNat (2 ^ (x.ctz.toNat + 1))
  rw [low] at parts
  exact parts.symm

/-- Taking one away and keeping the common ones clears the lowest one. -/
theorem getLsbD_and_sub_one (nonzero : x ≠ 0) (i : ℕ) :
    (x &&& (x - 1)).getLsbD i = (x.getLsbD i && decide (i ≠ x.ctz.toNat)) := by
  have parts := toNat_eq_of_ctz nonzero
  have positive : 0 < width := by
    by_contra empty
    have none_ : width = 0 := by omega
    subst none_
    exact nonzero (Subsingleton.elim _ _)
  have one : (1 : BitVec width).toNat = 1 := by
    exact Nat.mod_eq_of_lt (Nat.one_lt_two_pow (by omega))
  have least := Nat.two_pow_pos x.ctz.toNat
  have previous : (x - 1).toNat =
      2 ^ (x.ctz.toNat + 1) * (x.toNat / 2 ^ (x.ctz.toNat + 1)) + (2 ^ x.ctz.toNat - 1) := by
    rw [BitVec.toNat_sub_of_le (BitVec.le_def.mpr (by omega)), one]
    omega
  rw [BitVec.getLsbD_and]
  rcases Nat.lt_trichotomy i x.ctz.toNat with below | same | above
  · have clear := BitVec.getLsbD_false_of_lt_ctz below
    rw [clear, Bool.false_and, Bool.false_and]
  · have cleared : (x - 1).getLsbD i = false := by
      rw [BitVec.getLsbD, previous, Nat.testBit_two_pow_mul_add _ (by rw [Nat.pow_succ]; omega),
        if_pos (by omega), Nat.testBit_two_pow_sub_one, same]
      simp
    rw [← same, cleared, Bool.and_false, same]
    simp
  · have kept : (x - 1).getLsbD i = x.getLsbD i := by
      rw [BitVec.getLsbD, BitVec.getLsbD, previous]
      conv_rhs => rw [parts]
      rw [Nat.testBit_two_pow_mul_add _ (by rw [Nat.pow_succ]; omega),
        Nat.testBit_two_pow_mul_add _ (by rw [Nat.pow_succ]; omega), if_neg (by omega),
        if_neg (by omega)]
    rw [kept, Bool.and_self, decide_eq_true (by omega : i ≠ x.ctz.toNat), Bool.and_true]

/-- The lowest one comes first, and clearing it leaves the others. -/
theorem ones_eq_cons (nonzero : x ≠ 0) : ones x = x.ctz.toNat :: ones (x &&& (x - 1)) := by
  have set := BitVec.getLsbD_true_ctz_of_ne_zero nonzero
  have others {i : ℕ} : i ∈ ones (x &&& (x - 1)) ↔ i ∈ ones x ∧ i ≠ x.ctz.toNat := by
    rw [mem_ones, mem_ones, getLsbD_and_sub_one nonzero, Bool.and_eq_true, decide_eq_true_iff]
  apply eq_of_increasing (ones_increasing x)
  · apply List.Pairwise.cons _ (ones_increasing _)
    intro i inside
    rcases others.mp inside with ⟨held, different⟩
    by_contra notAbove
    have clear := BitVec.getLsbD_false_of_lt_ctz (x := x) (i := i) (by omega)
    rw [mem_ones.mp held] at clear
    cases clear
  · intro i
    rw [List.mem_cons, others]
    by_cases lowest : i = x.ctz.toNat
    · subst lowest
      exact iff_of_true (mem_ones.mpr set) (Or.inl rfl)
    · simp [lowest]

theorem length_ones (x : BitVec width) : (ones x).length = x.cpop.toNat := by
  have counted (n accumulated : ℕ) : x.cpopNatRec n accumulated =
      accumulated + ((List.range n).filter fun i => x.getLsbD i).length := by
    induction n generalizing accumulated with
    | zero => simp
    | succ n step =>
        rw [BitVec.cpopNatRec_succ, step, List.range_succ, List.filter_append,
          List.length_append, List.filter_singleton]
        cases x.getLsbD n with
        | true => simp; omega
        | false => simp
  rw [BitVec.toNat_cpop, counted, Nat.zero_add]
  rfl

end Ones

end BitSets
