import Mathlib.Tactic.Ring
import USwift.Library.TwosComplement

/-!
# Integers of twice a width

A product of two bit vectors fits a vector of twice the width, and so does the integer
that two halves stand for. The halves of the product and the quotient of the joined
halves are read at the width again, where they fit it.
-/

namespace DoubleWidth

open TwosComplement

variable {size lower target : ℕ}

/-- Two halves joined, the upper one extended as its sign asks. -/
def joined (signed : Bool) (target : ℕ) (high : BitVec size) (low : BitVec lower) :
    BitVec target :=
  extend signed target high <<< size ||| low.setWidth target

theorem two_pow_double (double : target = 2 * size) : (2 : ℤ) ^ target = 2 ^ size * 2 ^ size := by
  rw [double, two_mul, pow_add]

theorem two_pow_double_half (double : target = 2 * size) (positive : 0 < size) :
    (2 : ℤ) ^ (target - 1) = 2 ^ (size - 1) * 2 ^ size := by
  rw [← pow_add]
  congr 1
  omega

theorem mul_two_pow_bounds {signed : Bool} {a b : ℤ} (double : target = 2 * size)
    (positive : 0 < size) (low : minimum signed size ≤ a) (high : a ≤ maximum signed size)
    (nonnegative : 0 ≤ b) (below : b < 2 ^ size) :
    minimum signed target ≤ a * 2 ^ size + b ∧ a * 2 ^ size + b ≤ maximum signed target := by
  have modulus : (0 : ℤ) < 2 ^ size := by positivity
  have whole := two_pow_double double
  have half := two_pow_double_half double positive
  cases signed with
  | true =>
      simp only [minimum, maximum, if_true] at *
      rw [half]
      constructor <;> nlinarith
  | false =>
      simp only [minimum, maximum, Bool.false_eq_true, if_false] at *
      rw [whole]
      constructor <;> nlinarith

/-- The joined halves are read as the integer that they stand for. -/
theorem value_joined (signed : Bool) (double : target = 2 * size) (positive : 0 < size)
    (high : BitVec size) (low : BitVec lower) (same : size = lower) :
    value signed (joined signed target high low) = value signed high * 2 ^ size + low.toNat := by
  subst same
  have apart : extend signed target high <<< size &&& low.setWidth target =
      BitVec.ofNat target 0 := by
    apply BitVec.eq_of_getLsbD_eq
    intro index _
    rw [BitVec.getLsbD_and, BitVec.getLsbD_shiftLeft, BitVec.getLsbD_setWidth]
    by_cases inside : index < size
    · simp [inside]
    · simp [BitVec.getLsbD_of_ge low index (by omega)]
  have upper : value signed (extend signed target high <<< size) ≡ value signed high * 2 ^ size
      [ZMOD 2 ^ target] :=
    (value_shiftLeft_modEq signed _ size).trans
      ((value_extend_modEq signed signed target high).mul_right _)
  have lower : value signed (low.setWidth target) ≡ low.toNat [ZMOD 2 ^ target] :=
    value_extend_modEq false signed target low
  have congruent := (value_add_modEq signed (extend signed target high <<< size)
    (low.setWidth target)).trans (upper.add lower)
  have below : (low.toNat : ℤ) < 2 ^ size := by exact_mod_cast low.isLt
  have bounds := mul_two_pow_bounds double positive (minimum_le_value signed high)
    (value_le_maximum signed high) (Int.natCast_nonneg low.toNat) below
  rw [joined, ← BitVec.add_eq_or_of_and_eq_zero _ _ apart]
  exact eq_of_modEq_of_bounds (by omega) congruent (minimum_le_value _ _) (value_le_maximum _ _)
    bounds.1 bounds.2

theorem mul_bounds {signed : Bool} {a b : ℤ} (double : target = 2 * size) (positive : 0 < size)
    (a_low : minimum signed size ≤ a) (a_high : a ≤ maximum signed size)
    (b_low : minimum signed size ≤ b) (b_high : b ≤ maximum signed size) :
    minimum signed target ≤ a * b ∧ a * b ≤ maximum signed target := by
  have half_pos : (0 : ℤ) < 2 ^ (size - 1) := by positivity
  cases signed with
  | true =>
      have half : (2 : ℤ) ^ (target - 1) = 2 * (2 ^ (size - 1) * 2 ^ (size - 1)) := by
        rw [← pow_add, ← pow_succ']
        congr 1
        omega
      simp only [minimum, maximum, if_true] at *
      rw [half]
      constructor <;> nlinarith
  | false =>
      have whole : (2 : ℤ) ^ target = 2 ^ size * 2 ^ size := by rw [double, two_mul, pow_add]
      simp only [minimum, maximum, Bool.false_eq_true, if_false] at *
      rw [whole]
      constructor <;> nlinarith

/-- The product of two widened vectors is the product of their integers. -/
theorem value_mul_extend (signed : Bool) (double : target = 2 * size) (positive : 0 < size)
    (x y : BitVec size) :
    value signed (extend signed target x * extend signed target y) =
      value signed x * value signed y := by
  have congruent := (value_mul_modEq signed (extend signed target x) (extend signed target y)).trans
    ((value_extend_modEq signed signed target x).mul (value_extend_modEq signed signed target y))
  have bounds := mul_bounds double positive (minimum_le_value signed x)
    (value_le_maximum signed x) (minimum_le_value signed y) (value_le_maximum signed y)
  exact eq_of_modEq_of_bounds (by omega) congruent (minimum_le_value _ _) (value_le_maximum _ _)
    bounds.1 bounds.2

/-- The lower half of a vector is its integer modulo the width. -/
theorem toNat_lower {signed : Bool} (double : target = 2 * size) (same : size = lower)
    {x : BitVec target} {a : ℤ} (read : value signed x = a) :
    ((x.setWidth lower).toNat : ℤ) = a % 2 ^ size := by
  subst same
  have stored : (x.toNat : ℤ) ≡ a [ZMOD 2 ^ size] := by
    rw [← read]
    exact (value_modEq_toNat signed x).symm.of_dvd (pow_dvd_pow 2 (by omega))
  rw [BitVec.toNat_setWidth]
  push_cast
  exact stored

/-- Quotients of congruent integers are congruent for what is left of the modulus. -/
theorem ediv_modEq (double : target = 2 * size) {a b : ℤ} (congruent : b ≡ a [ZMOD 2 ^ target]) :
    b / 2 ^ size ≡ a / 2 ^ size [ZMOD 2 ^ size] := by
  have modulus : (2 : ℤ) ^ size ≠ 0 := by positivity
  rcases congruent.dvd with ⟨multiple, difference⟩
  have split : b = a + 2 ^ size * (2 ^ size * -multiple) := by
    rw [double, two_mul, pow_add] at difference
    linarith
  rw [split, Int.add_mul_ediv_left _ _ modulus]
  exact Int.modEq_iff_dvd.mpr ⟨multiple, by ring⟩

theorem ediv_bounds {signed : Bool} {a : ℤ} (double : target = 2 * size) (positive : 0 < size)
    (low : minimum signed target ≤ a) (high : a ≤ maximum signed target) :
    minimum signed size ≤ a / 2 ^ size ∧ a / 2 ^ size ≤ maximum signed size := by
  have modulus : (0 : ℤ) < 2 ^ size := by positivity
  have whole := two_pow_double double
  have half := two_pow_double_half double positive
  have below (b : ℤ) : a / 2 ^ size ≤ b ↔ a < (b + 1) * 2 ^ size := by
    rw [← Int.lt_add_one_iff, Int.ediv_lt_iff_lt_mul modulus]
  rw [Int.le_ediv_iff_mul_le modulus, below]
  cases signed with
  | true =>
      simp only [minimum, maximum, if_true] at *
      constructor <;> linarith
  | false =>
      simp only [minimum, maximum, Bool.false_eq_true, if_false] at *
      constructor <;> linarith

/-- Its upper half is the quotient, even where the shift repeats a sign that is none. -/
theorem value_upper_half {signed : Bool} (double : target = 2 * size) (positive : 0 < size)
    {x : BitVec target} {a : ℤ} (read : value signed x = a) :
    value signed ((x.sshiftRight size).setWidth size) = a / 2 ^ size := by
  have signedRead : value true x ≡ a [ZMOD 2 ^ target] := by
    rw [← read]
    exact (value_modEq_toNat true x).trans (value_modEq_toNat signed x).symm
  have shift : value true (x.sshiftRight size) = value true x / 2 ^ size :=
    value_shiftRight true x size
  have congruent : value signed ((x.sshiftRight size).setWidth size) ≡ a / 2 ^ size
      [ZMOD 2 ^ size] :=
    calc value signed ((x.sshiftRight size).setWidth size)
        ≡ (x.sshiftRight size).toNat [ZMOD 2 ^ size] :=
          value_extend_modEq false signed size (x.sshiftRight size)
      _ ≡ value true (x.sshiftRight size) [ZMOD 2 ^ size] :=
          (value_modEq_toNat true _).symm.of_dvd (pow_dvd_pow 2 (by omega))
      _ ≡ a / 2 ^ size [ZMOD 2 ^ size] := by
          rw [shift]
          exact ediv_modEq double signedRead
  have low := minimum_le_value signed x
  have high := value_le_maximum signed x
  rw [read] at low high
  have bounds := ediv_bounds double positive low high
  exact eq_of_modEq_of_bounds positive congruent (minimum_le_value _ _) (value_le_maximum _ _)
    bounds.1 bounds.2

/-- A vector whose integer fits the half of its width is read alike there. -/
theorem value_setWidth_of_bounds {signed : Bool} (positive : 0 < size) (narrow : size ≤ target)
    {x : BitVec target} (low : minimum signed size ≤ value signed x)
    (high : value signed x ≤ maximum signed size) :
    value signed (x.setWidth size) = value signed x :=
  eq_of_modEq_of_bounds positive
    ((value_extend_modEq false signed size x).trans
      ((value_modEq_toNat signed x).symm.of_dvd (pow_dvd_pow 2 narrow)))
    (minimum_le_value _ _) (value_le_maximum _ _) low high

section Division

variable {signed : Bool} {lhs rhs : BitVec target} {a d : ℤ} (narrow : size < target)
  (positive : 0 < size) (lhs_eq : value signed lhs = a) (rhs_eq : value signed rhs = d)

theorem ne_zero_of_value (rhs_eq : value signed rhs = d) (nonzero : d ≠ 0) : rhs ≠ 0 := by
  rintro rfl
  exact nonzero (rhs_eq.symm.trans (by cases signed <;> simp [value]))

include narrow lhs_eq rhs_eq

/-- A quotient that fits the narrower width is not the one integer beyond the wider one. -/
theorem not_overflow_of_fits (high : a.tdiv d ≤ maximum signed size) :
    ¬ (signed = true ∧ lhs = BitVec.intMin target ∧ rhs = -1) := by
  rintro ⟨rfl, rfl, rfl⟩
  have least : value true (BitVec.intMin target) = -2 ^ (target - 1) :=
    BitVec.toInt_intMin_of_pos (by omega)
  have minusOne : value true (-BitVec.ofNat target 1) = -1 := by
    rw [value, if_pos rfl, BitVec.neg_one_eq_allOnes, BitVec.toInt_allOnes, if_pos (by omega)]
  have wider := maximum_mono true narrow.le
  rw [← lhs_eq, ← rhs_eq, least] at high
  rw [show value true (-1 : BitVec target) = -1 from minusOne, Int.neg_tdiv_neg, Int.tdiv_one]
    at high
  simp only [maximum, if_true] at high wider
  omega

include positive

theorem value_quotient_setWidth (low : minimum signed size ≤ a.tdiv d)
    (high : a.tdiv d ≤ maximum signed size) :
    value signed ((quotient signed lhs rhs).setWidth size) = a.tdiv d := by
  have divided := value_quotient (not_overflow_of_fits narrow lhs_eq rhs_eq high)
  rw [lhs_eq, rhs_eq] at divided
  rw [value_setWidth_of_bounds positive narrow.le, divided] <;> rwa [divided]

/-- A remainder fits where its divisor does. -/
theorem value_remainder_setWidth (nonzero : d ≠ 0) (low : minimum signed size ≤ d)
    (high : d ≤ maximum signed size) :
    value signed ((remainder signed lhs rhs).setWidth size) = a.tmod d := by
  have smaller : (a.tmod d).natAbs < d.natAbs := by
    rw [Int.natAbs_tmod]
    exact Nat.mod_lt _ (Int.natAbs_pos.mpr nonzero)
  have bounds : minimum signed size ≤ a.tmod d ∧ a.tmod d ≤ maximum signed size := by
    cases signed with
    | true =>
        simp only [minimum, maximum, if_true] at *
        omega
    | false =>
        have dividend : 0 ≤ a := lhs_eq ▸ value_nonneg lhs
        have nonnegative := Int.tmod_nonneg d dividend
        simp only [minimum, maximum, Bool.false_eq_true, if_false] at *
        omega
  have reduced := value_remainder signed lhs rhs
  rw [lhs_eq, rhs_eq] at reduced
  rw [value_setWidth_of_bounds positive narrow.le, reduced]
  · rw [reduced]
    exact bounds.1
  · rw [reduced]
    exact bounds.2

end Division

end DoubleWidth
