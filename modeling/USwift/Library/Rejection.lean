import Mathlib.Data.Set.Card
import Mathlib.Order.Interval.Finset.Nat
import Mathlib.Data.BitVec
import Mathlib.Algebra.Order.Floor.Div

/-!
# Drawing below a bound by multiplication

A number `x` below `size` is taken to the bound `bound` by the upper part of `x * bound`
over `size`. Some results then have one number more than others. Rejecting the numbers
whose lower part is less than `size % bound` leaves each result with as many.
-/

namespace Rejection

variable {size bound : ℕ}

/-- A number that gives its result one more than the others have. -/
def Rejected (size bound x : ℕ) : Prop :=
  x * bound % size < size % bound

instance (size bound x : ℕ) : Decidable (Rejected size bound x) :=
  inferInstanceAs (Decidable (_ < _))

theorem outcome_lt {x : ℕ} (inside : x < size) (positive : 0 < bound) :
    x * bound / size < bound := by
  apply Nat.div_lt_of_lt_mul
  exact Nat.mul_lt_mul_of_pos_right inside positive

/-- The multiples of a number in an interval whose length is a multiple of it. -/
theorem multiples_iff (positive : 0 < bound) (start count x : ℕ) :
    (start ≤ x * bound ∧ x * bound < start + count * bound) ↔
      start ⌈/⌉ bound ≤ x ∧ x < start ⌈/⌉ bound + count := by
  have above (y : ℕ) : start ≤ y * bound ↔ start ⌈/⌉ bound ≤ y := by
    rw [ceilDiv_le_iff_le_mul positive, Nat.mul_comm]
  rw [above]
  apply and_congr_right
  intro reached
  by_cases late : count ≤ x
  · rcases Nat.exists_eq_add_of_le late with ⟨earlier, rfl⟩
    have shifted := (above earlier).not
    rw [Nat.add_mul]
    omega
  · have below : x * bound < count * bound := Nat.mul_lt_mul_of_pos_right (by omega) positive
    omega

/-- The multiples that lead to a result without being rejected fill such an interval. -/
theorem accepted_iff {x result : ℕ} (below : result < bound) :
    (x < size ∧ ¬ Rejected size bound x ∧ x * bound / size = result) ↔
      result * size + size % bound ≤ x * bound ∧
        x * bound < result * size + size % bound + size / bound * bound := by
  have whole := Nat.div_add_mod size bound
  rw [Nat.mul_comm] at whole
  have parts := Nat.div_add_mod (x * bound) size
  rw [Nat.mul_comm] at parts
  rw [Rejected, not_lt]
  constructor
  · rintro ⟨inside, accepted, rfl⟩
    have lower := Nat.mod_lt (x * bound) (by omega : 0 < size)
    omega
  · rintro ⟨low, high⟩
    have next : (result + 1) * size = result * size + size := Nat.succ_mul result size
    have last : (result + 1) * size ≤ bound * size := Nat.mul_le_mul_right size below
    have outcome : x * bound / size = result :=
      Nat.div_eq_of_lt_le (by omega) (by omega)
    have inside : x < size := by
      apply Nat.lt_of_mul_lt_mul_right (a := bound)
      rw [Nat.mul_comm size]
      omega
    rw [outcome] at parts
    exact ⟨inside, by omega, outcome⟩

/-- Every result comes from as many numbers as the others. -/
theorem ncard_accepted (positive : 0 < bound) {result : ℕ} (below : result < bound) :
    {x : ℕ | x < size ∧ ¬ Rejected size bound x ∧ x * bound / size = result}.ncard =
      size / bound := by
  have interval : {x : ℕ | x < size ∧ ¬ Rejected size bound x ∧ x * bound / size = result} =
      Finset.Ico ((result * size + size % bound) ⌈/⌉ bound)
        ((result * size + size % bound) ⌈/⌉ bound + size / bound) := by
    ext x
    rw [Finset.coe_Ico, Set.mem_Ico, ← multiples_iff positive, ← accepted_iff below]
    rfl
  rw [interval, Set.ncard_coe_finset, Nat.card_Ico, Nat.add_sub_cancel_left]

section Words

variable {width : ℕ}

theorem ncard_words (property : ℕ → Prop) :
    {x : BitVec width | property x.toNat}.ncard = {n | n < 2 ^ width ∧ property n}.ncard := by
  have injective : Function.Injective (BitVec.toNat : BitVec width → ℕ) :=
    fun x y same => BitVec.eq_of_toNat_eq same
  rw [← Set.ncard_image_of_injective _ injective]
  congr 1
  ext n
  constructor
  · rintro ⟨x, holds, rfl⟩
    exact ⟨x.isLt, holds⟩
  · rintro ⟨inside, holds⟩
    have same : (BitVec.ofNat width n).toNat = n := by
      rw [BitVec.toNat_ofNat, Nat.mod_eq_of_lt inside]
    refine ⟨BitVec.ofNat width n, ?_, same⟩
    rw [← same] at holds
    exact holds

/-- Cut off to fewer bits, equally likely words stay so. -/
theorem ncard_setWidth {wide : ℕ} (narrower : width ≤ wide) (x : BitVec width) :
    {bits : BitVec wide | bits.setWidth width = x}.ncard = 2 ^ (wide - width) := by
  have cut (bits : BitVec wide) : bits.setWidth width = x ↔ bits.toNat % 2 ^ width = x.toNat := by
    rw [← BitVec.toNat_inj, BitVec.toNat_setWidth]
  have pieces : 2 ^ wide = 2 ^ (wide - width) * 2 ^ width := by
    rw [← pow_add, Nat.sub_add_cancel narrower]
  have fibre : {n | n < 2 ^ wide ∧ n % 2 ^ width = x.toNat} =
      (Finset.range (2 ^ (wide - width))).image fun upper => upper * 2 ^ width + x.toNat := by
    ext n
    simp only [Finset.coe_image, Finset.coe_range, Set.mem_image, Set.mem_Iio]
    constructor
    · rintro ⟨inside, lower⟩
      refine ⟨n / 2 ^ width, ?_, ?_⟩
      · apply Nat.div_lt_of_lt_mul
        rwa [Nat.mul_comm, ← pieces]
      · rw [← lower, Nat.mul_comm, Nat.div_add_mod]
    · rintro ⟨upper, below, rfl⟩
      have whole : (upper + 1) * 2 ^ width ≤ 2 ^ wide := by
        rw [pieces]
        exact Nat.mul_le_mul_right _ below
      rw [Nat.succ_mul] at whole
      have inside := x.isLt
      refine ⟨by omega, ?_⟩
      rw [Nat.mul_add_mod', Nat.mod_eq_of_lt inside]
  simp only [cut]
  rw [ncard_words fun n => n % 2 ^ width = x.toNat, fibre, Set.ncard_coe_finset,
    Finset.card_image_of_injective, Finset.card_range]
  intro first second same
  exact Nat.mul_right_cancel (Nat.two_pow_pos width) (Nat.add_right_cancel same)

theorem append_bijective :
    Function.Bijective fun words : BitVec width × BitVec width => words.2 ++ words.1 := by
  constructor
  · rintro ⟨low, high⟩ ⟨low', high'⟩ same
    have lows := congrArg (BitVec.extractLsb' 0 width) same
    have highs := congrArg (BitVec.extractLsb' width width) same
    simp only [BitVec.extractLsb'_append_eq_right] at lows
    simp only [BitVec.extractLsb'_append_eq_left] at highs
    rw [lows, highs]
  · intro bits
    exact ⟨(bits.extractLsb' 0 width, bits.extractLsb' width width),
      BitVec.extractLsb'_append_extractLsb'⟩

/-- Two words are as likely as a word of twice the width. -/
theorem ncard_append (property : BitVec (width + width) → Prop) :
    {words : BitVec width × BitVec width | property (words.2 ++ words.1)}.ncard =
      {bits | property bits}.ncard :=
  Set.ncard_preimage_of_injective_subset_range append_bijective.1
    (append_bijective.2.range_eq ▸ Set.subset_univ _)

end Words

end Rejection
