import Mathlib.Data.Int.ModEq
import Mathlib.Tactic.Linarith
import Mathlib.Tactic.Positivity
import Mathlib.Tactic.Zify

/-!
# Two's complement readings of bit vectors

A bit vector denotes an integer once it is known whether it is signed. This
file relates that reading to the extension of the vector to another width and
to the bits it shows there. Nothing here depends on a particular family of
machine integers: the width and the signedness are parameters.
-/

namespace TwosComplement

variable {width : ℕ}

/-- The integer a bit vector denotes under a given signedness. -/
def value (signed : Bool) (x : BitVec width) : ℤ :=
  if signed then x.toInt else x.toNat

/-- Sign or zero extension to a width, which truncates when the width is smaller. -/
def extend (signed : Bool) (target : ℕ) (x : BitVec width) : BitVec target :=
  if signed then x.signExtend target else x.setWidth target

/-- The bits of the unbounded two's complement expansion. -/
def bit (signed : Bool) (x : BitVec width) (index : ℕ) : Bool :=
  if index < width then x.getLsbD index else signed && x.msb

theorem getLsbD_extend (signed : Bool) (target : ℕ) (x : BitVec width) (index : ℕ) :
    (extend signed target x).getLsbD index =
      (decide (index < target) && bit signed x index) := by
  cases signed with
  | true => simp [extend, bit, BitVec.getLsbD_signExtend]
  | false =>
      simp only [extend, bit, Bool.false_eq_true, if_false, BitVec.getLsbD_setWidth,
        Bool.false_and]
      by_cases inside : index < width
      · simp [inside]
      · simp [inside, BitVec.getLsbD_of_ge x index (by omega)]

theorem eq_extend_of_bits {signed : Bool} {target : ℕ} {x : BitVec width}
    {result : BitVec target}
    (bits : ∀ index < target, result.getLsbD index = bit signed x index) :
    result = extend signed target x := by
  apply BitVec.eq_of_getLsbD_eq
  intro index index_lt
  rw [bits index index_lt, getLsbD_extend]
  simp [index_lt]

@[simp]
theorem extend_self (signed : Bool) (x : BitVec width) : extend signed width x = x := by
  cases signed <;> simp [extend]

theorem setWidth_extend {signed : Bool} {middle target : ℕ} (x : BitVec width)
    (narrower : target ≤ middle) :
    (extend signed middle x).setWidth target = extend signed target x := by
  apply eq_extend_of_bits
  intro index index_lt
  rw [BitVec.getLsbD_setWidth, getLsbD_extend]
  simp [index_lt, show index < middle by omega]

theorem extend_eq_ofInt (signed : Bool) (target : ℕ) (x : BitVec width) :
    extend signed target x = BitVec.ofInt target (value signed x) := by
  cases signed with
  | true => simp [extend, value, BitVec.signExtend]
  | false =>
      apply BitVec.eq_of_toNat_eq
      simp [extend, value]

theorem ediv_emod_two_pow (a : ℤ) (offset size : ℕ) :
    a / 2 ^ offset % 2 ^ size = a % 2 ^ (offset + size) / 2 ^ offset := by
  have offset_pos : (0 : ℤ) < 2 ^ offset := by positivity
  have total_pos : (0 : ℤ) < 2 ^ (offset + size) := by positivity
  have low := Int.emod_nonneg a total_pos.ne'
  have high := Int.emod_lt_of_pos a total_pos
  have split : a = a % 2 ^ (offset + size) +
      (2 ^ size * (a / 2 ^ (offset + size))) * 2 ^ offset := by
    have division := Int.emod_add_mul_ediv a (2 ^ (offset + size))
    rw [pow_add] at division ⊢
    linarith
  have quotient : a / 2 ^ offset =
      a % 2 ^ (offset + size) / 2 ^ offset + 2 ^ size * (a / 2 ^ (offset + size)) := by
    conv_lhs => rw [split]
    rw [Int.add_mul_ediv_right _ _ offset_pos.ne']
  rw [quotient, Int.add_mul_emod_self_left]
  apply Int.emod_eq_of_lt
  · exact Int.ediv_nonneg low offset_pos.le
  · apply Int.ediv_lt_of_lt_mul offset_pos
    rwa [← pow_add, Nat.add_comm size]

/-- The bits of the integer that a vector denotes, from an offset on. -/
def window (signed : Bool) (x : BitVec width) (offset size : ℕ) : BitVec size :=
  BitVec.ofInt size (value signed x / 2 ^ offset)

theorem getLsbD_window (signed : Bool) (x : BitVec width) (offset size index : ℕ) :
    (window signed x offset size).getLsbD index =
      (decide (index < size) && bit signed x (offset + index)) := by
  have shifted : window signed x offset size =
      (extend signed (offset + size) x >>> offset).setWidth size := by
    apply BitVec.eq_of_toNat_eq
    have reduced : ((extend signed (offset + size) x).toNat : ℤ) =
        value signed x % 2 ^ (offset + size) := by
      rw [extend_eq_ofInt, BitVec.toNat_ofInt, Int.toNat_of_nonneg (Int.emod_nonneg _ (by simp))]
      push_cast
      rfl
    zify
    rw [window, BitVec.toNat_ofInt, Int.toNat_of_nonneg (Int.emod_nonneg _ (by simp)),
      BitVec.toNat_setWidth, BitVec.toNat_ushiftRight, Nat.shiftRight_eq_div_pow]
    push_cast
    rw [reduced, ediv_emod_two_pow, ← ediv_emod_two_pow, Int.emod_emod]
  rw [shifted, BitVec.getLsbD_setWidth, BitVec.getLsbD_ushiftRight, getLsbD_extend]
  by_cases inside : index < size
  · simp [inside]
  · simp [inside]

theorem value_ofInt_modEq (signed : Bool) (size : ℕ) (a : ℤ) :
    value signed (BitVec.ofInt size a) ≡ a [ZMOD 2 ^ size] := by
  cases signed with
  | true =>
      have reduced := Int.bmod_emod (x := a) (m := 2 ^ size)
      push_cast at reduced
      simpa [value, BitVec.toInt_ofInt, Int.ModEq] using reduced
  | false =>
      simp only [value, Bool.false_eq_true, if_false, BitVec.toNat_ofInt]
      rw [Int.toNat_of_nonneg (Int.emod_nonneg _ (by simp))]
      simp [Int.ModEq]

theorem value_extend_modEq (signed targetSigned : Bool) (target : ℕ) (x : BitVec width) :
    value targetSigned (extend signed target x) ≡ value signed x [ZMOD 2 ^ target] := by
  rw [extend_eq_ofInt]
  exact value_ofInt_modEq targetSigned target _

theorem eq_of_value_modEq {signed : Bool} {x y : BitVec width}
    (congruent : value signed x ≡ value signed y [ZMOD 2 ^ width]) : x = y := by
  have read (z : BitVec width) : BitVec.ofInt width (value signed z) = z := by
    rw [← extend_eq_ofInt, extend_self]
  rw [← read x, ← read y]
  apply BitVec.eq_of_toNat_eq
  have congruent' : value signed x % 2 ^ width = value signed y % 2 ^ width := congruent
  simp [BitVec.toNat_ofInt, congruent']

theorem value_nonneg (x : BitVec width) : 0 ≤ value false x := by
  simp [value]

theorem value_neg_iff (signed : Bool) (x : BitVec width) :
    value signed x < 0 ↔ (signed && x.msb) = true := by
  cases signed with
  | true => simp [value, BitVec.msb_eq_toInt]
  | false => simp [value]

/-- The least integer that vectors of a width denote. -/
def minimum (signed : Bool) (width : ℕ) : ℤ :=
  if signed then -2 ^ (width - 1) else 0

/-- The greatest integer that vectors of a width denote. -/
def maximum (signed : Bool) (width : ℕ) : ℤ :=
  if signed then 2 ^ (width - 1) - 1 else 2 ^ width - 1

/-- The least signed integer has no counterpart above zero. -/
theorem minimum_true_eq (width : ℕ) : minimum true width = -maximum true width - 1 := by
  simp [minimum, maximum]

theorem minimum_le_zero (signed : Bool) (width : ℕ) : minimum signed width ≤ 0 := by
  have positive : (0 : ℤ) < 2 ^ (width - 1) := by positivity
  cases signed <;> simp only [minimum, if_true, Bool.false_eq_true, if_false] <;> omega

theorem maximum_nonneg (signed : Bool) (width : ℕ) : 0 ≤ maximum signed width := by
  have half : (0 : ℤ) < 2 ^ (width - 1) := by positivity
  have whole : (0 : ℤ) < 2 ^ width := by positivity
  cases signed <;> simp only [maximum, if_true, Bool.false_eq_true, if_false] <;> omega

theorem minimum_anti (signed : Bool) {narrow wide : ℕ} (wider : narrow ≤ wide) :
    minimum signed wide ≤ minimum signed narrow := by
  have halves : (2 : ℤ) ^ (narrow - 1) ≤ 2 ^ (wide - 1) :=
    pow_le_pow_right₀ (by norm_num) (by omega)
  cases signed <;> simp only [minimum, if_true, Bool.false_eq_true, if_false] <;> omega

theorem maximum_mono (signed : Bool) {narrow wide : ℕ} (wider : narrow ≤ wide) :
    maximum signed narrow ≤ maximum signed wide := by
  have halves : (2 : ℤ) ^ (narrow - 1) ≤ 2 ^ (wide - 1) :=
    pow_le_pow_right₀ (by norm_num) (by omega)
  have wholes : (2 : ℤ) ^ narrow ≤ 2 ^ wide := pow_le_pow_right₀ (by norm_num) wider
  cases signed <;> simp only [maximum, if_true, Bool.false_eq_true, if_false] <;> omega

/-- A width that is smaller by one bit fits whatever the signedness. -/
theorem maximum_le_of_lt (signed targetSigned : Bool) {narrow wide : ℕ} (wider : narrow < wide) :
    maximum signed narrow ≤ maximum targetSigned wide := by
  have signedFits : (2 : ℤ) ^ (narrow - 1) ≤ 2 ^ (wide - 1) :=
    pow_le_pow_right₀ (by norm_num) (by omega)
  have unsignedFits : (2 : ℤ) ^ narrow ≤ 2 ^ (wide - 1) :=
    pow_le_pow_right₀ (by norm_num) (by omega)
  have halves : (2 : ℤ) ^ (wide - 1) ≤ 2 ^ wide := pow_le_pow_right₀ (by norm_num) (by omega)
  cases signed <;> cases targetSigned <;>
    simp only [maximum, if_true, Bool.false_eq_true, if_false] <;> omega

theorem minimum_le_value (signed : Bool) (x : BitVec width) :
    minimum signed width ≤ value signed x := by
  cases signed with
  | true => simpa [minimum, value] using BitVec.le_toInt x
  | false => simp [minimum, value]

theorem value_le_maximum (signed : Bool) (x : BitVec width) :
    value signed x ≤ maximum signed width := by
  cases signed with
  | true =>
      have upper := BitVec.toInt_lt (x := x)
      simp only [maximum, value, if_true]
      omega
  | false =>
      have upper := x.isLt
      simp only [maximum, value, Bool.false_eq_true, if_false]
      zify at upper
      omega

theorem eq_of_modEq_of_bounds {signed : Bool} {a b : ℤ} (positive : 0 < width)
    (congruent : a ≡ b [ZMOD 2 ^ width])
    (a_low : minimum signed width ≤ a) (a_high : a ≤ maximum signed width)
    (b_low : minimum signed width ≤ b) (b_high : b ≤ maximum signed width) : a = b := by
  rcases congruent.dvd with ⟨multiple, difference⟩
  have split : (2 : ℤ) ^ width = 2 * 2 ^ (width - 1) := by
    rw [← pow_succ', Nat.sub_add_cancel positive]
  have modulus_pos : (0 : ℤ) < 2 ^ (width - 1) := by positivity
  have close : -(2 ^ width) < b - a ∧ b - a < 2 ^ width := by
    cases signed <;> simp [minimum, maximum] at * <;> omega
  have multiple_eq : multiple = 0 := by
    rw [difference] at close
    have above : multiple < 1 := by
      by_contra large
      nlinarith
    have below : -1 < multiple := by
      by_contra small
      nlinarith
    omega
  rw [multiple_eq] at difference
  omega

/-- Congruent integers of one sign that a modulus bounds are equal. -/
theorem eq_of_modEq_of_sign {size : ℕ} {a b : ℤ} (congruent : a ≡ b [ZMOD 2 ^ size])
    (sign : a < 0 ↔ b < 0) (a_low : -2 ^ size ≤ a) (a_high : a < 2 ^ size)
    (b_low : -2 ^ size ≤ b) (b_high : b < 2 ^ size) : a = b := by
  have reduced : a % 2 ^ size = b % 2 ^ size := congruent
  by_cases negative : a < 0
  · have shifted (c : ℤ) (low : -2 ^ size ≤ c) (below : c < 0) :
        c % 2 ^ size = c + 2 ^ size := by
      rw [← Int.add_emod_right]
      exact Int.emod_eq_of_lt (by omega) (by omega)
    rw [shifted a a_low negative, shifted b b_low (sign.mp negative)] at reduced
    omega
  · have nonnegative : ¬ b < 0 := fun below => negative (sign.mpr below)
    rwa [Int.emod_eq_of_lt (by omega) a_high, Int.emod_eq_of_lt (by omega) b_high] at reduced

theorem value_lower (signed : Bool) (x : BitVec width) : -2 ^ width ≤ value signed x := by
  have low := minimum_le_value signed x
  have half : (2 : ℤ) ^ (width - 1) ≤ 2 ^ width := by
    exact pow_le_pow_right₀ (by norm_num) (Nat.sub_le width 1)
  have positive : (0 : ℤ) < 2 ^ width := by positivity
  cases signed <;> simp only [minimum, if_true, Bool.false_eq_true, if_false] at low <;> omega

theorem value_upper (signed : Bool) (x : BitVec width) : value signed x < 2 ^ width := by
  have high := value_le_maximum signed x
  have half : (2 : ℤ) ^ (width - 1) ≤ 2 ^ width := by
    exact pow_le_pow_right₀ (by norm_num) (Nat.sub_le width 1)
  cases signed <;> simp only [maximum, if_true, Bool.false_eq_true, if_false] at high <;> omega

theorem value_extend_of_bounds {signed targetSigned : Bool} {target : ℕ} (x : BitVec width)
    (positive : 0 < target) (low : minimum targetSigned target ≤ value signed x)
    (high : value signed x ≤ maximum targetSigned target) :
    value targetSigned (extend signed target x) = value signed x :=
  eq_of_modEq_of_bounds positive (value_extend_modEq signed targetSigned target x)
    (minimum_le_value _ _) (value_le_maximum _ _) low high

/-- The stored bits, read without a sign, are the integer up to the modulus. -/
theorem value_modEq_toNat (signed : Bool) (x : BitVec width) :
    value signed x ≡ x.toNat [ZMOD 2 ^ width] := by
  have unsigned := value_extend_modEq false signed width x
  rwa [extend_self] at unsigned

/-- The shift to the right of a reading, which repeats the sign. -/
def shiftRight (signed : Bool) (x : BitVec width) (amount : ℕ) : BitVec width :=
  if signed then x.sshiftRight amount else x >>> amount

theorem value_shiftRight (signed : Bool) (x : BitVec width) (amount : ℕ) :
    value signed (shiftRight signed x amount) = value signed x / 2 ^ amount := by
  cases signed with
  | true => simp [value, shiftRight, BitVec.toInt_sshiftRight, Int.shiftRight_eq_div_pow]
  | false => simp [value, shiftRight, Nat.shiftRight_eq_div_pow]

/-- An integer shifted to the right beyond its bits leaves its sign. -/
theorem ediv_two_pow_of_bounds {a : ℤ} {size amount : ℕ} (covers : size ≤ amount)
    (low : -2 ^ size ≤ a) (high : a < 2 ^ size) :
    a / 2 ^ amount = if a < 0 then -1 else 0 := by
  have larger : (2 : ℤ) ^ size ≤ 2 ^ amount := pow_le_pow_right₀ (by norm_num) covers
  split_ifs with negative
  · exact Int.ediv_eq_neg_one_of_neg_of_le negative (by omega)
  · exact Int.ediv_eq_zero_of_lt (by omega) (by omega)

theorem value_shiftLeft_modEq (signed : Bool) (x : BitVec width) (amount : ℕ) :
    value signed (x <<< amount) ≡ value signed x * 2 ^ amount [ZMOD 2 ^ width] := by
  have shifted : ((x <<< amount).toNat : ℤ) ≡ x.toNat * 2 ^ amount [ZMOD 2 ^ width] := by
    rw [BitVec.toNat_shiftLeft, Nat.shiftLeft_eq, Int.ModEq]
    push_cast
    rw [Int.emod_emod]
  calc value signed (x <<< amount) ≡ (x <<< amount).toNat [ZMOD 2 ^ width] :=
        value_modEq_toNat signed _
    _ ≡ x.toNat * 2 ^ amount [ZMOD 2 ^ width] := shifted
    _ ≡ value signed x * 2 ^ amount [ZMOD 2 ^ width] :=
        (value_modEq_toNat signed x).symm.mul_right _

/-- Addition wraps around by a multiple of the modulus. -/
theorem value_add_modEq (signed : Bool) (x y : BitVec width) :
    value signed (x + y) ≡ value signed x + value signed y [ZMOD 2 ^ width] := by
  cases signed with
  | true =>
      have reduced := Int.bmod_emod (x := x.toInt + y.toInt) (m := 2 ^ width)
      push_cast at reduced
      simpa [value, BitVec.toInt_add, Int.ModEq] using reduced
  | false => simp [value, Int.ModEq]

theorem value_mul_modEq (signed : Bool) (x y : BitVec width) :
    value signed (x * y) ≡ value signed x * value signed y [ZMOD 2 ^ width] := by
  cases signed with
  | true =>
      have reduced := Int.bmod_emod (x := x.toInt * y.toInt) (m := 2 ^ width)
      push_cast at reduced
      simpa [value, BitVec.toInt_mul, Int.ModEq] using reduced
  | false => simp [value, Int.ModEq]

theorem value_neg_modEq (signed : Bool) (x : BitVec width) :
    value signed (-x) ≡ -value signed x [ZMOD 2 ^ width] := by
  have cancelled := value_add_modEq signed x (-x)
  rw [BitVec.add_right_neg] at cancelled
  have zero : value signed (BitVec.ofNat width 0) = 0 := by cases signed <;> simp [value]
  rw [zero] at cancelled
  simpa using cancelled.symm.sub_right (value signed x)

/-- A sum that a vector of the width denotes is not wrapped around. -/
theorem value_add_of_bounds {signed : Bool} {x y : BitVec width} (positive : 0 < width)
    (low : minimum signed width ≤ value signed x + value signed y)
    (high : value signed x + value signed y ≤ maximum signed width) :
    value signed (x + y) = value signed x + value signed y :=
  eq_of_modEq_of_bounds positive (value_add_modEq signed x y)
    (minimum_le_value _ _) (value_le_maximum _ _) low high

theorem value_sub_modEq (signed : Bool) (x y : BitVec width) :
    value signed (x - y) ≡ value signed x - value signed y [ZMOD 2 ^ width] := by
  rw [BitVec.sub_eq_add_neg, sub_eq_add_neg]
  exact (value_add_modEq signed x (-y)).trans ((value_neg_modEq signed y).add_left _)

theorem value_sub_of_bounds {signed : Bool} {x y : BitVec width} (positive : 0 < width)
    (low : minimum signed width ≤ value signed x - value signed y)
    (high : value signed x - value signed y ≤ maximum signed width) :
    value signed (x - y) = value signed x - value signed y :=
  eq_of_modEq_of_bounds positive (value_sub_modEq signed x y)
    (minimum_le_value _ _) (value_le_maximum _ _) low high

theorem value_neg_of_bounds {signed : Bool} {x : BitVec width} (positive : 0 < width)
    (low : minimum signed width ≤ -value signed x)
    (high : -value signed x ≤ maximum signed width) : value signed (-x) = -value signed x :=
  eq_of_modEq_of_bounds positive (value_neg_modEq signed x)
    (minimum_le_value _ _) (value_le_maximum _ _) low high

/-- The division of a reading, which rounds toward zero. -/
def quotient (signed : Bool) (x y : BitVec width) : BitVec width :=
  if signed then x.sdiv y else x / y

/-- The remainder of a reading, which has the sign of the dividend. -/
def remainder (signed : Bool) (x y : BitVec width) : BitVec width :=
  if signed then x.srem y else x % y

theorem value_quotient {signed : Bool} {x y : BitVec width}
    (inRange : ¬ (signed = true ∧ x = BitVec.intMin width ∧ y = -1)) :
    value signed (quotient signed x y) = (value signed x).tdiv (value signed y) := by
  cases signed with
  | true =>
      apply BitVec.toInt_sdiv_of_ne_or_ne
      by_cases minimum : x = BitVec.intMin width
      · exact Or.inr fun minusOne => inRange ⟨rfl, minimum, minusOne⟩
      · exact Or.inl minimum
  | false =>
      simp only [value, quotient, Bool.false_eq_true, if_false, BitVec.toNat_udiv]
      rw [Int.tdiv_eq_ediv_of_nonneg (Int.natCast_nonneg _)]
      exact Int.natCast_ediv _ _

theorem value_remainder (signed : Bool) (x y : BitVec width) :
    value signed (remainder signed x y) = (value signed x).tmod (value signed y) := by
  cases signed with
  | true => simp [value, remainder, BitVec.toInt_srem]
  | false =>
      simp only [value, remainder, Bool.false_eq_true, if_false, BitVec.toNat_umod]
      rw [Int.tmod_eq_emod_of_nonneg (Int.natCast_nonneg _)]
      exact Int.natCast_emod _ _

/-- The integer of a width's range that is congruent to a given one. -/
def wrap (signed : Bool) (width : ℕ) (a : ℤ) : ℤ :=
  (a - minimum signed width) % 2 ^ width + minimum signed width

theorem maximum_eq (signed : Bool) (positive : 0 < width) :
    maximum signed width = minimum signed width + 2 ^ width - 1 := by
  have split : (2 : ℤ) ^ width = 2 * 2 ^ (width - 1) := by
    rw [← pow_succ', Nat.sub_add_cancel positive]
  cases signed <;> simp only [maximum, minimum, if_true, Bool.false_eq_true, if_false] <;> omega

theorem wrap_modEq (signed : Bool) (a : ℤ) : wrap signed width a ≡ a [ZMOD 2 ^ width] := by
  have reduced := (Int.mod_modEq (a - minimum signed width) (2 ^ width)).add_right
    (minimum signed width)
  rwa [sub_add_cancel] at reduced

theorem minimum_le_wrap (signed : Bool) (a : ℤ) : minimum signed width ≤ wrap signed width a := by
  have nonneg := Int.emod_nonneg (a - minimum signed width) (b := 2 ^ width) (by positivity)
  rw [wrap]
  omega

theorem wrap_le_maximum (signed : Bool) (positive : 0 < width) (a : ℤ) :
    wrap signed width a ≤ maximum signed width := by
  have below := Int.emod_lt_of_pos (a - minimum signed width) (b := 2 ^ width) (by positivity)
  rw [wrap, maximum_eq signed positive]
  omega

theorem value_eq_wrap {signed : Bool} {x : BitVec width} {a : ℤ} (positive : 0 < width)
    (congruent : value signed x ≡ a [ZMOD 2 ^ width]) : value signed x = wrap signed width a :=
  eq_of_modEq_of_bounds positive (congruent.trans (wrap_modEq signed a).symm)
    (minimum_le_value _ _) (value_le_maximum _ _) (minimum_le_wrap _ _)
    (wrap_le_maximum _ positive _)

theorem wrap_of_bounds {signed : Bool} {a : ℤ} (positive : 0 < width)
    (low : minimum signed width ≤ a) (high : a ≤ maximum signed width) :
    wrap signed width a = a :=
  eq_of_modEq_of_bounds positive (wrap_modEq signed a) (minimum_le_wrap _ _)
    (wrap_le_maximum _ positive _) low high

end TwosComplement
