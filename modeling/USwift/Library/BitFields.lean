import Mathlib.Data.Nat.Bitwise
import Mathlib.Tactic.Positivity

/-!
# Fields of a word

A mask of consecutive ones selects a field of a word, and a disjunction of words
that do not meet is their sum. With the shifts, this turns the assembly of a word
from fields into arithmetic on natural numbers.
-/

namespace BitFields

variable {width : ℕ}

theorem toNat_and_field (x : BitVec width) (low size : ℕ) (fits : low + size ≤ width) :
    (x &&& BitVec.ofNat width (2 ^ low * (2 ^ size - 1))).toNat =
      2 ^ low * (x.toNat / 2 ^ low % 2 ^ size) := by
  have mask_lt : 2 ^ low * (2 ^ size - 1) < 2 ^ width := by
    have smaller : 2 ^ size - 1 < 2 ^ size := Nat.sub_lt (by positivity) Nat.one_pos
    calc 2 ^ low * (2 ^ size - 1) < 2 ^ low * 2 ^ size :=
          Nat.mul_lt_mul_of_pos_left smaller (by positivity)
      _ = 2 ^ (low + size) := (pow_add 2 low size).symm
      _ ≤ 2 ^ width := Nat.pow_le_pow_right (by decide) fits
  rw [BitVec.toNat_and, BitVec.toNat_ofNat, Nat.mod_eq_of_lt mask_lt]
  apply Nat.eq_of_testBit_eq
  intro index
  rw [Nat.testBit_and, Nat.testBit_two_pow_mul, Nat.testBit_two_pow_mul,
    Nat.testBit_two_pow_sub_one, Nat.testBit_mod_two_pow, Nat.testBit_div_two_pow]
  by_cases above : low ≤ index
  · rw [Nat.sub_add_cancel above]
    simp [above, Bool.and_comm]
  · simp [above]

theorem toNat_field_right (x : BitVec width) (low size amount : ℕ) (fits : low + size ≤ width)
    (inside : amount ≤ low) :
    ((x &&& BitVec.ofNat width (2 ^ low * (2 ^ size - 1))) >>> amount).toNat =
      2 ^ (low - amount) * (x.toNat / 2 ^ low % 2 ^ size) := by
  have place : 2 ^ low = 2 ^ amount * 2 ^ (low - amount) := by
    rw [← pow_add, Nat.add_sub_cancel' inside]
  rw [BitVec.toNat_ushiftRight, toNat_and_field x low size fits, Nat.shiftRight_eq_div_pow]
  conv_lhs => rw [place, Nat.mul_assoc]
  rw [Nat.mul_div_cancel_left _ (by positivity), ← place]

theorem toNat_field_left (x : BitVec width) (low size amount : ℕ)
    (fits : low + size + amount ≤ width) :
    ((x &&& BitVec.ofNat width (2 ^ low * (2 ^ size - 1))) <<< amount).toNat =
      2 ^ (low + amount) * (x.toNat / 2 ^ low % 2 ^ size) := by
  have field_lt : x.toNat / 2 ^ low % 2 ^ size < 2 ^ size := Nat.mod_lt _ (by positivity)
  have below : 2 ^ (low + amount) * (x.toNat / 2 ^ low % 2 ^ size) < 2 ^ width := by
    calc 2 ^ (low + amount) * (x.toNat / 2 ^ low % 2 ^ size)
        < 2 ^ (low + amount) * 2 ^ size := Nat.mul_lt_mul_of_pos_left field_lt (by positivity)
      _ = 2 ^ (low + size + amount) := by rw [← pow_add, Nat.add_right_comm]
      _ ≤ 2 ^ width := Nat.pow_le_pow_right (by decide) fits
  rw [BitVec.toNat_shiftLeft, toNat_and_field x low size (by omega), Nat.shiftLeft_eq,
    Nat.mul_right_comm, ← pow_add, Nat.mod_eq_of_lt below]

theorem toNat_or (size : ℕ) {low high : BitVec width} (low_lt : low.toNat < 2 ^ size)
    (high_mod : high.toNat % 2 ^ size = 0) : (low ||| high).toNat = low.toNat + high.toNat := by
  have multiple : high.toNat = 2 ^ size * (high.toNat / 2 ^ size) := by
    have parts := Nat.div_add_mod high.toNat (2 ^ size)
    rw [high_mod, Nat.add_zero] at parts
    exact parts.symm
  rw [BitVec.toNat_or, Nat.or_comm, multiple, ← Nat.two_pow_add_eq_or_of_lt low_lt, Nat.add_comm]

end BitFields
