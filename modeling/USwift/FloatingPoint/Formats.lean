import USwift.Library.BinaryFormats
import USwift.Library.Packing

/-!
# The words of floating-point formats

The conversions of the compiler's runtime are written once for all formats, over constants
that follow from the widths of the fields. This file gives the three formats and the constants,
and says which part of a word each of the masks selects.
-/

namespace USwift

open BinaryFormats

/-- `SRC_HALF` and `DST_HALF`. -/
def half : Format := ⟨5, 10, by decide, by decide⟩

/-- `SRC_SINGLE` and `DST_SINGLE`. -/
def single : Format := ⟨8, 23, by decide, by decide⟩

/-- `SRC_DOUBLE` and `DST_DOUBLE`. -/
def double : Format := ⟨11, 52, by decide, by decide⟩

theorem half_widens_single : Format.Widens half single := ⟨by decide, by decide⟩

theorem half_widens_double : Format.Widens half double := ⟨by decide, by decide⟩

namespace Rep

open Format

variable (f : Format)

def minNormal : BitVec f.bits := (1 : BitVec f.bits) <<< f.significandBits

def significandMask : BitVec f.bits := minNormal f - 1

def infinity : BitVec f.bits := BitVec.ofNat f.bits f.infinityExponent <<< f.significandBits

def signMask : BitVec f.bits := (1 : BitVec f.bits) <<< (f.significandBits + f.exponentBits)

def absMask : BitVec f.bits := signMask f - 1

def qNaN : BitVec f.bits := (1 : BitVec f.bits) <<< (f.significandBits - 1)

def nanCode : BitVec f.bits := qNaN f - 1

theorem toNat_one_shiftLeft {amount : ℕ} (inside : amount < f.bits) :
    ((1 : BitVec f.bits) <<< amount).toNat = 2 ^ amount := by
  have one : (1 : BitVec f.bits).toNat = 1 :=
    Nat.mod_eq_of_lt (Nat.one_lt_two_pow (by omega))
  rw [BitVec.toNat_shiftLeft, one, Nat.one_shiftLeft]
  exact Nat.mod_eq_of_lt (Nat.pow_lt_pow_right (by decide) inside)

theorem toNat_low_ones {amount : ℕ} (inside : amount < f.bits) :
    ((1 : BitVec f.bits) <<< amount - 1).toNat = 2 ^ amount - 1 := by
  have one : (1 : BitVec f.bits).toNat = 1 :=
    Nat.mod_eq_of_lt (Nat.one_lt_two_pow (by omega))
  have shifted := toNat_one_shiftLeft f inside
  have positive := Nat.two_pow_pos amount
  have bound := ((1 : BitVec f.bits) <<< amount).isLt
  rw [BitVec.toNat_sub_of_le (BitVec.le_def.mpr (by omega)), shifted, one]

theorem significandBits_lt : f.significandBits < f.bits := by
  simp only [bits, magnitudeBits]
  omega

theorem magnitudeBits_lt : f.magnitudeBits < f.bits := Nat.lt_succ_self _

theorem toNat_minNormal : (minNormal f).toNat = 2 ^ f.significandBits :=
  toNat_one_shiftLeft f (significandBits_lt f)

theorem toNat_infinity : (infinity f).toNat = f.infinity := by
  have below := infinity_lt f
  have fits : f.infinity < 2 ^ f.bits :=
    below.trans (Nat.pow_lt_pow_right (by decide) (magnitudeBits_lt f))
  rw [infinity, Packing.shiftLeft_ofNat, BitVec.toNat_ofNat, Nat.mul_comm]
  exact Nat.mod_eq_of_lt fits

variable {f}

theorem toNat_and_absMask (a : BitVec f.bits) : (a &&& absMask f).toNat = magnitude a := by
  rw [absMask, signMask, Nat.add_comm, ← magnitudeBits, BitVec.toNat_and,
    toNat_low_ones f (magnitudeBits_lt f), Nat.and_two_pow_sub_one_eq_mod]
  rfl

theorem toNat_and_significandMask (a : BitVec f.bits) :
    (a &&& significandMask f).toNat = a.toNat % 2 ^ f.significandBits := by
  rw [significandMask, minNormal, BitVec.toNat_and, toNat_low_ones f (significandBits_lt f),
    Nat.and_two_pow_sub_one_eq_mod]

theorem toNat_and_nanCode (a : BitVec f.bits) :
    (a &&& nanCode f).toNat = a.toNat % 2 ^ (f.significandBits - 1) := by
  have inside := significandBits_lt f
  rw [nanCode, qNaN, BitVec.toNat_and, toNat_low_ones f (by omega),
    Nat.and_two_pow_sub_one_eq_mod]

/-- A mask of one bit selects it. -/
theorem toNat_and_bit (a : BitVec f.bits) {amount : ℕ} (inside : amount < f.bits) :
    (a &&& (1 : BitVec f.bits) <<< amount).toNat = 2 ^ amount * (a.toNat / 2 ^ amount % 2) := by
  have mask : (1 : BitVec f.bits) <<< amount =
      BitVec.ofNat f.bits (2 ^ amount * (2 ^ 1 - 1)) := by
    apply BitVec.eq_of_toNat_eq
    rw [toNat_one_shiftLeft f inside, BitVec.toNat_ofNat, pow_one, Nat.mul_one]
    exact (Nat.mod_eq_of_lt (Nat.pow_lt_pow_right (by decide) inside)).symm
  rw [mask, BitFields.toNat_and_field a amount 1 (by omega), pow_one]

theorem toNat_and_qNaN (a : BitVec f.bits) : (a &&& qNaN f).toNat =
    2 ^ (f.significandBits - 1) * (a.toNat / 2 ^ (f.significandBits - 1) % 2) := by
  have inside := significandBits_lt f
  exact toNat_and_bit a (by omega)

theorem toNat_and_signMask (a : BitVec f.bits) :
    (a &&& signMask f).toNat = (negative a).toNat * 2 ^ f.magnitudeBits := by
  have selected := toNat_and_bit a (magnitudeBits_lt f)
  have parts := toNat_eq a
  have small := magnitude_lt a
  have field : a.toNat / 2 ^ f.magnitudeBits = (negative a).toNat := by
    rw [parts, Nat.add_mul_div_right _ _ (Nat.two_pow_pos _), Nat.div_eq_of_lt small,
      Nat.zero_add]
  rw [signMask, Nat.add_comm f.significandBits, ← magnitudeBits, selected, field, Nat.mul_comm]
  cases negative a <;> rfl

end Rep

end USwift
