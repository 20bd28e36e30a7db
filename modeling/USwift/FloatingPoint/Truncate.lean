import USwift.FloatingPoint.Extend

/-!
# Truncation to a narrower floating-point format

`__truncXfYf2__` is `__truncsfhf2` and `__truncdfhf2` for a result of half precision, the second
one where a `double` has 64 bits. It rounds to nearest, on ties to even, also where the result is
subnormal or becomes infinite.
-/

namespace USwift

open BinaryFormats BinaryFormats.Format USwift.Rep

/-- The last steps of both ways to round: to nearest, and on ties to even. -/
def roundAbs {src dst : Format} (absResult : BitVec dst.bits)
    (roundBits halfway : BitVec src.bits) : BitVec dst.bits :=
  if halfway < roundBits then absResult + 1
  else if roundBits = halfway then absResult + (absResult &&& 1)
  else absResult

/-- `absResult` in `__truncXfYf2__` -/
def truncAbs (src dst : Format) (aRep aAbs : BitVec src.bits) : BitVec dst.bits :=
  let roundMask := (1 : BitVec src.bits) <<< (src.significandBits - dst.significandBits) - 1
  let halfway := (1 : BitVec src.bits) <<< (src.significandBits - dst.significandBits - 1)
  let underflowExponent := src.bias + 1 - dst.bias
  let overflowExponent := src.bias + dst.infinityExponent - dst.bias
  let underflow := BitVec.ofNat src.bits underflowExponent <<< src.significandBits
  let overflow := BitVec.ofNat src.bits overflowExponent <<< src.significandBits
  if aAbs - underflow < aAbs - overflow then
    let absResult := (aAbs >>> (src.significandBits - dst.significandBits)).setWidth dst.bits -
      BitVec.ofNat dst.bits (src.bias - dst.bias) <<< dst.significandBits
    roundAbs absResult (aAbs &&& roundMask) halfway
  else if Rep.infinity src < aAbs then
    Rep.infinity dst ||| qNaN dst |||
      (((aAbs &&& nanCode src) >>> (src.significandBits - dst.significandBits)) &&&
        (nanCode dst).setWidth src.bits).setWidth dst.bits
  else if overflow ≤ aAbs then Rep.infinity dst
  else
    let aExp := (aAbs >>> src.significandBits).toNat
    let shift : ℤ := src.bias - dst.bias - aExp + 1
    let significand := (aRep &&& significandMask src) ||| minNormal src
    if shift > src.significandBits then 0
    else
      let sticky := significand <<< (src.bits - shift).toNat ≠ 0
      let denormalizedSignificand := significand >>> shift.toNat ||| if sticky then 1 else 0
      roundAbs
        ((denormalizedSignificand >>> (src.significandBits - dst.significandBits)).setWidth
          dst.bits)
        (denormalizedSignificand &&& roundMask) halfway

/-- `__truncXfYf2__` -/
def truncXfYf2 (src dst : Format) (aRep : BitVec src.bits) : BitVec dst.bits :=
  let aAbs := aRep &&& absMask src
  let sign := aRep &&& signMask src
  truncAbs src dst aRep aAbs ||| (sign >>> (src.bits - dst.bits)).setWidth dst.bits

/-- `__truncsfhf2` -/
def truncsfhf2 (a : BitVec single.bits) : BitVec half.bits := truncXfYf2 single half a

/-- `__truncdfhf2`, where `double` has 64 bits; on AVR it is a `float`. -/
def truncdfhf2 (a : BitVec double.bits) : BitVec half.bits := truncXfYf2 double half a

section Magnitudes

variable {src dst : Format}

/-- The magnitude that a magnitude is truncated to. -/
def Truncates (src dst : Format) (large small : ℕ) : Prop :=
  if large < src.infinity then dst.RoundsTo (src.value large) small
  else if large = src.infinity then small = dst.infinity
  else small = dst.infinity + 2 ^ (dst.significandBits - 1) +
    large % 2 ^ (src.significandBits - 1) / 2 ^ (src.significandBits - dst.significandBits)

theorem toNat_roundAbs {absResult : BitVec dst.bits} (roundBits halfway : BitVec src.bits)
    (below : absResult.toNat < dst.infinity) :
    (roundAbs absResult roundBits halfway).toNat =
      rounded absResult.toNat roundBits.toNat halfway.toNat := by
  have top := infinity_lt dst
  have room := Nat.pow_lt_pow_right (by decide : 1 < 2) (magnitudeBits_lt dst)
  have one : (1 : BitVec dst.bits).toNat = 1 :=
    Nat.mod_eq_of_lt (Nat.one_lt_two_pow (Nat.succ_ne_zero _))
  have odd : (absResult &&& 1).toNat = absResult.toNat % 2 := by
    rw [BitVec.toNat_and, one, Nat.and_one_is_mod]
  have bit := Nat.mod_lt absResult.toNat (by decide : 2 > 0)
  rw [roundAbs, rounded]
  simp only [BitVec.lt_def, ← BitVec.toNat_inj]
  split_ifs with more half
  · rw [BitVec.toNat_add, one, Nat.mod_eq_of_lt (by omega)]
  · rw [BitVec.toNat_add, odd, Nat.mod_eq_of_lt (by omega)]
  · rfl

theorem toNat_roundMask {x : BitVec src.bits} :
    (x &&& ((1 : BitVec src.bits) <<< (src.significandBits - dst.significandBits) - 1)).toNat =
      x.toNat % 2 ^ (src.significandBits - dst.significandBits) := by
  have inside := significandBits_lt src
  rw [BitVec.toNat_and, toNat_low_ones src (by omega), Nat.and_two_pow_sub_one_eq_mod]

variable (widens : Widens dst src)
include widens

/-- The exponents from which on a number underflows and overflows. -/
theorem toNat_limits :
    (BitVec.ofNat src.bits (src.bias + 1 - dst.bias) <<< src.significandBits).toNat =
        (src.bias - dst.bias + 1) * 2 ^ src.significandBits ∧
      (BitVec.ofNat src.bits (src.bias + dst.infinityExponent - dst.bias) <<<
          src.significandBits).toNat =
        (src.bias - dst.bias + dst.infinityExponent) * 2 ^ src.significandBits ∧
      (src.bias - dst.bias + dst.infinityExponent) * 2 ^ src.significandBits ≤ src.infinity := by
  have exponent := widens.exponent
  have target := infinityExponent_eq dst
  have source := infinityExponent_eq src
  have room := (infinity_lt src).trans
    (Nat.pow_lt_pow_right (by decide : 1 < 2) (magnitudeBits_lt src))
  have below : (src.bias - dst.bias + dst.infinityExponent) * 2 ^ src.significandBits ≤
      src.infinity := Nat.mul_le_mul_right _ (by omega)
  have less : (src.bias - dst.bias + 1) * 2 ^ src.significandBits ≤
      (src.bias - dst.bias + dst.infinityExponent) * 2 ^ src.significandBits :=
    Nat.mul_le_mul_right _ (by omega)
  refine ⟨?_, ?_, below⟩
  · rw [Packing.shiftLeft_ofNat, BitVec.toNat_ofNat, Nat.mul_comm,
      show src.bias + 1 - dst.bias = src.bias - dst.bias + 1 by omega, Nat.mod_eq_of_lt (by omega)]
  · rw [Packing.shiftLeft_ofNat, BitVec.toNat_ofNat, Nat.mul_comm,
      show src.bias + dst.infinityExponent - dst.bias =
        src.bias - dst.bias + dst.infinityExponent by omega, Nat.mod_eq_of_lt (by omega)]

omit widens in
/-- Both subtractions wrap around for small numbers. -/
theorem sub_lt_sub_iff_between {x low high : BitVec src.bits} (ordered : low.toNat < high.toNat) :
    x - low < x - high ↔ low.toNat ≤ x.toNat ∧ x.toNat < high.toNat := by
  have bound := x.isLt
  have highBound := high.isLt
  rw [BitVec.lt_def, BitVec.toNat_sub, BitVec.toNat_sub]
  by_cases above : low.toNat ≤ x.toNat
  · rw [show 2 ^ src.bits - low.toNat + x.toNat = x.toNat - low.toNat + 2 ^ src.bits by omega,
      Nat.add_mod_right, Nat.mod_eq_of_lt (by omega : x.toNat - low.toNat < _)]
    by_cases beyond : high.toNat ≤ x.toNat
    · rw [show 2 ^ src.bits - high.toNat + x.toNat = x.toNat - high.toNat + 2 ^ src.bits by omega,
        Nat.add_mod_right, Nat.mod_eq_of_lt (by omega : x.toNat - high.toNat < _)]
      omega
    · rw [Nat.mod_eq_of_lt (by omega)]
      omega
  · rw [Nat.mod_eq_of_lt (by omega), Nat.mod_eq_of_lt (by omega)]
    omega

theorem truncates_normal {x : BitVec src.bits}
    (above : (src.bias - dst.bias + 1) * 2 ^ src.significandBits ≤ x.toNat)
    (below : x.toNat < (src.bias - dst.bias + dst.infinityExponent) * 2 ^ src.significandBits) :
    Truncates src dst x.toNat (roundAbs
      ((x >>> (src.significandBits - dst.significandBits)).setWidth dst.bits -
        BitVec.ofNat dst.bits (src.bias - dst.bias) <<< dst.significandBits)
      (x &&& ((1 : BitVec src.bits) <<< (src.significandBits - dst.significandBits) - 1))
      ((1 : BitVec src.bits) <<< (src.significandBits - dst.significandBits - 1))).toNat := by
  have significand := widens.significand
  have inside := significandBits_lt src
  have limits := (toNat_limits widens).2.2
  have rounds := widens.narrows_normal above below
  have width := width_eq widens
  have moreBits := Nat.two_pow_pos (src.significandBits - dst.significandBits)
  have least : (src.bias - dst.bias + 1) * 2 ^ dst.significandBits ≤
      x.toNat / 2 ^ (src.significandBits - dst.significandBits) := by
    rw [Nat.le_div_iff_mul_le moreBits, Nat.mul_assoc, ← width]
    exact above
  have most : x.toNat / 2 ^ (src.significandBits - dst.significandBits) <
      (src.bias - dst.bias + dst.infinityExponent) * 2 ^ dst.significandBits := by
    rw [Nat.div_lt_iff_lt_mul moreBits, Nat.mul_assoc, ← width]
    exact below
  have spread : (src.bias - dst.bias + dst.infinityExponent) * 2 ^ dst.significandBits =
      (src.bias - dst.bias) * 2 ^ dst.significandBits + dst.infinity := by
    rw [Format.infinity]
    ring
  have rebias : (src.bias - dst.bias) * 2 ^ dst.significandBits ≤
      x.toNat / 2 ^ (src.significandBits - dst.significandBits) :=
    (Nat.mul_le_mul_right _ (Nat.le_succ _)).trans least
  have kept : x.toNat / 2 ^ (src.significandBits - dst.significandBits) -
      (src.bias - dst.bias) * 2 ^ dst.significandBits < dst.infinity := by omega
  have top := infinity_lt dst
  have room := Nat.pow_lt_pow_right (by decide : 1 < 2) (magnitudeBits_lt dst)
  have shifted : (x >>> (src.significandBits - dst.significandBits)).setWidth dst.bits =
      BitVec.ofNat dst.bits (x.toNat / 2 ^ (src.significandBits - dst.significandBits)) := by
    apply BitVec.eq_of_toNat_eq
    rw [BitVec.toNat_setWidth, BitVec.toNat_ushiftRight, Nat.shiftRight_eq_div_pow,
      BitVec.toNat_ofNat]
  have result : ((x >>> (src.significandBits - dst.significandBits)).setWidth dst.bits -
      BitVec.ofNat dst.bits (src.bias - dst.bias) <<< dst.significandBits).toNat =
        x.toNat / 2 ^ (src.significandBits - dst.significandBits) -
          (src.bias - dst.bias) * 2 ^ dst.significandBits := by
    have sum : BitVec.ofNat dst.bits
        (x.toNat / 2 ^ (src.significandBits - dst.significandBits)) =
          BitVec.ofNat dst.bits (x.toNat / 2 ^ (src.significandBits - dst.significandBits) -
            (src.bias - dst.bias) * 2 ^ dst.significandBits) +
          BitVec.ofNat dst.bits ((src.bias - dst.bias) * 2 ^ dst.significandBits) := by
      rw [← BitVec.ofNat_add, Nat.sub_add_cancel rebias]
    rw [shifted, Packing.shiftLeft_ofNat, Nat.mul_comm (2 ^ dst.significandBits), sum,
      BitVec.add_sub_cancel, BitVec.toNat_ofNat, Nat.mod_eq_of_lt (by omega)]
  rw [toNat_roundAbs _ _ (by rw [result]; exact kept), result, toNat_roundMask,
    toNat_one_shiftLeft src (by omega), Truncates, if_pos (by omega)]
  exact rounds

theorem truncates_nan {x : BitVec src.bits} (nan : src.infinity < x.toNat) :
    Truncates src dst x.toNat
      (Rep.infinity dst ||| qNaN dst |||
        (((x &&& nanCode src) >>> (src.significandBits - dst.significandBits)) &&&
          (nanCode dst).setWidth src.bits).setWidth dst.bits).toNat := by
  have significand := widens.significand
  have wider := widens.magnitudeBits_le
  have positive := dst.significandBits_pos
  have inside := significandBits_lt dst
  have sourceInside := significandBits_lt src
  have width : 2 ^ (src.significandBits - 1) = 2 ^ (dst.significandBits - 1) *
      2 ^ (src.significandBits - dst.significandBits) := by
    rw [← pow_add]
    congr 1
    omega
  have payload : x.toNat % 2 ^ (src.significandBits - 1) /
      2 ^ (src.significandBits - dst.significandBits) < 2 ^ (dst.significandBits - 1) := by
    rw [Nat.div_lt_iff_lt_mul (Nat.two_pow_pos _), ← width]
    exact Nat.mod_lt _ (Nat.two_pow_pos _)
  have room : 2 ^ (dst.significandBits - 1) < 2 ^ dst.bits :=
    Nat.pow_lt_pow_right (by decide) (by omega)
  have narrowRoom : 2 ^ dst.bits ≤ 2 ^ src.bits :=
    Nat.pow_le_pow_right (by decide) (Nat.succ_le_succ wider)
  have mask : ((nanCode dst).setWidth src.bits).toNat = 2 ^ (dst.significandBits - 1) - 1 := by
    have ones := toNat_low_ones dst (by omega : dst.significandBits - 1 < dst.bits)
    rw [BitVec.toNat_setWidth, nanCode, qNaN, ones]
    exact Nat.mod_eq_of_lt (by omega)
  have code : ((((x &&& nanCode src) >>> (src.significandBits - dst.significandBits)) &&&
      (nanCode dst).setWidth src.bits).setWidth dst.bits).toNat =
        x.toNat % 2 ^ (src.significandBits - 1) /
          2 ^ (src.significandBits - dst.significandBits) := by
    rw [BitVec.toNat_setWidth, BitVec.toNat_and, BitVec.toNat_ushiftRight, toNat_and_nanCode,
      Nat.shiftRight_eq_div_pow, mask, Nat.and_two_pow_sub_one_eq_mod, Nat.mod_eq_of_lt payload]
    exact Nat.mod_eq_of_lt (payload.trans room)
  have quiet : (qNaN dst).toNat = 2 ^ (dst.significandBits - 1) :=
    toNat_one_shiftLeft dst (by omega)
  have double : 2 ^ dst.significandBits = 2 ^ (dst.significandBits - 1) * 2 := by
    rw [← pow_succ]
    congr 1
    omega
  have half := Nat.two_pow_pos (dst.significandBits - 1)
  have upper : (Rep.infinity dst ||| qNaN dst).toNat =
      2 ^ (dst.significandBits - 1) + dst.infinity := by
    rw [BitVec.or_comm, BitFields.toNat_or dst.significandBits (by rw [quiet]; omega), quiet,
      toNat_infinity]
    rw [toNat_infinity, Format.infinity, Nat.mul_mod_left]
  have multiple : (2 ^ (dst.significandBits - 1) + dst.infinity) %
      2 ^ (dst.significandBits - 1) = 0 := by
    rw [Nat.add_mod_left, Format.infinity, double, Nat.mul_left_comm, Nat.mul_mod_right]
  rw [BitVec.or_comm, BitFields.toNat_or (dst.significandBits - 1) (by rw [code]; exact payload)
    (by rw [upper]; exact multiple), code, upper, Truncates, if_neg (by omega),
    if_neg (by omega)]
  omega

/-- What underflows is finite. -/
theorem lt_infinity_of_below {number : ℕ}
    (below : number < (src.bias - dst.bias + 1) * 2 ^ src.significandBits) :
    number < src.infinity := by
  have limits := (toNat_limits widens).2.2
  have target := infinityExponent_eq dst
  have less : (src.bias - dst.bias + 1) * 2 ^ src.significandBits ≤
      (src.bias - dst.bias + dst.infinityExponent) * 2 ^ src.significandBits :=
    Nat.mul_le_mul_right _ (by omega)
  omega

omit widens in
/-- A shift with a sticky bit for what it loses. -/
theorem toNat_sticky {word : BitVec src.bits} {shift : ℕ} (inside : shift ≤ src.bits) :
    (word >>> shift ||| if word <<< (src.bits - shift) ≠ 0 then 1 else 0).toNat =
      word.toNat / 2 ^ shift ||| if word.toNat % 2 ^ shift = 0 then 0 else 1 := by
  have one : (1 : BitVec src.bits).toNat = 1 :=
    Nat.mod_eq_of_lt (Nat.one_lt_two_pow (Nat.succ_ne_zero _))
  have split : 2 ^ src.bits = 2 ^ shift * 2 ^ (src.bits - shift) := by
    rw [← pow_add, Nat.add_sub_cancel' inside]
  have kept : (word <<< (src.bits - shift)).toNat =
      word.toNat % 2 ^ shift * 2 ^ (src.bits - shift) := by
    rw [BitVec.toNat_shiftLeft, Nat.shiftLeft_eq, split, Nat.mul_mod_mul_right]
  have lost : word <<< (src.bits - shift) = 0 ↔ word.toNat % 2 ^ shift = 0 := by
    rw [← BitVec.toNat_inj, kept]
    exact Nat.mul_eq_zero.trans (or_iff_left (Nat.two_pow_pos _).ne')
  rw [BitVec.toNat_or, BitVec.toNat_ushiftRight, Nat.shiftRight_eq_div_pow]
  by_cases exact_ : word.toNat % 2 ^ shift = 0
  · rw [if_pos exact_, if_neg (not_not.mpr (lost.mpr exact_))]
    rfl
  · rw [if_neg exact_, if_pos fun zero => exact_ (lost.mp zero), one]

theorem truncates_subnormal {aRep x : BitVec src.bits} (absolute : x.toNat = magnitude aRep)
    (below : x.toNat < (src.bias - dst.bias + 1) * 2 ^ src.significandBits) {shift : ℕ}
    (exponent : x.toNat / 2 ^ src.significandBits + shift = src.bias - dst.bias + 1)
    (covered : shift ≤ src.significandBits) :
    Truncates src dst x.toNat (roundAbs
      (((((aRep &&& significandMask src) ||| minNormal src) >>> shift |||
          if ((aRep &&& significandMask src) ||| minNormal src) <<< (src.bits - shift) ≠ 0 then 1
          else 0) >>> (src.significandBits - dst.significandBits)).setWidth dst.bits)
      ((((aRep &&& significandMask src) ||| minNormal src) >>> shift |||
          if ((aRep &&& significandMask src) ||| minNormal src) <<< (src.bits - shift) ≠ 0 then 1
          else 0) &&&
        ((1 : BitVec src.bits) <<< (src.significandBits - dst.significandBits) - 1))
      ((1 : BitVec src.bits) <<< (src.significandBits - dst.significandBits - 1))).toNat := by
  have significand := widens.significand
  have rebias := widens.exponent
  have inside := significandBits_lt src
  have moreBits := Nat.two_pow_pos (src.significandBits - dst.significandBits)
  have power := Nat.two_pow_pos src.significandBits
  have width := width_eq widens
  have finite := lt_infinity_of_below widens below
  have shift_pos : 0 < shift := by
    have low := Nat.div_lt_of_lt_mul (Nat.mul_comm _ _ ▸ below)
    omega
  have normal : 2 ^ src.significandBits ≤ x.toNat := by
    by_contra least
    rw [Nat.div_eq_of_lt (by omega)] at exponent
    omega
  have rounds := widens.narrows_subnormal shift_pos exponent normal
  have sticky := @rounded_sticky (2 ^ src.significandBits + x.toNat % 2 ^ src.significandBits)
    shift (src.significandBits - dst.significandBits) (by omega)
  rw [← sticky] at rounds
  have rest := Nat.mod_lt x.toNat power
  have leading : ((aRep &&& significandMask src) ||| minNormal src).toNat =
      2 ^ src.significandBits + x.toNat % 2 ^ src.significandBits := by
    have low : (aRep &&& significandMask src).toNat = x.toNat % 2 ^ src.significandBits := by
      rw [toNat_and_significandMask, absolute, magnitude, Nat.mod_mod_of_dvd]
      exact pow_dvd_pow 2 (Nat.le_add_left _ _)
    rw [BitFields.toNat_or src.significandBits (by rw [low]; exact rest)
      (by rw [toNat_minNormal, Nat.mod_self]), low, toNat_minNormal, Nat.add_comm]
  have bound : 2 ^ src.significandBits + x.toNat % 2 ^ src.significandBits <
      2 ^ (src.significandBits + 1) := by
    rw [pow_succ]
    omega
  have cut := @toNat_sticky src ((aRep &&& significandMask src) ||| minNormal src) shift
    (by omega)
  rw [leading] at cut
  rw [← cut] at rounds
  generalize ((aRep &&& significandMask src) ||| minNormal src) >>> shift ||| _ =
    denormalizedSignificand at cut rounds ⊢
  have small : denormalizedSignificand.toNat < 2 ^ src.significandBits := by
    rw [cut]
    apply Nat.or_lt_two_pow
    · rw [Nat.div_lt_iff_lt_mul (Nat.two_pow_pos _), ← pow_add]
      exact bound.trans_le (Nat.pow_le_pow_right (by decide) (by omega))
    · split_ifs
      · exact power
      · exact Nat.one_lt_two_pow (by omega)
  have kept : denormalizedSignificand.toNat / 2 ^ (src.significandBits - dst.significandBits) <
      2 ^ dst.significandBits := by
    rwa [Nat.div_lt_iff_lt_mul moreBits, ← width]
  have room := Nat.pow_lt_pow_right (by decide : 1 < 2) (significandBits_lt dst)
  have shifted : ((denormalizedSignificand >>>
      (src.significandBits - dst.significandBits)).setWidth dst.bits).toNat =
        denormalizedSignificand.toNat / 2 ^ (src.significandBits - dst.significandBits) := by
    rw [BitVec.toNat_setWidth, BitVec.toNat_ushiftRight, Nat.shiftRight_eq_div_pow]
    exact Nat.mod_eq_of_lt (kept.trans room)
  rw [toNat_roundAbs _ _ (by rw [shifted]; exact kept.trans_le (pow_le_infinity dst)), shifted,
    toNat_roundMask, toNat_one_shiftLeft src (by omega), Truncates, if_pos finite]
  exact rounds

theorem truncates_least {x : BitVec src.bits} {shift : ℕ}
    (below : x.toNat < (src.bias - dst.bias + 1) * 2 ^ src.significandBits)
    (exponent : x.toNat / 2 ^ src.significandBits + shift = src.bias - dst.bias + 1)
    (beyond : src.significandBits < shift) : Truncates src dst x.toNat 0 := by
  have significand := widens.significand
  rw [Truncates, if_pos (lt_infinity_of_below widens below)]
  by_cases least : x.toNat < 2 ^ src.significandBits
  · exact widens.narrows_least least
  · have rounds := widens.narrows_subnormal (by omega) exponent (by omega)
    have rest := Nat.mod_lt x.toNat (Nat.two_pow_pos src.significandBits)
    have small : 2 ^ src.significandBits + x.toNat % 2 ^ src.significandBits <
        2 ^ (shift + (src.significandBits - dst.significandBits) - 1) := by
      calc 2 ^ src.significandBits + x.toNat % 2 ^ src.significandBits
          < 2 ^ (src.significandBits + 1) := by
            rw [pow_succ]
            omega
        _ ≤ _ := Nat.pow_le_pow_right (by decide) (by omega)
    have whole := small.trans_le
      (Nat.pow_le_pow_right (by decide : 0 < 2) (Nat.sub_le _ 1))
    rw [Nat.div_eq_of_lt whole, Nat.mod_eq_of_lt whole, rounded, if_neg (by omega),
      if_neg (by omega)] at rounds
    exact rounds

theorem truncates_overflow {x : BitVec src.bits}
    (beyond : (src.bias - dst.bias + dst.infinityExponent) * 2 ^ src.significandBits ≤ x.toNat)
    (number : x.toNat ≤ src.infinity) :
    Truncates src dst x.toNat (Rep.infinity dst).toNat := by
  rw [toNat_infinity, Truncates]
  split_ifs with finite infinite
  · exact widens.narrows_overflow beyond
  · rfl
  · omega

theorem truncates_truncAbs {aRep x : BitVec src.bits} (absolute : x.toNat = magnitude aRep) :
    Truncates src dst x.toNat (truncAbs src dst aRep x).toNat := by
  have rebias := widens.exponent
  have limits := toNat_limits widens
  have target := infinityExponent_eq dst
  have ordered : (src.bias - dst.bias + 1) * 2 ^ src.significandBits <
      (src.bias - dst.bias + dst.infinityExponent) * 2 ^ src.significandBits := by
    apply Nat.mul_lt_mul_of_pos_right _ (Nat.two_pow_pos _)
    have bias_pos : 0 < dst.bias := by
      have more : 2 ^ 2 ≤ 2 ^ dst.exponentBits :=
        Nat.pow_le_pow_right (by decide) dst.one_lt_exponentBits
      rw [infinityExponent] at target
      omega
    omega
  have between := @sub_lt_sub_iff_between src x _ _
    (by rw [limits.1, limits.2.1]; exact ordered :
      (BitVec.ofNat src.bits (src.bias + 1 - dst.bias) <<< src.significandBits).toNat <
        (BitVec.ofNat src.bits (src.bias + dst.infinityExponent - dst.bias) <<<
          src.significandBits).toNat)
  have nan : Rep.infinity src < x ↔ src.infinity < x.toNat := by
    rw [BitVec.lt_def, toNat_infinity]
  have overflows : BitVec.ofNat src.bits (src.bias + dst.infinityExponent - dst.bias) <<<
      src.significandBits ≤ x ↔
        (src.bias - dst.bias + dst.infinityExponent) * 2 ^ src.significandBits ≤ x.toNat := by
    rw [BitVec.le_def, limits.2.1]
  rw [limits.1, limits.2.1] at between
  rw [truncAbs]
  dsimp only
  by_cases normal : (src.bias - dst.bias + 1) * 2 ^ src.significandBits ≤ x.toNat ∧
      x.toNat < (src.bias - dst.bias + dst.infinityExponent) * 2 ^ src.significandBits
  · rw [if_pos (between.mpr normal)]
    exact truncates_normal widens normal.1 normal.2
  rw [if_neg fun test => normal (between.mp test)]
  by_cases isNaN : src.infinity < x.toNat
  · rw [if_pos (nan.mpr isNaN)]
    exact truncates_nan widens isNaN
  rw [if_neg fun test => isNaN (nan.mp test)]
  by_cases beyond : (src.bias - dst.bias + dst.infinityExponent) * 2 ^ src.significandBits ≤ x.toNat
  · rw [if_pos (overflows.mpr beyond)]
    exact truncates_overflow widens beyond (by omega)
  rw [if_neg fun test => beyond (overflows.mp test)]
  -- The exponent is small, so that the shift is positive.
  have below : x.toNat < (src.bias - dst.bias + 1) * 2 ^ src.significandBits := by omega
  have field := Nat.div_lt_of_lt_mul (Nat.mul_comm _ _ ▸ below)
  have aExp : (x >>> src.significandBits).toNat = x.toNat / 2 ^ src.significandBits := by
    rw [BitVec.toNat_ushiftRight, Nat.shiftRight_eq_div_pow]
  have shift : (src.bias - dst.bias - (x >>> src.significandBits).toNat + 1 : ℤ) =
      ((src.bias - dst.bias + 1 - x.toNat / 2 ^ src.significandBits : ℕ) : ℤ) := by
    rw [aExp]
    omega
  have exponent : x.toNat / 2 ^ src.significandBits +
      (src.bias - dst.bias + 1 - x.toNat / 2 ^ src.significandBits) =
        src.bias - dst.bias + 1 := by omega
  simp only [shift, Int.toNat_natCast, Int.toNat_sub, gt_iff_lt, Nat.cast_lt]
  generalize src.bias - dst.bias + 1 - x.toNat / 2 ^ src.significandBits = amount at exponent
  by_cases least : src.significandBits < amount
  · rw [if_pos least]
    exact truncates_least widens below exponent least
  · rw [if_neg least]
    exact truncates_subnormal widens absolute below exponent (Nat.le_of_not_lt least)

theorem truncates_magnitude (a : BitVec src.bits) :
    Truncates src dst (magnitude a) (truncAbs src dst a (a &&& absMask src)).toNat := by
  have absolute := toNat_and_absMask a
  have result := truncates_truncAbs widens absolute
  rwa [absolute] at result

theorem truncAbs_lt (a : BitVec src.bits) :
    (truncAbs src dst a (a &&& absMask src)).toNat < 2 ^ dst.magnitudeBits := by
  have result := truncates_magnitude widens a
  have target := infinity_add dst
  have top := infinity_lt dst
  have positive := dst.significandBits_pos
  have least := Nat.two_pow_pos (dst.significandBits - 1)
  rw [Truncates] at result
  split_ifs at result
  · have atMost := result.le_infinity
    omega
  · omega
  · have payload : magnitude a % 2 ^ (src.significandBits - 1) /
        2 ^ (src.significandBits - dst.significandBits) < 2 ^ (dst.significandBits - 1) := by
      have significand := widens.significand
      rw [Nat.div_lt_iff_lt_mul (Nat.two_pow_pos _), ← pow_add,
        show dst.significandBits - 1 + (src.significandBits - dst.significandBits) =
          src.significandBits - 1 by omega]
      exact Nat.mod_lt _ (Nat.two_pow_pos _)
    have double : 2 ^ dst.significandBits = 2 ^ (dst.significandBits - 1) * 2 := by
      rw [← pow_succ]
      congr 1
      omega
    omega

/-- The sign is put in front of the magnitude. -/
theorem fields_truncXfYf2 (a : BitVec src.bits) :
    magnitude (truncXfYf2 src dst a) = (truncAbs src dst a (a &&& absMask src)).toNat ∧
      negative (truncXfYf2 src dst a) = negative a := by
  have wider := widens.magnitudeBits_le
  have difference : src.bits - dst.bits = src.magnitudeBits - dst.magnitudeBits := by
    simp only [bits]
    omega
  have sign : (((a &&& signMask src) >>> (src.bits - dst.bits)).setWidth dst.bits).toNat =
      (negative a).toNat * 2 ^ dst.magnitudeBits := by
    have one := Bool.toNat_le (negative a)
    have product : (negative a).toNat * 2 ^ src.magnitudeBits =
        (negative a).toNat * 2 ^ dst.magnitudeBits *
          2 ^ (src.magnitudeBits - dst.magnitudeBits) := by
      rw [Nat.mul_assoc, ← pow_add, Nat.add_sub_cancel' wider]
    rw [BitVec.toNat_setWidth, BitVec.toNat_ushiftRight, Nat.shiftRight_eq_div_pow,
      toNat_and_signMask, difference, product, Nat.mul_div_cancel _ (Nat.two_pow_pos _)]
    apply Nat.mod_eq_of_lt
    calc (negative a).toNat * 2 ^ dst.magnitudeBits ≤ 1 * 2 ^ dst.magnitudeBits :=
          Nat.mul_le_mul_right _ one
      _ < 2 ^ dst.bits := by
          rw [Nat.one_mul]
          exact Nat.pow_lt_pow_right (by decide) (magnitudeBits_lt dst)
  exact signed_word (truncAbs_lt widens a) sign

end Magnitudes

/--
The truncation keeps the sign. It rounds every finite number to the nearest number of the
narrow format, on ties to the even one, and to infinity from where the next exponent would be
nearer. It takes infinity to infinity, and makes NaNs quiet, with the top of their payloads.
-/
theorem truncXfYf2_rounds {src dst : Format} (widens : Widens dst src) (a : BitVec src.bits) :
    negative (truncXfYf2 src dst a) = negative a ∧
      Truncates src dst (magnitude a) (magnitude (truncXfYf2 src dst a)) := by
  have fields := fields_truncXfYf2 widens a
  rw [fields.1, fields.2]
  exact ⟨rfl, truncates_magnitude widens a⟩

/-- Half of the least half lies between it and zero, which is even. -/
theorem truncXfYf2_rounds_tie :
    negative (truncsfhf2 0x33000000) = false ∧
      Truncates single half 0x33000000 (magnitude (truncsfhf2 0x33000000)) :=
  truncXfYf2_rounds half_widens_single (0x33000000 : BitVec single.bits)

/-- Setting a bit, whether or not it is set. -/
theorem or_two_pow (number amount : ℕ) : number ||| 2 ^ amount =
    2 ^ amount * (2 * (number / 2 ^ (amount + 1)) + 1) + number % 2 ^ amount := by
  rw [Nat.two_pow_add_eq_or_of_lt (Nat.mod_lt _ (Nat.two_pow_pos _))]
  apply Nat.eq_of_testBit_eq
  intro index
  rw [Nat.testBit_or, Nat.testBit_or, Nat.testBit_two_pow, Nat.testBit_two_pow_mul,
    Nat.testBit_mod_two_pow]
  rcases Nat.lt_trichotomy index amount with below | rfl | above
  · simp [below, Nat.not_le.mpr below, below.ne']
  · simp
  · have bit : (2 * (number / 2 ^ (amount + 1)) + 1).testBit (index - amount) =
        number.testBit index := by
      rw [show index - amount = index - (amount + 1) + 1 by omega, Nat.testBit_succ,
        show (2 * (number / 2 ^ (amount + 1)) + 1) / 2 = number / 2 ^ (amount + 1) by omega,
        Nat.testBit_div_two_pow]
      congr 1
      omega
    simp [above.le, above.ne, Nat.not_lt.mpr above.le, bit]

/-- Making a NaN quiet. -/
theorem fields_or_qNaN {f : Format} {a : BitVec f.bits} (nan : f.infinity < magnitude a) :
    magnitude (a ||| qNaN f) = f.infinity + 2 ^ (f.significandBits - 1) +
        (magnitude a - f.infinity) % 2 ^ (f.significandBits - 1) ∧
      negative (a ||| qNaN f) = negative a := by
  have inside := significandBits_lt f
  have positive := f.significandBits_pos
  have top := infinity_add f
  have bound := magnitude_lt a
  have quiet : (qNaN f).toNat = 2 ^ (f.significandBits - 1) := toNat_one_shiftLeft f (by omega)
  have double : 2 ^ f.significandBits = 2 ^ (f.significandBits - 1) * 2 := by
    rw [← pow_succ, Nat.sub_add_cancel positive]
  have half := Nat.mod_lt (magnitude a - f.infinity) (Nat.two_pow_pos (f.significandBits - 1))
  have payload : magnitude a - f.infinity < 2 ^ f.significandBits := by omega
  have number : a.toNat = (magnitude a - f.infinity) + 2 ^ f.significandBits *
      ((negative a).toNat * 2 ^ f.exponentBits + f.infinityExponent) := by
    have parts := toNat_eq a
    have infinite : f.infinity = f.infinityExponent * 2 ^ f.significandBits := rfl
    rw [Nat.mul_add, Nat.mul_left_comm, ← pow_add, Nat.add_comm f.significandBits,
      ← magnitudeBits, Nat.mul_comm _ f.infinityExponent, ← infinite]
    omega
  have upper : a.toNat / 2 ^ f.significandBits =
      (negative a).toNat * 2 ^ f.exponentBits + f.infinityExponent := by
    rw [number, Nat.add_mul_div_left _ _ (Nat.two_pow_pos _), Nat.div_eq_of_lt payload,
      Nat.zero_add]
  have lower : a.toNat % 2 ^ (f.significandBits - 1) =
      (magnitude a - f.infinity) % 2 ^ (f.significandBits - 1) := by
    rw [number, double, Nat.mul_assoc, Nat.add_mul_mod_self_left]
  apply fields_of_toNat
  · omega
  · have set := or_two_pow a.toNat (f.significandBits - 1)
    rw [Nat.sub_add_cancel positive, upper, lower] at set
    rw [BitVec.toNat_or, quiet, set, Format.infinity, double, magnitudeBits, pow_add, double]
    ring

/--
A number that is extended and truncated again is the same, and so is infinity. A NaN becomes
quiet, and keeps the rest of its payload.
-/
theorem truncXfYf2_extendXfYf2 {narrow wide : Format} (widens : Widens narrow wide)
    (promotion : ℕ) (a : BitVec narrow.bits) :
    truncXfYf2 wide narrow (extendXfYf2 promotion narrow wide a) =
      if narrow.infinity < magnitude a then a ||| qNaN narrow else a := by
  have extended := extends_magnitude widens promotion a
  have extendedFields := fields_extendXfYf2 widens promotion a
  have truncated := truncates_magnitude widens (extendXfYf2 promotion narrow wide a)
  have truncatedFields := fields_truncXfYf2 widens (extendXfYf2 promotion narrow wide a)
  rw [← extendedFields.1] at extended
  rw [← truncatedFields.1] at truncated
  have truncatedSign := truncatedFields.2.trans extendedFields.2
  clear extendedFields truncatedFields
  generalize extendXfYf2 promotion narrow wide a = word at *
  generalize truncXfYf2 wide narrow word = result at *
  rw [Extends] at extended
  rw [Truncates] at truncated
  rcases Nat.lt_trichotomy (magnitude a) narrow.infinity with finite | infinite | nan
  · rw [if_pos finite] at extended
    rw [if_pos extended.1, extended.2] at truncated
    have same := truncated.unique (roundsTo_value finite.le)
    rw [if_neg (by omega)]
    exact ext same truncatedSign
  · rw [if_neg (by omega), infinite, Nat.sub_self, Nat.zero_mul, Nat.add_zero] at extended
    rw [if_neg (by omega), if_pos extended] at truncated
    rw [if_neg (by omega)]
    exact ext (truncated.trans infinite.symm) truncatedSign
  · have significand := widens.significand
    have positive := narrow.significandBits_pos
    have quiet := fields_or_qNaN nan
    have payload : 0 < (magnitude a - narrow.infinity) *
        2 ^ (wide.significandBits - narrow.significandBits) :=
      Nat.mul_pos (by omega) (Nat.two_pow_pos _)
    have width : 2 ^ (wide.significandBits - 1) = 2 ^ (narrow.significandBits - 1) *
        2 ^ (wide.significandBits - narrow.significandBits) := by
      rw [← pow_add]
      congr 1
      omega
    have double : 2 ^ wide.significandBits = 2 ^ (wide.significandBits - 1) * 2 := by
      rw [← pow_succ]
      congr 1
      omega
    rw [if_neg (by omega)] at extended
    have kept : magnitude word % 2 ^ (wide.significandBits - 1) /
        2 ^ (wide.significandBits - narrow.significandBits) =
          (magnitude a - narrow.infinity) % 2 ^ (narrow.significandBits - 1) := by
      rw [extended, Format.infinity, double, Nat.mul_left_comm, Nat.mul_add_mod, width,
        Nat.mul_mod_mul_right, Nat.mul_div_cancel _ (Nat.two_pow_pos _)]
    rw [if_neg (by omega), if_neg (by omega), kept] at truncated
    rw [if_pos nan]
    exact ext (truncated.trans quiet.1.symm) (truncatedSign.trans quiet.2.symm)

/-- A subnormal half. -/
theorem truncXfYf2_extendXfYf2_least :
    truncsfhf2 (extendhfsf2 0 0x8001) =
      if half.infinity < magnitude (0x8001 : BitVec half.bits) then 0x8001 ||| qNaN half
      else 0x8001 :=
  truncXfYf2_extendXfYf2 half_widens_single 0 (0x8001 : BitVec half.bits)

end USwift
