import USwift.FloatingPoint.Formats

/-!
# Extension to a wider floating-point format

`__extendXfYf2__` is `__extendhfsf2` for half and single precision. Numbers keep their values,
the subnormal ones as normal numbers, and the payloads of NaNs move to the left.
-/

namespace USwift

open BinaryFormats BinaryFormats.Format USwift.Rep

/-- `src_rep_t_clz`, in a type that has more bits than the representation by a number. -/
def srcRepClz (promotion : ℕ) {f : Format} (a : BitVec f.bits) : ℕ :=
  (a.setWidth (f.bits + promotion)).clz.toNat

/-- `absResult` in `__extendXfYf2__`, where the exponents are of type `int`. -/
def extendAbs (promotion : ℕ) (src dst : Format) (aAbs : BitVec src.bits) : BitVec dst.bits :=
  if aAbs - minNormal src < Rep.infinity src - minNormal src then
    (aAbs.setWidth dst.bits <<< (dst.significandBits - src.significandBits)) +
      BitVec.ofInt dst.bits ((dst.bias : ℤ) - src.bias) <<< dst.significandBits
  else if Rep.infinity src ≤ aAbs then
    Rep.infinity dst |||
      ((aAbs &&& qNaN src).setWidth dst.bits <<< (dst.significandBits - src.significandBits)) |||
      ((aAbs &&& nanCode src).setWidth dst.bits <<<
        (dst.significandBits - src.significandBits))
  else if aAbs ≠ 0 then
    let scale := srcRepClz promotion aAbs - srcRepClz promotion (minNormal src)
    let resultExponent : ℤ := dst.bias - src.bias - scale + 1
    ((aAbs.setWidth dst.bits <<< (dst.significandBits - src.significandBits + scale)) ^^^
      minNormal dst) ||| BitVec.ofInt dst.bits resultExponent <<< dst.significandBits
  else 0

/-- `__extendXfYf2__` -/
def extendXfYf2 (promotion : ℕ) (src dst : Format) (a : BitVec src.bits) : BitVec dst.bits :=
  let aAbs := a &&& absMask src
  let sign := a &&& signMask src
  extendAbs promotion src dst aAbs ||| sign.setWidth dst.bits <<< (dst.bits - src.bits)

/-- `__extendhfsf2` -/
def extendhfsf2 (promotion : ℕ) (a : BitVec half.bits) : BitVec single.bits :=
  extendXfYf2 promotion half single a

section Magnitudes

variable {src dst : Format} {a : BitVec src.bits}

theorem srcRepClz_bounds (promotion : ℕ) {f : Format} (x : BitVec f.bits) (nonzero : x.toNat ≠ 0) :
    ∃ leading, srcRepClz promotion x + leading + 1 = f.bits + promotion ∧
      2 ^ leading ≤ x.toNat ∧ x.toNat < 2 ^ (leading + 1) := by
  have promoted : (x.setWidth (f.bits + promotion)).toNat = x.toNat := by
    rw [BitVec.toNat_setWidth]
    exact Nat.mod_eq_of_lt (x.isLt.trans_le (Nat.pow_le_pow_right (by decide) (by omega)))
  have different : x.setWidth (f.bits + promotion) ≠ 0 := by
    intro zero
    rw [zero] at promoted
    exact nonzero promoted.symm
  have inside := Packing.toNat_clz_lt different
  have lower := BitVec.two_pow_sub_clz_le_toNat_of_ne_zero (by omega) different
  have upper := BitVec.toNat_lt_two_pow_sub_clz (x := x.setWidth (f.bits + promotion))
  rw [promoted] at lower upper
  refine ⟨f.bits + promotion - srcRepClz promotion x - 1, ?_, ?_, ?_⟩
  · rw [srcRepClz]
    omega
  · rw [srcRepClz]
    convert lower using 2
    omega
  · rw [srcRepClz]
    convert upper using 2
    omega

/-- The scale brings the leading bit of a subnormal number to where it is implied. -/
theorem scale_bounds (promotion : ℕ) {x : BitVec src.bits} (nonzero : x.toNat ≠ 0)
    (subnormal : x.toNat < 2 ^ src.significandBits) :
    ∃ scale, srcRepClz promotion x - srcRepClz promotion (minNormal src) = scale ∧
      scale ≤ src.significandBits ∧ 2 ^ src.significandBits ≤ x.toNat * 2 ^ scale ∧
      x.toNat * 2 ^ scale < 2 ^ (src.significandBits + 1) := by
  have power := toNat_minNormal src
  have positive := Nat.two_pow_pos src.significandBits
  rcases srcRepClz_bounds promotion x nonzero with ⟨leading, zeros, lower, upper⟩
  rcases srcRepClz_bounds promotion (minNormal src) (by omega) with
    ⟨top, topZeros, topLower, topUpper⟩
  rw [power] at topLower topUpper
  have low := (Nat.pow_le_pow_iff_right (by decide : 1 < 2)).mp topLower
  have high := (Nat.pow_lt_pow_iff_right (by decide : 1 < 2)).mp topUpper
  have inside := (Nat.pow_lt_pow_iff_right (by decide : 1 < 2)).mp (lower.trans_lt subnormal)
  refine ⟨src.significandBits - leading, by omega, by omega, ?_, ?_⟩
  · calc 2 ^ src.significandBits = 2 ^ leading * 2 ^ (src.significandBits - leading) := by
          rw [← pow_add, Nat.add_sub_cancel' inside.le]
      _ ≤ x.toNat * 2 ^ (src.significandBits - leading) := Nat.mul_le_mul_right _ lower
  · calc x.toNat * 2 ^ (src.significandBits - leading)
        < 2 ^ (leading + 1) * 2 ^ (src.significandBits - leading) :=
          Nat.mul_lt_mul_of_pos_right upper (Nat.two_pow_pos _)
      _ = 2 ^ (src.significandBits + 1) := by
          rw [← pow_add]
          congr 1
          omega

variable (widens : Widens src dst)
include widens

theorem toNat_shifted {x : BitVec src.bits} {amount : ℕ}
    (fits : x.toNat * 2 ^ amount < 2 ^ dst.bits) :
    (x.setWidth dst.bits <<< amount).toNat = x.toNat * 2 ^ amount := by
  have wider := widens.magnitudeBits_le
  have kept : (x.setWidth dst.bits).toNat = x.toNat := by
    rw [BitVec.toNat_setWidth]
    apply Nat.mod_eq_of_lt (x.isLt.trans_le (Nat.pow_le_pow_right (by decide) _))
    simp only [bits]
    omega
  rw [BitVec.toNat_shiftLeft, kept, Nat.shiftLeft_eq, Nat.mod_eq_of_lt fits]

/-- The sign goes to the top. -/
theorem toNat_sign (a : BitVec src.bits) :
    ((a &&& signMask src).setWidth dst.bits <<< (dst.bits - src.bits)).toNat =
      (negative a).toNat * 2 ^ dst.magnitudeBits := by
  have wider := widens.magnitudeBits_le
  have difference : dst.bits - src.bits = dst.magnitudeBits - src.magnitudeBits := by
    simp only [bits]
    omega
  have product : (negative a).toNat * 2 ^ src.magnitudeBits *
      2 ^ (dst.magnitudeBits - src.magnitudeBits) =
        (negative a).toNat * 2 ^ dst.magnitudeBits := by
    rw [Nat.mul_assoc, ← pow_add, Nat.add_sub_cancel' wider]
  have bound : (negative a).toNat * 2 ^ dst.magnitudeBits < 2 ^ dst.bits := by
    have one := Bool.toNat_le (negative a)
    calc (negative a).toNat * 2 ^ dst.magnitudeBits ≤ 1 * 2 ^ dst.magnitudeBits :=
          Nat.mul_le_mul_right _ one
      _ < 2 ^ dst.bits := by
          rw [Nat.one_mul]
          exact Nat.pow_lt_pow_right (by decide) (magnitudeBits_lt dst)
  rw [difference, toNat_shifted widens (by rw [toNat_and_signMask, product]; exact bound),
    toNat_and_signMask, product]

/-- The magnitude that a magnitude is extended to. -/
def Extends (src dst : Format) (small large : ℕ) : Prop :=
  if small < src.infinity then large < dst.infinity ∧ dst.value large = src.value small
  else large = dst.infinity +
    (small - src.infinity) * 2 ^ (dst.significandBits - src.significandBits)

/-- The bias of the source is the smaller one, so that the difference is not negative. -/
theorem rebias_eq : ((dst.bias - src.bias : ℕ) : ℤ) = (dst.bias : ℤ) - src.bias := by
  have exponent := widens.exponent
  exact Nat.cast_sub (by omega)

theorem width_eq : 2 ^ dst.significandBits =
    2 ^ src.significandBits * 2 ^ (dst.significandBits - src.significandBits) := by
  have significand := widens.significand
  rw [← pow_add, Nat.add_sub_cancel' (by omega)]

omit widens in
theorem pow_le_infinity (f : Format) : 2 ^ f.significandBits ≤ f.infinity := by
  rw [Format.infinity, infinityExponent_eq]
  exact Nat.le_mul_of_pos_left _ (Nat.succ_pos _)

/-- What is extended from a normal number is below infinity. -/
theorem normal_lt_infinity {small : ℕ} (finite : small < src.infinity) :
    small * 2 ^ (dst.significandBits - src.significandBits) +
      (dst.bias - src.bias) * 2 ^ dst.significandBits < dst.infinity := by
  have exponent := widens.exponent
  have width := width_eq widens
  have scaled := Nat.mul_lt_mul_of_pos_right finite
    (Nat.two_pow_pos (dst.significandBits - src.significandBits))
  calc small * 2 ^ (dst.significandBits - src.significandBits) +
        (dst.bias - src.bias) * 2 ^ dst.significandBits
      < src.infinity * 2 ^ (dst.significandBits - src.significandBits) +
        (dst.bias - src.bias) * 2 ^ dst.significandBits := Nat.add_lt_add_right scaled _
    _ = (src.infinityExponent + (dst.bias - src.bias)) * 2 ^ dst.significandBits := by
        rw [Format.infinity, width]
        ring
    _ ≤ dst.infinity := by
        apply Nat.mul_le_mul_right
        rw [infinityExponent_eq, infinityExponent_eq]
        omega

theorem extends_normal {x : BitVec src.bits} (normal : 2 ^ src.significandBits ≤ x.toNat)
    (finite : x.toNat < src.infinity) :
    Extends src dst x.toNat
      ((x.setWidth dst.bits <<< (dst.significandBits - src.significandBits)) +
        BitVec.ofInt dst.bits ((dst.bias : ℤ) - src.bias) <<< dst.significandBits).toNat := by
  have below := normal_lt_infinity widens finite
  have fits := below.trans ((infinity_lt dst).trans
    (Nat.pow_lt_pow_right (by decide) (magnitudeBits_lt dst)))
  have first := @toNat_shifted src dst widens x
    (dst.significandBits - src.significandBits) (by omega)
  have second :
      (BitVec.ofInt dst.bits ((dst.bias : ℤ) - src.bias) <<< dst.significandBits).toNat =
        (dst.bias - src.bias) * 2 ^ dst.significandBits := by
    rw [← rebias_eq widens, BitVec.ofInt_natCast, Packing.shiftLeft_ofNat, BitVec.toNat_ofNat,
      Nat.mul_comm]
    exact Nat.mod_eq_of_lt (by omega)
  rw [BitVec.toNat_add, first, second, Nat.mod_eq_of_lt fits, Extends, if_pos finite]
  exact ⟨below, widens.value_normal normal⟩

omit widens in
/-- There is room for a significand between infinity and the sign. -/
theorem infinity_add (f : Format) :
    f.infinity + 2 ^ f.significandBits = 2 ^ f.magnitudeBits := by
  have exponents := Nat.two_pow_pos f.exponentBits
  rw [Format.infinity, infinityExponent, magnitudeBits, pow_add, ← Nat.succ_mul]
  congr 1
  omega

omit widens in
/-- What is beyond infinity is the payload of a NaN. -/
theorem payload_eq {f : Format} {small : ℕ} (infinite : f.infinity ≤ small)
    (bound : small < 2 ^ f.magnitudeBits) :
    small - f.infinity = small % 2 ^ f.significandBits := by
  have top := infinity_add f
  have split : small = (small - f.infinity) + f.infinityExponent * 2 ^ f.significandBits := by
    rw [← Format.infinity]
    omega
  have kept : (small - f.infinity) % 2 ^ f.significandBits = small - f.infinity :=
    Nat.mod_eq_of_lt (by omega)
  conv_rhs => rw [split, Nat.add_mul_mod_self_right, kept]

theorem extends_infinite {x : BitVec src.bits} (infinite : src.infinity ≤ x.toNat)
    (bound : x.toNat < 2 ^ src.magnitudeBits) :
    Extends src dst x.toNat
      (Rep.infinity dst |||
        ((x &&& qNaN src).setWidth dst.bits <<< (dst.significandBits - src.significandBits)) |||
        ((x &&& nanCode src).setWidth dst.bits <<<
          (dst.significandBits - src.significandBits))).toNat := by
  have significand := widens.significand
  have inside := significandBits_lt dst
  have positive := src.significandBits_pos
  have payload := payload_eq infinite bound
  have code := toNat_and_nanCode x
  have quiet := toNat_and_qNaN x
  have codeBound := Nat.mod_lt x.toNat (Nat.two_pow_pos (src.significandBits - 1))
  have bit := Nat.mod_lt (x.toNat / 2 ^ (src.significandBits - 1)) (by decide : 2 > 0)
  have parts : x.toNat % 2 ^ src.significandBits = x.toNat % 2 ^ (src.significandBits - 1) +
      2 ^ (src.significandBits - 1) * (x.toNat / 2 ^ (src.significandBits - 1) % 2) := by
    conv_lhs => rw [← Nat.sub_add_cancel positive, pow_succ, Nat.mod_mul]
  generalize x.toNat % 2 ^ (src.significandBits - 1) = low at code codeBound parts
  generalize x.toNat / 2 ^ (src.significandBits - 1) % 2 = high at quiet bit parts
  generalize extra : dst.significandBits - src.significandBits = more
  have width : 2 ^ (dst.significandBits - 1) = 2 ^ (src.significandBits - 1) * 2 ^ more := by
    rw [← pow_add]
    congr 1
    omega
  have double : 2 ^ dst.significandBits = 2 ^ (dst.significandBits - 1) * 2 := by
    rw [← pow_succ]
    congr 1
    omega
  have room : 2 ^ dst.significandBits < 2 ^ dst.bits := Nat.pow_lt_pow_right (by decide) inside
  have lowShifted : low * 2 ^ more < 2 ^ (dst.significandBits - 1) := by
    rw [width]
    exact Nat.mul_lt_mul_of_pos_right codeBound (Nat.two_pow_pos _)
  have highShifted : 2 ^ (src.significandBits - 1) * high * 2 ^ more =
      2 ^ (dst.significandBits - 1) * high := by
    rw [width]
    ring
  have highBound : 2 ^ (dst.significandBits - 1) * high < 2 ^ dst.significandBits := by
    rw [double]
    exact Nat.mul_lt_mul_of_pos_left bit (Nat.two_pow_pos _)
  have first := @toNat_shifted src dst widens (x &&& qNaN src) more
    (by rw [quiet, highShifted]; omega)
  have second := @toNat_shifted src dst widens (x &&& nanCode src) more
    (by rw [code]; omega)
  rw [quiet, highShifted] at first
  rw [code] at second
  have upper : (Rep.infinity dst ||| (x &&& qNaN src).setWidth dst.bits <<< more).toNat =
      2 ^ (dst.significandBits - 1) * high + dst.infinity := by
    rw [BitVec.or_comm, BitFields.toNat_or dst.significandBits (by rw [first]; exact highBound),
      first, toNat_infinity]
    rw [toNat_infinity, Format.infinity, Nat.mul_mod_left]
  have multiple : (2 ^ (dst.significandBits - 1) * high + dst.infinity) %
      2 ^ (dst.significandBits - 1) = 0 := by
    rw [Nat.mul_add_mod, Format.infinity, double, Nat.mul_left_comm, Nat.mul_mod_right]
  rw [BitVec.or_comm, BitFields.toNat_or (dst.significandBits - 1)
    (by rw [second]; exact lowShifted) (by rw [upper]; exact multiple), second, upper, Extends,
    if_neg (by omega), payload, parts, extra, ← highShifted]
  ring

omit widens in
theorem xor_two_pow {number amount : ℕ} (above : 2 ^ amount ≤ number)
    (below : number < 2 ^ (amount + 1)) : number ^^^ 2 ^ amount = number - 2 ^ amount := by
  have rest : number - 2 ^ amount < 2 ^ amount := by
    rw [pow_succ] at below
    omega
  have split : number = 2 ^ amount ||| (number - 2 ^ amount) := by
    have joined := Nat.two_pow_add_eq_or_of_lt rest 1
    rw [Nat.mul_one] at joined
    rw [← joined]
    omega
  conv_lhs => rw [split]
  apply Nat.eq_of_testBit_eq
  intro index
  rw [Nat.testBit_xor, Nat.testBit_or, Nat.testBit_two_pow]
  by_cases same : amount = index
  · subst same
    simp [Nat.testBit_lt_two_pow rest]
  · simp [same]

theorem extends_subnormal {x : BitVec src.bits}
    (subnormal : x.toNat < 2 ^ src.significandBits) {scale : ℕ}
    (covered : scale ≤ src.significandBits)
    (leading : 2 ^ src.significandBits ≤ x.toNat * 2 ^ scale)
    (below : x.toNat * 2 ^ scale < 2 ^ (src.significandBits + 1)) :
    Extends src dst x.toNat
      (((x.setWidth dst.bits <<< (dst.significandBits - src.significandBits + scale)) ^^^
        minNormal dst) |||
          BitVec.ofInt dst.bits ((dst.bias : ℤ) - src.bias - scale + 1) <<<
            dst.significandBits).toNat := by
  have significand := widens.significand
  have exponent := widens.exponent
  have inside := significandBits_lt dst
  have width := width_eq widens
  have shifted : x.toNat * 2 ^ (dst.significandBits - src.significandBits + scale) =
      x.toNat * 2 ^ scale * 2 ^ (dst.significandBits - src.significandBits) := by
    rw [pow_add]
    ring
  have atLeast : 2 ^ dst.significandBits ≤
      x.toNat * 2 ^ (dst.significandBits - src.significandBits + scale) := by
    rw [shifted, width]
    exact Nat.mul_le_mul_right _ leading
  have lessThan : x.toNat * 2 ^ (dst.significandBits - src.significandBits + scale) <
      2 ^ (dst.significandBits + 1) := by
    rw [shifted, pow_succ', width, ← Nat.mul_assoc, ← pow_succ']
    exact Nat.mul_lt_mul_of_pos_right below (Nat.two_pow_pos _)
  have fits := lessThan.trans_le (Nat.pow_le_pow_right (by decide : 0 < 2) inside)
  have value := widens.value_subnormal covered leading below subnormal
  have finite : x.toNat < src.infinity := subnormal.trans_le (pow_le_infinity src)
  have double : 2 ^ (dst.significandBits + 1) = 2 * 2 ^ dst.significandBits := pow_succ' _ _
  have cleared : ((x.setWidth dst.bits <<<
      (dst.significandBits - src.significandBits + scale)) ^^^ minNormal dst).toNat =
        x.toNat * 2 ^ (dst.significandBits - src.significandBits + scale) -
          2 ^ dst.significandBits := by
    rw [BitVec.toNat_xor, toNat_shifted widens fits, toNat_minNormal,
      xor_two_pow atLeast lessThan]
  have rest : x.toNat * 2 ^ (dst.significandBits - src.significandBits + scale) -
      2 ^ dst.significandBits < 2 ^ dst.significandBits := by omega
  have result := @lt_infinity dst (dst.bias - src.bias - scale + 1) _ rest
    (by rw [infinityExponent_eq]; omega)
  have bound := result.trans ((infinity_lt dst).trans
    (Nat.pow_lt_pow_right (by decide) (magnitudeBits_lt dst)))
  have positive : ((dst.bias - src.bias - scale + 1 : ℕ) : ℤ) =
      (dst.bias : ℤ) - src.bias - scale + 1 := by
    rw [← rebias_eq widens]
    omega
  have upper : (BitVec.ofInt dst.bits ((dst.bias : ℤ) - src.bias - scale + 1) <<<
      dst.significandBits).toNat =
        (dst.bias - src.bias - scale + 1) * 2 ^ dst.significandBits := by
    rw [← positive, BitVec.ofInt_natCast, Packing.shiftLeft_ofNat, BitVec.toNat_ofNat, Nat.mul_comm]
    exact Nat.mod_eq_of_lt (by omega)
  rw [BitFields.toNat_or dst.significandBits (by rw [cleared]; exact rest)
    (by rw [upper, Nat.mul_mod_left]), cleared, upper, Extends, if_pos finite]
  rw [Nat.add_comm] at result
  exact ⟨result, value⟩

omit widens in
theorem extends_zero (src dst : Format) : Extends src dst 0 0 := by
  have source := pow_le_infinity src
  have target := pow_le_infinity dst
  have positive := Nat.two_pow_pos src.significandBits
  have some_ := Nat.two_pow_pos dst.significandBits
  rw [Extends, if_pos (by omega), value_zero, value_zero]
  exact ⟨by omega, rfl⟩

theorem Extends.lt {small large : ℕ} (extends_ : Extends src dst small large)
    (bound : small < 2 ^ src.magnitudeBits) : large < 2 ^ dst.magnitudeBits := by
  have source := infinity_add src
  have target := infinity_add dst
  have width := width_eq widens
  rw [Extends] at extends_
  split_ifs at extends_ with finite
  · exact extends_.1.trans (infinity_lt dst)
  · have payload : small - src.infinity < 2 ^ src.significandBits := by omega
    have scaled := Nat.mul_lt_mul_of_pos_right payload
      (Nat.two_pow_pos (dst.significandBits - src.significandBits))
    omega

omit widens in
theorem sub_lt_sub_iff (x : BitVec src.bits) :
    x - minNormal src < Rep.infinity src - minNormal src ↔
      2 ^ src.significandBits ≤ x.toNat ∧ x.toNat < src.infinity := by
  have least := toNat_minNormal src
  have top := toNat_infinity src
  have inside := pow_le_infinity src
  have bound := x.isLt
  have topBound := (Rep.infinity src).isLt
  rw [BitVec.lt_def, BitVec.toNat_sub_of_le (x := Rep.infinity src)
    (BitVec.le_def.mpr (by omega)), BitVec.toNat_sub, least, top]
  rw [top] at topBound
  by_cases normal : 2 ^ src.significandBits ≤ x.toNat
  · rw [show 2 ^ src.bits - 2 ^ src.significandBits + x.toNat =
      x.toNat - 2 ^ src.significandBits + 2 ^ src.bits by omega, Nat.add_mod_right,
      Nat.mod_eq_of_lt (by omega)]
    omega
  · rw [Nat.mod_eq_of_lt (by omega)]
    omega

theorem extends_extendAbs (promotion : ℕ) {x : BitVec src.bits}
    (bound : x.toNat < 2 ^ src.magnitudeBits) :
    Extends src dst x.toNat (extendAbs promotion src dst x).toNat := by
  have test := sub_lt_sub_iff x
  rw [extendAbs]
  split_ifs with normal infinite nonzero
  · exact extends_normal widens (test.mp normal).1 (test.mp normal).2
  · rw [BitVec.le_def, toNat_infinity] at infinite
    exact extends_infinite widens infinite bound
  · have some_ : x.toNat ≠ 0 := fun zero => nonzero (BitVec.eq_of_toNat_eq zero)
    have subnormal : x.toNat < 2 ^ src.significandBits := by
      rw [BitVec.le_def, toNat_infinity] at infinite
      by_contra above
      exact normal (test.mpr ⟨by omega, by omega⟩)
    rcases scale_bounds promotion some_ subnormal with ⟨scale, same, covered, leading, below⟩
    rw [same]
    exact extends_subnormal widens subnormal covered leading below
  · have zero : x = 0 := not_not.mp nonzero
    rw [zero]
    exact extends_zero src dst

theorem extends_magnitude (promotion : ℕ) (a : BitVec src.bits) :
    Extends src dst (magnitude a) (extendAbs promotion src dst (a &&& absMask src)).toNat := by
  have absolute := toNat_and_absMask a
  have bound := magnitude_lt a
  rw [← absolute] at bound
  have result := extends_extendAbs widens promotion bound
  rwa [absolute] at result

/-- The sign is put in front of the magnitude. -/
theorem fields_extendXfYf2 (promotion : ℕ) (a : BitVec src.bits) :
    magnitude (extendXfYf2 promotion src dst a) =
        (extendAbs promotion src dst (a &&& absMask src)).toNat ∧
      negative (extendXfYf2 promotion src dst a) = negative a := by
  have result := extends_magnitude widens promotion a
  exact signed_word (result.lt widens (magnitude_lt a)) (toNat_sign widens a)

end Magnitudes

/--
The extension keeps the sign. It keeps the value of every finite number, subnormal ones and
zeros as well, it takes infinity to infinity, and it moves the payload of a NaN to the left,
with the bit that makes it quiet.
-/
theorem extendXfYf2_exact {src dst : Format} (widens : Widens src dst) (promotion : ℕ)
    (a : BitVec src.bits) :
    negative (extendXfYf2 promotion src dst a) = negative a ∧
      Extends src dst (magnitude a) (magnitude (extendXfYf2 promotion src dst a)) := by
  have fields := fields_extendXfYf2 widens promotion a
  rw [fields.1, fields.2]
  exact ⟨rfl, extends_magnitude widens promotion a⟩

/-- The least half is a normal single. -/
theorem extendXfYf2_exact_least :
    negative (extendhfsf2 16 0x0001) = false ∧
      Extends half single 1 (magnitude (extendhfsf2 16 0x0001)) :=
  extendXfYf2_exact half_widens_single 16 (0x0001 : BitVec half.bits)

end USwift
