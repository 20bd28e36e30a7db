import Mathlib.Data.Nat.Digits.Lemmas

/-!
# Lists packed into a word

A list of equally wide units is packed into one bit vector with the first unit
lowest, as a little-endian machine stores it. Appending to the list is a shifted
addition, dropping from its front a shift, and taking from it a mask. Nothing
here depends on what the units are for.
-/

namespace Packing

variable {size : ℕ}

/-- The number whose digits are the units, lowest first. -/
def number (units : List (BitVec size)) : ℕ :=
  Nat.ofDigits (2 ^ size) (units.map BitVec.toNat)

/-- The units side by side in a word, the first one lowest. -/
def pack (width : ℕ) (units : List (BitVec size)) : BitVec width :=
  BitVec.ofNat width (number units)

@[simp]
theorem number_nil : number ([] : List (BitVec size)) = 0 := rfl

theorem number_cons (unit : BitVec size) (units : List (BitVec size)) :
    number (unit :: units) = unit.toNat + 2 ^ size * number units := by
  simp [number, Nat.ofDigits_cons]

theorem number_append (front back : List (BitVec size)) :
    number (front ++ back) = number front + 2 ^ (size * front.length) * number back := by
  simp [number, Nat.ofDigits_append, pow_mul]

theorem number_lt (units : List (BitVec size)) : number units < 2 ^ (size * units.length) := by
  induction units with
  | nil => simp
  | cons unit units shorter =>
      have bounded := unit.isLt
      rw [number_cons, List.length_cons, Nat.mul_succ, Nat.add_comm _ size, pow_add]
      calc unit.toNat + 2 ^ size * number units
          < 2 ^ size + 2 ^ size * number units := by omega
        _ = 2 ^ size * (number units + 1) := by ring
        _ ≤ 2 ^ size * 2 ^ (size * units.length) := Nat.mul_le_mul_left _ shorter

theorem toNat_pack {width : ℕ} {units : List (BitVec size)}
    (fits : size * units.length ≤ width) : (pack width units).toNat = number units := by
  rw [pack, BitVec.toNat_ofNat]
  exact Nat.mod_eq_of_lt ((number_lt units).trans_le (Nat.pow_le_pow_right (by omega) fits))

@[simp]
theorem pack_nil (width : ℕ) : pack width ([] : List (BitVec size)) = BitVec.ofNat width 0 := rfl

theorem pack_singleton {width : ℕ} (unit : BitVec size) :
    pack width [unit] = unit.setWidth width := by
  apply BitVec.eq_of_toNat_eq
  simp [pack, number_cons]

theorem shiftLeft_ofNat (width value amount : ℕ) :
    BitVec.ofNat width value <<< amount = BitVec.ofNat width (2 ^ amount * value) := by
  apply BitVec.eq_of_toNat_eq
  simp [Nat.shiftLeft_eq, Nat.mul_comm]

theorem pack_append (width : ℕ) (front back : List (BitVec size)) :
    pack width (front ++ back) =
      pack width front + pack width back <<< (size * front.length) := by
  rw [pack, pack, pack, shiftLeft_ofNat, ← BitVec.ofNat_add, number_append]

theorem or_shiftLeft_eq_add {width amount : ℕ} {low : BitVec width} (high : BitVec width)
    (bounded : low.toNat < 2 ^ amount) : low ||| high <<< amount = low + high <<< amount := by
  symm
  apply BitVec.add_eq_or_of_and_eq_zero
  apply BitVec.eq_of_getLsbD_eq
  intro index index_lt
  rw [BitVec.getLsbD_and, BitVec.getLsbD_shiftLeft, BitVec.getLsbD_zero]
  by_cases below : index < amount
  · simp [below]
  · have clear : low.getLsbD index = false := by
      rw [BitVec.getLsbD, Nat.testBit_lt_two_pow]
      exact bounded.trans_le (Nat.pow_le_pow_right (by omega) (by omega))
    simp [clear]

theorem toNat_or_shiftLeft {width amount : ℕ} {low : BitVec width} (high : BitVec width)
    (bounded : low.toNat < 2 ^ amount) (inside : amount ≤ width) :
    (low ||| high <<< amount).toNat =
      low.toNat + 2 ^ amount * (high.toNat % 2 ^ (width - amount)) := by
  have split : 2 ^ width = 2 ^ amount * 2 ^ (width - amount) := by
    rw [← pow_add, Nat.add_sub_cancel' inside]
  have shifted : (high <<< amount).toNat = 2 ^ amount * (high.toNat % 2 ^ (width - amount)) := by
    rw [BitVec.toNat_shiftLeft, Nat.shiftLeft_eq, split, Nat.mul_comm, Nat.mul_mod_mul_left]
  have high_lt : high.toNat % 2 ^ (width - amount) + 1 ≤ 2 ^ (width - amount) :=
    Nat.mod_lt _ (by positivity)
  have room := Nat.mul_le_mul_left (2 ^ amount) high_lt
  rw [or_shiftLeft_eq_add high bounded, BitVec.toNat_add, shifted]
  apply Nat.mod_eq_of_lt
  rw [split]
  rw [Nat.mul_add, Nat.mul_one] at room
  omega

theorem pack_append_or {width : ℕ} {front back : List (BitVec size)}
    (fits : size * front.length ≤ width) :
    pack width (front ++ back) =
      pack width front ||| pack width back <<< (size * front.length) := by
  rw [pack_append, or_shiftLeft_eq_add]
  rw [toNat_pack fits]
  exact number_lt front

/-- The number of the first units and that of the others. -/
theorem number_split {units : List (BitVec size)} {count : ℕ} (short : count ≤ units.length) :
    number units = number (units.take count) + 2 ^ (size * count) * number (units.drop count) ∧
      number (units.take count) < 2 ^ (size * count) := by
  have taken : (units.take count).length = count := List.length_take_of_le short
  have low := number_lt (units.take count)
  have split := number_append (units.take count) (units.drop count)
  rw [List.take_append_drop, taken] at split
  rw [taken] at low
  exact ⟨split, low⟩

theorem pack_drop {width : ℕ} {units : List (BitVec size)} (fits : size * units.length ≤ width)
    (count : ℕ) : pack width units >>> (size * count) = pack width (units.drop count) := by
  apply BitVec.eq_of_toNat_eq
  have dropFits : size * (units.drop count).length ≤ width :=
    (Nat.mul_le_mul_left size (by simp)).trans fits
  rw [BitVec.toNat_ushiftRight, toNat_pack fits, toNat_pack dropFits, Nat.shiftRight_eq_div_pow]
  by_cases short : count ≤ units.length
  · rcases number_split short with ⟨split, low⟩
    rw [split, Nat.add_mul_div_left _ _ (by positivity), Nat.div_eq_of_lt low, Nat.zero_add]
  · rw [List.drop_eq_nil_of_le (by omega), number_nil]
    apply Nat.div_eq_of_lt
    exact (number_lt units).trans_le
      (Nat.pow_le_pow_right (by omega) (Nat.mul_le_mul_left size (by omega)))

theorem number_take (units : List (BitVec size)) (count : ℕ) :
    number (units.take count) = number units % 2 ^ (size * count) := by
  by_cases short : count ≤ units.length
  · rcases number_split short with ⟨split, low⟩
    rw [split, Nat.add_mul_mod_self_left, Nat.mod_eq_of_lt low]
  · rw [List.take_of_length_le (by omega), Nat.mod_eq_of_lt]
    exact (number_lt units).trans_le
      (Nat.pow_le_pow_right (by omega) (Nat.mul_le_mul_left size (by omega)))

theorem pack_take {width count : ℕ} (exact : size * count = width) (units : List (BitVec size)) :
    pack width (units.take count) = pack width units := by
  apply BitVec.eq_of_toNat_eq
  rw [pack, pack, BitVec.toNat_ofNat, BitVec.toNat_ofNat, number_take, exact, Nat.mod_mod]

/-- The lowest units of a word, lowest first. -/
def unpack {width : ℕ} (size : ℕ) : ℕ → BitVec width → List (BitVec size)
  | 0, _ => []
  | count + 1, x => x.setWidth size :: unpack size count (x >>> size)

@[simp]
theorem length_unpack {width : ℕ} (count : ℕ) (x : BitVec width) :
    (unpack size count x).length = count := by
  induction count generalizing x with
  | zero => rfl
  | succ count shorter => simp [unpack, shorter]

theorem number_unpack {width : ℕ} (count : ℕ) (x : BitVec width) :
    number (unpack size count x) = x.toNat % 2 ^ (size * count) := by
  induction count generalizing x with
  | zero => simp [unpack, Nat.mod_one]
  | succ count shorter =>
      rw [unpack, number_cons, shorter, BitVec.toNat_setWidth, BitVec.toNat_ushiftRight,
        Nat.shiftRight_eq_div_pow, Nat.mul_succ, Nat.add_comm _ size, pow_add, Nat.mod_mul]

theorem pack_unpack {width target : ℕ} {count : ℕ} {x : BitVec width}
    (covers : x.toNat < 2 ^ (size * count)) :
    pack target (unpack size count x) = x.setWidth target := by
  apply BitVec.eq_of_toNat_eq
  rw [pack, BitVec.toNat_ofNat, number_unpack, Nat.mod_eq_of_lt covers, BitVec.toNat_setWidth]

theorem unpack_take {width : ℕ} {few many : ℕ} (fewer : few ≤ many) (x : BitVec width) :
    (unpack size many x).take few = unpack size few x := by
  induction few generalizing many x with
  | zero => rfl
  | succ few shorter =>
      cases many with
      | zero => omega
      | succ many => simp [unpack, shorter (show few ≤ many by omega)]

theorem eq_of_number_eq {units others : List (BitVec size)}
    (lengths : units.length = others.length) (numbers : number units = number others) :
    units = others := by
  induction units generalizing others with
  | nil => exact (List.length_eq_zero_iff.mp lengths.symm).symm
  | cons unit units shorter =>
      cases others with
      | nil => simp at lengths
      | cons other others =>
          rw [number_cons, number_cons] at numbers
          have unit_lt := unit.isLt
          have other_lt := other.isLt
          have low : unit.toNat = other.toNat := by
            have reduced := congrArg (· % 2 ^ size) numbers
            simpa [Nat.add_mul_mod_self_left, Nat.mod_eq_of_lt unit_lt,
              Nat.mod_eq_of_lt other_lt] using reduced
          have high : number units = number others := by
            rw [low] at numbers
            exact Nat.eq_of_mul_eq_mul_left (by positivity) (Nat.add_left_cancel numbers)
          rw [BitVec.eq_of_toNat_eq low, shorter (by simpa using lengths) high]

/-- Packing loses nothing that fits. -/
theorem unpack_pack {width : ℕ} {units : List (BitVec size)}
    (fits : size * units.length ≤ width) : unpack size units.length (pack width units) = units := by
  apply eq_of_number_eq (length_unpack _ _)
  rw [number_unpack, toNat_pack fits, Nat.mod_eq_of_lt (number_lt units)]

theorem pack_inj {width : ℕ} {units others : List (BitVec size)}
    (lengths : units.length = others.length) (fits : size * units.length ≤ width) :
    pack width units = pack width others ↔ units = others := by
  constructor
  · intro packed
    have numbers := congrArg BitVec.toNat packed
    rw [toNat_pack fits, toNat_pack (by rwa [← lengths])] at numbers
    exact eq_of_number_eq lengths numbers
  · intro same
    rw [same]

theorem pack_cons {width : ℕ} (unit : BitVec size) (units : List (BitVec size))
    (fits : size ≤ width) :
    pack width (unit :: units) = unit.setWidth width ||| pack width units <<< size := by
  have front : pack width ([unit] ++ units) =
      pack width [unit] ||| pack width units <<< (size * [unit].length) :=
    pack_append_or (by simpa using fits)
  simpa [pack_singleton] using front

theorem setWidth_pack_cons {width : ℕ} (unit : BitVec size) (units : List (BitVec size))
    (narrow : size ≤ width) : (pack width (unit :: units)).setWidth size = unit := by
  rw [pack_cons _ _ narrow]
  apply BitVec.eq_of_getLsbD_eq
  intro index index_lt
  simp [index_lt, show index < width by omega]

theorem setWidth_pack {width target : ℕ} (units : List (BitVec size)) (narrow : target ≤ width) :
    (pack width units).setWidth target = pack target units := by
  apply BitVec.eq_of_toNat_eq
  rw [pack, pack, BitVec.toNat_setWidth, BitVec.toNat_ofNat, BitVec.toNat_ofNat,
    Nat.mod_mod_of_dvd _ (pow_dvd_pow 2 narrow)]

theorem pack_and {width : ℕ} {units masks : List (BitVec size)}
    (lengths : units.length = masks.length) (fits : size * units.length ≤ width) :
    pack width units &&& pack width masks = pack width (List.zipWith (· &&& ·) units masks) := by
  induction units generalizing masks with
  | nil => simp
  | cons unit units shorter =>
      cases masks with
      | nil => simp at lengths
      | cons mask masks =>
          rw [List.length_cons, Nat.mul_succ] at fits
          have tails := shorter (by simpa using lengths) (by omega)
          rw [List.zipWith_cons_cons, pack_cons _ _ (by omega), pack_cons _ _ (by omega),
            pack_cons _ _ (by omega), ← tails, BitVec.shiftLeft_and_distrib,
            BitVec.setWidth_and]
          apply BitVec.eq_of_getLsbD_eq
          intro index index_lt
          simp only [BitVec.getLsbD_and, BitVec.getLsbD_or, BitVec.getLsbD_setWidth,
            BitVec.getLsbD_shiftLeft]
          by_cases low : index < size
          · simp [low]
          · have clear : unit.getLsbD index = false :=
              BitVec.getLsbD_of_ge _ _ (Nat.le_of_not_lt low)
            have maskClear : mask.getLsbD index = false :=
              BitVec.getLsbD_of_ge _ _ (Nat.le_of_not_lt low)
            simp [low, clear, maskClear]

theorem le_number_of_last (front : List (BitVec size)) {last : BitVec size}
    (nonzero : last ≠ 0) : 2 ^ (size * front.length) ≤ number (front ++ [last]) := by
  have positive : 1 ≤ last.toNat := by
    rw [Nat.one_le_iff_ne_zero]
    intro zero
    exact nonzero (BitVec.eq_of_toNat_eq zero)
  rw [number_append, number_cons, number_nil, Nat.mul_zero, Nat.add_zero]
  exact (Nat.le_mul_of_pos_right _ positive).trans (Nat.le_add_left _ _)

theorem number_map_add_one (positive : 0 < size) {units : List (BitVec size)}
    (noFull : ∀ unit ∈ units, unit ≠ BitVec.allOnes size) :
    number (units.map (· + 1)) =
      number units + number (List.replicate units.length (BitVec.ofNat size 1)) := by
  induction units with
  | nil => rfl
  | cons unit units shorter =>
      rw [List.forall_mem_cons] at noFull
      have one : (BitVec.ofNat size 1).toNat = 1 := by
        rw [BitVec.toNat_ofNat]
        exact Nat.mod_eq_of_lt (Nat.one_lt_two_pow (by omega))
      have bounded : unit.toNat + 1 < 2 ^ size := by
        have below := unit.isLt
        have notFull : unit.toNat ≠ 2 ^ size - 1 := by
          intro full
          apply noFull.1
          apply BitVec.eq_of_toNat_eq
          rw [full, BitVec.toNat_allOnes]
        omega
      have next : (unit + 1).toNat = unit.toNat + 1 := by
        rw [BitVec.toNat_add, show (1 : BitVec size).toNat = 1 from one]
        exact Nat.mod_eq_of_lt bounded
      rw [List.map_cons, number_cons, shorter noFull.2, number_cons, List.length_cons,
        List.replicate_succ, number_cons, next, one, Nat.mul_add]
      omega

theorem number_append_zeros (units : List (BitVec size)) (count : ℕ) :
    number (units ++ List.replicate count (BitVec.ofNat size 0)) = number units := by
  have zeros : number (List.replicate count (BitVec.ofNat size 0)) = 0 := by
    induction count with
    | zero => rfl
    | succ count shorter => simp [List.replicate_succ, number_cons, shorter]
  rw [number_append, zeros, Nat.mul_zero, Nat.add_zero]

theorem pack_append_zeros (width : ℕ) (units : List (BitVec size)) (count : ℕ) :
    pack width (units ++ List.replicate count (BitVec.ofNat size 0)) = pack width units := by
  rw [pack, number_append_zeros, pack]

theorem toNat_clz_lt {width : ℕ} {x : BitVec width} (nonzero : x ≠ 0) : x.clz.toNat < width := by
  have below := BitVec.toNat_lt_two_pow_sub_clz (x := x)
  by_contra all
  rw [Nat.sub_eq_zero_of_le (not_lt.mp all)] at below
  exact nonzero (BitVec.eq_of_toNat_eq (Nat.lt_one_iff.mp below))

/-- Dropping low bits that are not all of them adds as many zeros above the others. -/
theorem toNat_clz_ushiftRight {width amount : ℕ} {x : BitVec width} (remains : x >>> amount ≠ 0) :
    (x >>> amount).clz.toNat = x.clz.toNat + amount := by
  have nonzero : x ≠ 0 := by
    rintro rfl
    exact remains (by simp)
  have inside := toNat_clz_lt nonzero
  have inside' := toNat_clz_lt remains
  have atLeast := BitVec.two_pow_sub_clz_le_toNat_of_ne_zero (by omega) nonzero
  have below := BitVec.toNat_lt_two_pow_sub_clz (x := x)
  have atLeast' := BitVec.two_pow_sub_clz_le_toNat_of_ne_zero (by omega) remains
  have below' := BitVec.toNat_lt_two_pow_sub_clz (x := x >>> amount)
  rw [BitVec.toNat_ushiftRight, Nat.shiftRight_eq_div_pow] at atLeast' below'
  have few : 2 ^ (width - 1 - (x >>> amount).clz.toNat + amount) < 2 ^ (width - x.clz.toNat) := by
    rw [pow_add]
    exact ((Nat.le_div_iff_mul_le (Nat.two_pow_pos amount)).mp atLeast').trans_lt below
  have many : 2 ^ (width - 1 - x.clz.toNat) <
      2 ^ (width - (x >>> amount).clz.toNat + amount) := by
    rw [pow_add]
    exact atLeast.trans_lt ((Nat.div_lt_iff_lt_mul (Nat.two_pow_pos amount)).mp below')
  have atMost := (Nat.pow_lt_pow_iff_right (by decide)).mp few
  have atLeast := (Nat.pow_lt_pow_iff_right (by decide)).mp many
  omega

end Packing
