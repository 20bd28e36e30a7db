import USwift.Integer.Exactly
import USwift.Integer.Strideable

/-!
# Distances between integers

`BinaryInteger.distance(to:)` subtracts the smaller value of an unsigned type from the
larger one and adds the magnitudes of two signed values of different signs. It converts
the magnitude to `Int` and only then gives it its sign, so that a distance of `Int.min`
has no magnitude to convert.
-/

namespace USwift

open Heterogeneous TwosComplement

section Operations

variable {word : WordSize} {type : IntegerType}

/-- The distance that `distance(to:)` returns from one of its branches. -/
def distanceExactly (self other : Value word type) : Option (Value word .int) :=
  if !type.isSigned then
    if less word type other self then
      (initExactly word .int (self - other)).map fun result => -result
    else initExactly word .int (other - self)
  else
    let isNegative := less word type self 0
    if isNegative == less word type other 0 then initExactly word .int (other - self)
    else
      (initExactly word .int (magnitude word type self + magnitude word type other)).map
        fun result => if isNegative then result else -result

/-- `distance(to:)`, which returns zero behind a precondition that is not checked. -/
def distanceTo (self other : Value word type) : Value word .int :=
  (distanceExactly self other).getD 0

/-- `numericCast(_:)` to `Int`. -/
def numericCast (x : Value word .int) : Value word .int :=
  truncatingIfNeeded word .int .int x

end Operations

variable {word : WordSize} {type : IntegerType}

/-- The magnitude of a distance that has none in `Int`, or that loses its top bit on the way. -/
def MagnitudeLost (word : WordSize) (type : IntegerType) (difference : ℤ) : Prop :=
  difference = TwosComplement.minimum true word.bits ∨
    word = .word32 ∧ type.magnitude = .uint16 ∧ 2 ^ 15 ≤ |difference|

/-- `distance(to:)` forms the magnitude of a distance and does not get it into `Int`. -/
def LosesDistance (word : WordSize) (type : IntegerType) (start difference : ℤ) : Prop :=
  (type.isSigned = true → ¬ (start < 0 ↔ start + difference < 0)) ∧
    MagnitudeLost word type difference

instance (word : WordSize) (type : IntegerType) (difference : ℤ) :
    Decidable (MagnitudeLost word type difference) :=
  inferInstanceAs (Decidable (_ ∨ _))

instance (word : WordSize) (type : IntegerType) (start difference : ℤ) :
    Decidable (LosesDistance word type start difference) :=
  inferInstanceAs (Decidable (_ ∧ _))

theorem isSigned_magnitude (type : IntegerType) : type.magnitude.isSigned = false := by
  cases type <;> rfl

theorem magnitude_magnitude (type : IntegerType) : type.magnitude.magnitude = type.magnitude := by
  cases type <;> rfl

theorem faithfulBounds_int {source : IntegerType} {x : Value word source}
    (faithful : Faithful word source .int x) : FaithfulBounds word .int source x := by
  refine ⟨faithful, (faithful_iff word _ _ _).mpr ?_, (faithful_iff word _ _ _).mpr ?_⟩ <;>
  · rintro ⟨_, signed, _⟩
    cases signed

theorem int_bounds (word : WordSize) :
    TwosComplement.minimum true word.bits = -TwosComplement.maximum true word.bits - 1 ∧
      64 ≤ TwosComplement.maximum true word.bits :=
  ⟨minimum_true_eq _, by cases word <;> decide⟩

/-- The magnitude of a distance, given the sign of the distance once it is an `Int`. -/
def signedMagnitude {source : IntegerType} (difference : ℤ) (m : Value word source) :
    Option (Value word .int) :=
  (initExactly word .int m).map fun result => if difference < 0 then -result else result

theorem signedMagnitude_of_faithful {source : IntegerType} {m : Value word source}
    (faithful : Faithful word source .int m) {difference : ℤ}
    (fits : InRange word .int difference) (m_eq : toInt word source m = |difference|) :
    toInt word .int ((signedMagnitude difference m).getD 0) = difference ↔
      difference ≠ TwosComplement.minimum true word.bits := by
  have low : TwosComplement.minimum true word.bits ≤ difference := fits.1
  have high : difference ≤ TwosComplement.maximum true word.bits := fits.2
  rcases int_bounds word with ⟨least, positive⟩
  rw [signedMagnitude, (faithfulBounds_int faithful).initExactly_eq, m_eq]
  constructor
  · rintro found rfl
    have outside : ¬ InRange word .int |TwosComplement.minimum true word.bits| := by
      intro inside
      have below : |TwosComplement.minimum true word.bits| ≤
          TwosComplement.maximum true word.bits := inside.2
      rw [abs_of_nonpos (by omega)] at below
      omega
    rw [if_neg outside, Option.map_none, Option.getD_none, toInt_zero] at found
    omega
  · intro notLeast
    have bounds : -TwosComplement.maximum true word.bits ≤ difference := by omega
    have inside : InRange word .int |difference| := by
      have nonnegative := abs_nonneg difference
      have below : |difference| ≤ TwosComplement.maximum true word.bits := abs_le.mpr ⟨bounds, high⟩
      exact ⟨by change TwosComplement.minimum true word.bits ≤ _; omega, below⟩
    have converted := faithful.toInt_eq (m_eq ▸ inside.1) (m_eq ▸ inside.2)
    rw [if_pos inside, Option.map_some, Option.getD_some]
    split_ifs with backwards
    · rw [toInt_neg_of_bounds, converted, m_eq, abs_of_neg backwards, neg_neg] <;>
        rw [converted, m_eq, abs_of_neg backwards, neg_neg]
      · exact fits.1
      · exact fits.2
    · rw [converted, m_eq, abs_of_nonneg (not_lt.mp backwards)]

/-- A conversion that is not faithful reads a large `UInt16` as a negative number. -/
theorem signedMagnitude_of_not_faithful {source : IntegerType} {m : Value word source}
    (unfaithful : ¬ Faithful word source .int m) {difference : ℤ}
    (m_eq : toInt word source m = |difference|) :
    toInt word .int ((signedMagnitude difference m).getD 0) ≠ difference := by
  rw [faithful_iff, not_not] at unfaithful
  rcases unfaithful with ⟨rfl, rfl, _, negative⟩
  have large := (msb_uint16_iff m).mp negative
  have small : toInt .word32 .uint16 m < 2 ^ 16 := Int.ofNat_lt.mpr (BitVec.isLt m)
  have exact : initExactly .word32 .int m = some (m.signExtend 32) := by
    have converted : truncatingIfNeeded .word32 .int .uint16 m = m.signExtend 32 :=
      (truncatingIfNeeded_uint16_word32 m).trans (BitVec.setWidth_eq _)
    rw [initExactly, if_pos rfl, SignedInteger.initExactly, converted]
    rfl
  have extended : toInt .word32 .int (m.signExtend 32) = toInt .word32 .uint16 m - 2 ^ 16 := by
    have signed : toInt .word32 .int (m.signExtend 32) = BitVec.toInt m :=
      BitVec.toInt_signExtend_of_le (by decide)
    rw [signed, BitVec.toInt_eq_msb_cond, if_pos negative]
    rfl
  rw [signedMagnitude, exact, Option.map_some, Option.getD_some]
  split_ifs with backwards
  · have low : TwosComplement.minimum true 32 = -2 ^ 31 := rfl
    have high : TwosComplement.maximum true 32 = 2 ^ 31 - 1 := rfl
    rw [abs_of_neg backwards] at m_eq
    rw [toInt_neg_of_bounds, extended, m_eq]
    · omega
    · change TwosComplement.minimum true 32 ≤ _
      omega
    · change _ ≤ TwosComplement.maximum true 32
      omega
  · rw [extended, m_eq, abs_of_nonneg (not_lt.mp backwards)]
    omega

theorem signedMagnitude_iff {source : IntegerType} (unsigned : source.magnitude = source)
    {m : Value word source} {difference : ℤ}
    (fits : InRange word .int difference) (m_eq : toInt word source m = |difference|) :
    toInt word .int ((signedMagnitude difference m).getD 0) = difference ↔
      ¬ MagnitudeLost word source difference := by
  have faithful : Faithful word source .int m ↔
      ¬ (word = .word32 ∧ source.magnitude = .uint16 ∧ 2 ^ 15 ≤ |difference|) := by
    rw [faithful_iff, unsigned, not_iff_not]
    constructor
    · rintro ⟨rfl, rfl, _, negative⟩
      exact ⟨rfl, rfl, m_eq ▸ (msb_uint16_iff m).mp negative⟩
    · rintro ⟨rfl, rfl, large⟩
      exact ⟨rfl, rfl, by decide, (msb_uint16_iff m).mpr (m_eq ▸ large)⟩
  rw [MagnitudeLost, not_or, ← faithful]
  by_cases held : Faithful word source .int m
  · rw [signedMagnitude_of_faithful held fits m_eq, and_iff_left held]
  · exact iff_of_false (signedMagnitude_of_not_faithful held m_eq) fun both => held both.2

theorem unsigned_distanceExactly (unsigned : type.isSigned = false) (a b : Value word type) :
    ∃ m : Value word type, toInt word type m = |toInt word type b - toInt word type a| ∧
      distanceExactly a b = signedMagnitude (toInt word type b - toInt word type a) m := by
  have a_low := minimum_le_toInt a
  have a_high := toInt_le_maximum a
  have b_low := minimum_le_toInt b
  have b_high := toInt_le_maximum b
  have least : TwosComplement.minimum type.isSigned (type.bitWidth word) = 0 := by
    rw [unsigned]
    rfl
  have kind : (!type.isSigned) = true := by rw [unsigned]; rfl
  rw [distanceExactly, if_pos kind]
  by_cases backwards : toInt word type b < toInt word type a
  · refine ⟨a - b, ?_, ?_⟩
    · rw [toInt_sub (by omega) (by omega), abs_of_neg (by omega), neg_sub]
    · simp only [signedMagnitude, if_pos (less_iff.mpr backwards), sub_neg.mpr backwards, if_true]
  · refine ⟨b - a, ?_, ?_⟩
    · rw [toInt_sub (by omega) (by omega), abs_of_nonneg (by omega)]
    · have forwards : ¬ toInt word type b - toInt word type a < 0 := by omega
      rw [if_neg (less_iff.not.mpr backwards), signedMagnitude]
      simp only [forwards, if_false, Option.map_id']

/-- Values of different signs are as far apart as the sum of their magnitudes. -/
theorem signed_distanceExactly (signed : type.isSigned = true) {a b : Value word type}
    (signs : ¬ (toInt word type a < 0 ↔ toInt word type b < 0)) :
    ∃ m : Value word type.magnitude,
      toInt word type.magnitude m = |toInt word type b - toInt word type a| ∧
      distanceExactly a b = signedMagnitude (toInt word type b - toInt word type a) m := by
  have kind : ¬ (!type.isSigned) = true := by simp [signed]
  have tests : ¬ (less word type a 0 == less word type b 0) = true := by
    rw [beq_iff_eq, Bool.eq_iff_iff, less_iff, less_iff, toInt_zero]
    exact signs
  have apart : |toInt word type a| + |toInt word type b| =
      |toInt word type b - toInt word type a| := by
    rcases abs_cases (toInt word type a) with ⟨left, _⟩ | ⟨left, _⟩ <;>
      rcases abs_cases (toInt word type b) with ⟨right, _⟩ | ⟨right, _⟩ <;>
      rcases abs_cases (toInt word type b - toInt word type a) with ⟨both, _⟩ | ⟨both, _⟩ <;>
      omega
  have spread : |toInt word type b - toInt word type a| ≤
      TwosComplement.maximum type.isSigned (type.bitWidth word) -
        TwosComplement.minimum type.isSigned (type.bitWidth word) := by
    have a_low := minimum_le_toInt a
    have a_high := toInt_le_maximum a
    have b_low := minimum_le_toInt b
    have b_high := toInt_le_maximum b
    rw [abs_le]
    constructor <;> omega
  have width : TwosComplement.maximum type.isSigned (type.bitWidth word) -
      TwosComplement.minimum type.isSigned (type.bitWidth word) =
        TwosComplement.maximum type.magnitude.isSigned (type.magnitude.bitWidth word) := by
    cases word <;> cases type <;> decide
  have least :
      TwosComplement.minimum type.magnitude.isSigned (type.magnitude.bitWidth word) = 0 := by
    rw [isSigned_magnitude]
    rfl
  have nonnegative := abs_nonneg (toInt word type b - toInt word type a)
  refine ⟨magnitude word type a + magnitude word type b, ?_, ?_⟩
  · rw [toInt_add, toInt_magnitude signed, toInt_magnitude signed, apart] <;>
      rw [toInt_magnitude signed, toInt_magnitude signed, apart]
    · omega
    · omega
  · rw [distanceExactly, if_neg kind]
    simp only [if_neg tests, signedMagnitude]
    congr 1
    funext result
    -- The first value is negative exactly when the distance is not.
    have sign : less word type a 0 = true ↔ ¬ toInt word type b - toInt word type a < 0 := by
      rw [less_iff, toInt_zero]
      omega
    by_cases negative : toInt word type b - toInt word type a < 0
    · rw [if_neg (sign.not.mpr (not_not.mpr negative)), if_pos negative]
    · rw [if_pos (sign.mpr negative), if_neg negative]

theorem toInt_distanceTo_of_same_sign (signed : type.isSigned = true) {a b : Value word type}
    (signs : toInt word type a < 0 ↔ toInt word type b < 0)
    (fits : InRange word .int (toInt word type b - toInt word type a)) :
    toInt word .int (distanceTo a b) = toInt word type b - toInt word type a := by
  have kind : ¬ (!type.isSigned) = true := by simp [signed]
  have tests : (less word type a 0 == less word type b 0) = true := by
    rw [beq_iff_eq, Bool.eq_iff_iff, less_iff, less_iff, toInt_zero]
    exact signs
  have faithful : Faithful word type .int (b - a) :=
    (faithful_iff word type .int _).mpr fun irregular => by
      rw [irregular.2.1] at signed
      exact Bool.false_ne_true signed
  have difference : toInt word type (b - a) = toInt word type b - toInt word type a := by
    have a_low := minimum_le_toInt a
    have a_high := toInt_le_maximum a
    have b_low := minimum_le_toInt b
    have b_high := toInt_le_maximum b
    rw [signed] at a_low a_high b_low b_high
    simp only [TwosComplement.minimum, TwosComplement.maximum, if_true] at a_low a_high b_low b_high
    apply toInt_sub <;> rw [signed] <;>
      simp only [TwosComplement.minimum, TwosComplement.maximum, if_true] <;> omega
  rw [distanceTo, distanceExactly, if_neg kind]
  simp only [if_pos tests, (faithfulBounds_int faithful).initExactly_eq, difference, if_pos fits,
    Option.getD_some]
  rw [faithful.toInt_eq (difference ▸ fits.1) (difference ▸ fits.2), difference]

theorem magnitudeLost_magnitude (word : WordSize) (type : IntegerType) (difference : ℤ) :
    MagnitudeLost word type.magnitude difference ↔ MagnitudeLost word type difference := by
  rw [MagnitudeLost, MagnitudeLost, magnitude_magnitude]

/-- `distance(to:)` of two values whose difference is an `Int`. -/
theorem toInt_distanceTo_iff {a b : Value word type}
    (fits : InRange word .int (toInt word type b - toInt word type a)) :
    toInt word .int (distanceTo a b) = toInt word type b - toInt word type a ↔
      ¬ LosesDistance word type (toInt word type a) (toInt word type b - toInt word type a) := by
  have signs : toInt word type a + (toInt word type b - toInt word type a) = toInt word type b := by
    omega
  rw [LosesDistance, signs]
  cases signed : type.isSigned with
  | false =>
      have own : type.magnitude = type := by
        revert signed
        cases type <;> simp
      rcases unsigned_distanceExactly signed a b with ⟨m, m_eq, found⟩
      rw [distanceTo, found, signedMagnitude_iff own fits m_eq]
      simp
  | true =>
      by_cases same : toInt word type a < 0 ↔ toInt word type b < 0
      · exact iff_of_true (toInt_distanceTo_of_same_sign signed same fits)
          fun lost => lost.1 rfl same
      · rcases signed_distanceExactly signed same with ⟨m, m_eq, found⟩
        rw [distanceTo, found, signedMagnitude_iff (magnitude_magnitude type) fits m_eq,
          magnitudeLost_magnitude]
        simp [same]

theorem not_movesBackwards {a : ℤ} {n : Value word .int}
    (kept : ¬ LosesDistance word type a (toInt word .int n)) : ¬ MovesBackwards word type n := by
  rintro ⟨unsigned, _, rfl⟩
  have least : toInt word .int (BitVec.intMin _) = TwosComplement.minimum true word.bits := by
    cases word <;> decide
  exact kept ⟨fun signed => by simp [unsigned] at signed, Or.inl least⟩

/-- `advanced(by:)` is exact where its result is a value and the distance is not reversed. -/
theorem toInt_advanced {x : Value word type} {n : Value word .int}
    (forwards : ¬ MovesBackwards word type n)
    (inside : InRange word type (toInt word type x + toInt word .int n)) :
    toInt word type (advanced word type x n) = toInt word type x + toInt word .int n := by
  have congruent := toInt_advanced_modEq x n
  rw [moved, if_neg forwards] at congruent
  exact eq_of_modEq_of_bounds (type.bitWidth_pos word) congruent (minimum_le_toInt _)
    (toInt_le_maximum _) inside.1 inside.2

theorem numericCast_eq (x : Value word .int) : numericCast x = x := by
  have faithful : numericCast x =
      TwosComplement.extend true (IntegerType.int.bitWidth word) x := faithful_int x
  rw [faithful, TwosComplement.extend_self]

theorem toInt_one_int (word : WordSize) : toInt word .int 1 = 1 := by
  cases word <;> decide

theorem toInt_neg_one_int (word : WordSize) : toInt word .int (-1) = -1 := by
  cases word <;> decide

/-- The bounds of `Int`, with their names. -/
theorem toInt_int_add {a b : Value word .int}
    (low : TwosComplement.minimum true word.bits ≤ toInt word .int a + toInt word .int b)
    (high : toInt word .int a + toInt word .int b ≤ TwosComplement.maximum true word.bits) :
    toInt word .int (a + b) = toInt word .int a + toInt word .int b :=
  toInt_add low high

theorem toInt_int_sub {a b : Value word .int}
    (low : TwosComplement.minimum true word.bits ≤ toInt word .int a - toInt word .int b)
    (high : toInt word .int a - toInt word .int b ≤ TwosComplement.maximum true word.bits) :
    toInt word .int (a - b) = toInt word .int a - toInt word .int b :=
  toInt_sub low high

/--
For values whose difference is an `Int` the distance is the difference and leads from the one
to the other, and a move that ends at a value is by the distance that it is said to be by,
exactly when the distance is not lost as a magnitude.
-/
theorem distances_iff (word : WordSize) (type : IntegerType) :
    (∀ a b : Value word type, InRange word .int (toInt word type b - toInt word type a) →
      ((toInt word .int (distanceTo a b) = toInt word type b - toInt word type a ∧
          advanced word type a (distanceTo a b) = b) ↔
        ¬ LosesDistance word type (toInt word type a)
          (toInt word type b - toInt word type a))) ∧
    ∀ (a : Value word type) (n : Value word .int),
      InRange word type (toInt word type a + toInt word .int n) →
      ((toInt word type (advanced word type a n) = toInt word type a + toInt word .int n ∧
          distanceTo a (advanced word type a n) = n) ↔
        ¬ LosesDistance word type (toInt word type a) (toInt word .int n)) := by
  constructor
  · intro a b fits
    have measured := toInt_distanceTo_iff fits
    refine ⟨fun right => measured.mp right.1, fun kept => ⟨measured.mpr kept, ?_⟩⟩
    have exact := measured.mpr kept
    have target : toInt word type a + toInt word .int (distanceTo a b) = toInt word type b := by
      omega
    rw [← exact] at kept
    apply toInt_injective
    rw [toInt_advanced (not_movesBackwards kept) (target ▸ inRange_toInt b), target]
  · intro a n inside
    have reached (moves : toInt word type (advanced word type a n) =
        toInt word type a + toInt word .int n) :
        toInt word type (advanced word type a n) - toInt word type a = toInt word .int n := by
      omega
    constructor
    · rintro ⟨moves, back⟩
      have measured := toInt_distanceTo_iff (reached moves ▸ inRange_toInt n)
      rw [reached moves, back] at measured
      exact measured.mp rfl
    · intro kept
      have moves := toInt_advanced (not_movesBackwards kept) inside
      have measured := toInt_distanceTo_iff (reached moves ▸ inRange_toInt n)
      rw [reached moves] at measured
      exact ⟨moves, toInt_injective (measured.mpr kept)⟩

/-- The distance from 3 to -4. -/
theorem int_distance_backwards :
    toInt .word16 .int (@distanceTo .word16 .int 3 (-4)) =
        toInt .word16 .int (-4) - toInt .word16 .int 3 ∧
      advanced .word16 .int 3 (@distanceTo .word16 .int 3 (-4)) = -4 :=
  ((distances_iff .word16 .int).1 3 (-4) (by decide)).mpr (by decide)

/-- The distance from 1 to `-32767`, which is `Int.min` on the 16-bit configuration. -/
theorem distance_of_int_min :
    ¬ ∀ (word : WordSize) (type : IntegerType) (a b : Value word type),
      InRange word .int (toInt word type b - toInt word type a) →
        toInt word .int (distanceTo a b) = toInt word type b - toInt word type a := by
  intro distances
  have failing := distances .word16 .int 1 (-32767) (by decide)
  revert failing
  decide

end USwift
