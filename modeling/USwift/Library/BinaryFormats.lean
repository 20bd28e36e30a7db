import Mathlib.Algebra.Order.Field.Basic
import Mathlib.Algebra.Order.Field.Power
import Mathlib.Algebra.Order.Field.Rat
import Mathlib.Algebra.Order.Group.Unbundled.Abs
import Mathlib.Order.Monotone.Basic
import Mathlib.Tactic.Linarith
import Mathlib.Tactic.Positivity
import Mathlib.Tactic.Ring
import Mathlib.Tactic.FieldSimp
import USwift.Library.BitFields

/-!
# Binary floating-point formats

A format is the widths of its exponent and its significand. The magnitudes below infinity,
read as numbers, are in the order of the values that they stand for, and their gaps are
powers of two. Rounding goes to the nearest magnitude, on ties to the even one, where infinity
counts as the power of two that would follow the largest finite value.
-/

namespace BinaryFormats

/-- The widths of the fields of a format. -/
structure Format where
  exponentBits : ℕ
  significandBits : ℕ
  one_lt_exponentBits : 1 < exponentBits
  significandBits_pos : 0 < significandBits

namespace Format

variable (f : Format)

def magnitudeBits : ℕ := f.exponentBits + f.significandBits

def bits : ℕ := f.magnitudeBits + 1

def infinityExponent : ℕ := 2 ^ f.exponentBits - 1

def bias : ℕ := f.infinityExponent / 2

/-- The magnitude of infinity. Larger ones are not numbers. -/
def infinity : ℕ := f.infinityExponent * 2 ^ f.significandBits

/-- How many times the least nonzero value a magnitude stands for. -/
def multiple (magnitude : ℕ) : ℕ :=
  if magnitude / 2 ^ f.significandBits = 0 then magnitude % 2 ^ f.significandBits
  else (2 ^ f.significandBits + magnitude % 2 ^ f.significandBits) *
    2 ^ (magnitude / 2 ^ f.significandBits - 1)

def leastNonzero : ℚ := 2 ^ (1 - f.bias - f.significandBits : ℤ)

/-- The value that a magnitude stands for. -/
def value (magnitude : ℕ) : ℚ := f.multiple magnitude * f.leastNonzero

/-- The exponent of the largest power of two up to a value. -/
def exponent (magnitude : ℕ) : ℤ :=
  if magnitude < 2 ^ f.significandBits then (magnitude.log2 : ℤ) + 1 - f.bias - f.significandBits
  else (magnitude / 2 ^ f.significandBits : ℕ) - f.bias

/-- The distance from a magnitude to the next one, as a multiple of the least nonzero value. -/
def gap (magnitude : ℕ) : ℕ := 2 ^ (magnitude / 2 ^ f.significandBits - 1)

/-- A magnitude is nearest to a value, and even if another one is as near. -/
structure RoundsTo (x : ℚ) (magnitude : ℕ) : Prop where
  le_infinity : magnitude ≤ f.infinity
  nearest : ∀ other ≤ f.infinity, other ≠ magnitude →
    |x - f.value magnitude| < |x - f.value other| ∨
      |x - f.value magnitude| = |x - f.value other| ∧ Even magnitude

variable {f}

theorem leastNonzero_pos : 0 < f.leastNonzero := by
  rw [leastNonzero]
  positivity

theorem gap_pos (magnitude : ℕ) : 0 < f.gap magnitude := Nat.two_pow_pos _

theorem multiple_fields {exponent significand : ℕ} (fits : significand < 2 ^ f.significandBits) :
    f.multiple (exponent * 2 ^ f.significandBits + significand) =
      if exponent = 0 then significand
      else (2 ^ f.significandBits + significand) * 2 ^ (exponent - 1) := by
  have field : (exponent * 2 ^ f.significandBits + significand) / 2 ^ f.significandBits =
      exponent := by
    rw [Nat.add_comm, Nat.add_mul_div_right _ _ (Nat.two_pow_pos _), Nat.div_eq_of_lt fits,
      Nat.zero_add]
  have rest : (exponent * 2 ^ f.significandBits + significand) % 2 ^ f.significandBits =
      significand := by
    rw [Nat.add_comm, Nat.add_mul_mod_self_right, Nat.mod_eq_of_lt fits]
  rw [multiple, field, rest]

theorem fields (f : Format) (magnitude : ℕ) :
    magnitude / 2 ^ f.significandBits * 2 ^ f.significandBits +
      magnitude % 2 ^ f.significandBits = magnitude := by
  rw [Nat.mul_comm]
  exact Nat.div_add_mod _ _

/-- The next magnitude stands for the value one gap further. -/
theorem multiple_succ (magnitude : ℕ) :
    f.multiple (magnitude + 1) = f.multiple magnitude + f.gap magnitude := by
  have positive : 0 < 2 ^ f.significandBits := Nat.two_pow_pos _
  have fits := Nat.mod_lt magnitude positive
  have split := fields f magnitude
  rw [gap]
  generalize magnitude / 2 ^ f.significandBits = exponent at split ⊢
  generalize magnitude % 2 ^ f.significandBits = significand at fits split
  subst split
  by_cases last : significand + 1 = 2 ^ f.significandBits
  · have next : exponent * 2 ^ f.significandBits + significand + 1 =
        (exponent + 1) * 2 ^ f.significandBits + 0 := by
      rw [Nat.add_mul]
      omega
    rw [next, multiple_fields positive, multiple_fields fits, if_neg (Nat.succ_ne_zero _),
      Nat.add_zero, Nat.add_sub_cancel]
    cases exponent with
    | zero => simpa using last.symm
    | succ exponent =>
        rw [if_neg (Nat.succ_ne_zero _), Nat.add_sub_cancel, ← Nat.succ_mul, pow_succ]
        have double : (2 ^ f.significandBits + significand).succ = 2 ^ f.significandBits * 2 := by
          omega
        rw [double]
        ring
  · rw [Nat.add_assoc, multiple_fields (by omega), multiple_fields fits]
    cases exponent with
    | zero => simp
    | succ exponent =>
        rw [if_neg (Nat.succ_ne_zero _), if_neg (Nat.succ_ne_zero _)]
        ring

theorem multiple_strictMono : StrictMono f.multiple := by
  apply strictMono_nat_of_lt_succ
  intro magnitude
  rw [multiple_succ]
  exact Nat.lt_add_of_pos_right (gap_pos magnitude)

theorem value_succ (magnitude : ℕ) :
    f.value (magnitude + 1) = f.value magnitude + f.gap magnitude * f.leastNonzero := by
  rw [value, value, multiple_succ]
  push_cast
  ring

theorem value_strictMono : StrictMono f.value := by
  intro first second less
  have lower : (f.multiple first : ℚ) < f.multiple second := by
    exact_mod_cast multiple_strictMono less
  exact mul_lt_mul_of_pos_right lower leastNonzero_pos

theorem value_le_value {first second : ℕ} : f.value first ≤ f.value second ↔ first ≤ second :=
  value_strictMono.le_iff_le

theorem value_zero : f.value 0 = 0 := by
  simp [value, multiple]

section Exponents

theorem two_zpow_split (exponent : ℤ) (bits : ℕ) :
    (2 : ℚ) ^ exponent = 2 ^ bits * 2 ^ (exponent - bits) := by
  rw [← zpow_natCast, ← zpow_add₀ (by norm_num)]
  congr 1
  omega

/-- The value of a number whose leading bit is implied. -/
theorem value_of_normal {magnitude : ℕ} (normal : 2 ^ f.significandBits ≤ magnitude) :
    f.value magnitude = (2 ^ f.significandBits + (magnitude % 2 ^ f.significandBits : ℕ)) *
      2 ^ (f.exponent magnitude - f.significandBits) := by
  have field : 0 < magnitude / 2 ^ f.significandBits := Nat.div_pos normal (Nat.two_pow_pos _)
  have two : (2 : ℚ) ≠ 0 := by norm_num
  rw [value, multiple, if_neg field.ne', exponent, if_neg (Nat.not_lt.mpr normal), leastNonzero]
  generalize magnitude / 2 ^ f.significandBits = number at field ⊢
  push_cast
  rw [mul_assoc, ← zpow_natCast, ← zpow_natCast, ← zpow_add₀ two]
  congr 2
  omega

/-- The value of a magnitude given by its exponent, without the bias, and its significand. -/
theorem value_fields {exponent significand : ℕ} (nonzero : exponent ≠ 0)
    (fits : significand < 2 ^ f.significandBits) :
    f.value (exponent * 2 ^ f.significandBits + significand) =
      (2 ^ f.significandBits + significand) *
        2 ^ (exponent - f.bias - f.significandBits : ℤ) := by
  have normal : 2 ^ f.significandBits ≤ exponent * 2 ^ f.significandBits + significand :=
    (Nat.le_mul_of_pos_left _ (Nat.pos_of_ne_zero nonzero)).trans (Nat.le_add_right _ _)
  have field : (exponent * 2 ^ f.significandBits + significand) / 2 ^ f.significandBits =
      exponent := by
    rw [Nat.add_comm, Nat.add_mul_div_right _ _ (Nat.two_pow_pos _), Nat.div_eq_of_lt fits,
      Nat.zero_add]
  rw [value_of_normal normal, Format.exponent, if_neg (Nat.not_lt.mpr normal), field,
    Nat.add_comm, Nat.add_mul_mod_self_right, Nat.mod_eq_of_lt fits]

theorem value_of_subnormal {magnitude : ℕ} (subnormal : magnitude < 2 ^ f.significandBits) :
    f.value magnitude = magnitude * 2 ^ (f.exponent magnitude - magnitude.log2) := by
  rw [value, multiple, Nat.div_eq_of_lt subnormal, if_pos rfl, Nat.mod_eq_of_lt subnormal,
    exponent, if_pos subnormal, leastNonzero]
  congr 2
  omega

/-- A value lies between two consecutive powers of two. -/
theorem value_bounds {magnitude : ℕ} (nonzero : magnitude ≠ 0) :
    2 ^ f.exponent magnitude ≤ f.value magnitude ∧
      f.value magnitude < 2 ^ (f.exponent magnitude + 1) := by
  have two : (2 : ℚ) ≠ 0 := by norm_num
  by_cases normal : 2 ^ f.significandBits ≤ magnitude
  · have fits : ((magnitude % 2 ^ f.significandBits : ℕ) : ℚ) < 2 ^ f.significandBits := by
      exact_mod_cast Nat.mod_lt magnitude (Nat.two_pow_pos _)
    have positive : (0 : ℚ) < 2 ^ (f.exponent magnitude - f.significandBits) := by positivity
    have whole := two_zpow_split (f.exponent magnitude) f.significandBits
    have nonnegative : (0 : ℚ) ≤ (magnitude % 2 ^ f.significandBits : ℕ) := Nat.cast_nonneg _
    rw [value_of_normal normal, zpow_add_one₀ two, whole]
    constructor
    · nlinarith
    · nlinarith
  · have least := Nat.log2_self_le nonzero
    have most := @Nat.lt_log2_self magnitude
    have least : (2 : ℚ) ^ magnitude.log2 ≤ magnitude := by exact_mod_cast least
    have most : (magnitude : ℚ) < 2 ^ magnitude.log2 * 2 := by
      rw [← pow_succ]
      exact_mod_cast most
    have positive : (0 : ℚ) < 2 ^ (f.exponent magnitude - magnitude.log2) := by positivity
    have whole := two_zpow_split (f.exponent magnitude) magnitude.log2
    rw [value_of_subnormal (Nat.lt_of_not_le normal), zpow_add_one₀ two, whole]
    constructor
    · nlinarith
    · nlinarith

end Exponents

section Rounding

variable {x : ℚ} {magnitude other : ℕ}

theorem RoundsTo.unique (first : f.RoundsTo x magnitude) (second : f.RoundsTo x other) :
    magnitude = other := by
  by_contra different
  wlog less : magnitude < other generalizing magnitude other
  · exact this second first (Ne.symm different) (by omega)
  rcases first.nearest other second.le_infinity (Ne.symm different) with nearer | ⟨tie, even⟩
  · rcases second.nearest magnitude first.le_infinity different with further | ⟨tie, _⟩
    · exact absurd nearer (not_lt.mpr further.le)
    · exact absurd tie.symm nearer.ne
  · rcases second.nearest magnitude first.le_infinity different with further | ⟨_, evenOther⟩
    · exact absurd tie further.ne'
    · -- Between two even magnitudes that are as near there is a nearer one.
      have between : magnitude + 1 < other := by
        rcases even with ⟨half, rfl⟩
        rcases evenOther with ⟨otherHalf, rfl⟩
        omega
      have below := value_strictMono (f := f) (Nat.lt_succ_self magnitude)
      have above := value_strictMono (f := f) between
      have bound := second.le_infinity
      have nearest := first.nearest (magnitude + 1) (by omega) (by omega)
      have middle : 2 * x = f.value magnitude + f.value other := by
        rcases abs_eq_abs.mp tie with same | opposite
        · linarith
        · linarith
      have outer : |x - f.value magnitude| = x - f.value magnitude :=
        abs_of_nonneg (by linarith)
      have inner : |x - f.value (magnitude + 1)| < x - f.value magnitude :=
        abs_lt.mpr ⟨by linarith, by linarith⟩
      rcases nearest with nearer | ⟨same, _⟩
      · linarith
      · linarith

/-- Rounding does not go beyond a value of the format. -/
theorem RoundsTo.le_of_le (rounds : f.RoundsTo x magnitude) (fits : other ≤ f.infinity)
    (below : x ≤ f.value other) : magnitude ≤ other := by
  by_contra greater
  have less := value_strictMono (f := f) (Nat.lt_of_not_le greater)
  have nearest := rounds.nearest other fits (by omega)
  rw [abs_sub_comm, abs_of_nonneg (by linarith), abs_sub_comm, abs_of_nonneg (by linarith)]
    at nearest
  rcases nearest with nearer | ⟨tie, _⟩
  · linarith
  · linarith

theorem RoundsTo.ge_of_ge (rounds : f.RoundsTo x magnitude) (fits : other ≤ f.infinity)
    (above : f.value other ≤ x) : other ≤ magnitude := by
  by_contra smaller
  have less := value_strictMono (f := f) (Nat.lt_of_not_le smaller)
  have nearest := rounds.nearest other fits (by omega)
  rw [abs_of_nonneg (by linarith), abs_of_nonneg (by linarith)] at nearest
  rcases nearest with nearer | ⟨tie, _⟩
  · linarith
  · linarith

theorem roundsTo_value (below : magnitude ≤ f.infinity) :
    f.RoundsTo (f.value magnitude) magnitude := by
  refine ⟨below, ?_⟩
  intro other _ different
  left
  rw [sub_self, abs_zero]
  apply abs_pos.mpr
  intro same
  exact different (value_strictMono.injective (sub_eq_zero.mp same)).symm

theorem roundsTo_infinity (above : f.value f.infinity ≤ x) : f.RoundsTo x f.infinity := by
  refine ⟨le_rfl, ?_⟩
  intro other below different
  left
  have less := value_strictMono (f := f) (Nat.lt_of_le_of_ne below different)
  rw [abs_of_nonneg (by linarith), abs_of_nonneg (by linarith)]
  linarith

theorem roundsTo_lower (below : magnitude < f.infinity) (atLeast : f.value magnitude ≤ x)
    (nearer : x - f.value magnitude ≤ f.value (magnitude + 1) - x)
    (even : x - f.value magnitude = f.value (magnitude + 1) - x → Even magnitude) :
    f.RoundsTo x magnitude := by
  refine ⟨below.le, ?_⟩
  intro other _ different
  rw [abs_of_nonneg (sub_nonneg.mpr atLeast)]
  rcases Nat.lt_or_gt_of_ne different with less | greater
  · left
    have lower := value_strictMono (f := f) less
    rw [abs_of_nonneg (by linarith)]
    linarith
  · have further := value_le_value (f := f) |>.mpr (Nat.succ_le_of_lt greater)
    have distance : f.value (magnitude + 1) - x ≤ |x - f.value other| := by
      rw [abs_sub_comm]
      exact le_trans (by linarith) (le_abs_self _)
    rcases (nearer.trans distance).lt_or_eq with strict | same
    · exact Or.inl strict
    · exact Or.inr ⟨same, even (by linarith)⟩

theorem roundsTo_upper (below : magnitude < f.infinity) (atMost : x ≤ f.value (magnitude + 1))
    (nearer : f.value (magnitude + 1) - x ≤ x - f.value magnitude)
    (even : f.value (magnitude + 1) - x = x - f.value magnitude → Even (magnitude + 1)) :
    f.RoundsTo x (magnitude + 1) := by
  refine ⟨below, ?_⟩
  intro other _ different
  rw [abs_sub_comm, abs_of_nonneg (sub_nonneg.mpr atMost)]
  rcases Nat.lt_or_gt_of_ne different with less | greater
  · have lower := value_le_value (f := f) |>.mpr (Nat.le_of_lt_succ less)
    have distance : x - f.value magnitude ≤ |x - f.value other| :=
      le_trans (by linarith) (le_abs_self _)
    rcases (nearer.trans distance).lt_or_eq with strict | same
    · exact Or.inl strict
    · exact Or.inr ⟨same, even (by linarith)⟩
  · left
    have higher := value_strictMono (f := f) greater
    rw [abs_sub_comm x, abs_of_nonneg (by linarith)]
    linarith

/-- A magnitude, or the next one if the bits that are cut off are more than half, or half of an
odd one. -/
def rounded (magnitude roundBits halfway : ℕ) : ℕ :=
  if halfway < roundBits then magnitude + 1
  else if roundBits = halfway then magnitude + magnitude % 2
  else magnitude

theorem rounded_cases (magnitude roundBits halfway : ℕ) :
    rounded magnitude roundBits halfway = magnitude ∨
      rounded magnitude roundBits halfway = magnitude + 1 := by
  rw [rounded]
  split_ifs
  · exact Or.inr rfl
  · omega
  · exact Or.inl rfl

/-- Comparing the bits that are cut off with half of a gap rounds to nearest. -/
theorem roundsTo_rounded {roundBits halfway : ℕ} (below : magnitude < f.infinity)
    (cut : roundBits < 2 * halfway)
    (lies : x = f.value magnitude +
      (roundBits / (2 * halfway) : ℚ) * (f.gap magnitude * f.leastNonzero)) :
    f.RoundsTo x (rounded magnitude roundBits halfway) := by
  have next := value_succ (f := f) magnitude
  have least := leastNonzero_pos (f := f)
  have step : (0 : ℚ) < f.gap magnitude * f.leastNonzero := by
    have positive : (0 : ℚ) < f.gap magnitude := by exact_mod_cast gap_pos magnitude
    exact mul_pos positive least
  have halfway_pos : (0 : ℚ) < 2 * halfway := by
    have positive : 0 < 2 * halfway := by omega
    exact_mod_cast positive
  generalize (f.gap magnitude * f.leastNonzero : ℚ) = distance at next step lies
  generalize share : (roundBits / (2 * halfway) : ℚ) = fraction at lies
  have bounds : 0 ≤ fraction ∧ fraction < 1 := by
    rw [← share]
    refine ⟨by positivity, (div_lt_one halfway_pos).mpr ?_⟩
    exact_mod_cast cut
  have lower : 0 ≤ fraction * distance := mul_nonneg bounds.1 step.le
  have upper : fraction * distance < distance := by
    nlinarith [bounds.2]
  have compare : ∀ {left right : ℕ}, (left : ℚ) < right → left < right := by
    intro left right less
    exact_mod_cast less
  rw [rounded]
  split_ifs with more half
  · have half : 1 / 2 < fraction := by
      rw [← share, lt_div_iff₀ halfway_pos]
      have more : (halfway : ℚ) < roundBits := by exact_mod_cast more
      linarith
    have distant : distance < 2 * (fraction * distance) := by nlinarith
    apply roundsTo_upper below
    · linarith
    · linarith
    · intro tie
      linarith
  · have half : fraction = 1 / 2 := by
      rw [← share, div_eq_iff halfway_pos.ne', half]
      ring
    have same : x - f.value magnitude = f.value (magnitude + 1) - x := by
      rw [next, lies, half]
      ring
    rcases Nat.even_or_odd magnitude with even | odd
    · rw [Nat.even_iff.mp even, Nat.add_zero]
      apply roundsTo_lower below
      · linarith
      · exact same.le
      · exact fun _ => even
    · rw [Nat.odd_iff.mp odd]
      apply roundsTo_upper below
      · linarith
      · exact same.ge
      · exact fun _ => odd.add_one
  · have half : fraction < 1 / 2 := by
      rw [← share, div_lt_iff₀ halfway_pos]
      have less : (roundBits : ℚ) < halfway := by
        exact_mod_cast (by omega : roundBits < halfway)
      linarith
    have close : 2 * (fraction * distance) < distance := by nlinarith
    apply roundsTo_lower below
    · linarith
    · linarith
    · intro tie
      linarith

end Rounding

/-- Bits that are cut off earlier may be kept as one bit, if two bits at least follow it. -/
theorem rounded_sticky {number shift more : ℕ} (two : 2 ≤ more) :
    rounded
        ((number / 2 ^ shift ||| if number % 2 ^ shift = 0 then 0 else 1) / 2 ^ more)
        ((number / 2 ^ shift ||| if number % 2 ^ shift = 0 then 0 else 1) % 2 ^ more)
        (2 ^ (more - 1)) =
      rounded (number / 2 ^ (shift + more)) (number % 2 ^ (shift + more))
        (2 ^ (shift + more - 1)) := by
  have remainder := Nat.mod_lt number (Nat.two_pow_pos shift)
  have unit : 0 < 2 ^ shift := Nat.two_pow_pos shift
  have split : number % 2 ^ (shift + more) =
      number % 2 ^ shift + 2 ^ shift * (number / 2 ^ shift % 2 ^ more) := by
    rw [pow_add, Nat.mod_mul]
  have quotient : number / 2 ^ (shift + more) = number / 2 ^ shift / 2 ^ more := by
    rw [pow_add, Nat.div_div_eq_div_mul]
  have half : 2 ^ (shift + more - 1) = 2 ^ shift * 2 ^ (more - 1) := by
    rw [← pow_add, Nat.add_sub_assoc (by omega)]
  have even : 2 ^ (more - 1) = 2 * 2 ^ (more - 2) := by
    rw [← pow_succ']
    congr 1
    omega
  rw [quotient, split, half]
  generalize number % 2 ^ shift = lost at remainder
  generalize number / 2 ^ shift = kept
  by_cases exact_ : lost = 0
  · simp only [exact_, if_true, Nat.or_zero, Nat.zero_add, rounded,
      Nat.mul_lt_mul_left unit, Nat.mul_right_inj unit.ne']
  · have odd : kept ||| 1 = 2 * (kept / 2) + 1 := by
      apply Nat.eq_of_testBit_eq
      intro index
      cases index with
      | zero => simp
      | succ index =>
          have tail : (2 * (kept / 2) + 1) / 2 = kept / 2 := by omega
          rw [Nat.testBit_or, Nat.testBit_succ, Nat.testBit_succ 1, Nat.testBit_succ (2 * _ + 1),
            tail]
          simp
    have power : 2 ^ more = 2 * 2 ^ (more - 1) := by
      rw [← pow_succ']
      congr 1
      omega
    have parts := Nat.div_add_mod kept (2 ^ more)
    have inside := Nat.mod_lt kept (Nat.two_pow_pos more)
    simp only [exact_, if_false, odd]
    generalize kept / 2 ^ more = high at parts
    generalize kept % 2 ^ more = low at parts inside
    have shape : 2 * (kept / 2) + 1 = 2 ^ more * high + (2 * (low / 2) + 1) := by
      rw [← parts, power, Nat.mul_assoc, Nat.mul_add_div (by decide)]
      ring
    have fits : 2 * (low / 2) + 1 < 2 ^ more := by omega
    rw [shape, Nat.mul_add_div (Nat.two_pow_pos more), Nat.div_eq_of_lt fits, Nat.add_zero,
      Nat.mul_add_mod, Nat.mod_eq_of_lt fits, rounded, rounded]
    rcases Nat.lt_or_ge low (2 ^ (more - 1)) with less | atLeast
    · have bound := Nat.mul_le_mul_left (2 ^ shift) (Nat.succ_le_of_lt less)
      rw [Nat.mul_succ] at bound
      rw [if_neg (by omega), if_neg (by omega), if_neg (by omega), if_neg (by omega)]
    · have bound := Nat.mul_le_mul_left (2 ^ shift) atLeast
      rw [if_pos (by omega), if_pos (by omega)]

section Fields

variable {magnitude : ℕ}

theorem infinity_lt (f : Format) : f.infinity < 2 ^ f.magnitudeBits := by
  have positive : 0 < 2 ^ f.significandBits := Nat.two_pow_pos _
  have more : 0 < 2 ^ f.exponentBits := Nat.two_pow_pos _
  rw [infinity, infinityExponent, magnitudeBits, pow_add]
  exact Nat.mul_lt_mul_of_pos_right (by omega) positive

/-- A magnitude is below infinity if its exponent is. -/
theorem lt_infinity {exponent significand : ℕ} (fits : significand < 2 ^ f.significandBits)
    (below : exponent < f.infinityExponent) :
    exponent * 2 ^ f.significandBits + significand < f.infinity := by
  calc exponent * 2 ^ f.significandBits + significand
      < exponent * 2 ^ f.significandBits + 2 ^ f.significandBits := by omega
    _ = (exponent + 1) * 2 ^ f.significandBits := by ring
    _ ≤ f.infinity := Nat.mul_le_mul_right _ below

theorem infinityExponent_eq (f : Format) : f.infinityExponent = 2 * f.bias + 1 := by
  have split : 2 ^ f.exponentBits = 2 * 2 ^ (f.exponentBits - 1) := by
    rw [← pow_succ', Nat.sub_add_cancel f.one_lt_exponentBits.le]
  have positive : 0 < 2 ^ (f.exponentBits - 1) := Nat.two_pow_pos _
  rw [bias, infinityExponent]
  omega

end Fields

/--
A format widens to another one if that has two more bits of significand at least, and all
values of the narrow format, the small ones as well, have exponents of full precision in it.
-/
structure Widens (narrow wide : Format) : Prop where
  significand : narrow.significandBits + 2 ≤ wide.significandBits
  exponent : narrow.bias + wide.significandBits ≤ wide.bias

namespace Widens

variable {narrow wide : Format} (widens : Widens narrow wide)
include widens

theorem exponentBits_le : narrow.exponentBits ≤ wide.exponentBits := by
  have exponent := widens.exponent
  have smaller : narrow.infinityExponent ≤ wide.infinityExponent := by
    rw [infinityExponent_eq, infinityExponent_eq]
    omega
  have positive := Nat.two_pow_pos wide.exponentBits
  simp only [infinityExponent] at smaller
  have powers : 2 ^ narrow.exponentBits ≤ 2 ^ wide.exponentBits := by omega
  exact (Nat.pow_le_pow_iff_right (by decide)).mp powers

theorem magnitudeBits_le : narrow.magnitudeBits ≤ wide.magnitudeBits := by
  have significand := widens.significand
  have exponent := widens.exponentBits_le
  simp only [magnitudeBits]
  omega

/-- The least value of the narrow format in that of the wide one. -/
theorem leastNonzero_eq : narrow.leastNonzero =
    2 ^ (wide.significandBits - narrow.significandBits + (wide.bias - narrow.bias)) *
      wide.leastNonzero := by
  have significand := widens.significand
  have exponent := widens.exponent
  rw [leastNonzero, leastNonzero, ← zpow_natCast, ← zpow_add₀ (by norm_num)]
  congr 1
  push_cast [Nat.cast_sub (by omega : narrow.significandBits ≤ wide.significandBits),
    Nat.cast_sub (by omega : narrow.bias ≤ wide.bias)]
  ring

theorem value_eq {small large : ℕ} (multiple : wide.multiple large =
    narrow.multiple small *
      2 ^ (wide.significandBits - narrow.significandBits + (wide.bias - narrow.bias))) :
    wide.value large = narrow.value small := by
  rw [value, value, widens.leastNonzero_eq, multiple]
  push_cast
  ring

/-- A normal number keeps its value with a new bias and further zeros in its significand. -/
theorem value_normal {magnitude : ℕ} (normal : 2 ^ narrow.significandBits ≤ magnitude) :
    wide.value (magnitude * 2 ^ (wide.significandBits - narrow.significandBits) +
      (wide.bias - narrow.bias) * 2 ^ wide.significandBits) = narrow.value magnitude := by
  apply widens.value_eq
  have significand := widens.significand
  have positive : 0 < 2 ^ narrow.significandBits := Nat.two_pow_pos _
  have fits := Nat.mod_lt magnitude positive
  have split := fields narrow magnitude
  have nonzero : magnitude / 2 ^ narrow.significandBits ≠ 0 := by
    have one := Nat.div_pos normal positive
    omega
  generalize magnitude / 2 ^ narrow.significandBits = exponent at split nonzero
  generalize magnitude % 2 ^ narrow.significandBits = rest at fits split
  generalize wide.bias - narrow.bias = rebias
  have width : 2 ^ wide.significandBits = 2 ^ narrow.significandBits *
      2 ^ (wide.significandBits - narrow.significandBits) := by
    rw [← pow_add, Nat.add_sub_cancel' (by omega)]
  have shifted : magnitude * 2 ^ (wide.significandBits - narrow.significandBits) +
      rebias * 2 ^ wide.significandBits = (exponent + rebias) * 2 ^ wide.significandBits +
        rest * 2 ^ (wide.significandBits - narrow.significandBits) := by
    rw [width, ← split]
    ring
  have inside : rest * 2 ^ (wide.significandBits - narrow.significandBits) <
      2 ^ wide.significandBits := by
    rw [width]
    exact Nat.mul_lt_mul_of_pos_right fits (Nat.two_pow_pos _)
  rw [shifted, multiple_fields inside, ← split, multiple_fields fits, if_neg (by omega),
    if_neg nonzero, width, pow_add, show exponent + rebias - 1 = exponent - 1 + rebias by omega,
    pow_add]
  ring

/-- A subnormal number is normal in the wide format, where its leading bit is implied. -/
theorem value_subnormal {magnitude scale : ℕ} (covered : scale ≤ narrow.significandBits)
    (leading : 2 ^ narrow.significandBits ≤ magnitude * 2 ^ scale)
    (below : magnitude * 2 ^ scale < 2 ^ (narrow.significandBits + 1))
    (subnormal : magnitude < 2 ^ narrow.significandBits) :
    wide.value ((magnitude * 2 ^ (wide.significandBits - narrow.significandBits + scale) -
        2 ^ wide.significandBits) +
      (wide.bias - narrow.bias - scale + 1) * 2 ^ wide.significandBits) =
        narrow.value magnitude := by
  apply widens.value_eq
  have significand := widens.significand
  have exponent := widens.exponent
  have width : 2 ^ wide.significandBits = 2 ^ narrow.significandBits *
      2 ^ (wide.significandBits - narrow.significandBits) := by
    rw [← pow_add, Nat.add_sub_cancel' (by omega)]
  have shifted : magnitude * 2 ^ (wide.significandBits - narrow.significandBits + scale) =
      magnitude * 2 ^ scale * 2 ^ (wide.significandBits - narrow.significandBits) := by
    rw [pow_add]
    ring
  have atLeast : 2 ^ wide.significandBits ≤
      magnitude * 2 ^ (wide.significandBits - narrow.significandBits + scale) := by
    rw [shifted, width]
    exact Nat.mul_le_mul_right _ leading
  have lessThan : magnitude * 2 ^ (wide.significandBits - narrow.significandBits + scale) <
      2 * 2 ^ wide.significandBits := by
    rw [shifted, width, ← Nat.mul_assoc, ← pow_succ']
    exact Nat.mul_lt_mul_of_pos_right below (Nat.two_pow_pos _)
  have narrowField : narrow.multiple magnitude = magnitude := by
    rw [multiple, Nat.div_eq_of_lt subnormal, if_pos rfl, Nat.mod_eq_of_lt subnormal]
  have kept : wide.significandBits - narrow.significandBits + (wide.bias - narrow.bias) =
      wide.significandBits - narrow.significandBits + scale +
        (wide.bias - narrow.bias - scale) := by omega
  rw [Nat.add_comm (magnitude * _ - _), multiple_fields (by omega), if_neg (Nat.succ_ne_zero _),
    Nat.add_sub_cancel, Nat.add_sub_cancel' atLeast, narrowField, kept, pow_add _ _
      (wide.bias - narrow.bias - scale)]
  ring

/-- Rounding to the narrow format by the bits of the wide significand that do not fit. -/
theorem roundsTo_cut {magnitude kept roundBits shift : ℕ} (below : kept < narrow.infinity)
    (cut : roundBits < 2 ^ (shift + 1)) (lies : wide.multiple magnitude * 2 ^ (shift + 1) =
      2 ^ (wide.significandBits - narrow.significandBits + (wide.bias - narrow.bias)) *
        (narrow.multiple kept * 2 ^ (shift + 1) + roundBits * narrow.gap kept)) :
    narrow.RoundsTo (wide.value magnitude) (rounded kept roundBits (2 ^ shift)) := by
  apply roundsTo_rounded below
  · rwa [← pow_succ']
  · have lies : (wide.multiple magnitude : ℚ) * 2 ^ (shift + 1) =
        2 ^ (wide.significandBits - narrow.significandBits + (wide.bias - narrow.bias)) *
          (narrow.multiple kept * 2 ^ (shift + 1) + roundBits * narrow.gap kept) := by
      exact_mod_cast lies
    have scaled : (wide.multiple magnitude : ℚ) =
        2 ^ (wide.significandBits - narrow.significandBits + (wide.bias - narrow.bias)) *
          (narrow.multiple kept + roundBits * narrow.gap kept / 2 ^ (shift + 1)) := by
      field_simp
      linarith
    rw [value, value, widens.leastNonzero_eq, scaled]
    push_cast
    rw [← pow_succ']
    ring

/-- Normal numbers are rounded by the last bits of their significand. -/
theorem narrows_normal {magnitude : ℕ}
    (above : (wide.bias - narrow.bias + 1) * 2 ^ wide.significandBits ≤ magnitude)
    (below : magnitude <
      (wide.bias - narrow.bias + narrow.infinityExponent) * 2 ^ wide.significandBits) :
    narrow.RoundsTo (wide.value magnitude)
      (rounded (magnitude / 2 ^ (wide.significandBits - narrow.significandBits) -
          (wide.bias - narrow.bias) * 2 ^ narrow.significandBits)
        (magnitude % 2 ^ (wide.significandBits - narrow.significandBits))
        (2 ^ (wide.significandBits - narrow.significandBits - 1))) := by
  have significand := widens.significand
  have positive : 0 < 2 ^ wide.significandBits := Nat.two_pow_pos _
  have split := fields wide magnitude
  have fits := Nat.mod_lt magnitude positive
  have width : 2 ^ wide.significandBits = 2 ^ narrow.significandBits *
      2 ^ (wide.significandBits - narrow.significandBits) := by
    rw [← pow_add, Nat.add_sub_cancel' (by omega)]
  have low := (Nat.le_div_iff_mul_le positive).mpr above
  have high := Nat.div_lt_of_lt_mul (by rwa [Nat.mul_comm] at below)
  generalize magnitude / 2 ^ wide.significandBits = exponent at split low high
  generalize magnitude % 2 ^ wide.significandBits = rest at split fits
  generalize difference : wide.bias - narrow.bias = rebias at low high ⊢
  generalize extra : wide.significandBits - narrow.significandBits = more at width ⊢
  rcases Nat.exists_eq_add_of_le low with ⟨beyond, rfl⟩
  have moreBits : 0 < 2 ^ more := Nat.two_pow_pos _
  have restSplit := Nat.div_add_mod rest (2 ^ more)
  have restFits : rest / 2 ^ more < 2 ^ narrow.significandBits := by
    apply Nat.div_lt_of_lt_mul
    rwa [Nat.mul_comm, ← width]
  have quotient : magnitude / 2 ^ more - rebias * 2 ^ narrow.significandBits =
      (beyond + 1) * 2 ^ narrow.significandBits + rest / 2 ^ more := by
    have shape : magnitude = rest +
        2 ^ more * ((rebias + 1 + beyond) * 2 ^ narrow.significandBits) := by
      rw [← split, width]
      ring
    rw [shape, Nat.add_mul_div_left _ _ moreBits]
    have spread : (rebias + 1 + beyond) * 2 ^ narrow.significandBits =
        rebias * 2 ^ narrow.significandBits + (beyond + 1) * 2 ^ narrow.significandBits := by ring
    rw [spread, Nat.add_left_comm, Nat.add_sub_cancel_left, Nat.add_comm]
  have remainder : magnitude % 2 ^ more = rest % 2 ^ more := by
    have shape : magnitude = rest +
        2 ^ more * ((rebias + 1 + beyond) * 2 ^ narrow.significandBits) := by
      rw [← split, width]
      ring
    rw [shape, Nat.add_mul_mod_self_left]
  rw [quotient, remainder]
  have last : more - 1 + 1 = more := by omega
  apply widens.roundsTo_cut
  · exact lt_infinity restFits (by omega)
  · rw [last]
    exact Nat.mod_lt _ moreBits
  · have keptGap : narrow.gap ((beyond + 1) * 2 ^ narrow.significandBits + rest / 2 ^ more) =
        2 ^ beyond := by
      rw [gap, Nat.add_comm, Nat.add_mul_div_right _ _ (Nat.two_pow_pos _),
        Nat.div_eq_of_lt restFits, Nat.zero_add, Nat.add_sub_cancel]
    rw [extra, difference, last, keptGap, multiple_fields restFits, if_neg (Nat.succ_ne_zero _),
      Nat.add_sub_cancel, ← split, multiple_fields fits, if_neg (by omega), width,
      show rebias + 1 + beyond - 1 = rebias + beyond by omega]
    generalize rest / 2 ^ more = quotient at restSplit
    generalize rest % 2 ^ more = remainder at restSplit
    subst restSplit
    ring

/-- Smaller numbers are rounded by the bits that a common exponent cuts off. -/
theorem narrows_subnormal {magnitude shift : ℕ} (positive : 0 < shift)
    (exponent : magnitude / 2 ^ wide.significandBits + shift = wide.bias - narrow.bias + 1)
    (normal : 2 ^ wide.significandBits ≤ magnitude) :
    narrow.RoundsTo (wide.value magnitude)
      (rounded
        ((2 ^ wide.significandBits + magnitude % 2 ^ wide.significandBits) /
          2 ^ (shift + (wide.significandBits - narrow.significandBits)))
        ((2 ^ wide.significandBits + magnitude % 2 ^ wide.significandBits) %
          2 ^ (shift + (wide.significandBits - narrow.significandBits)))
        (2 ^ (shift + (wide.significandBits - narrow.significandBits) - 1))) := by
  have significand := widens.significand
  have nonzero : magnitude / 2 ^ wide.significandBits ≠ 0 := by
    have one := Nat.div_pos normal (Nat.two_pow_pos _)
    omega
  have split := fields wide magnitude
  have fits := Nat.mod_lt magnitude (Nat.two_pow_pos wide.significandBits)
  generalize magnitude / 2 ^ wide.significandBits = field at split nonzero exponent
  generalize magnitude % 2 ^ wide.significandBits = rest at split fits ⊢
  generalize difference : wide.bias - narrow.bias = rebias at exponent
  generalize extra : wide.significandBits - narrow.significandBits = more
  have leading : (2 ^ wide.significandBits + rest) / 2 ^ (shift + more) <
      2 ^ narrow.significandBits := by
    apply Nat.div_lt_of_lt_mul
    rw [← pow_add]
    calc 2 ^ wide.significandBits + rest < 2 ^ (wide.significandBits + 1) := by
          rw [pow_succ]
          omega
      _ ≤ 2 ^ (shift + more + narrow.significandBits) :=
          Nat.pow_le_pow_right (by decide) (by omega)
  have parts := Nat.div_add_mod' (2 ^ wide.significandBits + rest) (2 ^ (shift + more))
  have last : shift + more - 1 + 1 = shift + more := by omega
  have small := @lt_infinity narrow 0 _ leading (by rw [infinityExponent_eq]; omega)
  rw [Nat.zero_mul, Nat.zero_add] at small
  have kept := @multiple_fields narrow 0 _ leading
  rw [Nat.zero_mul, Nat.zero_add, if_pos rfl] at kept
  have keptGap : narrow.gap ((2 ^ wide.significandBits + rest) / 2 ^ (shift + more)) = 1 := by
    rw [gap, Nat.div_eq_of_lt leading, Nat.zero_sub, pow_zero]
  apply widens.roundsTo_cut small
  · rw [last]
    exact Nat.mod_lt _ (Nat.two_pow_pos _)
  · rw [extra, difference, last, keptGap, kept, Nat.mul_one, parts, ← split,
      multiple_fields fits, if_neg nonzero, Nat.mul_assoc, ← pow_add, Nat.mul_comm,
      show field - 1 + (shift + more) = more + rebias by omega]

/-- Numbers without a leading bit are too small. -/
theorem narrows_least {magnitude : ℕ} (least : magnitude < 2 ^ wide.significandBits) :
    narrow.RoundsTo (wide.value magnitude) 0 := by
  have significand := widens.significand
  have exponent := widens.exponent
  have some_ : 0 < narrow.infinity := by
    have positive := Nat.two_pow_pos narrow.significandBits
    rw [infinity, infinityExponent_eq]
    exact Nat.mul_pos (by omega) positive
  have unit := leastNonzero_pos (f := wide)
  have itself : wide.multiple magnitude = magnitude := by
    rw [multiple, Nat.div_eq_of_lt least, if_pos rfl, Nat.mod_eq_of_lt least]
  have close : 2 * magnitude <
      2 ^ (wide.significandBits - narrow.significandBits + (wide.bias - narrow.bias)) := by
    calc 2 * magnitude < 2 ^ (wide.significandBits + 1) := by
          rw [pow_succ']
          omega
      _ ≤ _ := Nat.pow_le_pow_right (by decide) (by omega)
  have close : (2 * magnitude : ℚ) <
      2 ^ (wide.significandBits - narrow.significandBits + (wide.bias - narrow.bias)) := by
    exact_mod_cast close
  have next := value_succ (f := narrow) 0
  have one : narrow.gap 0 = 1 := by simp [gap]
  have nearer : 2 * wide.value magnitude < narrow.leastNonzero := by
    rw [value, itself, widens.leastNonzero_eq, ← mul_assoc]
    exact mul_lt_mul_of_pos_right close unit
  have nonnegative : 0 ≤ wide.value magnitude := by
    rw [value]
    positivity
  rw [value_zero, one, Nat.cast_one, one_mul, zero_add] at next
  apply roundsTo_lower some_
  · rwa [value_zero]
  · rw [value_zero, Nat.zero_add] at *
    linarith
  · intro _
    exact ⟨0, rfl⟩

/-- Numbers beyond the last exponent become infinite. -/
theorem narrows_overflow {magnitude : ℕ} (beyond :
    (wide.bias - narrow.bias + narrow.infinityExponent) * 2 ^ wide.significandBits ≤ magnitude) :
    narrow.RoundsTo (wide.value magnitude) narrow.infinity := by
  have significand := widens.significand
  have normal : 2 ^ narrow.significandBits ≤ narrow.infinity := by
    rw [infinity, infinityExponent_eq]
    exact Nat.le_mul_of_pos_left _ (Nat.succ_pos _)
  have width : 2 ^ wide.significandBits = 2 ^ narrow.significandBits *
      2 ^ (wide.significandBits - narrow.significandBits) := by
    rw [← pow_add, Nat.add_sub_cancel' (by omega)]
  apply roundsTo_infinity
  rw [← widens.value_normal normal, value_le_value]
  calc narrow.infinity * 2 ^ (wide.significandBits - narrow.significandBits) +
        (wide.bias - narrow.bias) * 2 ^ wide.significandBits =
        (wide.bias - narrow.bias + narrow.infinityExponent) * 2 ^ wide.significandBits := by
          rw [infinity, width]
          ring
    _ ≤ magnitude := beyond

end Widens

section Integers

variable {number : ℕ}

theorem bias_pos (f : Format) : 0 < f.bias := by
  have exponents := f.infinityExponent_eq
  have wide : 2 ^ 2 ≤ 2 ^ f.exponentBits := Nat.pow_le_pow_right (by decide) f.one_lt_exponentBits
  rw [infinityExponent] at exponents
  omega

theorem value_power (exponent : ℕ) :
    f.value ((f.bias + exponent) * 2 ^ f.significandBits) = 2 ^ exponent := by
  have nonzero : f.bias + exponent ≠ 0 := by
    have positive := f.bias_pos
    omega
  have value := value_fields (f := f) nonzero (Nat.two_pow_pos _)
  rw [Nat.add_zero, Nat.cast_zero, add_zero, ← zpow_natCast, ← zpow_add₀ (by norm_num)] at value
  rw [value, ← zpow_natCast]
  congr 1
  push_cast
  omega

theorem value_infinity : f.value f.infinity = 2 ^ (f.bias + 1) := by
  have exponents := f.infinityExponent_eq
  have value := @value_fields f f.infinityExponent 0 (by omega) (Nat.two_pow_pos _)
  rw [Nat.add_zero, Nat.cast_zero, add_zero] at value
  rw [infinity, value, ← zpow_natCast, ← zpow_natCast, ← zpow_add₀ (by norm_num)]
  congr 1
  omega

variable (f) in
/-- The magnitude with the exponent of an integer and a significand that shows its first bit. -/
def ofInteger (exponent significand : ℕ) : ℕ :=
  (f.bias + exponent) * 2 ^ f.significandBits + (significand - 2 ^ f.significandBits)

theorem ofInteger_lt_infinity {exponent significand : ℕ}
    (below : significand < 2 ^ (f.significandBits + 1)) (small : exponent ≤ f.bias) :
    f.ofInteger exponent significand < f.infinity := by
  have exponents := f.infinityExponent_eq
  have positive := Nat.two_pow_pos f.significandBits
  rw [pow_succ] at below
  apply lt_infinity
  · omega
  · omega

theorem value_ofInteger {exponent significand : ℕ}
    (leading : 2 ^ f.significandBits ≤ significand)
    (below : significand < 2 ^ (f.significandBits + 1)) :
    f.value (f.ofInteger exponent significand) =
      significand * 2 ^ (exponent - f.significandBits : ℤ) := by
  have positive := f.bias_pos
  rw [pow_succ] at below
  rw [ofInteger, value_fields (by omega) (by omega), Nat.cast_sub leading]
  push_cast
  rw [add_sub_cancel]
  congr 2
  ring

theorem gap_ofInteger {exponent significand : ℕ}
    (leading : 2 ^ f.significandBits ≤ significand)
    (below : significand < 2 ^ (f.significandBits + 1)) :
    (f.gap (f.ofInteger exponent significand) : ℚ) * f.leastNonzero =
      2 ^ (exponent - f.significandBits : ℤ) := by
  have positive := f.bias_pos
  rw [pow_succ] at below
  have fits : significand - 2 ^ f.significandBits < 2 ^ f.significandBits := by omega
  have field : f.ofInteger exponent significand / 2 ^ f.significandBits = f.bias + exponent := by
    rw [ofInteger, Nat.add_comm, Nat.add_mul_div_right _ _ (Nat.two_pow_pos _),
      Nat.div_eq_of_lt fits, Nat.zero_add]
  rw [gap, field, leastNonzero]
  push_cast
  rw [← zpow_natCast, ← zpow_add₀ (by norm_num)]
  congr 1
  omega

/-- An integer that has a place for all of its bits. -/
theorem value_integer {exponent : ℕ} (least : 2 ^ exponent ≤ number)
    (most : number < 2 ^ (exponent + 1)) (short : exponent ≤ f.significandBits) :
    2 ^ f.significandBits ≤ number * 2 ^ (f.significandBits - exponent) ∧
      number * 2 ^ (f.significandBits - exponent) < 2 ^ (f.significandBits + 1) ∧
      f.value (f.ofInteger exponent (number * 2 ^ (f.significandBits - exponent))) = number := by
  have low : 2 ^ f.significandBits ≤ number * 2 ^ (f.significandBits - exponent) := by
    calc 2 ^ f.significandBits = 2 ^ exponent * 2 ^ (f.significandBits - exponent) := by
          rw [← pow_add, Nat.add_sub_cancel' short]
      _ ≤ _ := Nat.mul_le_mul_right _ least
  have high : number * 2 ^ (f.significandBits - exponent) < 2 ^ (f.significandBits + 1) := by
    calc number * 2 ^ (f.significandBits - exponent)
        < 2 ^ (exponent + 1) * 2 ^ (f.significandBits - exponent) :=
          Nat.mul_lt_mul_of_pos_right most (Nat.two_pow_pos _)
      _ = 2 ^ (f.significandBits + 1) := by
          rw [← pow_add]
          congr 1
          omega
  refine ⟨low, high, ?_⟩
  rw [value_ofInteger low high]
  push_cast
  rw [mul_assoc, ← zpow_natCast, ← zpow_add₀ (by norm_num), Nat.cast_sub short]
  simp

/-- An integer that has more bits than a significand is rounded by the ones that are cut off. -/
theorem roundsTo_integer {exponent : ℕ} (least : 2 ^ exponent ≤ number)
    (most : number < 2 ^ (exponent + 1)) (long : f.significandBits < exponent)
    (small : exponent ≤ f.bias) :
    (2 ^ f.significandBits ≤ number / 2 ^ (exponent - f.significandBits) ∧
      number / 2 ^ (exponent - f.significandBits) < 2 ^ (f.significandBits + 1)) ∧
    f.RoundsTo number
      (rounded (f.ofInteger exponent (number / 2 ^ (exponent - f.significandBits)))
        (number % 2 ^ (exponent - f.significandBits))
        (2 ^ (exponent - f.significandBits - 1))) ∧
    (f.value (rounded (f.ofInteger exponent (number / 2 ^ (exponent - f.significandBits)))
        (number % 2 ^ (exponent - f.significandBits))
        (2 ^ (exponent - f.significandBits - 1))) = number ↔
      number % 2 ^ (exponent - f.significandBits) = 0) := by
  generalize cut : exponent - f.significandBits = shift
  have total : exponent = f.significandBits + shift := by omega
  subst total
  have low : 2 ^ f.significandBits ≤ number / 2 ^ shift := by
    apply (Nat.le_div_iff_mul_le (Nat.two_pow_pos _)).mpr
    rwa [← pow_add]
  have high : number / 2 ^ shift < 2 ^ (f.significandBits + 1) := by
    apply Nat.div_lt_of_lt_mul
    rwa [← pow_add, Nat.add_comm shift, Nat.add_right_comm]
  have below := ofInteger_lt_infinity high small
  have value := @value_ofInteger f (f.significandBits + shift) _ low high
  have step := value_succ (f := f) (f.ofInteger (f.significandBits + shift) (number / 2 ^ shift))
  have unit : (f.gap (f.ofInteger (f.significandBits + shift) (number / 2 ^ shift)) : ℚ) *
      f.leastNonzero = 2 ^ shift := by
    rw [gap_ofInteger low high, ← zpow_natCast]
    congr 1
    omega
  have parts : (number : ℚ) = (number / 2 ^ shift : ℕ) * 2 ^ shift + (number % 2 ^ shift : ℕ) := by
    exact_mod_cast (Nat.div_add_mod' number (2 ^ shift)).symm
  have half : 2 * 2 ^ (shift - 1) = 2 ^ shift := by
    rw [← pow_succ']
    congr 1
    omega
  have remainder := Nat.mod_lt number (Nat.two_pow_pos shift)
  have whole : f.value (f.ofInteger (f.significandBits + shift) (number / 2 ^ shift)) =
      (number / 2 ^ shift : ℕ) * 2 ^ shift := by
    rw [value, ← zpow_natCast]
    congr 2
    omega
  generalize f.ofInteger (f.significandBits + shift) (number / 2 ^ shift) = kept
    at below step unit whole ⊢
  refine ⟨⟨low, high⟩, ?_, ?_⟩
  · apply roundsTo_rounded below
    · rwa [half]
    · have positive : (2 : ℚ) ^ shift ≠ 0 := by positivity
      have halves : (2 * (2 ^ (shift - 1) : ℕ) : ℚ) = 2 ^ shift := by exact_mod_cast half
      rw [unit, whole, halves, div_mul_cancel₀ _ positive, ← parts]
  · rw [unit, whole] at step
    have nonnegative : (0 : ℚ) ≤ (number % 2 ^ shift : ℕ) := Nat.cast_nonneg _
    have less : ((number % 2 ^ shift : ℕ) : ℚ) < 2 ^ shift := by exact_mod_cast remainder
    have positive : 0 < 2 ^ (shift - 1) := Nat.two_pow_pos _
    constructor
    · intro same
      rcases rounded_cases kept (number % 2 ^ shift) (2 ^ (shift - 1)) with down | up
      · rw [down, whole] at same
        have nothing : ((number % 2 ^ shift : ℕ) : ℚ) = 0 := by linarith
        exact_mod_cast nothing
      · rw [up, step] at same
        linarith
    · intro nothing
      rw [nothing, rounded, if_neg (Nat.not_lt_zero _), if_neg positive.ne, whole]
      rw [nothing, Nat.cast_zero, add_zero] at parts
      exact parts.symm

end Integers

section Words

variable {word absolute sign : BitVec f.bits}

/-- The bits of a word but for its sign. -/
def magnitude (word : BitVec f.bits) : ℕ := word.toNat % 2 ^ f.magnitudeBits

/-- The bit for the sign is set. -/
def negative (word : BitVec f.bits) : Bool := word.msb

theorem magnitude_lt (word : BitVec f.bits) : magnitude word < 2 ^ f.magnitudeBits :=
  Nat.mod_lt _ (Nat.two_pow_pos _)

theorem toNat_eq (word : BitVec f.bits) :
    word.toNat = magnitude word + (negative word).toNat * 2 ^ f.magnitudeBits := by
  have bound := word.isLt
  have width : 2 ^ f.bits = 2 * 2 ^ f.magnitudeBits := by rw [bits, pow_succ, Nat.mul_comm]
  rw [magnitude, negative, BitVec.msb_eq_decide, show f.bits - 1 = f.magnitudeBits from rfl]
  by_cases above : 2 ^ f.magnitudeBits ≤ word.toNat
  · have low : word.toNat % 2 ^ f.magnitudeBits = word.toNat - 2 ^ f.magnitudeBits := by
      rw [Nat.mod_eq_sub_mod above, Nat.mod_eq_of_lt (by omega)]
    simp only [above, decide_true, Bool.toNat_true, low]
    omega
  · simp only [above, decide_false, Bool.toNat_false,
      Nat.mod_eq_of_lt (Nat.lt_of_not_le above)]
    omega

theorem ext {other : BitVec f.bits} (magnitudes : magnitude word = magnitude other)
    (signs : negative word = negative other) : word = other := by
  apply BitVec.eq_of_toNat_eq
  rw [toNat_eq, toNat_eq other, magnitudes, signs]

theorem fields_of_toNat {number : ℕ} {minus : Bool} (small : number < 2 ^ f.magnitudeBits)
    (parts : word.toNat = number + minus.toNat * 2 ^ f.magnitudeBits) :
    magnitude word = number ∧ negative word = minus := by
  have low : magnitude word = number := by
    rw [magnitude, parts, Nat.add_mul_mod_self_right, Nat.mod_eq_of_lt small]
  refine ⟨low, ?_⟩
  rw [toNat_eq, low] at parts
  have same := Nat.eq_of_mul_eq_mul_right (Nat.two_pow_pos _) (Nat.add_left_cancel parts)
  generalize negative word = result at same ⊢
  cases minus <;> cases result <;> first | rfl | cases same

/-- A magnitude and a sign in one word. -/
theorem signed_word {minus : Bool} (small : absolute.toNat < 2 ^ f.magnitudeBits)
    (signed : sign.toNat = minus.toNat * 2 ^ f.magnitudeBits) :
    magnitude (absolute ||| sign) = absolute.toNat ∧ negative (absolute ||| sign) = minus := by
  have sum := BitFields.toNat_or f.magnitudeBits small
    (by rw [signed, Nat.mul_mod_left] : sign.toNat % _ = 0)
  rw [signed] at sum
  exact fields_of_toNat small sum

end Words

end Format

end BinaryFormats
