import USwift.FloatingPoint.Components

/-!
# Comparing and stepping through floating-point values

The comparisons of the builtins order the numbers and leave out everything that is not one. The
total order compares the patterns where they leave two words apart, and `nextUp` adds one to a
word or takes one away from it, as its sign says.
-/

namespace USwift

open BinaryFormats BinaryFormats.Format FixedWidthInteger

namespace FloatingPoint

section Operations

variable (word : WordSize) {type : FloatingPointType} (x y : FloatingPoint type)

/-- The place of a word among the numbers, which both zeros share. -/
def place : ℤ :=
  if negative x then -magnitude x else magnitude x

/-- Both operands are numbers, or infinite. -/
def areOrdered : Bool :=
  decide (magnitude x ≤ type.format.infinity) && decide (magnitude y ≤ type.format.infinity)

/-- `isEqual(to:)`, which is `fcmp_oeq`. -/
def isEqual : Bool := areOrdered x y && decide (place x = place y)

/-- `isLess(than:)`, which is `fcmp_olt`. -/
def isLess : Bool := areOrdered x y && decide (place x < place y)

/-- `isLessThanOrEqualTo(_:)`, which is `fcmp_ole`. -/
def isLessThanOrEqualTo : Bool := areOrdered x y && decide (place x ≤ place y)

/-- `isTotallyOrdered(belowOrEqualTo:)`, whose second test repeats the first one. -/
def isTotallyOrdered : Bool :=
  if isLess x y then true
  else if isLess x y then false
  else if sign word x ≠ sign word y then sign word x = .minus
  else if less word .uint (exponentBitPattern word y) (exponentBitPattern word x) then
    sign word x = .minus
  else if less word .uint (exponentBitPattern word x) (exponentBitPattern word y) then
    sign word x = .plus
  else if less word type.rawSignificand (significandBitPattern word y)
      (significandBitPattern word x) then
    sign word x = .minus
  else if less word type.rawSignificand (significandBitPattern word x)
      (significandBitPattern word y) then
    sign word x = .plus
  else true

/-- The sum with the literal `0`, which silences a signaling NaN and maps `-0` to `+0`. -/
def plusZero : FloatingPoint type :=
  if type.format.infinity < magnitude x then x ||| Rep.qNaN type.format
  else if magnitude x = 0 then 0
  else x

/-- What `nextUp` adds to the pattern: the sign of the pattern, spread over all bits, or one. -/
def increment (word : WordSize) : {type : FloatingPointType} → FloatingPoint type →
    FloatingPoint type
  | .float, x => maskingShiftRight word .int32 x (31 : BitVec 32) ||| (1 : BitVec 32)
  | .float16, x => maskingShiftRight word .int16 x (15 : BitVec 16) ||| (1 : BitVec 16)

def nextUp : FloatingPoint type :=
  let x := plusZero x
  if isLess x (infinity word type) then x + increment word x else x

def nextDown : FloatingPoint type :=
  negate (nextUp word (negate x))

/-- The value of a word, where infinity is the power of two after the largest finite value. -/
def number : ℚ :=
  if negative x then -type.format.value (magnitude x) else type.format.value (magnitude x)

end Operations

variable {word : WordSize} {type : FloatingPointType} {x y : FloatingPoint type}

section Places

theorem areOrdered_iff : areOrdered x y = true ↔
    magnitude x ≤ type.format.infinity ∧ magnitude y ≤ type.format.infinity := by
  rw [areOrdered, Bool.and_eq_true, decide_eq_true_iff, decide_eq_true_iff]

theorem isLess_iff : isLess x y = true ↔
    (magnitude x ≤ type.format.infinity ∧ magnitude y ≤ type.format.infinity) ∧
      place x < place y := by
  rw [isLess, Bool.and_eq_true, areOrdered_iff, decide_eq_true_iff]

theorem isEqual_iff : isEqual x y = true ↔
    (magnitude x ≤ type.format.infinity ∧ magnitude y ≤ type.format.infinity) ∧
      place x = place y := by
  rw [isEqual, Bool.and_eq_true, areOrdered_iff, decide_eq_true_iff]

theorem isLessThanOrEqualTo_iff : isLessThanOrEqualTo x y = true ↔
    (magnitude x ≤ type.format.infinity ∧ magnitude y ≤ type.format.infinity) ∧
      place x ≤ place y := by
  rw [isLessThanOrEqualTo, Bool.and_eq_true, areOrdered_iff, decide_eq_true_iff]

theorem natAbs_place (x : FloatingPoint type) : (place x).natAbs = magnitude x := by
  rw [place]
  split_ifs
  · rw [Int.natAbs_neg, Int.natAbs_natCast]
  · rw [Int.natAbs_natCast]

/-- The places are in the order of the values. -/
theorem number_lt_iff : number x < number y ↔ place x < place y := by
  have strict (first second : ℕ) : type.format.value first < type.format.value second ↔
      first < second := value_strictMono.lt_iff_lt
  have zero := value_zero (f := type.format)
  have nonnegative (first : ℕ) : 0 ≤ type.format.value first := by
    rw [← zero]
    exact value_le_value.mpr (Nat.zero_le first)
  have least := nonnegative (magnitude x)
  have greatest := nonnegative (magnitude y)
  rw [number, number, place, place]
  cases negative x with
  | true =>
      cases negative y with
      | true =>
          simp only [if_true, neg_lt_neg_iff, Nat.cast_lt]
          exact strict _ _
      | false =>
          have first := strict 0 (magnitude x)
          have second := strict 0 (magnitude y)
          rw [zero] at first second
          simp only [if_true, Bool.false_eq_true, if_false]
          constructor
          · intro below
            by_contra above
            have nothing : magnitude x = 0 ∧ magnitude y = 0 := by omega
            rw [nothing.1, nothing.2, zero] at below
            exact absurd below (by simp)
          · intro below
            rcases Nat.eq_zero_or_pos (magnitude x) with nothing | some_
            · have other := second.mpr (by omega)
              linarith
            · have other := first.mpr some_
              linarith
  | false =>
      cases negative y with
      | true =>
          simp only [if_true, Bool.false_eq_true, if_false]
          constructor
          · intro below
            linarith
          · intro below
            omega
      | false =>
          simp only [Bool.false_eq_true, if_false, Nat.cast_lt]
          exact strict _ _

theorem place_infinity (word : WordSize) (type : FloatingPointType) :
    place (infinity word type) = type.format.infinity := by
  have top := fields_infinity word type
  rw [place, top.1, top.2, if_neg Bool.false_ne_true]

theorem place_negate (x : FloatingPoint type) : place (negate x) = -place x := by
  have fields := fields_negate x
  rw [place, place, fields.1, fields.2]
  cases negative x with
  | true => simp
  | false => simp

end Places

section Total

/-- The place of a word among all words of its format. -/
def totalPlace (x : FloatingPoint type) : ℤ :=
  if negative x then -magnitude x - 1 else magnitude x

theorem totalPlace_injective : Function.Injective (@totalPlace type) := by
  intro x y same
  rw [totalPlace, totalPlace] at same
  apply Format.ext
  · split_ifs at same
    · omega
    · omega
    · omega
    · omega
  · cases first : negative x with
    | true =>
        cases second : negative y with
        | true => rfl
        | false =>
            rw [first, second, if_pos rfl, if_neg Bool.false_ne_true] at same
            omega
    | false =>
        cases second : negative y with
        | false => rfl
        | true =>
            rw [first, second, if_pos rfl, if_neg Bool.false_ne_true] at same
            omega

/-- The total order compares the places of the words, although its second test is never met. -/
theorem isTotallyOrdered_iff :
    isTotallyOrdered word x y = true ↔ totalPlace x ≤ totalPlace y := by
  have firstSplit := fields type.format (magnitude x)
  have secondSplit := fields type.format (magnitude y)
  have exponents (first second : FloatingPoint type) :
      less word .uint (exponentBitPattern word first) (exponentBitPattern word second) = true ↔
        magnitude first / 2 ^ type.format.significandBits <
          magnitude second / 2 ^ type.format.significandBits := by
    rw [less_unsigned_iff rfl, toNat_exponentBitPattern, toNat_exponentBitPattern]
  have significands (first second : FloatingPoint type) :
      less word type.rawSignificand (significandBitPattern word first)
          (significandBitPattern word second) = true ↔
        magnitude first % 2 ^ type.format.significandBits <
          magnitude second % 2 ^ type.format.significandBits := by
    rw [less_unsigned_iff type.rawSignificand_unsigned, toNat_significandBitPattern,
      toNat_significandBitPattern]
  have larger (first second : ℕ) (less : first / 2 ^ type.format.significandBits <
      second / 2 ^ type.format.significandBits) : first < second :=
    Nat.lt_of_not_le fun atMost => absurd (Nat.div_le_div_right atMost) (Nat.not_le.mpr less)
  have firstLarger := larger (magnitude x) (magnitude y)
  have secondLarger := larger (magnitude y) (magnitude x)
  have ordered := @isLess_iff type x y
  rw [place, place] at ordered
  simp only [isTotallyOrdered, exponents, significands, sign_eq, totalPlace]
  generalize magnitude x / 2 ^ type.format.significandBits = firstExponent at *
  generalize magnitude y / 2 ^ type.format.significandBits = secondExponent at *
  generalize magnitude x % 2 ^ type.format.significandBits = first at *
  generalize magnitude y % 2 ^ type.format.significandBits = second at *
  have sameExponent : firstExponent = secondExponent →
      firstExponent * 2 ^ type.format.significandBits =
        secondExponent * 2 ^ type.format.significandBits := fun same => by rw [same]
  by_cases below : isLess x y = true
  · have places := (ordered.mp below).2
    rw [if_pos below]
    refine iff_of_true rfl ?_
    split_ifs at places ⊢
    · omega
    · omega
    · omega
    · omega
  · rw [if_neg below, if_neg below]
    cases negative x with
    | true =>
        cases negative y with
        | true =>
            simp only [FloatingPointSign.ofBit, ne_eq, not_true_eq_false, reduceCtorEq,
              decide_true, decide_false, if_true, if_false]
            split_ifs with exponent exponent significand significand
            · exact iff_of_true rfl (by omega)
            · exact iff_of_false not_false (by omega)
            · exact iff_of_true rfl (by omega)
            · exact iff_of_false not_false (by omega)
            · exact iff_of_true rfl (by omega)
        | false =>
            simp only [FloatingPointSign.ofBit, ne_eq, reduceCtorEq, not_false_eq_true,
              decide_true, if_true, Bool.false_eq_true, if_false]
            exact iff_of_true trivial (by omega)
    | false =>
        cases negative y with
        | true =>
            simp only [FloatingPointSign.ofBit, ne_eq, reduceCtorEq, not_false_eq_true,
              decide_false, if_true, Bool.false_eq_true, if_false]
            exact iff_of_false not_false (by omega)
        | false =>
            simp only [FloatingPointSign.ofBit, ne_eq, not_true_eq_false, reduceCtorEq,
              decide_true, decide_false, if_false, Bool.false_eq_true]
            split_ifs with exponent exponent significand significand
            · exact iff_of_false not_false (by omega)
            · exact iff_of_true rfl (by omega)
            · exact iff_of_false not_false (by omega)
            · exact iff_of_true rfl (by omega)
            · exact iff_of_true rfl (by omega)

/--
The total order is a linear order of all words. It continues `<`, puts `-0` before `+0`, and
NaNs before all numbers or behind them, as their sign says.
-/
theorem isTotallyOrdered_linear (word : WordSize) (type : FloatingPointType) :
    ((∀ x : FloatingPoint type, isTotallyOrdered word x x = true) ∧
      (∀ x y : FloatingPoint type, isTotallyOrdered word x y = true →
        isTotallyOrdered word y x = true → x = y) ∧
      (∀ x y z : FloatingPoint type, isTotallyOrdered word x y = true →
        isTotallyOrdered word y z = true → isTotallyOrdered word x z = true) ∧
      ∀ x y : FloatingPoint type, isTotallyOrdered word x y = true ∨
        isTotallyOrdered word y x = true) ∧
    (∀ x y : FloatingPoint type, isLess x y = true → isTotallyOrdered word y x = false) ∧
    (∀ x y : FloatingPoint type, isZero word x = true → isZero word y = true →
      (isTotallyOrdered word x y = true ↔ negative y = true → negative x = true)) ∧
    ∀ x y : FloatingPoint type, isNaN word x = true → isNaN word y = false →
      (isTotallyOrdered word x y = true ↔ negative x = true) ∧
      (isTotallyOrdered word y x = true ↔ negative x = false) := by
  simp only [← Bool.not_eq_true, isTotallyOrdered_iff, isLess_iff, isZero_iff, isNaN_iff]
  refine ⟨⟨?_, ?_, ?_, ?_⟩, ?_, ?_, ?_⟩
  · intro x
    exact le_rfl
  · intro x y first second
    exact totalPlace_injective (le_antisymm first second)
  · intro x y z first second
    exact first.trans second
  · intro x y
    exact le_total _ _
  · rintro x y ⟨_, less⟩
    rw [place, place] at less
    rw [totalPlace, totalPlace]
    split_ifs at less ⊢
    · omega
    · omega
    · omega
    · omega
  · intro x y first second
    rw [totalPlace, totalPlace, first, second]
    cases negative x <;> cases negative y <;> simp
  · intro x y first second
    rw [totalPlace, totalPlace]
    split_ifs with minus other other
    · exact ⟨iff_of_true (by omega) minus, iff_of_false (by omega) (by simp [minus])⟩
    · exact ⟨iff_of_true (by omega) minus, iff_of_false (by omega) (by simp [minus])⟩
    · exact ⟨iff_of_false (by omega) minus, iff_of_true (by omega) (by simpa using minus)⟩
    · exact ⟨iff_of_false (by omega) minus, iff_of_true (by omega) (by simpa using minus)⟩

end Total

section Neighbours

/-- The sign bit, spread over all bits. -/
theorem sshiftRight_last {width : ℕ} (x : BitVec (width + 1)) :
    x.sshiftRight width = if x.msb then BitVec.allOnes _ else 0 := by
  have last : x.msb = x.getLsbD width := by rw [BitVec.msb_eq_getLsbD_last, Nat.add_sub_cancel]
  apply BitVec.eq_of_getLsbD_eq
  intro index inside
  have spread : (if width + index < width + 1 then x.getLsbD (width + index) else x.msb) =
      x.msb := by
    split_ifs with first
    · have nothing : index = 0 := by omega
      subst nothing
      exact last.symm
    · rfl
  rw [BitVec.getLsbD_sshiftRight, spread]
  cases x.msb with
  | true => simp [inside, Nat.le_of_lt_succ inside]
  | false => simp

/-- A word of ones or zeros, with its last bit set. -/
theorem spread_or_one {width : ℕ} (sign : Bool) :
    (if sign then BitVec.allOnes (width + 1) else 0) ||| 1 = if sign then -1 else 1 := by
  cases sign with
  | true => simp [BitVec.neg_one_eq_allOnes]
  | false => simp

theorem maskingShiftRight_signed {source : IntegerType} (signed : source.isSigned = true)
    (x : Value word source) {amount : Value word source} {bits : ℕ}
    (handed : (maskedAmount word source amount).toNat = bits) :
    maskingShiftRight word source x amount = BitVec.sshiftRight x bits := by
  rw [maskingShiftRight, if_pos signed, BitVec.sshiftRight', handed]

theorem increment_eq (x : FloatingPoint type) :
    increment word x = if negative x then -1 else 1 := by
  cases type with
  | float =>
      have shifted := @maskingShiftRight_signed word .int32 rfl x 31 31
        (by cases word <;> decide)
      have spread := congrArg (· ||| (1 : BitVec 32)) (shifted.trans (@sshiftRight_last 31 x))
      exact spread.trans (@spread_or_one 31 _)
  | float16 =>
      have shifted := @maskingShiftRight_signed word .int16 rfl x 15 15
        (by cases word <;> decide)
      have spread := congrArg (· ||| (1 : BitVec 16)) (shifted.trans (@sshiftRight_last 15 x))
      exact spread.trans (@spread_or_one 15 _)

theorem fields_plusZero (number : magnitude x ≤ type.format.infinity) :
    magnitude (plusZero x) = magnitude x ∧ place (plusZero x) = place x ∧
      (negative (plusZero x) = true → 0 < magnitude x) := by
  have zero : magnitude (0 : FloatingPoint type) = 0 ∧
      negative (0 : FloatingPoint type) = false := by cases type <;> decide
  rw [plusZero, if_neg (Nat.not_lt.mpr number)]
  by_cases nothing : magnitude x = 0
  · rw [if_pos nothing, place, place, zero.1, zero.2, nothing]
    refine ⟨rfl, ?_, ?_⟩
    · simp
    · simp
  · rw [if_neg nothing]
    exact ⟨rfl, rfl, fun _ => Nat.pos_of_ne_zero nothing⟩

/-- At positive infinity there is no step. -/
theorem nextUp_stays (number : magnitude x ≤ type.format.infinity)
    (last : place x = type.format.infinity) :
    magnitude (nextUp word x) = magnitude x ∧ place (nextUp word x) = place x := by
  rcases fields_plusZero number with ⟨kept, same, _⟩
  have notLess : ¬ isLess (plusZero x) (infinity word type) = true := by
    rw [isLess_iff, same, place_infinity, last]
    exact fun claimed => lt_irrefl _ claimed.2
  rw [nextUp, if_neg notLess]
  exact ⟨kept, same⟩

/-- The next word is at the next place. -/
theorem place_nextUp (number : magnitude x ≤ type.format.infinity)
    (below : place x < type.format.infinity) :
    magnitude (nextUp word x) ≤ type.format.infinity ∧
      place (nextUp word x) = place x + 1 := by
  rcases fields_plusZero number with ⟨kept, same, positive⟩
  have top := fields_infinity word type
  have infinitePlace := place_infinity word type
  have less : isLess (plusZero x) (infinity word type) = true := by
    rw [isLess_iff, kept, same, infinitePlace, top.1]
    exact ⟨⟨number, le_rfl⟩, below⟩
  rw [nextUp, if_pos less, increment_eq, ← same]
  rw [← kept] at number positive
  rw [← same] at below
  generalize plusZero x = z at number below positive ⊢
  have bound := infinity_lt type.format
  have parts := toNat_eq z
  have unit : (1 : FloatingPoint type).toNat = 1 := by cases type <;> rfl
  cases sign : negative z with
  | true =>
      have some_ := positive sign
      have placed : place z = -magnitude z := if_pos sign
      rw [sign] at parts
      have previous : (z + -1).toNat =
          (magnitude z - 1) + Bool.true.toNat * 2 ^ type.format.magnitudeBits := by
        rw [← BitVec.sub_eq_add_neg, BitVec.toNat_sub_of_le (BitVec.le_def.mpr (by omega)), parts,
          unit]
        omega
      rcases fields_of_toNat (by omega) previous with ⟨magnitude_eq, negative_eq⟩
      rw [if_pos rfl, magnitude_eq, placed, place, magnitude_eq, negative_eq, if_pos rfl]
      omega
  | false =>
      have placed : place z = magnitude z := if_neg (by simp [sign])
      rw [sign] at parts
      have room : 2 ^ type.format.bits = 2 ^ type.format.magnitudeBits * 2 := by
        rw [bits, pow_succ]
      have next : (z + 1).toNat =
          (magnitude z + 1) + Bool.false.toNat * 2 ^ type.format.magnitudeBits := by
        rw [Bool.toNat_false, Nat.zero_mul, Nat.add_zero] at parts ⊢
        rw [BitVec.toNat_add, unit, parts, Nat.mod_eq_of_lt (by omega)]
      rcases fields_of_toNat (by omega) next with ⟨magnitude_eq, negative_eq⟩
      rw [if_neg Bool.false_ne_true, magnitude_eq, placed, place, magnitude_eq, negative_eq,
        if_neg Bool.false_ne_true]
      omega

theorem place_le_infinity (number : magnitude x ≤ type.format.infinity) :
    -type.format.infinity ≤ place x ∧ place x ≤ type.format.infinity := by
  have same := natAbs_place x
  omega

/-- The next word downwards is at the place before. -/
theorem place_nextDown (number : magnitude x ≤ type.format.infinity)
    (above : -type.format.infinity < place x) :
    magnitude (nextDown word x) ≤ type.format.infinity ∧
      place (nextDown word x) = place x - 1 := by
  have negated := fields_negate x
  have opposite := place_negate x
  rcases @place_nextUp word type (negate x) (by rwa [negated.1]) (by omega) with ⟨fits, next⟩
  rw [nextDown, (fields_negate _).1, place_negate, next, opposite]
  exact ⟨fits, by omega⟩

/-- A number is the next one upwards if there is none between, and the step back returns. -/
structure IsNextUp (word : WordSize) (x next : FloatingPoint type) : Prop where
  above : isLess x next = true
  least : ∀ y : FloatingPoint type, isLess x y = true → isLessThanOrEqualTo next y = true
  back : isEqual (nextDown word next) x = true

/-- A number is the next one downwards if there is none between, and the step back returns. -/
structure IsNextDown (word : WordSize) (x next : FloatingPoint type) : Prop where
  below : isLess next x = true
  greatest : ∀ y : FloatingPoint type, isLess y x = true → isLessThanOrEqualTo y next = true
  back : isEqual (nextUp word next) x = true

/--
From every number but positive infinity `nextUp` goes to the least number above, from every one
but negative infinity `nextDown` goes to the greatest below, each undoes the other, and at the
two ends they stay.
-/
theorem nextUp_nextDown (x : FloatingPoint type) (number : isNaN word x = false) :
    (if isEqual x (infinity word type) then isEqual (nextUp word x) x = true
      else IsNextUp word x (nextUp word x)) ∧
    (if isEqual x (negate (infinity word type)) then isEqual (nextDown word x) x = true
      else IsNextDown word x (nextDown word x)) := by
  have fits : magnitude x ≤ type.format.infinity := by
    rwa [← Bool.not_eq_true, isNaN_iff, not_lt] at number
  have range := place_le_infinity fits
  have top := fields_infinity word type
  have bottom := fields_negate (infinity word type)
  have placed := place_infinity word type
  have opposite := place_negate (infinity word type)
  have atTop : isEqual x (infinity word type) = true ↔ place x = type.format.infinity := by
    rw [isEqual_iff, placed, top.1]
    exact and_iff_right ⟨fits, le_rfl⟩
  have atBottom : isEqual x (negate (infinity word type)) = true ↔
      place x = -type.format.infinity := by
    rw [isEqual_iff, opposite, placed, bottom.1, top.1]
    exact and_iff_right ⟨fits, le_rfl⟩
  constructor
  · split_ifs with last
    · have stays := @nextUp_stays word type x fits (by rw [atTop.mp last])
      rw [isEqual_iff, stays.1, stays.2]
      exact ⟨⟨fits, fits⟩, rfl⟩
    · have below : place x < type.format.infinity := by
        have different : place x ≠ type.format.infinity := fun same => last (atTop.mpr same)
        omega
      rcases @place_nextUp word type x fits below with ⟨nextFits, next⟩
      rcases @place_nextDown word type (nextUp word x) nextFits (by omega) with ⟨backFits, back⟩
      refine ⟨?_, ?_, ?_⟩
      · rw [isLess_iff, next]
        exact ⟨⟨fits, nextFits⟩, by omega⟩
      · intro y larger
        rw [isLess_iff] at larger
        rw [isLessThanOrEqualTo_iff, next]
        exact ⟨⟨nextFits, larger.1.2⟩, by omega⟩
      · rw [isEqual_iff, back, next]
        exact ⟨⟨backFits, fits⟩, by omega⟩
  · split_ifs with last
    · have negated := fields_negate x
      have flipped := place_negate x
      have stays := @nextUp_stays word type (negate x) (by rwa [negated.1])
        (by rw [flipped, atBottom.mp last, neg_neg])
      rw [isEqual_iff, nextDown, (fields_negate _).1, place_negate, stays.1, stays.2, negated.1,
        flipped, neg_neg]
      exact ⟨⟨fits, fits⟩, rfl⟩
    · have above : -type.format.infinity < place x := by
        have different : place x ≠ -type.format.infinity := fun same => last (atBottom.mpr same)
        omega
      rcases @place_nextDown word type x fits above with ⟨nextFits, next⟩
      rcases @place_nextUp word type (nextDown word x) nextFits (by omega) with ⟨backFits, back⟩
      refine ⟨?_, ?_, ?_⟩
      · rw [isLess_iff, next]
        exact ⟨⟨nextFits, fits⟩, by omega⟩
      · intro y smaller
        rw [isLess_iff] at smaller
        rw [isLessThanOrEqualTo_iff, next]
        exact ⟨⟨smaller.1.1, nextFits⟩, by omega⟩
      · rw [isEqual_iff, back, next]
        exact ⟨⟨backFits, fits⟩, by omega⟩

/-- Above the least negative number is negative zero. -/
theorem nextUp_nextDown_least :
    (if isEqual (0x80000001 : FloatingPoint .float) (infinity .word16 .float) then
        isEqual (nextUp .word16 (0x80000001 : FloatingPoint .float)) 0x80000001 = true
      else IsNextUp .word16 (0x80000001 : FloatingPoint .float)
        (nextUp .word16 (0x80000001 : FloatingPoint .float))) ∧
    (if isEqual (0x80000001 : FloatingPoint .float) (negate (infinity .word16 .float)) then
        isEqual (nextDown .word16 (0x80000001 : FloatingPoint .float)) 0x80000001 = true
      else IsNextDown .word16 (0x80000001 : FloatingPoint .float)
        (nextDown .word16 (0x80000001 : FloatingPoint .float))) :=
  nextUp_nextDown _ (by decide)

end Neighbours

end FloatingPoint

end USwift
