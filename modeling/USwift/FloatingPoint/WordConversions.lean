import USwift.FloatingPoint.FromInteger

/-!
# Conversions of integers of at most a word

The initializers of `Float` and `Float16` in the files for a word size hand an integer that is
no wider than a word to a builtin, as an `Int` or as a `UInt`, and leave the others to
`_convert(from:)`. The builtins are parameters of the model. LLVM documents that they round to
nearest.
-/

namespace USwift

open BinaryFormats BinaryFormats.Format FixedWidthInteger

/-- `Builtin.sitofp` and `Builtin.uitofp` from a word to a floating-point type. -/
structure WordConversions (word : WordSize) (type : FloatingPointType) where
  sitofp : Value word .int → FloatingPoint type
  uitofp : Value word .uint → FloatingPoint type

namespace WordConversions

variable {word : WordSize} {type : FloatingPointType} {source : IntegerType}

/-- The builtins round to nearest, with ties to even, and keep the sign. -/
structure Round (builtins : WordConversions word type) : Prop where
  signed : ∀ x, negative (builtins.sitofp x) = decide (toInt word .int x < 0) ∧
    type.format.RoundsTo (toInt word .int x).natAbs (Format.magnitude (builtins.sitofp x))
  unsigned : ∀ x, negative (builtins.uitofp x) = false ∧
    type.format.RoundsTo (BitVec.toNat x) (Format.magnitude (builtins.uitofp x))

/-- `asUInt`, which in the initializer of `Float` is an `Int` that is read as unsigned. -/
def asUInt (type : FloatingPointType) (x : Value word source) : Value word .uint :=
  match type with
  | .float => truncatingIfNeeded word .int source x
  | .float16 => truncatingIfNeeded word .uint source x

/-- `init(_:)` of a value of any integer type. -/
def ofValue (builtins : WordConversions word type) (x : Value word source) : FloatingPoint type :=
  if source.bitWidth word ≤ word.bits then
    if source.isSigned then builtins.sitofp (truncatingIfNeeded word .int source x)
    else builtins.uitofp (asUInt type x)
  else FloatingPoint.ofInteger word type x

section Words

variable {builtins : WordConversions word type} {x : Value word source}

theorem sitofp_eq (round : builtins.Round) {w : Value word .int}
    (same : toInt word .int w = toInt word source x) :
    builtins.sitofp w = FloatingPoint.ofInteger word type x := by
  have generic := @FloatingPoint.convertInteger_converts word type source x
  have fast := round.signed w
  rw [same] at fast
  apply Format.ext
  · exact fast.2.unique generic.rounds
  · exact fast.1.trans generic.sign.symm

theorem ofInteger_unsigned (unsigned : source.isSigned = false) (x : Value word source) :
    negative (FloatingPoint.ofInteger word type x) = false ∧
      type.format.RoundsTo (BitVec.toNat x)
        (Format.magnitude (FloatingPoint.ofInteger word type x)) := by
  have generic := @FloatingPoint.convertInteger_converts word type source x
  have value : toInt word source x = BitVec.toNat x := by
    rw [toInt, TwosComplement.value, unsigned, if_neg Bool.false_ne_true]
  have sign := generic.sign
  have rounds := generic.rounds
  rw [value] at sign rounds
  refine ⟨sign.trans ?_, rounds⟩
  apply decide_eq_false
  omega

theorem uitofp_eq (round : builtins.Round) (unsigned : source.isSigned = false)
    {w : Value word .uint} (same : BitVec.toNat w = BitVec.toNat x) :
    builtins.uitofp w = FloatingPoint.ofInteger word type x := by
  have generic := @ofInteger_unsigned word type source unsigned x
  have fast := round.unsigned w
  rw [same] at fast
  apply Format.ext
  · exact fast.2.unique generic.2
  · exact fast.1.trans generic.1.symm

theorem toInt_word (signed : source.isSigned = true) (narrow : source.bitWidth word ≤ word.bits) :
    toInt word .int (truncatingIfNeeded word .int source x) = toInt word source x := by
  have regular : Faithful word source .int x := by
    apply (faithful_iff word source .int x).mpr
    rintro ⟨_, rfl, _⟩
    cases signed
  have low := minimum_le_toInt x
  have high := toInt_le_maximum x
  rw [signed] at low high
  apply regular.toInt_eq
  · exact (TwosComplement.minimum_anti true narrow).trans low
  · exact high.trans (TwosComplement.maximum_mono true narrow)

theorem toNat_asUInt {number : ℕ}
    (first : BitVec.toNat (truncatingIfNeeded word .int source x) = number)
    (second : BitVec.toNat (truncatingIfNeeded word .uint source x) = number) :
    BitVec.toNat (asUInt type x) = number := by
  cases type with
  | float => exact first
  | float16 => exact second

theorem toNat_word {target : IntegerType} (unsigned : source.isSigned = false)
    (regular : ¬ (word = .word32 ∧ source = .uint16))
    (fits : source.bitWidth word ≤ target.bitWidth word) :
    BitVec.toNat (truncatingIfNeeded word target source x) = BitVec.toNat x := by
  rw [truncatingIfNeeded_unsigned unsigned regular, BitVec.toNat_setWidth]
  exact Nat.mod_eq_of_lt (x.isLt.trans_le (Nat.pow_le_pow_right (by decide) fits))

theorem ofValue_regular (round : builtins.Round)
    (regular : ¬ (word = .word32 ∧ source = .uint16)) :
    builtins.ofValue x = FloatingPoint.ofInteger word type x := by
  by_cases narrow : source.bitWidth word ≤ word.bits
  · cases kind : source.isSigned with
    | true =>
        rw [ofValue, if_pos narrow, kind, if_pos rfl]
        exact sitofp_eq round (toInt_word kind narrow)
    | false =>
        rw [ofValue, if_pos narrow, kind, if_neg Bool.false_ne_true]
        apply uitofp_eq round kind
        apply toNat_asUInt
        · exact toNat_word kind regular narrow
        · exact toNat_word kind regular narrow
  · rw [ofValue, if_neg narrow]

end Words

section Extended

variable {builtins : WordConversions .word32 type} {x : Value .word32 .uint16}

/-- Passing through a word extends a `UInt16` with its first bit. -/
theorem toNat_extended {target : IntegerType} (wide : target.bitWidth .word32 = 32)
    (x : Value .word32 .uint16) :
    BitVec.toNat (truncatingIfNeeded .word32 target .uint16 x) =
      BitVec.toNat x + if BitVec.toNat x < 2 ^ 15 then 0 else 2 ^ 32 - 2 ^ 16 := by
  have bound : BitVec.toNat x < 2 ^ 16 := x.isLt
  have first : x.msb = decide (2 ^ 15 ≤ BitVec.toNat x) := BitVec.msb_eq_decide x
  have low : BitVec.toNat x % 2 ^ 32 = BitVec.toNat x := Nat.mod_eq_of_lt (by omega)
  rw [truncatingIfNeeded_uint16_word32, wide, BitVec.setWidth_eq, BitVec.toNat_signExtend,
    BitVec.toNat_setWidth, low, first]
  split_ifs with large small
  · have least := of_decide_eq_true large
    omega
  · rfl
  · rfl
  · exact absurd (decide_eq_true (by omega)) large

theorem toNat_asUInt_extended (x : Value .word32 .uint16) :
    BitVec.toNat (asUInt type x) =
      BitVec.toNat x + if BitVec.toNat x < 2 ^ 15 then 0 else 2 ^ 32 - 2 ^ 16 := by
  apply toNat_asUInt
  · exact toNat_extended rfl x
  · exact toNat_extended rfl x

theorem half_rounds_infinity_iff {number magnitude : ℕ}
    (rounds : half.RoundsTo number magnitude) :
    magnitude = half.infinity ↔ 65520 ≤ number := by
  have parts : half.infinity - 1 + 1 = half.infinity ∧ half.bias = 15 ∧
      half.gap (half.infinity - 1) = 2 ^ 29 ∧ half.significandBits = 10 ∧
      half.infinity - 1 < half.infinity ∧ Even half.infinity := by decide
  have least : half.leastNonzero = 1 / 2 ^ 24 := by
    rw [leastNonzero, parts.2.1, parts.2.2.2.1]
    norm_num
  have top : half.value half.infinity = 65536 := by
    rw [value_infinity, parts.2.1]
    norm_num
  have last : half.value (half.infinity - 1) = 65504 := by
    have step := value_succ (f := half) (half.infinity - 1)
    rw [parts.1, top, parts.2.2.1, least] at step
    norm_num at step
    linarith
  constructor
  · rintro rfl
    have nearest := rounds.nearest (half.infinity - 1) (Nat.sub_le _ _) parts.2.2.2.2.1.ne
    by_contra below
    have less : (number : ℚ) < 65520 := by exact_mod_cast Nat.lt_of_not_le below
    rw [top, last, abs_sub_comm, abs_of_pos (by linarith)] at nearest
    have further : |(number : ℚ) - 65504| < 65536 - number := abs_lt.mpr ⟨by linarith, by linarith⟩
    rcases nearest with nearer | ⟨tie, _⟩
    · linarith
    · linarith
  · intro large
    have atLeast : (65520 : ℚ) ≤ number := by exact_mod_cast large
    by_cases beyond : (65536 : ℚ) ≤ number
    · exact rounds.unique (roundsTo_infinity (by rwa [top]))
    · have upper := roundsTo_upper (f := half) (x := number) parts.2.2.2.2.1
        (by rw [parts.1, top]; linarith) (by rw [parts.1, top, last]; linarith)
        (fun _ => by rw [parts.1]; exact parts.2.2.2.2.2)
      rw [parts.1] at upper
      exact rounds.unique upper

theorem single_rounds_apart {number large magnitude : ℕ} (small : number ≤ 2 ^ 16)
    (beyond : 2 ^ 31 ≤ large) (rounds : single.RoundsTo number magnitude)
    (roundsLarge : single.RoundsTo large magnitude) : False := by
  have lower := value_power (f := single) 16
  have upper := value_power (f := single) 31
  have fits : (single.bias + 31) * 2 ^ single.significandBits ≤ single.infinity ∧
      (single.bias + 16) * 2 ^ single.significandBits <
        (single.bias + 31) * 2 ^ single.significandBits := by decide
  have most := rounds.le_of_le (fits.2.le.trans fits.1)
    (by rw [lower]; exact_mod_cast small)
  have least := roundsLarge.ge_of_ge fits.1 (by rw [upper]; exact_mod_cast beyond)
  omega

theorem ofValue_extended_iff (round : builtins.Round) (large : 2 ^ 15 ≤ BitVec.toNat x) :
    builtins.ofValue x = FloatingPoint.ofInteger .word32 type x ↔
      type = .float16 ∧ 65520 ≤ BitVec.toNat x := by
  have generic := @ofInteger_unsigned .word32 type .uint16 rfl x
  have bound : BitVec.toNat x < 2 ^ 16 := x.isLt
  have extended := @toNat_asUInt_extended type x
  have fast := round.unsigned (asUInt type x)
  rw [extended, if_neg (by omega)] at fast
  have path : builtins.ofValue x = builtins.uitofp (asUInt type x) := by
    rw [ofValue, if_pos (by decide), if_neg (by decide)]
  rw [path]
  cases type with
  | float =>
      refine iff_of_false ?_ (fun claimed => by cases claimed.1)
      intro same
      rw [same] at fast
      exact single_rounds_apart bound.le (by omega) generic.2 fast.2
  | float16 =>
      have top : half.value half.infinity = 65536 := by
        rw [value_infinity, show half.bias = 15 by decide]
        norm_num
      have infinite := fast.2.unique (roundsTo_infinity (by
        rw [show FloatingPointType.float16.format = half from rfl, top]
        exact_mod_cast (by omega : 65536 ≤ BitVec.toNat x + (2 ^ 32 - 2 ^ 16))))
      have edge := half_rounds_infinity_iff generic.2
      rw [and_iff_right rfl, ← edge]
      constructor
      · intro same
        rw [← same]
        exact infinite
      · intro same
        apply Format.ext
        · exact infinite.trans same.symm
        · exact fast.1.trans generic.1.symm

end Extended

/--
The initializers that hand an integer of at most a word to a builtin agree with the generic
conversion, except for a `UInt16` in the 32-bit configuration: its first bit is extended on the
way to the word, so that only what both paths round to infinity comes out alike.
-/
theorem ofValue_eq_ofInteger_iff (builtins : WordConversions word type) (round : builtins.Round)
    (x : Value word source) :
    builtins.ofValue x = FloatingPoint.ofInteger word type x ↔
      (word = .word32 → source = .uint16 →
        BitVec.toNat x < 2 ^ 15 ∨ type = .float16 ∧ 65520 ≤ BitVec.toNat x) := by
  by_cases extended : word = .word32 ∧ source = .uint16
  · rcases extended with ⟨rfl, rfl⟩
    simp only [true_implies]
    by_cases large : 2 ^ 15 ≤ BitVec.toNat x
    · rw [ofValue_extended_iff round large, or_iff_right (Nat.not_lt.mpr large)]
    · have same := @toNat_asUInt_extended type x
      rw [if_pos (Nat.lt_of_not_le large), Nat.add_zero] at same
      refine iff_of_true ?_ (Or.inl (Nat.lt_of_not_le large))
      rw [ofValue, if_pos (by decide), if_neg (by decide)]
      exact uitofp_eq round rfl same
  · refine iff_of_true (ofValue_regular round extended) ?_
    intro wide unsigned
    exact absurd ⟨wide, unsigned⟩ extended

/-- The builtins as the generic conversion from the types of a word. -/
def generic (word : WordSize) (type : FloatingPointType) : WordConversions word type where
  sitofp x := @FloatingPoint.ofInteger word type .int x
  uitofp x := @FloatingPoint.ofInteger word type .uint x

theorem round_generic (word : WordSize) (type : FloatingPointType) : (generic word type).Round where
  signed x := by
    have converts := @FloatingPoint.convertInteger_converts word type .int x
    exact ⟨converts.sign, converts.rounds⟩
  unsigned x := @ofInteger_unsigned word type .uint rfl x

/-- The two paths differ at 40000, whose first bit is set. -/
theorem ofValue_eq_ofInteger_iff_40000 :
    (generic .word32 .float).Round ∧
      ((generic .word32 .float).ofValue (40000 : Value .word32 .uint16) =
          FloatingPoint.ofInteger .word32 .float (40000 : Value .word32 .uint16) ↔
        (WordSize.word32 = .word32 → IntegerType.uint16 = .uint16 →
          BitVec.toNat (40000 : Value .word32 .uint16) < 2 ^ 15 ∨
            FloatingPointType.float = .float16 ∧
              65520 ≤ BitVec.toNat (40000 : Value .word32 .uint16))) :=
  ⟨round_generic _ _, ofValue_eq_ofInteger_iff _ (round_generic _ _) _⟩

end WordConversions

end USwift
