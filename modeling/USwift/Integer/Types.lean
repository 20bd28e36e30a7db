import USwift.Library.TwosComplement

/-!
# Fixed-width integer types

The ten integer types of the library and the operations that their extensions
spell out one type at a time: literals, the homogeneous comparisons, the low
word, the construction from a word, and the masking shifts. The width of `Int`
and `UInt` depends on the configuration, which selects the 16-bit files for AVR
and the 32-bit files for ARM.
-/

namespace USwift

/-- The two configurations of the pointer-sized integers. -/
inductive WordSize where
  | word16
  | word32
  deriving DecidableEq, Repr

namespace WordSize

/-- `Int.bitWidth`. -/
abbrev bits : WordSize → ℕ
  | word16 => 16
  | word32 => 32

theorem bits_pos (word : WordSize) : 0 < word.bits := by
  cases word <;> simp [bits]

end WordSize

/-- The built-in fixed-width integer types. -/
inductive IntegerType where
  | int8
  | int16
  | int32
  | int64
  | int
  | uint8
  | uint16
  | uint32
  | uint64
  | uint
  deriving DecidableEq, Repr

namespace IntegerType

/-- `isSigned`. -/
abbrev isSigned : IntegerType → Bool
  | int8 | int16 | int32 | int64 | int => true
  | uint8 | uint16 | uint32 | uint64 | uint => false

/-- `bitWidth`. -/
abbrev bitWidth : IntegerType → WordSize → ℕ
  | int8, _ | uint8, _ => 8
  | int16, _ | uint16, _ => 16
  | int32, _ | uint32, _ => 32
  | int64, _ | uint64, _ => 64
  | int, word | uint, word => word.bits

theorem bitWidth_pos (type : IntegerType) (word : WordSize) : 0 < type.bitWidth word := by
  cases type <;> cases word <;> decide

theorem bitWidth_le (type : IntegerType) (word : WordSize) : type.bitWidth word ≤ 64 := by
  cases type <;> cases word <;> decide

theorem bitWidth_uint8 (word : WordSize) : uint8.bitWidth word = 8 := rfl

theorem bitWidth_uint16 (word : WordSize) : uint16.bitWidth word = 16 := rfl

theorem bitWidth_uint32 (word : WordSize) : uint32.bitWidth word = 32 := rfl

theorem bitWidth_uint64 (word : WordSize) : uint64.bitWidth word = 64 := rfl

end IntegerType

/-- The stored bits of a value of an integer type. -/
abbrev Value (word : WordSize) (type : IntegerType) : Type :=
  BitVec (type.bitWidth word)

section Operations

variable (word : WordSize) (type : IntegerType)

/-- The mathematical integer held by a value. -/
def toInt (x : Value word type) : ℤ :=
  TwosComplement.value type.isSigned x

/-- The homogeneous `<`, which is `cmp_slt` for the signed types and `cmp_ult` for the others. -/
def less (lhs rhs : Value word type) : Bool :=
  if type.isSigned then lhs.slt rhs else lhs.ult rhs

/-- The constant that `&>>=` and `&<<=` apply to their right-hand side. -/
def shiftMask : WordSize → IntegerType → ℕ
  | _, .int8 => 15
  | _, .uint8 => 7
  | _, .int16 | _, .uint16 => 15
  | _, .int32 | _, .uint32 => 31
  | _, .int64 | _, .uint64 => 63
  | .word16, .int | .word16, .uint => 15
  | .word32, .int | .word32, .uint => 31

/-- The amount that `&>>=` and `&<<=` hand to the LLVM shift builtin. -/
def maskedAmount (rhs : Value word type) : Value word type :=
  rhs &&& BitVec.ofNat _ (shiftMask word type)

/-- `&<<`. LLVM leaves the result open when the masked amount reaches the width. -/
def maskingShiftLeft (lhs rhs : Value word type) : Value word type :=
  lhs <<< maskedAmount word type rhs

/-- `&>>`, which is `ashr` for the signed types and `lshr` for the others. -/
def maskingShiftRight (lhs rhs : Value word type) : Value word type :=
  if type.isSigned then lhs.sshiftRight' (maskedAmount word type rhs)
  else lhs >>> maskedAmount word type rhs

end Operations

/-- `init(_truncatingBits:)`. -/
def truncatingBits : (word : WordSize) → (type : IntegerType) → Value word .uint →
    Value word type
  | .word16, .int8, bits | .word16, .uint8, bits => bits.truncate 8
  | .word16, .int16, bits | .word16, .uint16, bits => bits
  | .word16, .int32, bits | .word16, .uint32, bits => bits.zeroExtend 32
  | .word16, .int64, bits | .word16, .uint64, bits => bits.zeroExtend 64
  | .word16, .int, bits | .word16, .uint, bits => bits
  | .word32, .int8, bits | .word32, .uint8, bits => bits.truncate 8
  | .word32, .int16, bits | .word32, .uint16, bits => bits.truncate 16
  | .word32, .int32, bits | .word32, .uint32, bits => bits
  | .word32, .int64, bits | .word32, .uint64, bits => bits.zeroExtend 64
  | .word32, .int, bits | .word32, .uint, bits => bits

/-- `_lowWord`. -/
def lowWord : (word : WordSize) → (type : IntegerType) → Value word type → Value word .uint
  | .word16, .int8, x => x.signExtend 16
  | .word16, .uint8, x => x.zeroExtend 16
  | .word16, .int16, x | .word16, .uint16, x => x
  | .word16, .int32, x | .word16, .uint32, x => x.truncate 16
  | .word16, .int64, x | .word16, .uint64, x => x.truncate 16
  | .word16, .int, x | .word16, .uint, x => x
  | .word32, .int8, x => x.signExtend 32
  | .word32, .uint8, x => x.zeroExtend 32
  | .word32, .int16, x => x.signExtend 32
  -- The 32-bit file extends the sign of both 16-bit types.
  | .word32, .uint16, x => x.signExtend 32
  | .word32, .int32, x | .word32, .uint32, x => x
  | .word32, .int64, x | .word32, .uint64, x => x.truncate 32
  | .word32, .int, x | .word32, .uint, x => x

/-- `T.min`, which the signed types obtain by shifting `-1` up to `_highBitIndex`. -/
def minValue (word : WordSize) (type : IntegerType) : Value word type :=
  let highBitIndex := truncatingBits word type (BitVec.ofNat _ (type.bitWidth word) - 1)
  if type.isSigned then maskingShiftLeft word type (-1) highBitIndex else 0

theorem truncatingBits_eq_setWidth (word : WordSize) (type : IntegerType)
    (bits : Value word .uint) :
    truncatingBits word type bits = bits.setWidth (type.bitWidth word) := by
  cases word <;> cases type <;> simp [truncatingBits]

/-- Whether `_lowWord` extends the sign of the stored bits. -/
def extendsSign : WordSize → IntegerType → Bool
  | .word32, .uint16 => true
  | _, type => type.isSigned

theorem lowWord_eq_extend (word : WordSize) (type : IntegerType) (x : Value word type) :
    lowWord word type x = TwosComplement.extend (extendsSign word type) word.bits x := by
  cases word <;> cases type <;>
    simp [lowWord, extendsSign, TwosComplement.extend, WordSize.bits]
  -- What remains are the wider signed types, where both extensions truncate.
  all_goals exact (BitVec.signExtend_eq_setWidth_of_le _ (by decide)).symm

/-- The builtin is handed the amount modulo the number that the mask stands for. -/
theorem toNat_maskedAmount {word : WordSize} {type : IntegerType} (amount : Value word type) :
    (maskedAmount word type amount).toNat = amount.toNat % (shiftMask word type + 1) := by
  have mask_lt : shiftMask word type < 2 ^ type.bitWidth word := by
    cases type <;> cases word <;> decide
  have mask_eq : shiftMask word type = 2 ^ (shiftMask word type + 1).log2 - 1 := by
    cases type <;> cases word <;> decide
  have positive : 0 < 2 ^ (shiftMask word type + 1).log2 := Nat.two_pow_pos _
  rw [maskedAmount, BitVec.toNat_and, BitVec.toNat_ofNat, Nat.mod_eq_of_lt mask_lt, mask_eq,
    Nat.and_two_pow_sub_one_eq_mod, Nat.sub_add_cancel positive]

theorem bitWidth_le_shiftMask (word : WordSize) (type : IntegerType) :
    type.bitWidth word ≤ shiftMask word type + 1 := by
  cases type <;> cases word <;> decide

theorem toNat_maskedAmount_of_lt {word : WordSize} {type : IntegerType}
    {amount : Value word type} (inside : amount.toNat < type.bitWidth word) :
    (maskedAmount word type amount).toNat = amount.toNat := by
  rw [toNat_maskedAmount]
  exact Nat.mod_eq_of_lt (inside.trans_le (bitWidth_le_shiftMask word type))

theorem maskingShiftLeft_of_lt {word : WordSize} {type : IntegerType}
    (x : Value word type) {amount : Value word type}
    (inside : amount.toNat < type.bitWidth word) :
    maskingShiftLeft word type x amount = x <<< amount.toNat := by
  rw [maskingShiftLeft, BitVec.shiftLeft_eq', toNat_maskedAmount_of_lt inside]

theorem maskingShiftRight_of_lt {word : WordSize} {type : IntegerType}
    (unsigned : type.isSigned = false) (x : Value word type) {amount : Value word type}
    (inside : amount.toNat < type.bitWidth word) :
    maskingShiftRight word type x amount = x >>> amount.toNat := by
  rw [maskingShiftRight, unsigned, if_neg Bool.false_ne_true, BitVec.ushiftRight_eq',
    toNat_maskedAmount_of_lt inside]

theorem toNat_amount {word : WordSize} {type : IntegerType} {amount : ℕ}
    (below : amount < type.bitWidth word) :
    (BitVec.ofNat (type.bitWidth word) amount).toNat = amount := by
  rw [BitVec.toNat_ofNat]
  exact Nat.mod_eq_of_lt (below.trans Nat.lt_two_pow_self)

theorem maskingShiftLeft_ofNat {word : WordSize} {type : IntegerType} (x : Value word type)
    {amount : ℕ} (below : amount < type.bitWidth word) :
    maskingShiftLeft word type x (BitVec.ofNat _ amount) = x <<< amount := by
  have value := toNat_amount below
  rw [maskingShiftLeft_of_lt x (by rwa [value]), value]

theorem maskingShiftRight_ofNat {word : WordSize} {type : IntegerType}
    (unsigned : type.isSigned = false) (x : Value word type) {amount : ℕ}
    (below : amount < type.bitWidth word) :
    maskingShiftRight word type x (BitVec.ofNat _ amount) = x >>> amount := by
  have value := toNat_amount below
  rw [maskingShiftRight_of_lt unsigned x (by rwa [value]), value]

theorem getLsbD_maskingShiftRight_of_lt {word : WordSize} {type : IntegerType}
    (x : Value word type) {amount : Value word type}
    (inside : amount.toNat < type.bitWidth word) {index : ℕ}
    (index_lt : index < type.bitWidth word) :
    (maskingShiftRight word type x amount).getLsbD index =
      TwosComplement.bit type.isSigned x (amount.toNat + index) := by
  rw [maskingShiftRight]
  cases signed : type.isSigned with
  | true =>
      rw [if_pos rfl, BitVec.sshiftRight', toNat_maskedAmount_of_lt inside,
        BitVec.getLsbD_sshiftRight]
      simp [TwosComplement.bit, index_lt]
  | false =>
      rw [if_neg (by simp), BitVec.ushiftRight_eq', toNat_maskedAmount_of_lt inside,
        BitVec.getLsbD_ushiftRight]
      simp only [TwosComplement.bit, Bool.false_and]
      by_cases high : amount.toNat + index < type.bitWidth word
      · simp [high]
      · rw [if_neg high, BitVec.getLsbD_of_ge _ _ (by omega)]

theorem bit_maskingShiftRight_of_lt {word : WordSize} {type : IntegerType}
    (x : Value word type) {amount : Value word type}
    (inside : amount.toNat < type.bitWidth word) (index : ℕ) :
    TwosComplement.bit type.isSigned (maskingShiftRight word type x amount) index =
      TwosComplement.bit type.isSigned x (amount.toNat + index) := by
  have positive := type.bitWidth_pos word
  by_cases low : index < type.bitWidth word
  · rw [TwosComplement.bit, if_pos low, getLsbD_maskingShiftRight_of_lt x inside low]
  · rw [TwosComplement.bit, if_neg low, BitVec.msb_eq_getLsbD_last,
      getLsbD_maskingShiftRight_of_lt x inside (by omega)]
    -- Above the width the expansion repeats its sign, which the top bit already shows.
    by_cases top : amount.toNat = 0
    · simp only [top, TwosComplement.bit, low, Nat.zero_add, if_false,
        Nat.sub_lt positive Nat.one_pos, if_true, BitVec.msb_eq_getLsbD_last]
    · simp [TwosComplement.bit, show ¬ amount.toNat + (type.bitWidth word - 1) <
        type.bitWidth word by omega, show ¬ amount.toNat + index < type.bitWidth word by omega]

theorem less_iff {word : WordSize} {type : IntegerType} {lhs rhs : Value word type} :
    less word type lhs rhs = true ↔ toInt word type lhs < toInt word type rhs := by
  rw [less, toInt, toInt]
  cases type.isSigned with
  | true => simp [TwosComplement.value, BitVec.slt_eq_decide]
  | false => simp [TwosComplement.value, BitVec.ult_eq_decide]

theorem toInt_ofNat {word : WordSize} {type : IntegerType} {constant : ℕ}
    (small : constant < 2 ^ (type.bitWidth word - 1)) :
    toInt word type (BitVec.ofNat _ constant) = constant := by
  have positive := type.bitWidth_pos word
  have double : 2 ^ type.bitWidth word = 2 * 2 ^ (type.bitWidth word - 1) := by
    rw [← pow_succ', Nat.sub_add_cancel positive]
  have reduced : constant % 2 ^ type.bitWidth word = constant := Nat.mod_eq_of_lt (by omega)
  rw [toInt, TwosComplement.value]
  cases type.isSigned with
  | true => rw [if_pos rfl, BitVec.toInt_eq_toNat_cond, BitVec.toNat_ofNat, reduced,
      if_pos (by omega)]
  | false => rw [if_neg (by simp), BitVec.toNat_ofNat, reduced]

theorem toInt_zero (word : WordSize) (type : IntegerType) : toInt word type 0 = 0 := by
  rw [toInt]
  cases type.isSigned <;> simp [TwosComplement.value]

/-- Comparing with the literal zero reads the sign. -/
theorem less_zero (word : WordSize) (type : IntegerType) (x : Value word type) :
    less word type x 0 = (type.isSigned && x.msb) := by
  have negative := TwosComplement.value_neg_iff type.isSigned x
  apply Bool.eq_iff_iff.mpr
  rw [less_iff, toInt_zero, ← negative]
  rfl

theorem less_unsigned_iff {word : WordSize} {type : IntegerType} (unsigned : type.isSigned = false)
    {lhs rhs : Value word type} :
    less word type lhs rhs = true ↔ BitVec.toNat lhs < BitVec.toNat rhs := by
  rw [less, unsigned, if_neg Bool.false_ne_true, BitVec.ult_eq_decide, decide_eq_true_eq]

section Arithmetic

variable {word : WordSize} {type : IntegerType} {x y : Value word type}

theorem toInt_injective (same : toInt word type x = toInt word type y) : x = y :=
  TwosComplement.eq_of_value_modEq (congrArg (· % 2 ^ type.bitWidth word) same)

theorem minimum_le_toInt (x : Value word type) :
    TwosComplement.minimum type.isSigned (type.bitWidth word) ≤ toInt word type x :=
  TwosComplement.minimum_le_value _ x

theorem toInt_le_maximum (x : Value word type) :
    toInt word type x ≤ TwosComplement.maximum type.isSigned (type.bitWidth word) :=
  TwosComplement.value_le_maximum _ x

theorem toInt_add
    (low : TwosComplement.minimum type.isSigned (type.bitWidth word) ≤
      toInt word type x + toInt word type y)
    (high : toInt word type x + toInt word type y ≤
      TwosComplement.maximum type.isSigned (type.bitWidth word)) :
    toInt word type (x + y) = toInt word type x + toInt word type y :=
  TwosComplement.value_add_of_bounds (type.bitWidth_pos word) low high

theorem toInt_sub
    (low : TwosComplement.minimum type.isSigned (type.bitWidth word) ≤
      toInt word type x - toInt word type y)
    (high : toInt word type x - toInt word type y ≤
      TwosComplement.maximum type.isSigned (type.bitWidth word)) :
    toInt word type (x - y) = toInt word type x - toInt word type y :=
  TwosComplement.value_sub_of_bounds (type.bitWidth_pos word) low high

theorem toInt_neg_of_bounds
    (low : TwosComplement.minimum type.isSigned (type.bitWidth word) ≤ -toInt word type x)
    (high : -toInt word type x ≤ TwosComplement.maximum type.isSigned (type.bitWidth word)) :
    toInt word type (-x) = -toInt word type x :=
  TwosComplement.value_neg_of_bounds (type.bitWidth_pos word) low high

end Arithmetic

theorem toInt_eq_toNat {word : WordSize} {x : Value word .int}
    (nonnegative : 0 ≤ toInt word .int x) :
    toInt word .int x = BitVec.toNat x := by
  have positive : 0 ≤ BitVec.toInt x := nonnegative
  show BitVec.toInt x = BitVec.toNat x
  rw [BitVec.toInt_eq_toNat_cond] at positive ⊢
  have bounded : BitVec.toNat x < 2 ^ IntegerType.int.bitWidth word := BitVec.isLt x
  split_ifs at positive ⊢ with small
  · rfl
  · push_cast at positive
    zify at bounded
    omega

end USwift
