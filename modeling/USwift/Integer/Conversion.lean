import USwift.Integer.Words

/-!
# Truncating and extending conversions

The generic `init(truncatingIfNeeded:)` builds a value of one integer type from
the words of another. It takes the low word when the target fits in a word, and
otherwise folds the words into a value that starts as the sign of the source.
This file finds the bits of its result for every pair of types.
-/

namespace USwift

open Iteration

section Loop

variable (word : WordSize) (target : IntegerType)

/-- The loop of `init(truncatingIfNeeded:)` over the words that remain. -/
def truncationLoop (neg : Bool) (width : Value word target) :
    List (Value word .uint) → Value word target → Value word target → Value word target
  | [], result, _ => result
  | sourceWord :: rest, result, shift =>
      if less word target shift width then
        truncationLoop neg width rest
          (result ^^^ maskingShiftLeft word target
            (truncatingBits word target (if neg then ~~~sourceWord else sourceWord)) shift)
          (shift + truncatingBits word target (BitVec.ofNat _ word.bits))
      else result

/-- `init(truncatingIfNeeded:)`. -/
def truncatingIfNeeded (source : IntegerType) (x : Value word source) : Value word target :=
  if target.bitWidth word ≤ word.bits then truncatingBits word target (lowWord word source x)
  else
    let neg := less word source x 0
    let result : Value word target := if neg then ~~~0 else 0
    let width := truncatingBits word target (BitVec.ofNat _ (target.bitWidth word))
    truncationLoop word target neg width (Words.mk x).elements result 0

end Loop

variable {word : WordSize} {source target : IntegerType}

/-- The bit that a conversion to a wide type shows at an index. -/
def conversionBit (x : Value word source) (index : ℕ) : Bool :=
  if index < wordCount word source * word.bits then
    TwosComplement.bit (extendsSign word source) x index
  else less word source x 0

/-- The state of the conversion loop after a number of words. -/
structure TruncationInvariant (x : Value word source) (visited : ℕ)
    (result shift : Value word target) : Prop where
  shift_eq : shift = BitVec.ofNat _ (visited * word.bits)
  low : ∀ index < target.bitWidth word, index < visited * word.bits →
    result.getLsbD index = TwosComplement.bit (extendsSign word source) x index
  high : ∀ index < target.bitWidth word, visited * word.bits ≤ index →
    result.getLsbD index = less word source x 0

namespace TruncationInvariant

theorem start (x : Value word source) :
    @TruncationInvariant word source target x 0
      (if less word source x 0 then ~~~0 else 0) 0 := by
  refine ⟨by simp, fun index _ visited => by omega, fun index index_lt _ => ?_⟩
  cases less word source x 0 with
  | true => simp [index_lt]
  | false => simp

theorem step {x : Value word source} {visited : ℕ} {result shift : Value word target}
    (invariant : TruncationInvariant x visited result shift)
    (wide : word.bits < target.bitWidth word)
    (inside : visited < wordCount word source)
    (shift_lt : visited * word.bits < target.bitWidth word) :
    let sourceWord := (Words.mk x).subscript (BitVec.ofNat _ visited)
    TruncationInvariant x (visited + 1)
      (result ^^^ maskingShiftLeft word target (truncatingBits word target
        (if less word source x 0 then ~~~sourceWord else sourceWord)) shift)
      (shift + truncatingBits word target (BitVec.ofNat _ word.bits)) := by
  intro sourceWord
  have modulus : visited * word.bits < 2 ^ target.bitWidth word :=
    shift_lt.trans Nat.lt_two_pow_self
  have shift_toNat : shift.toNat = visited * word.bits := by
    rw [invariant.shift_eq, BitVec.toNat_ofNat, Nat.mod_eq_of_lt modulus]
  have successor : (visited + 1) * word.bits = visited * word.bits + word.bits := by
    rw [Nat.add_mul, Nat.one_mul]
  -- The bits that the exclusive or applies to the result.
  have changed (index : ℕ) (index_lt : index < target.bitWidth word) :
      (maskingShiftLeft word target (truncatingBits word target
        (if less word source x 0 then ~~~sourceWord else sourceWord)) shift).getLsbD index =
        (decide (visited * word.bits ≤ index ∧ index < (visited + 1) * word.bits) &&
          (TwosComplement.bit (extendsSign word source) x index ^^ less word source x 0)) := by
    rw [maskingShiftLeft_of_lt _ (by omega), shift_toNat, BitVec.getLsbD_shiftLeft,
      truncatingBits_eq_setWidth, BitVec.getLsbD_setWidth]
    by_cases low : index < visited * word.bits
    · simp [low, show ¬ visited * word.bits ≤ index by omega]
    · by_cases high : index < (visited + 1) * word.bits
      · have inside_word : index - visited * word.bits < word.bits := by omega
        have window := (Words.mk x).getLsbD_subscript inside inside_word
        rw [Nat.add_sub_cancel' (Nat.le_of_not_lt low)] at window
        have flipped : (if less word source x 0 then ~~~sourceWord else sourceWord).getLsbD
            (index - visited * word.bits) =
            (TwosComplement.bit (extendsSign word source) x index ^^ less word source x 0) := by
          cases less word source x 0 with
          | true => rw [if_pos rfl, BitVec.getLsbD_not, window]; simp [inside_word]
          | false => rw [if_neg (by simp), window, Bool.xor_false]
        rw [flipped]
        simp [low, high, index_lt, Nat.le_of_not_lt low,
          show index - visited * word.bits < target.bitWidth word by omega]
      · have outside : word.bits ≤ index - visited * word.bits := by omega
        rw [BitVec.getLsbD_of_ge _ _ outside]
        simp [high]
  refine ⟨?_, ?_, ?_⟩
  · rw [invariant.shift_eq, truncatingBits_eq_setWidth, successor, BitVec.ofNat_add,
      BitVec.setWidth_ofNat_of_le_of_lt wide.le]
    exact Nat.lt_two_pow_self
  · intro index index_lt before
    rw [BitVec.getLsbD_xor, changed index index_lt]
    by_cases low : index < visited * word.bits
    · rw [invariant.low index index_lt low]
      simp [show ¬ visited * word.bits ≤ index by omega]
    · rw [invariant.high index index_lt (by omega)]
      simp [before, show visited * word.bits ≤ index by omega]
      cases less word source x 0 <;> simp
  · intro index index_lt after
    rw [BitVec.getLsbD_xor, changed index index_lt, invariant.high index index_lt (by omega)]
    simp [show ¬ index < (visited + 1) * word.bits by omega]

theorem guard_iff {x : Value word source} {visited : ℕ} {result shift : Value word target}
    (invariant : TruncationInvariant x visited result shift)
    (wide : word.bits < target.bitWidth word) (inside : visited ≤ wordCount word source) :
    less word target shift (truncatingBits word target (BitVec.ofNat _ (target.bitWidth word))) =
      true ↔ visited * word.bits < target.bitWidth word := by
  have visited_le : visited * word.bits ≤ 64 := by
    have most := Nat.mul_le_mul_right word.bits inside
    have total : wordCount word source * word.bits ≤ 64 := by
      cases word <;> cases source <;> decide
    omega
  have room : 64 < 2 ^ (target.bitWidth word - 1) := by
    revert wide
    cases word <;> cases target <;> decide
  have width_le := target.bitWidth_le word
  have width_lt : target.bitWidth word < 2 ^ word.bits := by
    have : 64 < 2 ^ word.bits := by cases word <;> decide
    omega
  rw [invariant.shift_eq, truncatingBits_eq_setWidth,
    BitVec.setWidth_ofNat_of_le_of_lt wide.le width_lt, less_iff,
    toInt_ofNat (by omega), toInt_ofNat (by omega)]
  exact Int.ofNat_lt

/-- The loop ends with the bits of the conversion whatever part of the words is left. -/
theorem loop {x : Value word source} {remaining : ℕ} {visited : ℕ}
    {result shift : Value word target}
    (invariant : TruncationInvariant x visited result shift)
    (wide : word.bits < target.bitWidth word)
    (covers : visited + remaining = wordCount word source)
    {index : ℕ} (index_lt : index < target.bitWidth word) :
    (truncationLoop word target (less word source x 0)
      (truncatingBits word target (BitVec.ofNat _ (target.bitWidth word)))
      ((Words.mk x).elementsFrom remaining (BitVec.ofNat _ visited)) result shift).getLsbD
        index = conversionBit x index := by
  induction remaining generalizing visited result shift with
  | zero =>
      obtain rfl : visited = wordCount word source := by omega
      simp only [Words.elementsFrom, truncationLoop, conversionBit]
      by_cases low : index < wordCount word source * word.bits
      · rw [if_pos low, invariant.low index index_lt low]
      · rw [if_neg low, invariant.high index index_lt (by omega)]
  | succ remaining shorter =>
      have bound : visited * word.bits ≤ wordCount word source * word.bits :=
        Nat.mul_le_mul_right _ (by omega)
      simp only [Words.elementsFrom, truncationLoop]
      have guard := invariant.guard_iff wide (by omega)
      by_cases shift_lt : visited * word.bits < target.bitWidth word
      · have inside : visited < wordCount word source := by omega
        have next_position : (Words.mk x).indexAfter (BitVec.ofNat _ visited) =
            BitVec.ofNat _ (visited + 1) := by
          rw [Words.indexAfter, BitVec.ofNat_add]
          rfl
        rw [if_pos (guard.mpr shift_lt), next_position]
        exact shorter (invariant.step wide inside shift_lt) (by omega)
      · have low : index < wordCount word source * word.bits := by omega
        rw [if_neg (shift_lt ∘ guard.mp), conversionBit, if_pos low,
          invariant.low index index_lt (by omega)]

end TruncationInvariant

/-- A conversion to a type wider than a word shows the words, then the sign. -/
theorem getLsbD_truncatingIfNeeded (x : Value word source)
    (wide : word.bits < target.bitWidth word) {index : ℕ}
    (index_lt : index < target.bitWidth word) :
    (truncatingIfNeeded word target source x).getLsbD index = conversionBit x index := by
  rw [truncatingIfNeeded, if_neg (by omega), Words.elements, Words.toNat_count]
  exact (TruncationInvariant.start x).loop wide (Nat.zero_add _) index_lt

theorem wordCount_covers (word : WordSize) (type : IntegerType) :
    type.bitWidth word ≤ wordCount word type * word.bits := by
  cases word <;> cases type <;> decide

/-- Every type but `UInt16` in the 32-bit files gets the extension of its signedness. -/
theorem extendsSign_eq_iff (word : WordSize) (type : IntegerType) :
    extendsSign word type = type.isSigned ↔ ¬ (word = .word32 ∧ type = .uint16) := by
  cases word <;> cases type <;> decide

theorem truncatingIfNeeded_eq_extend (faithful : extendsSign word source = source.isSigned)
    (x : Value word source) :
    truncatingIfNeeded word target source x =
      TwosComplement.extend source.isSigned (target.bitWidth word) x := by
  by_cases wide : word.bits < target.bitWidth word
  · apply TwosComplement.eq_extend_of_bits
    intro index index_lt
    rw [getLsbD_truncatingIfNeeded x wide index_lt, conversionBit, faithful]
    by_cases low : index < wordCount word source * word.bits
    · rw [if_pos low]
    · have covers := wordCount_covers word source
      rw [if_neg low, less_zero, TwosComplement.bit, if_neg (by omega)]
  · rw [truncatingIfNeeded, if_pos (by omega), truncatingBits_eq_setWidth, lowWord_eq_extend,
      TwosComplement.setWidth_extend x (by simpa using wide), faithful]

theorem truncatingIfNeeded_unsigned (unsigned : source.isSigned = false)
    (regular : ¬ (word = .word32 ∧ source = .uint16)) (x : Value word source) :
    truncatingIfNeeded word target source x = x.setWidth (target.bitWidth word) := by
  rw [truncatingIfNeeded_eq_extend ((extendsSign_eq_iff word source).mpr regular), unsigned]
  rfl

/-- In the 32-bit configuration a conversion from `UInt16` passes through its sign extension. -/
theorem truncatingIfNeeded_uint16_word32 (x : Value .word32 .uint16) :
    truncatingIfNeeded .word32 target .uint16 x =
      (x.signExtend 32).setWidth (target.bitWidth .word32) := by
  by_cases wide : 32 < target.bitWidth .word32
  · apply BitVec.eq_of_getLsbD_eq
    intro index index_lt
    rw [getLsbD_truncatingIfNeeded x wide index_lt, BitVec.getLsbD_setWidth,
      BitVec.getLsbD_signExtend]
    have count_eq : wordCount .word32 .uint16 * WordSize.word32.bits = 32 := rfl
    rw [conversionBit, count_eq, less_zero, extendsSign, TwosComplement.bit]
    by_cases low : index < 32
    · simp [low, index_lt]
    · simp [low]
  · rw [truncatingIfNeeded, if_pos (by simpa using wide), truncatingBits_eq_setWidth]
    rfl

/-- The two's-complement little-endian words of a value. -/
def wordExpansion (word : WordSize) (type : IntegerType) (x : Value word type) :
    List (Value word .uint) :=
  (List.range (wordCount word type)).map fun position =>
    BitVec.ofInt word.bits (toInt word type x / 2 ^ (word.bits * position))

theorem elements_eq_wordExpansion (faithful : extendsSign word source = source.isSigned)
    (x : Value word source) :
    (Words.mk x).elements = wordExpansion word source x := by
  apply List.ext_getElem?
  intro position
  by_cases inside : position < wordCount word source
  · rw [Words.getElem?_elements _ inside]
    simp only [wordExpansion, List.getElem?_map, List.getElem?_range inside, Option.map_some]
    congr 1
    apply BitVec.eq_of_getLsbD_eq
    intro index index_lt
    have window := TwosComplement.getLsbD_window source.isSigned x (word.bits * position)
      word.bits index
    rw [TwosComplement.window] at window
    rw [Words.getLsbD_subscript _ inside index_lt, faithful, toInt, window]
    simp only [index_lt, decide_true, Bool.true_and, Nat.mul_comm]
  · rw [List.getElem?_eq_none, List.getElem?_eq_none]
    · simp only [wordExpansion, List.length_map, List.length_range]
      omega
    · rw [Words.length_elements, Words.toNat_count]
      omega

/--
On the 16-bit configuration a conversion is the unique value of the target
congruent to the source, and the words of the source are the expansion of its
integer, as many as their count says.
-/
theorem truncatingIfNeeded_unique_and_words_word16 (source target : IntegerType)
    (x : Value .word16 source) :
    (∀ y : Value .word16 target,
      toInt .word16 target y ≡ toInt .word16 source x [ZMOD 2 ^ target.bitWidth .word16] ↔
        y = truncatingIfNeeded .word16 target source x) ∧
      Yields (Words.mk x).next (Words.mk x).startIndex (wordExpansion .word16 source x) ∧
      (wordExpansion .word16 source x).length = (Words.mk x).count.toNat ∧
      (Words.mk x).count.toNat = (source.bitWidth .word16 + 15) / 16 := by
  have faithful : extendsSign .word16 source = source.isSigned :=
    (extendsSign_eq_iff .word16 source).mpr (by simp)
  have congruent : toInt .word16 target (truncatingIfNeeded .word16 target source x) ≡
      toInt .word16 source x [ZMOD 2 ^ target.bitWidth .word16] := by
    rw [truncatingIfNeeded_eq_extend faithful]
    exact TwosComplement.value_extend_modEq _ _ _ x
  refine ⟨fun y => ⟨fun agrees => ?_, fun result => result ▸ congruent⟩, ?_, ?_, ?_⟩
  · exact TwosComplement.eq_of_value_modEq (agrees.trans congruent.symm)
  · rw [← elements_eq_wordExpansion faithful]
    exact (Words.mk x).yields_elements
  · rw [← elements_eq_wordExpansion faithful]
    exact (Words.mk x).length_elements
  · exact (Words.mk x).toNat_count

end USwift
