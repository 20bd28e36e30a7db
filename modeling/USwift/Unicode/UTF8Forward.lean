import USwift.Unicode.Parser
import USwift.Unicode.ValidUTF8Buffer
import USwift.Library.Utf8

/-!
# The forward parser of UTF-8

`UTF8.ForwardParser` decides with masks on up to four buffered bytes, the first
one lowest, whether a scalar begins there and how long an ill-formed sequence is.
-/

namespace USwift

open Packing Utf8

/-- `byteSwapped`. -/
def byteSwapped (word : WordSize) (type : IntegerType) (x : Value word type) : Value word type :=
  pack _ (unpack 8 (type.bitWidth word / 8) x).reverse

theorem byteSwapped_pack {word : WordSize} {type : IntegerType} {units : List (BitVec 8)}
    (whole : 8 * units.length = type.bitWidth word) :
    byteSwapped word type (pack _ units) = pack _ units.reverse := by
  have count : type.bitWidth word / 8 = units.length := by omega
  rw [byteSwapped, count, unpack_pack whole.le]

namespace UTF8

variable {word : WordSize}

/-- `isASCII(_:)`, which `_isScalar(_:)` calls. -/
def isASCII (x : Value word .uint8) : Bool :=
  x &&& 0x80 == 0

namespace ForwardParser

/-- `_invalidLength()`. -/
def invalidLength (buffer : UIntBuffer word .uint8) : Value word .uint8 :=
  let storage := buffer.storage
  if Heterogeneous.equal word (storage &&& 0xC0F0 : Value word .uint32)
      (0x80E0 : Value word .uint16) then
    -- 2-byte prefix of 3-byte sequence
    let top5Bits : Value word .uint32 := storage &&& 0x200F
    if top5Bits != 0 && Heterogeneous.notEqual word top5Bits (0x200D : Value word .uint16) then 2
    else 1
  else if Heterogeneous.equal word (storage &&& 0xC0F8 : Value word .uint32)
      (0x80F0 : Value word .uint16) then
    -- Prefix of 4-byte sequence
    let top5bits := truncatingIfNeeded word .uint16 .uint32 (storage &&& 0x3007)
    if top5bits != 0 && !less word .uint16 0x0400 (byteSwapped word .uint16 top5bits) then
      if storage &&& 0xC00000 == 0x800000 then 3 else 2
    else 1
  else 1

/-- `_parseMultipleCodeUnits()`. -/
def parseMultipleCodeUnits (buffer : UIntBuffer word .uint8) : Bool × Value word .uint8 :=
  let storage := buffer.storage
  let invalid := (false, invalidLength buffer * 8)
  if storage &&& 0xC0E0 == 0x80C0 then
    -- 2-byte sequence
    if storage &&& 0x1E != 0 then (true, 2 * 8) else invalid
  else if storage &&& 0xC0C0F0 == 0x8080E0 then
    -- 3-byte sequence
    let top5Bits := storage &&& 0x200F
    if top5Bits != 0 && top5Bits != 0x200D then (true, 3 * 8) else invalid
  else if storage &&& 0xC0C0C0F8 == 0x808080F0 then
    -- 4-byte sequence
    let top5bits := truncatingIfNeeded word .uint16 .uint32 (storage &&& 0x3007)
    if top5bits != 0 && !less word .uint16 0x0400 (byteSwapped word .uint16 top5bits) then
      (true, 4 * 8)
    else invalid
  else invalid

/-- `_bufferedScalar(bitCount:)`. -/
def bufferedScalar (buffer : UIntBuffer word .uint8) (bitCount : Value word .uint8) :
    ValidUTF8Buffer word :=
  let x := truncatingIfNeeded word .uint32 .uint32 buffer.storage + 0x01010101
  ⟨x &&& UIntBuffer.lowBits bitCount⟩

end ForwardParser

/-- `UTF8.ForwardParser`. -/
abbrev forwardParser (word : WordSize) : UTFParser word where
  codeUnit := .uint8
  EncodedScalar := ValidUTF8Buffer word
  isScalar := isASCII
  ofCodeUnit codeUnit := ValidUTF8Buffer.empty.append codeUnit
  parseMultipleCodeUnits := ForwardParser.parseMultipleCodeUnits
  bufferedScalar := ForwardParser.bufferedScalar

/-- Four bytes in a word, the first one lowest. -/
def quad (x0 x1 x2 x3 : BitVec 8) : BitVec 32 :=
  pack 32 [x0, x1, x2, x3]

section Masks

variable (x0 x1 x2 x3 : BitVec 8)

theorem quad_inj (c0 c1 c2 c3 : BitVec 8) :
    quad x0 x1 x2 x3 = quad c0 c1 c2 c3 ↔ x0 = c0 ∧ x1 = c1 ∧ x2 = c2 ∧ x3 = c3 := by
  have units : quad x0 x1 x2 x3 = quad c0 c1 c2 c3 ↔ [x0, x1, x2, x3] = [c0, c1, c2, c3] :=
    pack_inj rfl (by simp)
  rw [units]
  simp

theorem quad_and (m0 m1 m2 m3 : BitVec 8) :
    quad x0 x1 x2 x3 &&& quad m0 m1 m2 m3 =
      quad (x0 &&& m0) (x1 &&& m1) (x2 &&& m2) (x3 &&& m3) :=
  pack_and rfl (by simp)

theorem quad_and_eq_iff (m0 m1 m2 m3 c0 c1 c2 c3 : BitVec 8) :
    quad x0 x1 x2 x3 &&& quad m0 m1 m2 m3 = quad c0 c1 c2 c3 ↔
      x0 &&& m0 = c0 ∧ x1 &&& m1 = c1 ∧ x2 &&& m2 = c2 ∧ x3 &&& m3 = c3 := by
  rw [quad_and, quad_inj]

theorem lead2_iff (x : BitVec 8) : x &&& 0xE0 = 0xC0 ↔ 0xC0 ≤ x.toNat ∧ x.toNat ≤ 0xDF := by
  revert x
  decide

theorem lead3_iff (x : BitVec 8) : x &&& 0xF0 = 0xE0 ↔ 0xE0 ≤ x.toNat ∧ x.toNat ≤ 0xEF := by
  revert x
  decide

theorem lead4_iff (x : BitVec 8) : x &&& 0xF8 = 0xF0 ↔ 0xF0 ≤ x.toNat ∧ x.toNat ≤ 0xF7 := by
  revert x
  decide

theorem continuation_iff (x : BitVec 8) :
    x &&& 0xC0 = 0x80 ↔ 0x80 ≤ x.toNat ∧ x.toNat ≤ 0xBF := by
  revert x
  decide

theorem and_zero_iff (x : BitVec 8) : x &&& 0 = 0 ↔ True := by
  simp

theorem low4_of_lead2 (x : BitVec 8) (lead : 0xC0 ≤ x.toNat ∧ x.toNat ≤ 0xDF) :
    x &&& 0x1E = 0 ↔ x.toNat ≤ 0xC1 := by
  revert x
  decide

theorem low4_of_lead3 (x : BitVec 8) (lead : 0xE0 ≤ x.toNat ∧ x.toNat ≤ 0xEF) :
    (x &&& 0x0F = 0 ↔ x.toNat = 0xE0) ∧ (x &&& 0x0F = 0x0D ↔ x.toNat = 0xED) := by
  revert x
  decide

theorem bit5_of_continuation (x : BitVec 8) (tail : 0x80 ≤ x.toNat ∧ x.toNat ≤ 0xBF) :
    (x &&& 0x20 = 0 ↔ x.toNat < 0xA0) ∧ (x &&& 0x20 = 0x20 ↔ 0xA0 ≤ x.toNat) := by
  revert x
  decide

theorem low3_of_lead4 (x : BitVec 8) (lead : 0xF0 ≤ x.toNat ∧ x.toNat ≤ 0xF7) :
    (x &&& 0x07).toNat = x.toNat - 0xF0 := by
  revert x
  decide

theorem bits45_of_continuation (x : BitVec 8) (tail : 0x80 ≤ x.toNat ∧ x.toNat ≤ 0xBF) :
    (x &&& 0x30 = 0 ↔ x.toNat < 0x90) ∧ (x &&& 0x30).toNat ≤ 0x30 := by
  revert x
  decide

theorem pattern2_iff : quad x0 x1 x2 x3 &&& 0xC0E0 = 0x80C0 ↔
    (0xC0 ≤ x0.toNat ∧ x0.toNat ≤ 0xDF) ∧ 0x80 ≤ x1.toNat ∧ x1.toNat ≤ 0xBF := by
  have bytes := quad_and_eq_iff x0 x1 x2 x3 0xE0 0xC0 0 0 0xC0 0x80 0 0
  rw [lead2_iff, continuation_iff, and_zero_iff, and_zero_iff, and_true, and_true] at bytes
  exact bytes

theorem pattern3_iff : quad x0 x1 x2 x3 &&& 0xC0C0F0 = 0x8080E0 ↔
    (0xE0 ≤ x0.toNat ∧ x0.toNat ≤ 0xEF) ∧ (0x80 ≤ x1.toNat ∧ x1.toNat ≤ 0xBF) ∧
      0x80 ≤ x2.toNat ∧ x2.toNat ≤ 0xBF := by
  have bytes := quad_and_eq_iff x0 x1 x2 x3 0xF0 0xC0 0xC0 0 0xE0 0x80 0x80 0
  rw [lead3_iff, continuation_iff, continuation_iff, and_zero_iff, and_true] at bytes
  exact bytes

theorem pattern4_iff : quad x0 x1 x2 x3 &&& 0xC0C0C0F8 = 0x808080F0 ↔
    (0xF0 ≤ x0.toNat ∧ x0.toNat ≤ 0xF7) ∧ (0x80 ≤ x1.toNat ∧ x1.toNat ≤ 0xBF) ∧
      (0x80 ≤ x2.toNat ∧ x2.toNat ≤ 0xBF) ∧ 0x80 ≤ x3.toNat ∧ x3.toNat ≤ 0xBF := by
  have bytes := quad_and_eq_iff x0 x1 x2 x3 0xF8 0xC0 0xC0 0xC0 0xF0 0x80 0x80 0x80
  rw [lead4_iff, continuation_iff, continuation_iff, continuation_iff] at bytes
  exact bytes

theorem top5_of_pattern3 (lead : 0xE0 ≤ x0.toNat ∧ x0.toNat ≤ 0xEF)
    (tail : 0x80 ≤ x1.toNat ∧ x1.toNat ≤ 0xBF) :
    (quad x0 x1 x2 x3 &&& 0x200F ≠ 0 ∧ quad x0 x1 x2 x3 &&& 0x200F ≠ 0x200D) ↔
      ¬ (x0.toNat = 0xE0 ∧ x1.toNat < 0xA0) ∧ ¬ (x0.toNat = 0xED ∧ 0xA0 ≤ x1.toNat) := by
  have zero := quad_and_eq_iff x0 x1 x2 x3 0x0F 0x20 0 0 0 0 0 0
  have surrogate := quad_and_eq_iff x0 x1 x2 x3 0x0F 0x20 0 0 0x0D 0x20 0 0
  rw [(low4_of_lead3 x0 lead).1, (bit5_of_continuation x1 tail).1, and_zero_iff, and_zero_iff,
    and_true, and_true] at zero
  rw [(low4_of_lead3 x0 lead).2, (bit5_of_continuation x1 tail).2, and_zero_iff, and_zero_iff,
    and_true, and_true] at surrogate
  exact and_congr zero.not surrogate.not

theorem top5_of_pattern4 (lead : 0xF0 ≤ x0.toNat ∧ x0.toNat ≤ 0xF7)
    (tail : 0x80 ≤ x1.toNat ∧ x1.toNat ≤ 0xBF) (top5bits : Value word .uint16)
    (masked : top5bits = truncatingIfNeeded word .uint16 .uint32
      (quad x0 x1 x2 x3 &&& 0x3007 : Value word .uint32)) :
    (top5bits != 0 && !less word .uint16 0x0400 (byteSwapped word .uint16 top5bits)) = true ↔
      ¬ (x0.toNat = 0xF0 ∧ x1.toNat < 0x90) ∧
        (x0.toNat < 0xF4 ∨ x0.toNat = 0xF4 ∧ x1.toNat < 0x90) := by
  have bytes : quad x0 x1 x2 x3 &&& 0x3007 = pack 32 [x0 &&& 0x07, x1 &&& 0x30] := by
    have masks : quad x0 x1 x2 x3 &&& quad 0x07 0x30 0 0 =
        quad (x0 &&& 0x07) (x1 &&& 0x30) (x2 &&& 0) (x3 &&& 0) := quad_and x0 x1 x2 x3 _ _ _ _
    rw [show x2 &&& 0 = 0 by simp, show x3 &&& 0 = 0 by simp] at masks
    exact masks.trans (pack_append_zeros 32 [x0 &&& 0x07, x1 &&& 0x30] 2)
  have packed : top5bits = pack 16 [x0 &&& 0x07, x1 &&& 0x30] := by
    rw [masked, UIntBuffer.truncatingIfNeeded_uint32, bytes]
    exact setWidth_pack _ (by decide : 16 ≤ 32)
  have swapped : byteSwapped word .uint16 top5bits = pack 16 [x1 &&& 0x30, x0 &&& 0x07] := by
    rw [packed]
    exact byteSwapped_pack rfl
  have value := low3_of_lead4 x0 lead
  have bits := bits45_of_continuation x1 tail
  have zero : top5bits = 0 ↔ x0 &&& 0x07 = 0 ∧ x1 &&& 0x30 = 0 := by
    have units : pack 16 [x0 &&& 0x07, x1 &&& 0x30] = pack 16 [0, 0] ↔
        [x0 &&& 0x07, x1 &&& 0x30] = [0, 0] := pack_inj rfl (by simp)
    rw [packed]
    exact units.trans (by simp)
  have lowZero : x0 &&& 0x07 = 0 ↔ x0.toNat = 0xF0 := by
    rw [← BitVec.toNat_inj, value]
    change x0.toNat - 0xF0 = 0 ↔ _
    omega
  have swappedValue : BitVec.toNat (byteSwapped word .uint16 top5bits) =
      (x1 &&& 0x30).toNat + 256 * (x0.toNat - 0xF0) := by
    rw [swapped, toNat_pack (by simp), number_cons, number_cons, number_nil, value]
    omega
  have bound : BitVec.toNat (0x0400 : Value word .uint16) = 1024 := rfl
  have highZero : (x1 &&& 0x30).toNat = 0 ↔ x1.toNat < 0x90 := by
    rw [← bits.1, ← BitVec.toNat_inj]
    rfl
  rw [Bool.and_eq_true, bne_iff_ne, Bool.not_eq_true', ← Bool.not_eq_true, less_unsigned_iff rfl,
    swappedValue, bound, ne_eq, zero, lowZero, bits.1]
  omega

end Masks

namespace ForwardParser

section Tests

variable {x0 x1 x2 x3 : BitVec 8}

theorem equal_uint32_uint16 (lhs : Value word .uint32) (rhs : Value word .uint16) :
    Heterogeneous.equal word lhs rhs = true ↔
      lhs = truncatingIfNeeded word .uint32 .uint16 rhs := by
  have wider : ¬ IntegerType.uint32.bitWidth word < IntegerType.uint16.bitWidth word := by
    rw [IntegerType.bitWidth_uint32, IntegerType.bitWidth_uint16]
    decide
  simp [Heterogeneous.equal, wider]

theorem prefix3_iff : @Heterogeneous.equal .word16 .uint32 .uint16
    (quad x0 x1 x2 x3 &&& 0xC0F0) 0x80E0 = true ↔
      (0xE0 ≤ x0.toNat ∧ x0.toNat ≤ 0xEF) ∧ Continues x1.toNat := by
  have bytes := quad_and_eq_iff x0 x1 x2 x3 0xF0 0xC0 0 0 0xE0 0x80 0 0
  rw [lead3_iff, continuation_iff, and_zero_iff, and_zero_iff, and_true, and_true] at bytes
  rw [equal_uint32_uint16]
  exact bytes

theorem prefix4_iff : @Heterogeneous.equal .word16 .uint32 .uint16
    (quad x0 x1 x2 x3 &&& 0xC0F8) 0x80F0 = true ↔
      (0xF0 ≤ x0.toNat ∧ x0.toNat ≤ 0xF7) ∧ Continues x1.toNat := by
  have bytes := quad_and_eq_iff x0 x1 x2 x3 0xF8 0xC0 0 0 0xF0 0x80 0 0
  rw [lead4_iff, continuation_iff, and_zero_iff, and_zero_iff, and_true, and_true] at bytes
  rw [equal_uint32_uint16]
  exact bytes

theorem third_iff : quad x0 x1 x2 x3 &&& 0xC00000 = 0x800000 ↔ Continues x2.toNat := by
  have bytes := quad_and_eq_iff x0 x1 x2 x3 0 0 0xC0 0 0 0 0x80 0
  rw [continuation_iff, and_zero_iff, and_zero_iff, and_zero_iff, true_and, true_and,
    and_true] at bytes
  exact bytes

theorem second3_iff (lead : 0xE0 ≤ x0.toNat ∧ x0.toNat ≤ 0xEF) (tail : Continues x1.toNat) :
    ((quad x0 x1 x2 x3 &&& 0x200F != 0) && (quad x0 x1 x2 x3 &&& 0x200F != 0x200D)) = true ↔
      Second3 x0.toNat x1.toNat := by
  rw [Bool.and_eq_true, bne_iff_ne, bne_iff_ne, top5_of_pattern3 x0 x1 x2 x3 lead tail]
  exact (and_iff_right tail).symm

theorem second4_iff (lead : 0xF0 ≤ x0.toNat ∧ x0.toNat ≤ 0xF7) (tail : Continues x1.toNat)
    (top5bits : Value word .uint16)
    (masked : top5bits = truncatingIfNeeded word .uint16 .uint32
      (quad x0 x1 x2 x3 &&& 0x3007 : Value word .uint32)) :
    (top5bits != 0 && !less word .uint16 0x0400 (byteSwapped word .uint16 top5bits)) = true ↔
      Second4 x0.toNat x1.toNat := by
  rw [top5_of_pattern4 x0 x1 x2 x3 lead tail top5bits masked]
  exact (and_iff_right tail).symm

/-- The tests for an ill-formed prefix in the 16-bit configuration. -/
theorem invalidLength_word16 (bitCount : Value .word16 .uint8) :
    invalidLength (⟨quad x0 x1 x2 x3, bitCount⟩ : UIntBuffer .word16 .uint8) =
      if (0xE0 ≤ x0.toNat ∧ x0.toNat ≤ 0xEF) ∧ Continues x1.toNat then
        if Second3 x0.toNat x1.toNat then 2 else 1
      else if (0xF0 ≤ x0.toNat ∧ x0.toNat ≤ 0xF7) ∧ Continues x1.toNat then
        if Second4 x0.toNat x1.toNat then if Continues x2.toNat then 3 else 2 else 1
      else 1 := by
  refine ite_congr (propext prefix3_iff) ?_ ?_
  · intro prefix3
    have surrogate : @Heterogeneous.notEqual .word16 .uint32 .uint16
        (quad x0 x1 x2 x3 &&& 0x200F) 0x200D = (quad x0 x1 x2 x3 &&& 0x200F != 0x200D) := by
      rw [Heterogeneous.notEqual, bne, Bool.not_inj_iff, Bool.eq_iff_iff, equal_uint32_uint16,
        beq_iff_eq]
      rfl
    refine if_congr ?_ rfl rfl
    rw [← second3_iff prefix3.1 prefix3.2, ← surrogate]
  · intro _
    refine ite_congr (propext prefix4_iff) ?_ fun _ => rfl
    intro prefix4
    refine if_congr (second4_iff prefix4.1 prefix4.2 _ rfl) (if_congr ?_ rfl rfl) rfl
    rw [beq_iff_eq]
    exact third_iff

/-- On ARM the two comparisons with a 16-bit constant never hold. -/
theorem invalidLength_word32 (bitCount : Value .word32 .uint8) :
    invalidLength (⟨quad x0 x1 x2 x3, bitCount⟩ : UIntBuffer .word32 .uint8) = 1 := by
  have never3 : ¬ @Heterogeneous.equal .word32 .uint32 .uint16
      (quad x0 x1 x2 x3 &&& 0xC0F0) 0x80E0 = true := by
    have bytes := quad_and_eq_iff x0 x1 x2 x3 0xF0 0xC0 0 0 0xE0 0x80 0xFF 0xFF
    rw [equal_uint32_uint16]
    intro same
    have impossible := (bytes.mp same).2.2.1
    simp at impossible
  have never4 : ¬ @Heterogeneous.equal .word32 .uint32 .uint16
      (quad x0 x1 x2 x3 &&& 0xC0F8) 0x80F0 = true := by
    have bytes := quad_and_eq_iff x0 x1 x2 x3 0xF8 0xC0 0 0 0xF0 0x80 0xFF 0xFF
    rw [equal_uint32_uint16]
    intro same
    have impossible := (bytes.mp same).2.2.1
    simp at impossible
  exact (if_neg never3).trans (if_neg never4)

/-- How long an ill-formed segment is reported to be. -/
def reported : WordSize → ℕ → ℕ
  | .word16, length => length
  | .word32, _ => 1

theorem invalidLength_eq (notASCII : 0x80 ≤ x0.toNat)
    (invalid : (outcome x0.toNat x1.toNat x2.toNat x3.toNat).1 = false)
    (bitCount : Value word .uint8) :
    invalidLength (⟨quad x0 x1 x2 x3, bitCount⟩ : UIntBuffer word .uint8) =
      BitVec.ofNat 8 (reported word (outcome x0.toNat x1.toNat x2.toNat x3.toNat).2) := by
  cases word with
  | word32 => exact invalidLength_word32 bitCount
  | word16 =>
      rw [invalidLength_word16, reported]
      generalize x0.toNat = a at *
      generalize x1.toNat = b at *
      generalize x2.toNat = c at *
      generalize x3.toNat = d at *
      rcases show (0x80 ≤ a ∧ a ≤ 0xC1 ∨ 0xF5 ≤ a) ∨ (0xC2 ≤ a ∧ a ≤ 0xDF) ∨
        (0xE0 ≤ a ∧ a ≤ 0xEF) ∨ (0xF0 ≤ a ∧ a ≤ 0xF4) by omega with none | lead2 | lead3 | lead4
      · rw [outcome_of_no_lead b c d none, if_neg (by omega)]
        split_ifs with prefix4 second
        · omega
        · omega
        · rfl
        · rfl
      · rw [outcome_lead2 b c d lead2] at invalid ⊢
        rw [if_neg (by omega), if_neg (by omega)]
        split_ifs at invalid ⊢
        rfl
      · rw [outcome_lead3 b c d lead3] at invalid ⊢
        split_ifs at invalid ⊢ <;> first | rfl | omega
      · rw [outcome_lead4 b c d (by omega)] at invalid ⊢
        rw [if_neg (by omega)]
        split_ifs at invalid ⊢ <;> first | rfl | omega

theorem parseMultipleCodeUnits_tests (bitCount : Value word .uint8) :
    let buffer : UIntBuffer word .uint8 := ⟨quad x0 x1 x2 x3, bitCount⟩
    let invalid := (false, invalidLength buffer * 8)
    parseMultipleCodeUnits buffer =
      if (0xC0 ≤ x0.toNat ∧ x0.toNat ≤ 0xDF) ∧ Continues x1.toNat then
        if 0xC2 ≤ x0.toNat then (true, 16) else invalid
      else if (0xE0 ≤ x0.toNat ∧ x0.toNat ≤ 0xEF) ∧ Continues x1.toNat ∧ Continues x2.toNat then
        if Second3 x0.toNat x1.toNat then (true, 24) else invalid
      else if (0xF0 ≤ x0.toNat ∧ x0.toNat ≤ 0xF7) ∧ Continues x1.toNat ∧ Continues x2.toNat ∧
          Continues x3.toNat then
        if Second4 x0.toNat x1.toNat then (true, 32) else invalid
      else invalid := by
  intro buffer invalid
  refine ite_congr ?_ ?_ ?_
  · exact propext (beq_iff_eq.trans (pattern2_iff x0 x1 x2 x3))
  · intro pattern2
    refine if_congr ?_ rfl rfl
    have bits := quad_and_eq_iff x0 x1 x2 x3 0x1E 0 0 0 0 0 0 0
    rw [low4_of_lead2 x0 pattern2.1, and_zero_iff, and_zero_iff, and_zero_iff, and_true, and_true,
      and_true] at bits
    rw [bne_iff_ne]
    exact bits.not.trans (by omega)
  · intro _
    refine ite_congr ?_ ?_ ?_
    · exact propext (beq_iff_eq.trans (pattern3_iff x0 x1 x2 x3))
    · intro pattern3
      exact if_congr (second3_iff pattern3.1 pattern3.2.1) rfl rfl
    · intro _
      refine ite_congr ?_ ?_ fun _ => rfl
      · exact propext (beq_iff_eq.trans (pattern4_iff x0 x1 x2 x3))
      · intro pattern4
        exact if_congr (second4_iff pattern4.1 pattern4.2.1 _ rfl) rfl rfl

theorem tests_eq_outcome {Result : Type} (valid : ℕ → Result) (other : Result) {a : ℕ}
    (b c d : ℕ) (notASCII : 0x80 ≤ a) :
    (if (0xC0 ≤ a ∧ a ≤ 0xDF) ∧ Continues b then
      if 0xC2 ≤ a then valid 2 else other
    else if (0xE0 ≤ a ∧ a ≤ 0xEF) ∧ Continues b ∧ Continues c then
      if Second3 a b then valid 3 else other
    else if (0xF0 ≤ a ∧ a ≤ 0xF7) ∧ Continues b ∧ Continues c ∧ Continues d then
      if Second4 a b then valid 4 else other
    else other) =
      if (outcome a b c d).1 = true then valid (outcome a b c d).2 else other := by
  rcases show (0x80 ≤ a ∧ a ≤ 0xC1 ∨ 0xF5 ≤ a) ∨ (0xC2 ≤ a ∧ a ≤ 0xDF) ∨
    (0xE0 ≤ a ∧ a ≤ 0xEF) ∨ (0xF0 ≤ a ∧ a ≤ 0xF4) by omega with none | lead2 | lead3 | lead4
  · rw [outcome_of_no_lead b c d none]
    have noSecond : ¬ (0xF0 ≤ a ∧ Second4 a b) := by omega
    split_ifs <;> first | rfl | contradiction | omega
  · rw [outcome_lead2 b c d lead2]
    split_ifs <;> first | rfl | contradiction | omega
  · rw [outcome_lead3 b c d lead3]
    split_ifs <;> first | rfl | contradiction | omega
  · rw [outcome_lead4 b c d (by omega)]
    split_ifs <;> first | rfl | contradiction | omega

theorem parseMultipleCodeUnits_eq (notASCII : 0x80 ≤ x0.toNat) (bitCount : Value word .uint8) :
    parseMultipleCodeUnits (⟨quad x0 x1 x2 x3, bitCount⟩ : UIntBuffer word .uint8) =
      if (outcome x0.toNat x1.toNat x2.toNat x3.toNat).1 = true then
        (true, BitVec.ofNat 8 (8 * (outcome x0.toNat x1.toNat x2.toNat x3.toNat).2))
      else (false, BitVec.ofNat 8
        (8 * reported word (outcome x0.toNat x1.toNat x2.toNat x3.toNat).2)) := by
  have tests := (@parseMultipleCodeUnits_tests word x0 x1 x2 x3 bitCount).trans
    (tests_eq_outcome (fun length => (true, BitVec.ofNat 8 (8 * length))) _ _ _ _ notASCII)
  refine tests.trans (ite_congr rfl (fun _ => rfl) ?_)
  intro failed
  rw [Bool.not_eq_true] at failed
  rw [invalidLength_eq notASCII failed, Nat.mul_comm, BitVec.ofNat_mul]
  rfl

end Tests

end ForwardParser

end UTF8

end USwift
