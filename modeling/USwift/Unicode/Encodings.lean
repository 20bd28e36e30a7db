import USwift.Unicode.Coding

/-!
# Transcoding one scalar

Every encoding can take over the encoded scalar of another one. UTF-8 and UTF-16
do so without decoding each other, with special cases by the number of bytes or by
the range of the first unit. The result is always what decoding and encoding gives.
-/

namespace USwift

open Packing BitFields EncodingForms

variable {word : WordSize}

/-- The encodings of the library. -/
inductive Encoding where
  | utf8
  | utf16
  | utf32
  deriving DecidableEq, Repr

namespace Encoding

/-- `CodeUnit`. -/
abbrev codeUnit : Encoding → IntegerType
  | utf8 => .uint8
  | utf16 => .uint16
  | utf32 => .uint32

/-- `EncodedScalar`. -/
abbrev EncodedScalar (word : WordSize) : Encoding → Type
  | utf8 => ValidUTF8Buffer word
  | utf16 => UIntBuffer word .uint16
  | utf32 => CollectionOfOne (Value word .uint32)

/-- `encodedReplacementCharacter`. -/
def encodedReplacementCharacter : (encoding : Encoding) → encoding.EncodedScalar word
  | utf8 => ValidUTF8Buffer.encodedReplacementCharacter
  | utf16 => ⟨0xFFFD, 16⟩
  | utf32 => ⟨0xFFFD⟩

/-- `decode(_:)`. -/
def decode : (encoding : Encoding) → encoding.EncodedScalar word → UnicodeScalar word
  | utf8 => UTF8.decode
  | utf16 => UTF16.decode
  | utf32 => UTF32.decode

/-- `encode(_:)`. -/
def encode : (encoding : Encoding) → UnicodeScalar word → Option (encoding.EncodedScalar word)
  | utf8 => UTF8.encode
  | utf16 => UTF16.encode
  | utf32 => UTF32.encode

end Encoding

/-- `UTF8.transcode(_:from:)`. -/
def UTF8.transcode : (source : Encoding) → source.EncodedScalar word →
    Option (ValidUTF8Buffer word)
  | .utf16, content =>
      let u0 := truncatingIfNeeded word .uint16 .uint32 content.storage
      if less word .uint16 u0 0x80 then
        some (.containing (truncatingIfNeeded word .uint8 .uint16 u0))
      else
        let r := truncatingIfNeeded word .uint32 .uint16 (u0 &&& 0x3F)
        let r := maskingShiftLeft word .uint32 r 8
        let u0 := maskingShiftRight word .uint16 u0 6
        if less word .uint16 u0 (maskingShiftLeft word .uint16 1 5) then
          some ⟨(truncatingIfNeeded word .uint32 .uint16 u0 ||| r) + 0x81C1⟩
        else
          let r := r ||| truncatingIfNeeded word .uint32 .uint16 (u0 &&& 0x3F)
          let r := maskingShiftLeft word .uint32 r 8
          if u0 &&& maskingShiftRight word .uint16 0xF800 6 !=
              maskingShiftRight word .uint16 0xD800 6 then
            let u0 := maskingShiftRight word .uint16 u0 6
            some ⟨(truncatingIfNeeded word .uint32 .uint16 u0 ||| r) + 0x8181E1⟩
          else encode (UTF16.decode content)
  | .utf8, content => some content
  | .utf32, content => encode (UTF32.decode content)

/-- `UTF16.transcode(_:from:)`. -/
def UTF16.transcode : (source : Encoding) → source.EncodedScalar word →
    Option (UIntBuffer word .uint16)
  | .utf8, c =>
      let b := c.count - 1
      if b == 0 then some ⟨(c.biasedBits - 0x1) &&& 0x7F, 16⟩
      else
        let s := c.biasedBits - 0x01010101
        let r := maskingShiftLeft word .uint32 s 6
        let s := maskingShiftRight word .uint32 s 8
        let r := r ||| (s &&& 0x3F)
        let b := b - 1
        if b == 0 then some ⟨r &&& 0x7FF, 16⟩
        else
          let r := maskingShiftLeft word .uint32 r 6
          let s := maskingShiftRight word .uint32 s 8
          let r := r ||| (s &&& 0x3F)
          let b := b - 1
          if b == 0 then some ⟨r &&& 0xFFFF, 16⟩
          else
            let r := maskingShiftLeft word .uint32 r 6
            let s := maskingShiftRight word .uint32 s 8
            let r := r ||| (s &&& 0x3F)
            let r := r &&& (maskingShiftLeft word .uint32 1 21 - 1)
            encode ⟨r⟩
  | .utf16, content => some content
  | .utf32, content => encode (UTF32.decode content)

/-- `UTF32` has the default `transcode(_:from:)` of `_UnicodeEncoding`. -/
def UTF32.transcode (source : Encoding) (content : source.EncodedScalar word) :
    Option (CollectionOfOne (Value word .uint32)) :=
  encode (source.decode content)

/-- `transcode(_:from:)`. -/
def Encoding.transcode : (target source : Encoding) → source.EncodedScalar word →
    Option (target.EncodedScalar word)
  | utf8 => UTF8.transcode
  | utf16 => UTF16.transcode
  | utf32 => UTF32.transcode

/-- The encoded form of a scalar. -/
def Encoding.encoded : (encoding : Encoding) → Scalar → encoding.EncodedScalar word
  | utf8, scalar => .ofBytes scalar.utf8
  | utf16, scalar => .ofUnits scalar.utf16
  | utf32, scalar => ⟨BitVec.ofNat 32 scalar.value⟩

theorem Encoding.encode_ofScalar (encoding : Encoding) (scalar : Scalar) :
    encoding.encode (.ofScalar scalar : UnicodeScalar word) = some (encoding.encoded scalar) := by
  cases encoding with
  | utf8 => exact UTF8.encode_ofScalar scalar
  | utf16 => exact UTF16.encode_ofScalar scalar
  | utf32 => rfl

theorem Encoding.decode_encoded (encoding : Encoding) (scalar : Scalar) :
    encoding.decode (encoding.encoded scalar) = (.ofScalar scalar : UnicodeScalar word) := by
  cases encoding with
  | utf8 => exact UTF8.decode_ofBytes scalar
  | utf16 => exact UTF16.decode_ofUnits scalar
  | utf32 => rfl

theorem Encoding.encodedReplacementCharacter_eq (encoding : Encoding) :
    (encoding.encodedReplacementCharacter : encoding.EncodedScalar word) =
      encoding.encoded .replacement := by
  cases encoding with
  | utf8 =>
      have bits : (0xBDBFEF + 0x010101 : BitVec 32) =
          pack 32 (Scalar.replacement.utf8.map (· + 1)) := by decide
      exact congrArg ValidUTF8Buffer.mk bits
  | utf16 =>
      have bits : (0xFFFD : BitVec 32) = pack 32 Scalar.replacement.utf16 := by decide
      exact congrArg₂ UIntBuffer.mk bits rfl
  | utf32 => rfl

section SpecialCases

theorem shiftRight_uint16 (x : Value word .uint16) {amount : ℕ} (below : amount < 16) :
    maskingShiftRight word .uint16 x (OfNat.ofNat amount) = x >>> amount :=
  maskingShiftRight_ofNat rfl x below

theorem less_uint16_iff {x limit : Value word .uint16} (bound : ℕ)
    (value : BitVec.toNat limit = bound) :
    less word .uint16 x limit = true ↔ BitVec.toNat x < bound := by
  rw [less_unsigned_iff rfl, value]

theorem truncatingIfNeeded_uint16 {type : IntegerType} (x : Value .word16 .uint16) :
    truncatingIfNeeded .word16 type .uint16 x = x.setWidth (type.bitWidth .word16) :=
  truncatingIfNeeded_unsigned rfl (by simp) x

theorem first_unit (scalar : Scalar) {u0 : BitVec 16}
    (unit : u0.toNat = number scalar.utf16 % 65536) :
    if scalar.value < 0x10000 then u0.toNat = scalar.value
    else 0xD800 ≤ u0.toNat ∧ u0.toNat < 0xDC00 := by
  have inside := scalar.inside
  rw [number_utf16] at unit
  split_ifs at unit ⊢ with one
  · omega
  · rw [Nat.add_mul_mod_self_left] at unit
    omega

theorem toNat_widened {x : BitVec 16} {value : ℕ} (bits : x.toNat = value) :
    (x.setWidth 32).toNat = value := by
  have bounded := x.isLt
  rw [BitVec.toNat_setWidth, bits]
  omega

theorem toNat_shiftRight_unit {x : BitVec 16} {value : ℕ} (bits : x.toNat = value) :
    (x >>> 6).toNat = value / 64 := by
  rw [BitVec.toNat_ushiftRight, bits, Nat.shiftRight_eq_div_pow]

theorem shifted_surrogate_iff (x : BitVec 16) :
    (x >>> 6 &&& (0xF800 : BitVec 16) >>> 6 != (0xD800 : BitVec 16) >>> 6) = true ↔
      ¬ (0xD800 ≤ x.toNat ∧ x.toNat ≤ 0xDFFF) := by
  have field : (x >>> 6 &&& (0xF800 : BitVec 16) >>> 6).toNat =
      2 ^ 5 * ((x >>> 6).toNat / 2 ^ 5 % 2 ^ 5) :=
    toNat_and_field (x >>> 6) 5 5 (by decide)
  have constant : ((0xD800 : BitVec 16) >>> 6).toNat = 0xD800 / 2 ^ 6 := rfl
  rw [BitVec.toNat_ushiftRight, Nat.shiftRight_eq_div_pow] at field
  rw [bne_iff_ne, ne_eq, ← BitVec.toNat_inj, field, constant]
  omega

theorem UTF8.transcode_utf16 (scalar : Scalar) :
    UTF8.transcode .utf16 (.ofUnits scalar.utf16 : UIntBuffer .word16 .uint16) =
      some (.ofBytes scalar.utf8) := by
  have inside := scalar.inside
  have notSurrogate := scalar.notSurrogate
  have numbers := number_utf8 scalar
  have ones := number_ones scalar
  have storage := @toNat_storage .word16 scalar
  have decoded : encode (UTF16.decode (.ofUnits scalar.utf16 : UIntBuffer .word16 .uint16)) =
      some (.ofBytes scalar.utf8) := by
    rw [UTF16.decode_ofUnits, encode_ofScalar]
  rw [UTF8.transcode, decoded]
  dsimp only
  generalize unit : truncatingIfNeeded .word16 .uint16 .uint32
    (UIntBuffer.ofUnits scalar.utf16 : UIntBuffer .word16 .uint16).storage = u0
  have value : BitVec.toNat u0 = number scalar.utf16 % 65536 := by
    rw [← unit, UIntBuffer.truncatingIfNeeded_uint32, BitVec.toNat_setWidth, storage]
    rfl
  have ranges := first_unit scalar value
  simp only [shiftRight_uint16 _ (by decide : 6 < 16), shiftLeft_uint32 _ (by decide : 8 < 32),
    truncatingIfNeeded_uint16]
  have c1 := toNat_shiftRight_unit (x := u0) rfl
  have c2 := (toNat_shiftRight_unit c1).trans (Nat.div_div_eq_div_mul _ 64 64)
  have d0 := toNat_widened (toNat_low_six (by decide : 6 ≤ 16) u0)
  have d1 := toNat_widened (toNat_low_six (by decide : 6 ≤ 16) (u0 >>> 6))
  have r1 : (((u0 &&& 0x3F : BitVec 16).setWidth 32) <<< 8).toNat =
      256 * (BitVec.toNat u0 % 64) := by
    rw [BitVec.toNat_shiftLeft, d0, Nat.shiftLeft_eq]
    omega
  have r2 := toNat_collect d1 (by rw [r1]; omega) (by rw [r1]; omega)
  split_ifs with one two three
  · rw [less_uint16_iff 0x80 rfl] at one
    have small : scalar.value < 0x10000 := by
      split_ifs at ranges <;> omega
    rw [if_pos small] at ranges
    have bytes : scalar.utf8 = [BitVec.ofNat 8 scalar.value] := by
      rw [Scalar.utf8, if_pos (by omega)]
    rw [ValidUTF8Buffer.containing_eq, bytes, ← ranges]
    rfl
  · rw [less_uint16_iff 0x80 rfl] at one
    rw [less_uint16_iff 0x20 (by decide), c1] at two
    have small : scalar.value < 0x10000 := by
      split_ifs at ranges <;> omega
    rw [if_pos small] at ranges
    rw [if_neg (by omega), if_pos (by omega)] at numbers ones
    have merged := toNat_or 8 (show ((u0 >>> 6).setWidth 32).toNat < 2 ^ 8 by
      rw [toNat_widened c1]; omega) (by rw [r1]; omega)
    refine congrArg some (biased_eq 0x81C1 rfl ((congrArg (· + 0x81C1) merged).trans ?_))
    rw [toNat_widened c1, r1, numbers, ones]
    omega
  · rw [less_uint16_iff 0x20 (by decide), c1] at two
    rw [shifted_surrogate_iff] at three
    have small : scalar.value < 0x10000 := by
      split_ifs at ranges <;> omega
    rw [if_pos small] at ranges
    rw [if_neg (by omega), if_neg (by omega), if_pos small] at numbers ones
    have merged := toNat_or 8 (show ((u0 >>> 6 >>> 6).setWidth 32).toNat < 2 ^ 8 by
      rw [toNat_widened c2]; omega) (by rw [r2]; omega)
    refine congrArg some (biased_eq 0x8181E1 rfl ((congrArg (· + 0x8181E1) merged).trans ?_))
    rw [toNat_widened c2, r2, r1, c1, ranges, numbers, ones]
    omega
  · rfl

theorem toNat_six_more {r s : BitVec 32} (size : ℕ) (inside : size ≤ 26) :
    (r <<< 6 ||| (s &&& 0x3F)).toNat % 2 ^ (6 + size) =
      s.toNat % 64 + 64 * (r.toNat % 2 ^ size) := by
  have low := toNat_low_six (by decide : 6 ≤ 32) s
  have high : (r <<< 6).toNat = 64 * (r.toNat % 2 ^ 26) := by
    rw [BitVec.toNat_shiftLeft, Nat.shiftLeft_eq]
    omega
  have sum : (r <<< 6 ||| (s &&& 0x3F)).toNat = 64 * (r.toNat % 2 ^ 26) + s.toNat % 64 := by
    rw [BitVec.or_comm, toNat_or 6 (by omega) (by omega), low, high, Nat.add_comm]
  have reduced : r.toNat % 2 ^ 26 % 2 ^ size = r.toNat % 2 ^ size :=
    Nat.mod_mod_of_dvd _ (pow_dvd_pow 2 inside)
  have remainder : (64 * (r.toNat % 2 ^ 26) + s.toNat % 64) % 64 = s.toNat % 64 := by omega
  have quotient : (64 * (r.toNat % 2 ^ 26) + s.toNat % 64) / 64 = r.toNat % 2 ^ 26 := by omega
  have split : 2 ^ (6 + size) = 64 * 2 ^ size := pow_add 2 6 size
  rw [sum, split, Nat.mod_mul, remainder, quotient, reduced]

theorem toNat_masked {r : BitVec 32} (size : ℕ) (inside : size ≤ 32) :
    (r &&& BitVec.ofNat 32 (2 ^ size - 1)).toNat = r.toNat % 2 ^ size := by
  have field := toNat_and_field r 0 size (by omega)
  rwa [pow_zero, Nat.one_mul, Nat.div_one, Nat.one_mul] at field

theorem toNat_shiftRight_eight {s : BitVec 32} {value : ℕ} (bits : s.toNat = value) :
    (s >>> 8).toNat = value / 256 := by
  rw [BitVec.toNat_ushiftRight, bits, Nat.shiftRight_eq_div_pow]

section Assembly

variable {s : BitVec 32} {x0 x1 x2 x3 : ℕ}

theorem assemble_two (bytes : s.toNat % 2 ^ 16 = x0 + 256 * x1) (lead : x0 < 256) :
    ((s <<< 6 ||| (s >>> 8 &&& 0x3F)) &&& 0x7FF).toNat = x1 % 64 + 64 * (x0 % 32) := by
  have digit0 : s.toNat % 2 ^ 5 = x0 % 32 := by omega
  have digit1 : s.toNat / 256 % 64 = x1 % 64 := by omega
  have s1 := toNat_shiftRight_eight (s := s) rfl
  have r1 := toNat_six_more (r := s) (s := s >>> 8) 5 (by decide)
  exact (toNat_masked 11 (by decide)).trans (by rw [r1, s1, digit1, digit0])

theorem assemble_three (bytes : s.toNat % 2 ^ 24 = x0 + 256 * x1 + 65536 * x2) (lead : x0 < 256)
    (tail1 : x1 < 256) :
    (((s <<< 6 ||| (s >>> 8 &&& 0x3F)) <<< 6 ||| (s >>> 8 >>> 8 &&& 0x3F)) &&& 0xFFFF).toNat =
      x2 % 64 + 64 * (x1 % 64) + 4096 * (x0 % 16) := by
  have digit0 : s.toNat % 2 ^ 4 = x0 % 16 := by omega
  have digit1 : s.toNat / 256 % 64 = x1 % 64 := by omega
  have digit2 : s.toNat / (256 * 256) % 64 = x2 % 64 := by omega
  have s1 := toNat_shiftRight_eight (s := s) rfl
  have s2 := (toNat_shiftRight_eight s1).trans (Nat.div_div_eq_div_mul _ 256 256)
  have r1 := toNat_six_more (r := s) (s := s >>> 8) 4 (by decide)
  have r2 := toNat_six_more (r := s <<< 6 ||| (s >>> 8 &&& 0x3F)) (s := s >>> 8 >>> 8) 10
    (by decide)
  refine (toNat_masked 16 (by decide)).trans ?_
  rw [r2, r1, s1, s2, digit0, digit1, digit2]
  omega

theorem assemble_four (bytes : s.toNat = x0 + 256 * x1 + 65536 * x2 + 16777216 * x3)
    (lead : x0 < 256) (tail1 : x1 < 256) (tail2 : x2 < 256) :
    ((((s <<< 6 ||| (s >>> 8 &&& 0x3F)) <<< 6 ||| (s >>> 8 >>> 8 &&& 0x3F)) <<< 6 |||
      (s >>> 8 >>> 8 >>> 8 &&& 0x3F)) &&& 0x1FFFFF).toNat =
      x3 % 64 + 64 * (x2 % 64) + 4096 * (x1 % 64) + 262144 * (x0 % 8) := by
  have digit0 : s.toNat % 2 ^ 3 = x0 % 8 := by omega
  have digit1 : s.toNat / 256 % 64 = x1 % 64 := by omega
  have digit2 : s.toNat / (256 * 256) % 64 = x2 % 64 := by omega
  have digit3 : s.toNat / (65536 * 256) % 64 = x3 % 64 := by omega
  have s1 := toNat_shiftRight_eight (s := s) rfl
  have s2 := (toNat_shiftRight_eight s1).trans (Nat.div_div_eq_div_mul _ 256 256)
  have s3 := (toNat_shiftRight_eight s2).trans (Nat.div_div_eq_div_mul _ 65536 256)
  have r1 := toNat_six_more (r := s) (s := s >>> 8) 3 (by decide)
  have r2 := toNat_six_more (r := s <<< 6 ||| (s >>> 8 &&& 0x3F)) (s := s >>> 8 >>> 8) 9
    (by decide)
  have r3 := toNat_six_more (r := (s <<< 6 ||| (s >>> 8 &&& 0x3F)) <<< 6 |||
    (s >>> 8 >>> 8 &&& 0x3F)) (s := s >>> 8 >>> 8 >>> 8) 15 (by decide)
  refine (toNat_masked 21 (by decide)).trans ?_
  rw [r3, r2, r1, s1, s2, s3, digit0, digit1, digit2, digit3]
  omega

end Assembly

theorem countdown (word : WordSize) :
    (∀ length : Fin 5, (BitVec.ofNat (IntegerType.int.bitWidth word) length - 1 == 0) =
      decide (length.val = 1)) ∧
    (∀ length : Fin 5, (BitVec.ofNat (IntegerType.int.bitWidth word) length - 1 - 1 == 0) =
      decide (length.val = 2)) ∧
    ∀ length : Fin 5, (BitVec.ofNat (IntegerType.int.bitWidth word) length - 1 - 1 - 1 == 0) =
      decide (length.val = 3) := by
  cases word <;> decide

theorem toNat_unbiased_low (scalar : Scalar) :
    BitVec.toNat ((ValidUTF8Buffer.ofBytes scalar.utf8 : ValidUTF8Buffer word).biasedBits -
      0x01010101) % 2 ^ (8 * scalar.utf8.length) = number scalar.utf8 := by
  have inside := scalar.inside
  have numbers := number_utf8 scalar
  have ones := number_ones scalar
  have lengths := length_utf8 scalar
  have biased := @toNat_biasedBits word scalar
  generalize (ValidUTF8Buffer.ofBytes scalar.utf8 : ValidUTF8Buffer word).biasedBits = bits
    at biased ⊢
  have difference : BitVec.toNat (bits - 0x01010101) =
      (2 ^ 32 - 0x01010101 + BitVec.toNat bits) % 2 ^ 32 := BitVec.toNat_sub _ _
  have below := number_lt scalar.utf8
  have short := length_utf8_le scalar
  rw [difference, biased, Nat.mod_mod_of_dvd _ (pow_dvd_pow 2 (by omega))]
  split_ifs at ones lengths with one two three
  all_goals
    rw [ones, lengths]
    rw [lengths] at below
    omega

theorem mask_21 : maskingShiftLeft word .uint32 1 21 - 1 = 0x1FFFFF := by
  cases word <;> decide

theorem UTF16.transcode_utf8 (scalar : Scalar) :
    UTF16.transcode .utf8 (.ofBytes scalar.utf8 : ValidUTF8Buffer word) =
      some (.ofUnits scalar.utf16) := by
  have inside := scalar.inside
  have short := length_utf8_le scalar
  have numbers := number_utf8 scalar
  have units := number_utf16 scalar
  have ones := number_ones scalar
  have lengths := length_utf8 scalar
  have lengths16 := length_utf16 scalar
  have low := @toNat_unbiased_low word scalar
  have single (one : number (List.replicate scalar.utf8.length (1#8)) = 0x01) :=
    @toNat_unbiased word scalar 0x01 one.symm
  rcases countdown word with ⟨first, second, third⟩
  rw [UTF16.transcode, ValidUTF8Buffer.count_ofBytes (noFull_utf8 scalar) short]
  dsimp only
  rw [first ⟨scalar.utf8.length, by omega⟩, second ⟨scalar.utf8.length, by omega⟩,
    third ⟨scalar.utf8.length, by omega⟩, mask_21]
  simp only [shiftRight_uint32 _ (by decide : 8 < 32), shiftLeft_uint32 _ (by decide : 6 < 32),
    decide_eq_true_eq]
  generalize (ValidUTF8Buffer.ofBytes scalar.utf8 : ValidUTF8Buffer word).biasedBits = bits
    at low single ⊢
  generalize bits - 0x01010101 = s at low ⊢
  rw [numbers] at low single
  split_ifs at ones lengths low single with one two three
  · rw [if_pos (by omega)] at units lengths16
    rw [if_pos lengths]
    have masked : BitVec.toNat (bits - 0x1 &&& 0x7F) = BitVec.toNat (bits - 0x1) % 2 ^ 7 :=
      toNat_masked 7 (by decide)
    rw [single ones] at masked
    refine congrArg some (ofUnits_eq (masked.trans ?_) (by rw [lengths16]; rfl))
    rw [units]
    omega
  · rw [if_pos (by omega)] at units lengths16
    rw [if_neg (by omega), if_pos lengths]
    rw [lengths] at low
    have assembled := assemble_two low (by omega)
    rw [six_bits] at assembled
    refine congrArg some (ofUnits_eq (assembled.trans ?_) (by rw [lengths16]; rfl))
    rw [units]
    omega
  · rw [if_pos three] at units lengths16
    rw [if_neg (by omega), if_neg (by omega), if_pos lengths]
    rw [lengths] at low
    have assembled := assemble_three low (by omega) (by omega)
    rw [six_bits, six_bits, three_fields three] at assembled
    exact congrArg some (ofUnits_eq (assembled.trans units.symm) (by rw [lengths16]; rfl))
  · rw [if_neg (by omega), if_neg (by omega), if_neg (by omega)]
    rw [lengths, Nat.mod_eq_of_lt (BitVec.isLt s)] at low
    have assembled := assemble_four low (by omega) (by omega) (by omega)
    rw [six_bits, six_bits, six_bits, four_fields inside] at assembled
    rw [← encode_ofScalar]
    exact congrArg encode (ofScalar_eq assembled)

end SpecialCases

namespace Encoding

/--
The special cases agree with decoding and encoding. From UTF-16 they convert single
units, which the 32-bit files extend with their sign.
-/
theorem transcode_encoded (target source : Encoding) (supported : word = .word16 ∨ source = .utf8)
    (scalar : Scalar) :
    target.transcode source (source.encoded scalar : source.EncodedScalar word) =
      some (target.encoded scalar) := by
  cases target with
  | utf8 =>
      cases source with
      | utf8 => rfl
      | utf16 =>
          rcases supported with rfl | other
          · exact UTF8.transcode_utf16 scalar
          · cases other
      | utf32 => exact UTF8.encode_ofScalar scalar
  | utf16 =>
      cases source with
      | utf8 => exact UTF16.transcode_utf8 scalar
      | utf16 => rfl
      | utf32 => exact UTF16.encode_ofScalar scalar
  | utf32 =>
      have decoded := @decode_encoded word source scalar
      rw [transcode, UTF32.transcode, decoded]
      rfl

end Encoding

/-- `CollectionOfOne.Iterator.next()`. -/
def CollectionOfOne.next {Element : Type} : Option Element → Option (Element × Option Element)
  | none => none
  | some element => some (element, none)

namespace Encoding

/-- The code units of a scalar. -/
def units : (encoding : Encoding) → Scalar → List (Value word encoding.codeUnit)
  | utf8 => Scalar.utf8
  | utf16 => Scalar.utf16
  | utf32 => Scalar.utf32

/--
`forEach(_:)` of an encoded scalar, as the list of the code units it hands over. No
encoding has more than four, so that the fifth call of its iterator is the last.
-/
def forEach : (encoding : Encoding) → encoding.EncodedScalar word →
    Option (List (Value word encoding.codeUnit))
  | utf8, content => Iteration.collect ValidUTF8Buffer.next 5 content
  | utf16, content => Iteration.collect UIntBuffer.next 5 content
  | utf32, content => Iteration.collect CollectionOfOne.next 5 (some content.element)

theorem forEach_encoded (encoding : Encoding) (scalar : Scalar) :
    encoding.forEach (encoding.encoded scalar : encoding.EncodedScalar word) =
      some (encoding.units scalar) := by
  cases encoding with
  | utf8 =>
      have short := length_utf8_le scalar
      exact (ValidUTF8Buffer.yields_ofBytes (noFull_utf8 scalar) short).collect (by omega)
  | utf16 =>
      have short := length_utf16_le scalar
      have fits : 16 * scalar.utf16.length ≤ 32 := by omega
      have yields := @UIntBuffer.yields_ofUnits word .uint16 scalar.utf16 (show 16 ≤ 32 by decide)
        fits
      exact yields.collect (show scalar.utf16.length < 5 by omega)
  | utf32 => rfl

end Encoding

/-- `UTF8.encode(_:into:)`, as the list of the code units passed to the closure. -/
def UTF8.encodeInto (input : UnicodeScalar word) : Option (List (Value word .uint8)) :=
  (encode input).map fun content =>
    let unit (s : Value word .uint32) := truncatingIfNeeded word .uint8 .uint32 s - 0x01
    let s0 := content.biasedBits
    let s1 := maskingShiftRight word .uint32 s0 8
    if s1 == 0 then [unit s0]
    else
      let s2 := maskingShiftRight word .uint32 s1 8
      if s2 == 0 then [unit s0, unit s1]
      else
        let s3 := maskingShiftRight word .uint32 s2 8
        if s3 == 0 then [unit s0, unit s1, unit s2]
        else [unit s0, unit s1, unit s2, unit s3]

/-- `UTF16.encode(_:into:)`. -/
def UTF16.encodeInto (input : UnicodeScalar word) : Option (List (Value word .uint16)) :=
  (encode input).map fun content =>
    let unit (s : Value word .uint32) := truncatingIfNeeded word .uint16 .uint32 s
    let s0 := content.storage
    let s1 := maskingShiftRight word .uint32 s0 16
    if s1 == 0 then [unit s0] else [unit s0, unit s1]

/-- `UTF32.encode(_:into:)`. -/
def UTF32.encodeInto (input : UnicodeScalar word) : Option (List (Value word .uint32)) :=
  some [input.value]

namespace Encoding

/-- `encode(_:into:)`. -/
def encodeInto : (encoding : Encoding) → UnicodeScalar word →
    Option (List (Value word encoding.codeUnit))
  | utf8 => UTF8.encodeInto
  | utf16 => UTF16.encodeInto
  | utf32 => UTF32.encodeInto

end Encoding

theorem biased_cons {byte : BitVec 8} {bytes : List (BitVec 8)} (notFull : byte ≠ 0xFF)
    (fits : bytes.length + 1 ≤ 4) :
    ((ValidUTF8Buffer.ofBytes (byte :: bytes) : ValidUTF8Buffer word).biasedBits == 0) = false ∧
      truncatingIfNeeded word .uint8 .uint32
        (ValidUTF8Buffer.ofBytes (byte :: bytes) : ValidUTF8Buffer word).biasedBits - 1 = byte ∧
      (ValidUTF8Buffer.ofBytes (byte :: bytes) : ValidUTF8Buffer word).biasedBits >>> 8 =
        (ValidUTF8Buffer.ofBytes bytes : ValidUTF8Buffer word).biasedBits := by
  have advanced := @ValidUTF8Buffer.next_cons word _ _ notFull fits
  rw [ValidUTF8Buffer.next, smartShiftRight_uint32 _ (by decide)] at advanced
  split_ifs at advanced with empty
  rw [Option.some_inj, Prod.mk.injEq] at advanced
  exact ⟨Bool.eq_false_iff.mpr empty, advanced.1,
    congrArg ValidUTF8Buffer.biasedBits advanced.2⟩

theorem UTF8.encodeInto_ofScalar (scalar : Scalar) :
    encodeInto (.ofScalar scalar : UnicodeScalar word) = some scalar.utf8 := by
  have noFull := noFull_utf8 scalar
  have short := length_utf8_le scalar
  have some : scalar.utf8 ≠ [] := by
    intro empty
    have wellFormed := utf8_wellFormed scalar
    rw [empty] at wellFormed
    exact wellFormed
  rw [encodeInto, encode_ofScalar, Option.map_some]
  simp only [shiftRight_uint32 _ (by decide : 8 < 32)]
  generalize scalar.utf8 = bytes at noFull short some ⊢
  have step (byte : BitVec 8) (rest : List (BitVec 8)) (mem : byte ∈ bytes)
      (fits : rest.length + 1 ≤ 4) := @biased_cons word _ _ (noFull byte mem) fits
  rcases bytes with _ | ⟨x0, rest0⟩
  · exact absurd rfl some
  · rcases step x0 rest0 (by simp) short with ⟨_, unit0, shifted0⟩
    rw [unit0, shifted0]
    rcases rest0 with _ | ⟨x1, rest1⟩
    · rfl
    · simp only [List.length_cons] at short
      rcases step x1 rest1 (by simp) (by omega) with ⟨more1, unit1, shifted1⟩
      rw [more1, unit1, shifted1, if_neg Bool.false_ne_true]
      rcases rest1 with _ | ⟨x2, rest2⟩
      · rfl
      · simp only [List.length_cons] at short
        rcases step x2 rest2 (by simp) (by omega) with ⟨more2, unit2, shifted2⟩
        rw [more2, unit2, shifted2, if_neg Bool.false_ne_true]
        rcases rest2 with _ | ⟨x3, rest3⟩
        · rfl
        · simp only [List.length_cons] at short
          have last : rest3 = [] := List.length_eq_zero_iff.mp (by omega)
          rcases step x3 rest3 (by simp) (by omega) with ⟨more3, unit3, _⟩
          rw [more3, unit3, if_neg Bool.false_ne_true, last]

theorem halves_eq {number lead trail : ℕ} (units : number = lead + 65536 * trail)
    (small : lead < 65536) : number % 2 ^ 16 = lead ∧ number / 2 ^ 16 = trail := by
  omega

theorem UTF16.encodeInto_ofScalar (scalar : Scalar) :
    encodeInto (.ofScalar scalar : UnicodeScalar word) = some scalar.utf16 := by
  have inside := scalar.inside
  have storage := @toNat_storage word scalar
  have numbers := number_utf16 scalar
  rw [encodeInto, encode_ofScalar, Option.map_some]
  simp only [shiftRight_uint32 _ (by decide : 16 < 32), UIntBuffer.truncatingIfNeeded_uint32]
  generalize (UIntBuffer.ofUnits scalar.utf16 : UIntBuffer word .uint16).storage = bits
    at storage ⊢
  have shifted : BitVec.toNat (bits >>> 16) = BitVec.toNat bits / 2 ^ 16 := by
    rw [BitVec.toNat_ushiftRight, Nat.shiftRight_eq_div_pow]
  have unit (x : Value word .uint32) : BitVec.setWidth 16 x =
      BitVec.ofNat 16 (BitVec.toNat x % 2 ^ 16) := by
    apply BitVec.eq_of_toNat_eq
    rw [BitVec.toNat_setWidth, BitVec.toNat_ofNat, Nat.mod_mod]
  have more : (bits >>> 16 == 0) = true ↔ BitVec.toNat bits / 2 ^ 16 = 0 := by
    rw [beq_iff_eq, ← BitVec.toNat_inj, shifted]
    rfl
  rw [numbers] at storage
  refine congrArg some ((if_congr more (congrArg (fun unit => [unit]) (unit bits))
    (congrArg₂ List.cons (unit bits)
      (congrArg (fun unit => [unit]) (unit (bits >>> 16))))).trans ?_)
  rw [shifted, Scalar.utf16]
  by_cases one : scalar.value < 0x10000
  · rw [if_pos one] at storage ⊢
    rcases @halves_eq _ _ 0 storage one with ⟨low, high⟩
    rw [if_pos high, low]
  · rw [if_neg one] at storage ⊢
    rcases halves_eq storage (by omega) with ⟨low, high⟩
    have power : (2 : ℕ) ^ 10 = 1024 := rfl
    rw [if_neg (by omega), low, high, power, Nat.mod_eq_of_lt (by omega)]

namespace Encoding

theorem encodeInto_ofScalar (encoding : Encoding) (scalar : Scalar) :
    encoding.encodeInto (.ofScalar scalar : UnicodeScalar word) = some (encoding.units scalar) := by
  cases encoding with
  | utf8 => exact UTF8.encodeInto_ofScalar scalar
  | utf16 => exact UTF16.encodeInto_ofScalar scalar
  | utf32 => rfl

end Encoding

end USwift
