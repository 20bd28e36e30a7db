import USwift.Unicode.Coding
import USwift.Unicode.Parser

/-!
# The forward parsers of UTF-16 and UTF-32

The parser of UTF-16 looks for a lead surrogate with a trail surrogate behind it.
The parser of UTF-32 keeps no buffer and reads one code unit a call.
-/

namespace USwift

open Packing BitFields EncodingForms

variable {word : WordSize}

namespace UTF16

/-- `_isScalar(_:)`. -/
def isScalar (x : Value word .uint16) : Bool :=
  x &&& 0xF800 != 0xD800

namespace ForwardParser

/-- `_parseMultipleCodeUnits()`. -/
def parseMultipleCodeUnits (buffer : UIntBuffer word .uint16) : Bool × Value word .uint8 :=
  if buffer.storage &&& 0xFC00FC00 == 0xDC00D800 then (true, 2 * 16) else (false, 1 * 16)

/-- `_bufferedScalar(bitCount:)`. -/
def bufferedScalar (buffer : UIntBuffer word .uint16) (bitCount : Value word .uint8) :
    UIntBuffer word .uint16 :=
  { buffer with bitCount := bitCount }

end ForwardParser

/-- `UTF16.ForwardParser`. -/
abbrev forwardParser (word : WordSize) : UTFParser word where
  codeUnit := .uint16
  EncodedScalar := UIntBuffer word .uint16
  isScalar := isScalar
  ofCodeUnit codeUnit := UIntBuffer.empty.append codeUnit
  parseMultipleCodeUnits := ForwardParser.parseMultipleCodeUnits
  bufferedScalar := ForwardParser.bufferedScalar

section Masks

variable (x : BitVec 16)

theorem surrogate_iff : x &&& 0xF800 = 0xD800 ↔ 0xD800 ≤ x.toNat ∧ x.toNat ≤ 0xDFFF := by
  have field : (x &&& 0xF800).toNat = 2 ^ 11 * (x.toNat / 2 ^ 11 % 2 ^ 5) :=
    toNat_and_field x 11 5 (by decide)
  have constant : (0xD800 : BitVec 16).toNat = 0xD800 := rfl
  rw [← BitVec.toNat_inj, field, constant]
  omega

theorem lead_iff : x &&& 0xFC00 = 0xD800 ↔ 0xD800 ≤ x.toNat ∧ x.toNat ≤ 0xDBFF := by
  have field : (x &&& 0xFC00).toNat = 2 ^ 10 * (x.toNat / 2 ^ 10 % 2 ^ 6) :=
    toNat_and_field x 10 6 (by decide)
  have constant : (0xD800 : BitVec 16).toNat = 0xD800 := rfl
  rw [← BitVec.toNat_inj, field, constant]
  omega

theorem trail_iff : x &&& 0xFC00 = 0xDC00 ↔ 0xDC00 ≤ x.toNat ∧ x.toNat ≤ 0xDFFF := by
  have field : (x &&& 0xFC00).toNat = 2 ^ 10 * (x.toNat / 2 ^ 10 % 2 ^ 6) :=
    toNat_and_field x 10 6 (by decide)
  have constant : (0xDC00 : BitVec 16).toNat = 0xDC00 := rfl
  rw [← BitVec.toNat_inj, field, constant]
  omega

end Masks

theorem isScalar_iff (x : Value word .uint16) :
    isScalar x = true ↔ ¬ (0xD800 ≤ BitVec.toNat x ∧ BitVec.toNat x ≤ 0xDFFF) := by
  have masked : x &&& 0xF800 = 0xD800 ↔ 0xD800 ≤ BitVec.toNat x ∧ BitVec.toNat x ≤ 0xDFFF :=
    surrogate_iff x
  rw [← masked, isScalar, bne_iff_ne]

theorem pair_iff (lead trail : BitVec 16) :
    pack 32 [lead, trail] &&& 0xFC00FC00 = 0xDC00D800 ↔
      (0xD800 ≤ lead.toNat ∧ lead.toNat ≤ 0xDBFF) ∧
        0xDC00 ≤ trail.toNat ∧ trail.toNat ≤ 0xDFFF := by
  have masked : pack 32 [lead, trail] &&& pack 32 [0xFC00#16, 0xFC00#16] =
      pack 32 [lead &&& 0xFC00#16, trail &&& 0xFC00#16] := pack_and rfl (by simp)
  have same : pack 32 [lead &&& 0xFC00#16, trail &&& 0xFC00#16] =
      pack 32 [0xD800#16, 0xDC00#16] ↔
        [lead &&& 0xFC00#16, trail &&& 0xFC00#16] = [0xD800#16, 0xDC00#16] :=
    pack_inj rfl (by simp)
  simp only [List.cons.injEq, and_true] at same
  rw [← masked] at same
  exact same.trans (and_congr (lead_iff lead) (trail_iff trail))

namespace ForwardParser

theorem room_eq (word : WordSize) : (forwardParser word).room = 2 := by
  change 32 / IntegerType.uint16.bitWidth word = 2
  rw [IntegerType.bitWidth_uint16]

theorem parse_take (word : WordSize) (lead : BitVec 16) (rest : List (BitVec 16)) :
    parseMultipleCodeUnits
        (UIntBuffer.ofUnits ((lead :: rest).take 2) : UIntBuffer word .uint16) =
      if (0xD800 ≤ lead.toNat ∧ lead.toNat ≤ 0xDBFF) ∧
          0xDC00 ≤ (rest.headD 0).toNat ∧ (rest.headD 0).toNat ≤ 0xDFFF then
        (true, BitVec.ofNat 8 (16 * 2))
      else (false, BitVec.ofNat 8 (16 * 1)) := by
  have bits : pack 32 ((lead :: rest).take 2) = pack 32 [lead, rest.headD 0] := by
    rcases rest with _ | ⟨trail, more⟩
    · exact (pack_append_zeros 32 [lead] 1).symm
    · rfl
  have pattern := pair_iff lead (rest.headD 0)
  rw [← bits] at pattern
  rw [parseMultipleCodeUnits, ← if_congr pattern rfl rfl]
  simp only [beq_iff_eq]
  rfl

theorem sound : (forwardParser .word16).Sound where
  buffered := .uint16
  regular := by simp
  consumes := by
    intro (lead : BitVec 16) (units : List (BitVec 16)) _ fits
    have whole : (lead :: units).take 2 = lead :: units := by
      apply List.take_of_length_le
      rw [← room_eq .word16]
      exact (UTFParser.le_room_iff .uint16).mp fits
    have parsed := parse_take .word16 lead units
    rw [whole] at parsed
    split_ifs at parsed with pair
    · refine ⟨2, by decide, ?_, congrArg Prod.snd parsed⟩
      cases units with
      | nil => exact absurd pair.2.1 (by decide)
      | cons trail more => exact Nat.succ_le_succ (Nat.succ_le_succ (Nat.zero_le _))
    · exact ⟨1, le_rfl, Nat.succ_le_succ (Nat.zero_le _), congrArg Prod.snd parsed⟩

theorem scan_cons (lead : BitVec 16) (rest : List (BitVec 16)) :
    (forwardParser .word16).scan (lead :: rest) =
      if 0xD800 ≤ lead.toNat ∧ lead.toNat ≤ 0xDFFF then
        if (0xD800 ≤ lead.toNat ∧ lead.toNat ≤ 0xDBFF) ∧
            0xDC00 ≤ (rest.headD 0).toNat ∧ (rest.headD 0).toNat ≤ 0xDFFF then
          some (.valid (.ofUnits ((lead :: rest).take 2)), rest.drop 1)
        else some (.error 1, rest)
      else some (.valid (.ofUnits [lead]), rest) := by
  by_cases scalar : @isScalar .word16 lead = true
  · rw [if_neg ((isScalar_iff lead).mp scalar)]
    refine ((forwardParser .word16).scan_of_scalar rest scalar).trans ?_
    have single : (UIntBuffer.empty : UIntBuffer .word16 .uint16).append lead = .ofUnits [lead] :=
      @UIntBuffer.append_ofUnits .word16 .uint16 [] .uint16 (by simp) lead (by decide)
    exact congrArg some (Prod.ext (congrArg ParseResult.valid single) rfl)
  · rw [if_pos (not_not.mp ((isScalar_iff lead).not.mp scalar))]
    refine ((forwardParser .word16).scan_of_not_scalar rest scalar).trans ?_
    have count (length : ℕ) (few : length ≤ 2) :
        (forwardParser .word16).unitCount (BitVec.ofNat 8 (16 * length)) = length :=
      UTFParser.unitCount_eq .uint16 (show 16 * length ≤ 32 by omega)
    have parsed := parse_take .word16 lead rest
    have decided : (forwardParser .word16).verdict (lead :: rest) =
        (fun parsed : Bool × Value .word16 .uint8 =>
          (if parsed.1 = true then
            .valid (bufferedScalar (UIntBuffer.ofUnits ((lead :: rest).take 2)) parsed.2)
          else .error ((forwardParser .word16).unitCount parsed.2),
            (forwardParser .word16).unitCount parsed.2))
          (parseMultipleCodeUnits (UIntBuffer.ofUnits ((lead :: rest).take 2))) := by
      rw [UTFParser.verdict, room_eq]
    rw [decided, parsed]
    split_ifs with pair
    · have full : ((lead :: rest).take 2).length = 2 := by
        cases rest with
        | nil => exact absurd pair.2.1 (by decide)
        | cons trail more => rfl
      have content : bufferedScalar (UIntBuffer.ofUnits ((lead :: rest).take 2))
          (BitVec.ofNat 8 (16 * 2)) =
            (.ofUnits ((lead :: rest).take 2) : UIntBuffer .word16 .uint16) := by
        rw [bufferedScalar, UIntBuffer.ofUnits, full]
      exact congrArg some (Prod.ext (congrArg ParseResult.valid content)
        (congrArg (List.drop · (lead :: rest)) (count 2 le_rfl)))
    · exact congrArg some (Prod.ext (congrArg ParseResult.error (count 1 (by decide)))
        (congrArg (List.drop · (lead :: rest)) (count 1 (by decide))))

theorem scan_utf16 (scalar : Scalar) (rest : List (BitVec 16)) :
    (forwardParser .word16).scan (scalar.utf16 ++ rest) =
      some (.valid (.ofUnits scalar.utf16), rest) := by
  have inside := scalar.inside
  have notSurrogate := scalar.notSurrogate
  rw [Scalar.utf16]
  split_ifs with one
  · have value : (BitVec.ofNat 16 scalar.value).toNat = scalar.value := toNat_ofNat_of_lt one
    refine (scan_cons _ rest).trans (if_neg ?_)
    rwa [value]
  · have lead : (BitVec.ofNat 16 (0xD800 + (scalar.value - 0x10000) / 2 ^ 10)).toNat =
        0xD800 + (scalar.value - 0x10000) / 2 ^ 10 := toNat_ofNat_of_lt (by omega)
    have trail : (BitVec.ofNat 16 (0xDC00 + (scalar.value - 0x10000) % 2 ^ 10)).toNat =
        0xDC00 + (scalar.value - 0x10000) % 2 ^ 10 := toNat_ofNat_of_lt (by omega)
    refine (scan_cons _ (_ :: rest)).trans ((if_pos ?_).trans (if_pos ?_))
    · rw [lead]
      omega
    · rw [List.headD_cons, lead, trail]
      omega

theorem scan_total {text : List (BitVec 16)} (ne_nil : text ≠ []) :
    ∃ result rest, (forwardParser .word16).scan text = some (result, rest) ∧
      ((∃ scalar : Scalar, text = scalar.utf16 ++ rest ∧ result = .valid (.ofUnits scalar.utf16)) ∨
        result = .error 1 ∧ rest = text.tail) := by
  rcases List.exists_cons_of_ne_nil ne_nil with ⟨lead, tail, rfl⟩
  have scanned := scan_cons lead tail
  split_ifs at scanned with one two
  · cases tail with
    | nil => exact absurd two.2.1 (by decide)
    | cons trail more =>
        rcases exists_utf16_two two.1 two.2 with ⟨scalar, units⟩
        refine ⟨_, _, scanned, Or.inl ⟨scalar, ?_, ?_⟩⟩
        · rw [units]
          rfl
        · rw [units]
          rfl
  · exact ⟨_, _, scanned, Or.inr ⟨rfl, rfl⟩⟩
  · rcases exists_utf16_one one with ⟨scalar, units⟩
    refine ⟨_, _, scanned, Or.inl ⟨scalar, ?_, ?_⟩⟩
    · rw [units, List.singleton_append]
    · rw [units]

end ForwardParser

end UTF16

namespace UTF32

/-- `UTF32.Parser.parseScalar(from:)`. -/
def parseScalar : List (Value word .uint32) →
    ParseResult (CollectionOfOne (Value word .uint32)) × List (Value word .uint32)
  | [] => (.emptyInput, [])
  | x :: input =>
      if maskingShiftRight word .uint32 x 11 != 0x1B && !less word .uint32 0x10FFFF x then
        (.valid ⟨x⟩, input)
      else (.error 1, input)

theorem parseScalar_cons (x : BitVec 32) (input : List (BitVec 32)) :
    @parseScalar word (x :: input) =
      if x.toNat ≤ 0x10FFFF ∧ ¬ (0xD800 ≤ x.toNat ∧ x.toNat ≤ 0xDFFF) then (.valid ⟨x⟩, input)
      else (.error 1, input) := by
  have shifted : (x >>> 11).toNat = x.toNat / 2 ^ 11 := by
    rw [BitVec.toNat_ushiftRight, Nat.shiftRight_eq_div_pow]
  have surrogate : x >>> 11 = 0x1B ↔ 0xD800 ≤ x.toNat ∧ x.toNat ≤ 0xDFFF := by
    have constant : (0x1B : BitVec 32).toNat = 0x1B := rfl
    rw [← BitVec.toNat_inj, shifted, constant]
    omega
  have inside : less word .uint32 0x10FFFF x = true ↔ 0x10FFFF < x.toNat := by
    have constant : BitVec.toNat (0x10FFFF : Value word .uint32) = 0x10FFFF := rfl
    rw [less_unsigned_iff rfl, constant]
  rw [parseScalar, shiftRight_uint32 _ (by decide)]
  refine if_congr ?_ rfl rfl
  rw [Bool.and_eq_true, bne_iff_ne, Bool.not_eq_true', ← Bool.not_eq_true, inside, Nat.not_lt,
    and_comm]
  exact and_congr_right fun _ => surrogate.not

theorem parseScalar_utf32 (scalar : Scalar) (rest : List (BitVec 32)) :
    @parseScalar word (scalar.utf32 ++ rest) =
      (.valid ⟨BitVec.ofNat 32 scalar.value⟩, rest) := by
  have inside := scalar.inside
  have value : (BitVec.ofNat 32 scalar.value).toNat = scalar.value :=
    toNat_ofNat_of_lt (by omega)
  refine (parseScalar_cons _ rest).trans (if_pos ?_)
  rw [value]
  exact ⟨scalar.inside, scalar.notSurrogate⟩

theorem parseScalar_total (x : BitVec 32) (input : List (BitVec 32)) :
    ∃ result, @parseScalar word (x :: input) = (result, input) ∧
      ((∃ scalar : Scalar, scalar.utf32 = [x] ∧
          result = .valid ⟨BitVec.ofNat 32 scalar.value⟩) ∨ result = .error 1) := by
  have parsed := @parseScalar_cons word x input
  split_ifs at parsed with scalar
  · refine ⟨_, parsed, Or.inl ⟨⟨x.toNat, scalar.1, scalar.2⟩, ?_, ?_⟩⟩
    · exact congrArg (fun unit => [unit]) (ofNat_eq rfl)
    · exact congrArg (fun unit => ParseResult.valid (CollectionOfOne.mk unit)) (ofNat_eq rfl).symm
  · exact ⟨_, parsed, Or.inr rfl⟩

end UTF32

end USwift
