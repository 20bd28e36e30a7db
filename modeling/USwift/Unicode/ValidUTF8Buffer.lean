import USwift.Unicode.UIntBuffer

/-!
# Buffers of valid UTF-8

`_ValidUTF8Buffer` keeps up to four bytes in a 32-bit word, each one increased by
one so that the end of the bytes shows as a zero. This works for every byte but
0xFF, which valid UTF-8 does not contain.
-/

namespace USwift

open Packing

/-- `leadingZeroBitCount` of a `UInt32`. -/
def leadingZeroBitCount {word : WordSize} (x : Value word .uint32) : Value word .int :=
  lowWord word .uint32 (BitVec.clz x)

/-- `_ValidUTF8Buffer`. -/
structure ValidUTF8Buffer (word : WordSize) where
  biasedBits : Value word .uint32
  deriving DecidableEq

namespace ValidUTF8Buffer

variable {word : WordSize}

/-- `init()`. -/
def empty : ValidUTF8Buffer word := ⟨0⟩

/-- `init(_containing:)`. -/
def containing (e : Value word .uint8) : ValidUTF8Buffer word :=
  ⟨truncatingIfNeeded word .uint32 .uint8 (e + 1)⟩

/-- `count`. -/
def count (buffer : ValidUTF8Buffer word) : Value word .int :=
  maskingShiftRight word .int (bitWidthInt word .uint32) 3 -
    maskingShiftRight word .int (leadingZeroBitCount buffer.biasedBits) 3

/-- `append(_:)`. -/
def append (buffer : ValidUTF8Buffer word) (e : Value word .uint8) : ValidUTF8Buffer word :=
  let offset := maskingShiftLeft word .int buffer.count 3
  ⟨buffer.biasedBits ||| maskingShiftLeft word .uint32
    (truncatingIfNeeded word .uint32 .uint8 (e + 1))
    (truncatingIfNeeded word .uint32 .int offset)⟩

/-- `Iterator.next()`. -/
def next (buffer : ValidUTF8Buffer word) : Option (Value word .uint8 × ValidUTF8Buffer word) :=
  if buffer.biasedBits == 0 then none
  else
    some (truncatingIfNeeded word .uint8 .uint32 buffer.biasedBits - 1,
      ⟨smartShiftRight word .uint32 buffer.biasedBits (8 : Value word .int)⟩)

/-- `encodedReplacementCharacter`. -/
def encodedReplacementCharacter : ValidUTF8Buffer word :=
  ⟨0xBDBFEF + 0x010101⟩

/-- The buffer of a list of bytes. -/
def ofBytes (bytes : List (BitVec 8)) : ValidUTF8Buffer word :=
  ⟨pack 32 (bytes.map (· + 1))⟩

theorem biased_ne_zero {byte : BitVec 8} (notFull : byte ≠ 0xFF) : byte + 1 ≠ 0 := by
  intro zero
  apply notFull
  have restored : byte + 1 - 1 = byte := BitVec.add_sub_cancel byte 1
  rw [zero] at restored
  exact restored.symm

section Bytes

variable {bytes : List (BitVec 8)}

theorem next_nil : (ofBytes [] : ValidUTF8Buffer word).next = none := rfl

theorem next_cons {byte : BitVec 8} (notFull : byte ≠ 0xFF) (fits : bytes.length + 1 ≤ 4) :
    (ofBytes (byte :: bytes) : ValidUTF8Buffer word).next = some (byte, ofBytes bytes) := by
  have narrow : 8 * ((byte :: bytes).map (· + 1)).length ≤ 32 := by
    rw [List.length_map, List.length_cons]
    omega
  have first : (pack 32 ((byte :: bytes).map (· + 1))).setWidth 8 = byte + 1 :=
    setWidth_pack_cons _ _ (by decide)
  have nonzero : pack 32 ((byte :: bytes).map (· + 1)) ≠ 0 := by
    intro zero
    rw [zero] at first
    exact biased_ne_zero notFull first.symm
  have shifted : smartShiftRight word .uint32 (pack 32 ((byte :: bytes).map (· + 1)))
      (8 : Value word .int) = pack 32 ((byte :: bytes).map (· + 1)) >>> 8 :=
    smartShiftRight_ofNat rfl _ (by decide : 8 < 32)
  have dropped := pack_drop narrow 1
  have more : ¬ ((ofBytes (byte :: bytes) : ValidUTF8Buffer word).biasedBits == 0) = true := by
    rw [beq_iff_eq]
    exact nonzero
  rw [next, if_neg more]
  refine congrArg some (Prod.ext ?_ ?_)
  · rw [UIntBuffer.truncatingIfNeeded_uint32]
    exact (congrArg (· - 1) first).trans (BitVec.add_sub_cancel byte 1)
  · exact congrArg ValidUTF8Buffer.mk (shifted.trans dropped)

theorem yields_ofBytes (noFull : ∀ byte ∈ bytes, byte ≠ 0xFF) (fits : bytes.length ≤ 4) :
    Iteration.Yields next (ofBytes bytes : ValidUTF8Buffer word) bytes := by
  induction bytes with
  | nil => exact .done next_nil
  | cons byte bytes shorter =>
      rw [List.forall_mem_cons] at noFull
      rw [List.length_cons] at fits
      exact .step (next_cons noFull.1 fits) (shorter noFull.2 (by omega))

theorem clz_ofBytes (bytes : List (BitVec 8)) {last : BitVec 8} (notFull : last ≠ 0xFF)
    (fits : bytes.length + 1 ≤ 4) :
    (BitVec.clz (pack 32 ((bytes ++ [last]).map (· + 1)))).toNat / 8 = 3 - bytes.length ∧
      (BitVec.clz (pack 32 ((bytes ++ [last]).map (· + 1)))).toNat < 33 := by
  generalize packed : pack 32 ((bytes ++ [last]).map (· + 1)) = bits
  have value : bits.toNat = number ((bytes ++ [last]).map (· + 1)) := by
    rw [← packed]
    apply toNat_pack
    rw [List.length_map, List.length_append, List.length_singleton]
    omega
  have lower : 2 ^ (8 * bytes.length) ≤ bits.toNat := by
    have least := le_number_of_last (bytes.map (· + 1)) (biased_ne_zero notFull)
    rw [List.length_map] at least
    rw [value, List.map_append]
    exact least
  have upper : bits.toNat < 2 ^ (8 * (bytes.length + 1)) := by
    have most := number_lt ((bytes ++ [last]).map (· + 1))
    rw [List.length_map, List.length_append, List.length_singleton] at most
    rwa [value]
  have nonzero : bits ≠ 0 := by
    rintro rfl
    exact absurd lower (by simp)
  have atMost := BitVec.toNat_lt_two_pow_sub_clz (x := bits)
  have atLeast := BitVec.two_pow_sub_clz_le_toNat_of_ne_zero (by decide) nonzero
  have some := (Nat.pow_lt_pow_iff_right (by decide)).mp (atLeast.trans_lt upper)
  have few := (Nat.pow_lt_pow_iff_right (by decide)).mp (lower.trans_lt atMost)
  omega

theorem count_ofBytes (noFull : ∀ byte ∈ bytes, byte ≠ 0xFF) (fits : bytes.length ≤ 4) :
    (ofBytes bytes : ValidUTF8Buffer word).count = BitVec.ofNat _ bytes.length := by
  have all : ∀ zeros : Fin 33, maskingShiftRight word .int (bitWidthInt word .uint32) 3 -
      maskingShiftRight word .int (lowWord word .uint32 (BitVec.ofNat 32 zeros)) 3 =
        BitVec.ofNat _ (4 - zeros / 8) := by
    cases word <;> decide
  rcases List.eq_nil_or_concat bytes with rfl | ⟨front, last, rfl⟩
  · cases word <;> decide
  · rw [List.concat_eq_append] at noFull fits ⊢
    rw [List.length_append, List.length_singleton] at fits
    have notFull := noFull last (by simp)
    rcases clz_ofBytes front notFull fits with ⟨zeros, inside⟩
    have counted := all ⟨_, inside⟩
    rw [BitVec.ofNat_toNat, BitVec.setWidth_eq, zeros] at counted
    rw [count, leadingZeroBitCount, ofBytes]
    refine counted.trans (congrArg _ ?_)
    rw [List.length_append, List.length_singleton]
    omega

theorem append_ofBytes (bytes : List (BitVec 8)) (noFull : ∀ byte ∈ bytes, byte ≠ 0xFF)
    (fits : bytes.length + 1 ≤ 4) (byte : Value word .uint8) :
    (ofBytes bytes : ValidUTF8Buffer word).append byte = ofBytes (bytes ++ [byte]) := by
  have offset : ∀ count : Fin 4, truncatingIfNeeded word .uint32 .int
      (maskingShiftLeft word .int (BitVec.ofNat _ count) 3) = BitVec.ofNat 32 (8 * count) := by
    cases word <;> decide
  have shifted (x : Value word .uint32) :
      maskingShiftLeft word .uint32 x (BitVec.ofNat 32 (8 * bytes.length)) =
        x <<< (8 * bytes.length) :=
    maskingShiftLeft_ofNat x (by rw [IntegerType.bitWidth_uint32]; omega)
  have placed := offset ⟨bytes.length, by omega⟩
  have whole : pack 32 ((bytes ++ [byte]).map (· + 1)) =
      pack 32 (bytes.map (· + 1)) ||| (byte + 1).setWidth 32 <<< (8 * bytes.length) := by
    rw [List.map_append, pack_append_or (by rw [List.length_map]; omega), List.length_map]
    exact congrArg (_ ||| · <<< _) (pack_singleton _)
  rw [append, count_ofBytes noFull (by omega), placed, shifted,
    UIntBuffer.truncatingIfNeeded_uint8, ofBytes, ofBytes, whole]

theorem containing_eq (byte : Value word .uint8) : containing byte = ofBytes [byte] := by
  rw [containing, UIntBuffer.truncatingIfNeeded_uint8, ofBytes]
  exact congrArg ValidUTF8Buffer.mk (pack_singleton _).symm

theorem append_empty (byte : Value word .uint8) :
    (empty : ValidUTF8Buffer word).append byte = ofBytes [byte] :=
  append_ofBytes [] (by simp) (by decide) byte

end Bytes

end ValidUTF8Buffer

end USwift
