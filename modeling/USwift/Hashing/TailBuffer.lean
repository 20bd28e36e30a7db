import USwift.Integer.Types
import USwift.Library.SipHash

/-!
# The tail buffer of the hasher

The bytes that do not yet fill a block of eight are kept in the lower part of
one word, below the number of bytes seen so far modulo 256. Appending whole
words and shorter groups of bytes either extends the tail or completes a block.
-/

namespace USwift

open Packing

namespace Hasher

/-- `_TailBuffer`. -/
structure TailBuffer (word : WordSize) where
  value : Value word .uint64
  deriving DecidableEq

namespace TailBuffer

variable {word : WordSize}

def empty : TailBuffer word := ⟨0⟩

/-- `tail`. -/
def tail (buffer : TailBuffer word) : Value word .uint64 :=
  buffer.value &&& ~~~maskingShiftLeft word .uint64 0xFF 56

/-- `byteCount`. -/
def byteCount (buffer : TailBuffer word) : Value word .uint64 :=
  maskingShiftRight word .uint64 buffer.value 56

/-- `append(_:)` returns the block that the word completes. -/
def append (buffer : TailBuffer word) (bytes : Value word .uint64) :
    TailBuffer word × Value word .uint64 :=
  let c := buffer.byteCount &&& 7
  if c == 0 then (⟨buffer.value + maskingShiftLeft word .uint64 8 56⟩, bytes)
  else
    let shift := maskingShiftLeft word .uint64 c 3
    let chunk := buffer.tail ||| maskingShiftLeft word .uint64 bytes shift
    let value :=
      maskingShiftLeft word .uint64 (maskingShiftRight word .uint64 buffer.value 56 + 8) 56 |||
        maskingShiftRight word .uint64 bytes (64 - shift)
    (⟨value⟩, chunk)

/-- `append(_:count:)` returns a block if the bytes complete one. -/
def appendCount (buffer : TailBuffer word) (bytes count : Value word .uint64) :
    TailBuffer word × Option (Value word .uint64) :=
  let c := buffer.byteCount &&& 7
  let shift := maskingShiftLeft word .uint64 c 3
  if less word .uint64 (c + count) 8 then
    (⟨(buffer.value ||| maskingShiftLeft word .uint64 bytes shift) +
      maskingShiftLeft word .uint64 count 56⟩, none)
  else
    let chunk := buffer.tail ||| maskingShiftLeft word .uint64 bytes shift
    let value :=
      maskingShiftLeft word .uint64 (maskingShiftRight word .uint64 buffer.value 56 + count) 56
    let value :=
      if less word .uint64 8 (c + count) then
        value ||| maskingShiftRight word .uint64 bytes (64 - shift)
      else value
    (⟨value⟩, some chunk)

/-- The buffer after a number of bytes, of which the pending ones fill no block. -/
structure Holds (buffer : TailBuffer word) (pending : List (BitVec 8)) (total : ℕ) : Prop where
  length_pending : pending.length = total % 8
  value_eq : buffer.value = pack 64 pending ||| BitVec.ofNat 64 total <<< 56

namespace Holds

variable {buffer : TailBuffer word} {pending : List (BitVec 8)} {total : ℕ}

theorem empty : (TailBuffer.empty : TailBuffer word).Holds [] 0 :=
  ⟨rfl, by simp [TailBuffer.empty]⟩

theorem length_lt (holds : buffer.Holds pending total) : pending.length < 8 := by
  rw [holds.length_pending]
  exact Nat.mod_lt _ (by omega)

theorem toNat_pack_lt (holds : buffer.Holds pending total) :
    (pack 64 pending).toNat < 2 ^ 56 := by
  have short := holds.length_lt
  rw [toNat_pack (by omega)]
  exact (number_lt pending).trans_le (Nat.pow_le_pow_right (by omega) (by omega))

theorem toNat_value (holds : buffer.Holds pending total) :
    BitVec.toNat buffer.value = number pending + 2 ^ 56 * (total % 256) := by
  have short := holds.length_lt
  rw [holds.value_eq, toNat_or_shiftLeft _ holds.toNat_pack_lt (by omega),
    toNat_pack (by omega), BitVec.toNat_ofNat, Nat.mod_mod_of_dvd _ (by decide)]
  rfl

theorem toNat_byteCount (holds : buffer.Holds pending total) :
    BitVec.toNat buffer.byteCount = total % 256 := by
  have low := holds.toNat_pack_lt
  have short := holds.length_lt
  rw [toNat_pack (by omega)] at low
  have shifted : buffer.byteCount = buffer.value >>> 56 :=
    maskingShiftRight_ofNat rfl _ (by decide : 56 < 64)
  rw [shifted, BitVec.toNat_ushiftRight, holds.toNat_value,
    Nat.shiftRight_eq_div_pow]
  omega

theorem tail_eq (holds : buffer.Holds pending total) : buffer.tail = pack 64 pending := by
  have low := holds.toNat_pack_lt
  have short := holds.length_lt
  have mask : ~~~maskingShiftLeft word .uint64 0xFF 56 = BitVec.ofNat 64 (2 ^ 56 - 1) := by
    cases word <;> rfl
  have maskValue : (BitVec.ofNat 64 (2 ^ 56 - 1)).toNat = 2 ^ 56 - 1 := rfl
  have packed : (pack 64 pending).toNat = number pending := toNat_pack (by omega)
  rw [packed] at low
  have masked : BitVec.toNat buffer.tail = (pack 64 pending).toNat := by
    rw [tail, mask, BitVec.toNat_and, holds.toNat_value, maskValue, packed,
      Nat.and_two_pow_sub_one_eq_mod]
    omega
  exact BitVec.eq_of_toNat_eq masked

theorem toNat_offset (holds : buffer.Holds pending total) :
    BitVec.toNat (buffer.byteCount &&& 7) = pending.length := by
  have seven : BitVec.toNat (7 : Value word .uint64) = 2 ^ 3 - 1 := rfl
  rw [BitVec.toNat_and, seven, Nat.and_two_pow_sub_one_eq_mod, holds.toNat_byteCount,
    holds.length_pending]
  omega

theorem toNat_shift (holds : buffer.Holds pending total) :
    BitVec.toNat (maskingShiftLeft word .uint64 (buffer.byteCount &&& 7) 3) =
      8 * pending.length := by
  have short := holds.length_lt
  have shifted : maskingShiftLeft word .uint64 (buffer.byteCount &&& 7) 3 =
      (buffer.byteCount &&& 7) <<< 3 := maskingShiftLeft_ofNat _ (by decide : 3 < 64)
  rw [shifted, BitVec.toNat_shiftLeft, holds.toNat_offset, Nat.shiftLeft_eq]
  simp only [IntegerType.bitWidth]
  omega

theorem chunk_eq (holds : buffer.Holds pending total) (bytes : List (BitVec 8)) :
    buffer.tail ||| maskingShiftLeft word .uint64 (pack 64 bytes)
      (maskingShiftLeft word .uint64 (buffer.byteCount &&& 7) 3) =
      pack 64 (pending ++ bytes.take (8 - pending.length)) := by
  have short := holds.length_lt
  have shift := holds.toNat_shift
  rw [maskingShiftLeft_of_lt _ (by rw [shift]; simp only [IntegerType.bitWidth]; omega), shift,
    holds.tail_eq, ← pack_append_or (by omega)]
  rw [← pack_take (by rfl : 8 * 8 = 64) (pending ++ bytes), List.take_append,
    List.take_of_length_le (by omega)]

theorem rest_eq (holds : buffer.Holds pending total) (started : pending ≠ [])
    {bytes : List (BitVec 8)} (fits : bytes.length ≤ 8) :
    maskingShiftRight word .uint64 (pack 64 bytes)
      (64 - maskingShiftLeft word .uint64 (buffer.byteCount &&& 7) 3) =
      pack 64 (bytes.drop (8 - pending.length)) := by
  have short := holds.length_lt
  have positive := List.length_pos_of_ne_nil started
  have shift := holds.toNat_shift
  have amount : BitVec.toNat (64 - maskingShiftLeft word .uint64 (buffer.byteCount &&& 7) 3) =
      8 * (8 - pending.length) := by
    rw [BitVec.toNat_sub, shift]
    change (2 ^ 64 - 8 * pending.length + 64) % 2 ^ 64 = 8 * (8 - pending.length)
    omega
  rw [maskingShiftRight, if_neg (by simp), BitVec.ushiftRight_eq',
    toNat_maskedAmount_of_lt (by rw [amount]; simp only [IntegerType.bitWidth]; omega), amount]
  exact pack_drop (by omega) _

theorem count_shift (holds : buffer.Holds pending total) (more : ℕ) :
    (maskingShiftRight word .uint64 buffer.value 56 + BitVec.ofNat 64 more) <<< 56 =
      BitVec.ofNat 64 (total + more) <<< 56 := by
  have counted := holds.toNat_byteCount
  rw [byteCount] at counted
  have sum : ((maskingShiftRight word .uint64 buffer.value 56 +
      BitVec.ofNat 64 more) <<< 56).toNat = (BitVec.ofNat 64 (total + more) <<< 56).toNat := by
    rw [BitVec.toNat_shiftLeft, BitVec.toNat_shiftLeft, BitVec.toNat_add, counted,
      BitVec.toNat_ofNat, BitVec.toNat_ofNat, Nat.shiftLeft_eq, Nat.shiftLeft_eq]
    simp only [IntegerType.bitWidth]
    omega
  exact BitVec.eq_of_toNat_eq sum

theorem append (holds : buffer.Holds pending total) {bytes : List (BitVec 8)}
    (whole : bytes.length = 8) :
    (buffer.append (pack 64 bytes)).2 = pack 64 (pending ++ bytes.take (8 - pending.length)) ∧
      (buffer.append (pack 64 bytes)).1.Holds (bytes.drop (8 - pending.length)) (total + 8) := by
  have short := holds.length_lt
  have remaining : (bytes.drop (8 - pending.length)).length = (total + 8) % 8 := by
    rw [List.length_drop, whole, holds.length_pending]
    omega
  rw [TailBuffer.append]
  by_cases aligned : pending = []
  · subst aligned
    have offset : ((buffer.byteCount &&& 7) == 0) = true := by
      rw [beq_iff_eq]
      exact BitVec.eq_of_toNat_eq holds.toNat_offset
    have taken : bytes.take 8 = bytes := List.take_of_length_le (by omega)
    have dropped : bytes.drop 8 = [] := List.drop_eq_nil_of_le (by omega)
    rw [if_pos offset]
    refine ⟨by simp [taken], ?_, ?_⟩
    · exact remaining
    · have counted : BitVec.ofNat 64 total <<< 56 + BitVec.ofNat 64 8 <<< 56 =
          BitVec.ofNat 64 (total + 8) <<< 56 := by
        rw [← BitVec.shiftLeft_add_distrib, BitVec.ofNat_add]
      have eight : maskingShiftLeft word .uint64 8 56 = BitVec.ofNat 64 8 <<< 56 :=
        maskingShiftLeft_ofNat _ (by decide : 56 < 64)
      have before : buffer.value = BitVec.ofNat 64 total <<< 56 := by
        rw [holds.value_eq, pack_nil, BitVec.zero_or]
      have after : pack 64 (bytes.drop (8 - ([] : List (BitVec 8)).length)) = 0#64 := by
        rw [List.length_nil, Nat.sub_zero, dropped, pack_nil]
      rw [eight, before, after, BitVec.zero_or]
      exact counted
  · have offset : ¬ ((buffer.byteCount &&& 7) == 0) = true := by
      rw [beq_iff_eq]
      intro zero
      have length := holds.toNat_offset
      rw [zero] at length
      exact aligned (List.length_eq_zero_iff.mp length.symm)
    rw [if_neg offset]
    refine ⟨holds.chunk_eq bytes, remaining, ?_⟩
    have counted : maskingShiftLeft word .uint64
        (maskingShiftRight word .uint64 buffer.value 56 + 8) 56 =
        BitVec.ofNat 64 (total + 8) <<< 56 :=
      (maskingShiftLeft_ofNat _ (by decide : 56 < 64)).trans (holds.count_shift 8)
    simp only [counted, holds.rest_eq aligned whole.le]
    exact BitVec.or_comm _ _

theorem toNat_offset_add (holds : buffer.Holds pending total) {count : ℕ} (few : count < 8) :
    BitVec.toNat ((buffer.byteCount &&& 7) + BitVec.ofNat 64 count) =
      pending.length + count := by
  have short := holds.length_lt
  have small : (BitVec.ofNat 64 count).toNat = count := by
    rw [BitVec.toNat_ofNat]
    exact Nat.mod_eq_of_lt (by omega)
  rw [BitVec.toNat_add, holds.toNat_offset, small]
  simp only [IntegerType.bitWidth]
  omega

theorem appendCount_of_room (holds : buffer.Holds pending total) {bytes : List (BitVec 8)}
    (room : pending.length + bytes.length < 8) :
    (buffer.appendCount (pack 64 bytes) (BitVec.ofNat 64 bytes.length)).2 = none ∧
      (buffer.appendCount (pack 64 bytes) (BitVec.ofNat 64 bytes.length)).1.Holds
        (pending ++ bytes) (total + bytes.length) := by
  have shift := holds.toNat_shift
  have guard : less word .uint64 ((buffer.byteCount &&& 7) + BitVec.ofNat 64 bytes.length) 8 =
      true := by
    rw [less_unsigned_iff rfl, holds.toNat_offset_add (by omega)]
    exact room
  have placed : maskingShiftLeft word .uint64 (pack 64 bytes)
      (maskingShiftLeft word .uint64 (buffer.byteCount &&& 7) 3) =
      pack 64 bytes <<< (8 * pending.length) := by
    rw [maskingShiftLeft_of_lt _ (by rw [shift]; simp only [IntegerType.bitWidth]; omega), shift]
  have counted : maskingShiftLeft word .uint64 (BitVec.ofNat 64 bytes.length) 56 =
      BitVec.ofNat 64 bytes.length <<< 56 := maskingShiftLeft_ofNat _ (by decide : 56 < 64)
  have together : (pack 64 (pending ++ bytes)).toNat < 2 ^ 56 := by
    have length : (pending ++ bytes).length = _ := List.length_append
    rw [toNat_pack (by omega)]
    exact (number_lt _).trans_le (Nat.pow_le_pow_right (by omega) (by omega))
  rw [TailBuffer.appendCount, if_pos guard]
  refine ⟨rfl, ?_, ?_⟩
  · rw [List.length_append, holds.length_pending]
    have length := holds.length_pending
    omega
  · have merged : buffer.value ||| pack 64 bytes <<< (8 * pending.length) =
        pack 64 (pending ++ bytes) ||| BitVec.ofNat 64 total <<< 56 := by
      rw [holds.value_eq, pack_append_or (by omega), BitVec.or_assoc, BitVec.or_assoc,
        BitVec.or_comm (BitVec.ofNat 64 total <<< 56)]
    rw [placed, counted, merged, or_shiftLeft_eq_add _ together, BitVec.add_assoc,
      ← BitVec.shiftLeft_add_distrib, ← BitVec.ofNat_add, or_shiftLeft_eq_add _ together]

/-- Bytes that fill the block complete it, whatever lies above them in their word. -/
theorem appendCount_of_full (holds : buffer.Holds pending total) {units : List (BitVec 8)}
    {count : ℕ} (few : count < 8) (full : 8 ≤ pending.length + count)
    (exact : units.length = count ∨ pending.length + count = 8) (covers : count ≤ units.length) :
    (buffer.appendCount (pack 64 units) (BitVec.ofNat 64 count)).2 =
        some (pack 64 (pending ++ units.take (8 - pending.length))) ∧
      (buffer.appendCount (pack 64 units) (BitVec.ofNat 64 count)).1.Holds
        ((units.take count).drop (8 - pending.length)) (total + count) := by
  have short := holds.length_lt
  have total_eq := holds.length_pending
  have sum := holds.toNat_offset_add few
  have guard : ¬ less word .uint64 ((buffer.byteCount &&& 7) + BitVec.ofNat 64 count) 8 =
      true := by
    rw [less_unsigned_iff rfl, sum]
    exact Nat.not_lt_of_le full
  have counted : maskingShiftLeft word .uint64
      (maskingShiftRight word .uint64 buffer.value 56 + BitVec.ofNat 64 count) 56 =
      BitVec.ofNat 64 (total + count) <<< 56 :=
    (maskingShiftLeft_ofNat _ (by decide : 56 < 64)).trans (holds.count_shift count)
  have remaining : ((units.take count).drop (8 - pending.length)).length =
      (total + count) % 8 := by
    rw [List.length_drop, List.length_take]
    omega
  rw [TailBuffer.appendCount, if_neg guard]
  refine ⟨congrArg some (holds.chunk_eq units), remaining, ?_⟩
  have exceeded : less word .uint64 8 ((buffer.byteCount &&& 7) + BitVec.ofNat 64 count) = true ↔
      8 < pending.length + count := by
    rw [less_unsigned_iff rfl, sum]
    exact Iff.rfl
  by_cases beyond : 8 < pending.length + count
  · have started : pending ≠ [] := by
      rintro rfl
      simp only [List.length_nil] at beyond
      omega
    have whole : units.take count = units := List.take_of_length_le (by omega)
    have fits : units.length ≤ 8 := by omega
    simp only [if_pos (exceeded.mpr beyond), counted, holds.rest_eq started fits, whole]
    exact BitVec.or_comm _ _
  · have nothing : (units.take count).drop (8 - pending.length) = [] :=
      List.drop_eq_nil_of_le (by rw [List.length_take]; omega)
    simp only [if_neg (beyond ∘ exceeded.mp), counted, nothing, pack_nil, BitVec.zero_or]

end Holds

end TailBuffer

end Hasher

end USwift
