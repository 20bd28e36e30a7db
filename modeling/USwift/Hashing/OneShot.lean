import USwift.Hashing.Hasher
import USwift.Integer.Shift

/-!
# One-shot hashing

The integer and pointer types hash themselves without a hasher: they build the word
of the tail and the byte count directly. A hasher that combines the value is finalized
from the same state and the same word.
-/

namespace USwift

open Packing

namespace Hasher

variable {word : WordSize}

namespace TailBuffer

/-- `init(tail:byteCount:)` with an `Int`. -/
def ofTail (tail : Value word .uint64) (byteCount : Value word .int) : TailBuffer word :=
  ⟨maskingShiftLeft word .uint64 (truncatingIfNeeded word .uint64 .int byteCount) 56 ||| tail⟩

end TailBuffer

/-- `_executionSeed`. -/
abbrev ExecutionSeed (word : WordSize) : Type :=
  Value word .uint64 × Value word .uint64

/-- `_State.init(seed:)`. -/
def State.initSeed (executionSeed : ExecutionSeed word) (seed : Value word .int) : State word :=
  State.initRawSeed (executionSeed.1 ^^^ truncatingIfNeeded word .uint64 .uint seed,
    executionSeed.2)

/-- `_Core.init(seed:)`. -/
def Core.initSeed (executionSeed : ExecutionSeed word) (seed : Value word .int) : Core word :=
  ⟨TailBuffer.empty, State.initSeed executionSeed seed⟩

/-- The `Int` that a hasher is finalized to. -/
def finalizeInt (core : Core word) : Value word .int :=
  truncatingIfNeeded word .int .uint64 core.finalize

section OneShot

variable (executionSeed : ExecutionSeed word) (seed : Value word .int)

/-- `_hash(seed:_:)` on a `UInt64`, before it is finalized. -/
def oneShotUInt64 (value : Value word .uint64) : Core word :=
  ⟨TailBuffer.ofTail 0 8, (State.initSeed executionSeed seed).compress value⟩

/-- `_hash(seed:bytes:count:)`, before it is finalized. -/
def oneShotBytesCount (value : Value word .uint64) (count : Value word .int) : Core word :=
  ⟨TailBuffer.ofTail value count, State.initSeed executionSeed seed⟩

/-- `_hash(seed:_:)` on a `UInt`, before it is finalized. -/
def oneShotUInt (value : Value word .uint) : Core word :=
  match word with
  | .word32 =>
      ⟨TailBuffer.ofTail (truncatingIfNeeded .word32 .uint64 .uint value)
        (maskingShiftRight .word32 .int (bitWidthInt .word32 .uint) 3),
        State.initSeed executionSeed seed⟩
  | .word16 =>
      ⟨TailBuffer.ofTail 0 8, (State.initSeed executionSeed seed).compress
        (truncatingIfNeeded .word16 .uint64 .uint value)⟩

/-- `_hash(seed:bytes:count:)`. -/
def hashBytesCount (value : Value word .uint64) (count : Value word .int) : Value word .int :=
  finalizeInt (oneShotBytesCount executionSeed seed value count)

/-- `_hash(seed:bytes:)`. -/
def hashBuffer (buffer : RawBuffer word) : Value word .int :=
  finalizeInt ((Core.initSeed executionSeed seed).combineBuffer buffer)

end OneShot

/-- The values whose types hash themselves: integers, and pointers to an address. -/
inductive Key (word : WordSize) where
  | integer (type : IntegerType) (value : Value word type)
  | pointer (address : Value word .uint)

namespace Key

/-- `hash(into:)`. -/
def hashInto (core : Core word) : Key word → Core word
  | integer .int64 value | integer .uint64 value => core.combineUInt64 value
  | integer .int32 value | integer .uint32 value => core.combineUInt32 value
  | integer .int16 value | integer .uint16 value => core.combineUInt16 value
  | integer .int8 value | integer .uint8 value => core.combineUInt8 value
  | integer .int value | integer .uint value | pointer value => core.combineUInt value

section Seeded

variable (executionSeed : ExecutionSeed word) (seed : Value word .int)

/-- `_rawHashValue(seed:)` of the type, before it is finalized. -/
def oneShot : Key word → Core word
  | integer .int64 value | integer .uint64 value => oneShotUInt64 executionSeed seed value
  | integer .int32 value | integer .uint32 value =>
      oneShotBytesCount executionSeed seed (truncatingIfNeeded word .uint64 .uint32 value) 4
  | integer .int16 value | integer .uint16 value =>
      oneShotBytesCount executionSeed seed (truncatingIfNeeded word .uint64 .uint16 value) 2
  | integer .int8 value | integer .uint8 value =>
      oneShotBytesCount executionSeed seed (truncatingIfNeeded word .uint64 .uint8 value) 1
  | integer .int value | integer .uint value | pointer value =>
      oneShotUInt executionSeed seed value

/-- `_rawHashValue(seed:)` of the type. -/
def rawHashValue (key : Key word) : Value word .int :=
  finalizeInt (key.oneShot executionSeed seed)

/-- The default `_rawHashValue(seed:)` of `Hashable`. -/
def defaultRawHashValue (key : Key word) : Value word .int :=
  finalizeInt (key.hashInto (Core.initSeed executionSeed seed))

end Seeded

end Key

namespace TailBuffer

theorem appendCount_empty (value : Value word .uint64) {count : ℕ} (few : count < 8) :
    (TailBuffer.empty : TailBuffer word).appendCount value (BitVec.ofNat 64 count) =
      (⟨value + BitVec.ofNat 64 count <<< 56⟩, none) := by
  have start : (TailBuffer.empty : TailBuffer word).byteCount &&& 7 = 0 := by cases word <;> rfl
  have unshifted : maskingShiftLeft word .uint64 0 3 = 0 := by cases word <;> rfl
  have kept : maskingShiftLeft word .uint64 value 0 = value :=
    (maskingShiftLeft_ofNat value (by decide : 0 < 64)).trans (BitVec.shiftLeft_zero value)
  have room : less word .uint64 (0 + BitVec.ofNat 64 count) 8 = true := by
    have sum : (0 : Value word .uint64) + BitVec.ofNat 64 count = BitVec.ofNat 64 count :=
      BitVec.zero_add _
    rw [sum, less_unsigned_iff rfl, BitVec.toNat_ofNat]
    exact (Nat.mod_le _ _).trans_lt few
  have shifted : maskingShiftLeft word .uint64 (BitVec.ofNat 64 count) 56 =
    BitVec.ofNat 64 count <<< 56 := maskingShiftLeft_ofNat _ (by decide : 56 < 64)
  rw [appendCount, start]
  dsimp only
  rw [if_pos room, unshifted, kept, shifted]
  exact congrArg (fun x => ((⟨x + _⟩ : TailBuffer word), none)) BitVec.zero_or

theorem ofTail_eq (tail : Value word .uint64) {count : ℕ} (few : count < 8) :
    ofTail tail (BitVec.ofNat _ count) = ⟨BitVec.ofNat 64 count <<< 56 ||| tail⟩ := by
  have converted : truncatingIfNeeded word .uint64 .int (BitVec.ofNat _ count) =
      BitVec.ofNat 64 count := by
    interval_cases count <;> cases word <;> decide
  have shifted : maskingShiftLeft word .uint64 (BitVec.ofNat 64 count) 56 =
    BitVec.ofNat 64 count <<< 56 := maskingShiftLeft_ofNat _ (by decide : 56 < 64)
  rw [ofTail, converted, shifted]

theorem add_eq_or {tail : BitVec 64} (short : tail.toNat < 2 ^ 56) (count : ℕ) :
    tail + BitVec.ofNat 64 count <<< 56 = BitVec.ofNat 64 count <<< 56 ||| tail := by
  rw [BitVec.or_comm]
  apply BitVec.eq_of_toNat_eq
  rw [toNat_or_shiftLeft _ short (by decide), BitVec.toNat_add, BitVec.toNat_shiftLeft,
    BitVec.toNat_ofNat, Nat.shiftLeft_eq]
  omega

end TailBuffer

section Agreement

variable (executionSeed : ExecutionSeed word) (seed : Value word .int)

theorem oneShotBytesCount_eq {value : Value word .uint64} (short : value.toNat < 2 ^ 56)
    {count : ℕ} (few : count < 8) :
    oneShotBytesCount executionSeed seed value (BitVec.ofNat _ count) =
      (Core.initSeed executionSeed seed).combineCount value (BitVec.ofNat 64 count) := by
  rw [oneShotBytesCount, TailBuffer.ofTail_eq value few, ← TailBuffer.add_eq_or short,
    Core.combineCount, Core.initSeed]
  dsimp only
  rw [TailBuffer.appendCount_empty value few]

theorem oneShotUInt64_eq (value : Value word .uint64) :
    oneShotUInt64 executionSeed seed value =
      (Core.initSeed executionSeed seed).combineUInt64 value := by
  have start : ((TailBuffer.empty : TailBuffer word).byteCount &&& 7 == 0) = true := by
    cases word <;> rfl
  have last : (TailBuffer.ofTail 0 8 : TailBuffer word) =
      ⟨TailBuffer.empty.value + maskingShiftLeft word .uint64 8 56⟩ := by
    cases word <;> rfl
  rw [oneShotUInt64, last, Core.combineUInt64, Core.initSeed, TailBuffer.append]
  dsimp only
  rw [if_pos start]

/-- No conversion from at most four bytes reaches the byte count. -/
theorem toNat_setWidth_lt {width : ℕ} (value : BitVec width) (narrow : width ≤ 32) :
    (value.setWidth 64).toNat < 2 ^ 56 := by
  have bounded : value.toNat < 2 ^ 32 :=
    value.isLt.trans_le (Nat.pow_le_pow_right (by decide) narrow)
  rw [BitVec.toNat_setWidth]
  omega

theorem oneShotUInt_eq (value : Value word .uint) :
    oneShotUInt executionSeed seed value =
      (Core.initSeed executionSeed seed).combineUInt value := by
  cases word with
  | word16 => exact oneShotUInt64_eq executionSeed seed _
  | word32 =>
      have four : maskingShiftRight .word32 .int (bitWidthInt .word32 .uint) 3 =
        BitVec.ofNat _ 4 := by decide
      have same : truncatingIfNeeded .word32 .uint32 .uint value = value :=
        truncatingIfNeeded_unsigned rfl (by simp) value
      have converted : truncatingIfNeeded .word32 .uint64 .uint value = value.setWidth 64 :=
        truncatingIfNeeded_unsigned rfl (by simp) value
      have widened : truncatingIfNeeded .word32 .uint64 .uint32 value = value.setWidth 64 :=
        truncatingIfNeeded_unsigned rfl (by simp) value
      have agreed := oneShotBytesCount_eq executionSeed seed (toNat_setWidth_lt value le_rfl)
        (by decide : 4 < 8)
      rw [oneShotUInt, Core.combineUInt, Core.combineUInt32, four, same, converted, widened]
      exact agreed

/-- The sign that reaches the tail on ARM stays below the byte count. -/
theorem toNat_uint16_lt (value : Value word .uint16) :
    BitVec.toNat (truncatingIfNeeded word .uint64 .uint16 value) < 2 ^ 56 := by
  cases word with
  | word16 =>
      rw [truncatingIfNeeded_unsigned rfl (by simp)]
      exact toNat_setWidth_lt value (by decide)
  | word32 =>
      rw [truncatingIfNeeded_uint16_word32]
      exact toNat_setWidth_lt (BitVec.signExtend 32 value) le_rfl

theorem oneShot_eq (key : Key word) :
    key.oneShot executionSeed seed = key.hashInto (Core.initSeed executionSeed seed) := by
  have four (value : Value word .uint32) :
      BitVec.toNat (truncatingIfNeeded word .uint64 .uint32 value) < 2 ^ 56 := by
    rw [truncatingIfNeeded_unsigned rfl (by simp)]
    exact toNat_setWidth_lt value le_rfl
  have one (value : Value word .uint8) :
      BitVec.toNat (truncatingIfNeeded word .uint64 .uint8 value) < 2 ^ 56 := by
    rw [truncatingIfNeeded_unsigned rfl (by simp)]
    exact toNat_setWidth_lt value (show 8 ≤ 32 by decide)
  cases key with
  | pointer address => exact oneShotUInt_eq executionSeed seed address
  | integer type value =>
      cases type with
      | int64 | uint64 => exact oneShotUInt64_eq executionSeed seed value
      | int32 | uint32 =>
          exact oneShotBytesCount_eq executionSeed seed (four value) (by decide : 4 < 8)
      | int16 | uint16 =>
          exact oneShotBytesCount_eq executionSeed seed (toNat_uint16_lt value)
            (by decide : 2 < 8)
      | int8 | uint8 =>
          exact oneShotBytesCount_eq executionSeed seed (one value) (by decide : 1 < 8)
      | int | uint => exact oneShotUInt_eq executionSeed seed value

/-- The key of the algorithm that a seed selects. -/
def seedKey : SipHash.Key :=
  ⟨executionSeed.1 ^^^ truncatingIfNeeded word .uint64 .uint seed, executionSeed.2⟩

theorem initSeed_holds : (Core.initSeed executionSeed seed).Holds (seedKey executionSeed seed) [] :=
  Core.Holds.start _

theorem oneShotBytesCount_holds {bytes : List (BitVec 8)} (few : bytes.length < 8) :
    (oneShotBytesCount executionSeed seed (pack 64 bytes) (BitVec.ofNat _ bytes.length)).Holds
      (seedKey executionSeed seed) bytes := by
  have short : (pack 64 bytes).toNat < 2 ^ 56 := by
    rw [toNat_pack (by omega)]
    exact (number_lt bytes).trans_le (Nat.pow_le_pow_right (by decide) (by omega))
  have combined := (initSeed_holds executionSeed seed).combineCount bytes few le_rfl (Or.inl rfl)
  rw [List.take_length, List.nil_append] at combined
  rw [oneShotBytesCount_eq executionSeed seed short few]
  exact combined

theorem finalizeInt_eq {core other : Core word} {key : SipHash.Key} {message : List (BitVec 8)}
    (holds : core.Holds key message) (otherHolds : other.Holds key message) :
    finalizeInt core = finalizeInt other := by
  rw [finalizeInt, finalizeInt, holds.finalize, otherHolds.finalize]

/--
Every value hashes itself to what a hasher makes of it, and so do fewer than eight bytes
and a buffer, into whatever calls the same bytes are divided.
-/
theorem rawHashValue_eq_default :
    (∀ key : Key word,
      key.rawHashValue executionSeed seed = key.defaultRawHashValue executionSeed seed) ∧
    (∀ bytes : List (BitVec 8), bytes.length < 8 → ∀ calls : List (Call word),
      Call.SoundFrom 0 calls → Call.messages calls = bytes →
      hashBytesCount executionSeed seed (pack 64 bytes) (BitVec.ofNat _ bytes.length) =
        finalizeInt ((Core.initSeed executionSeed seed).run calls)) ∧
    (∀ buffer : RawBuffer word, ∀ calls : List (Call word),
      Call.SoundFrom 0 calls → Call.messages calls = buffer.bytes →
      hashBuffer executionSeed seed buffer =
        finalizeInt ((Core.initSeed executionSeed seed).run calls)) := by
  have start := initSeed_holds executionSeed seed
  refine ⟨?_, ?_, ?_⟩
  · intro key
    rw [Key.rawHashValue, oneShot_eq]
    rfl
  · intro bytes few calls sound same
    have fed := start.run sound
    rw [List.nil_append, same] at fed
    exact finalizeInt_eq (oneShotBytesCount_holds executionSeed seed few) fed
  · intro buffer calls sound same
    have fed := start.run sound
    rw [List.nil_append, same] at fed
    exact finalizeInt_eq (start.combineBuffer buffer) fed

end Agreement

end Hasher

end USwift
