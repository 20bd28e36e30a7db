import USwift.Hashing.State
import USwift.Hashing.TailBuffer
import USwift.Integer.Comparison

/-!
# The hasher

`Hasher._Core` feeds values of every width through the tail buffer into the
state. The result of a run is the SipHash-1-3 value of the bytes combined, which
does not depend on how they were divided into calls, as long as the values reach
the buffer with nothing above their own bytes.
-/

namespace USwift

open Packing

namespace Hasher

/-- `_Core`. -/
structure Core (word : WordSize) where
  buffer : TailBuffer word
  state : State word
  deriving DecidableEq

/-- A raw buffer as an address and the bytes from there on. -/
structure RawBuffer (word : WordSize) where
  baseAddress : Value word .uint
  bytes : List (BitVec 8)

/-- `_roundUpImpl(_:toAlignment:)`. -/
def roundUp {word : WordSize} (offset alignment : Value word .uint) : Value word .uint :=
  let x := offset + alignment - 1
  x &&& ~~~(alignment - 1)

/-- `MemoryLayout<UInt64>.alignment`, which the data layout of the target sets. -/
def uint64Alignment : (word : WordSize) → Value word .uint
  | .word16 => 1
  | .word32 => 8

/-- The cases of `_loadPartialUnalignedUInt64LE` from a byte count down. -/
def loadPartialFrom (word : WordSize) (p : List (BitVec 8)) :
    ℕ → Value word .uint64 → Value word .uint64
  | 0, result => result
  | offset + 1, result =>
      let byte := truncatingIfNeeded word .uint64 .uint8 (p.getD offset 0)
      loadPartialFrom word p offset
        (result ||| maskingShiftLeft word .uint64 byte (BitVec.ofNat 64 (8 * offset)))

/-- `_loadPartialUnalignedUInt64LE(_:byteCount:)`. -/
def loadPartialUnalignedUInt64LE (word : WordSize) (p : List (BitVec 8)) (byteCount : ℕ) :
    Value word .uint64 :=
  loadPartialFrom word p byteCount 0

namespace Core

variable {word : WordSize}

/-- `init(state:)` with `_State(rawSeed:)`. -/
def initRawSeed (rawSeed : Value word .uint64 × Value word .uint64) : Core word :=
  ⟨TailBuffer.empty, State.initRawSeed rawSeed⟩

/-- The common part of the calls that append fewer than eight bytes. -/
def combineCount (core : Core word) (value count : Value word .uint64) : Core word :=
  match core.buffer.appendCount value count with
  | (buffer, some chunk) => ⟨buffer, core.state.compress chunk⟩
  | (buffer, none) => ⟨buffer, core.state⟩

def combineUInt64 (core : Core word) (value : Value word .uint64) : Core word :=
  let (buffer, chunk) := core.buffer.append value
  ⟨buffer, core.state.compress chunk⟩

def combineUInt32 (core : Core word) (value : Value word .uint32) : Core word :=
  core.combineCount (truncatingIfNeeded word .uint64 .uint32 value) 4

def combineUInt16 (core : Core word) (value : Value word .uint16) : Core word :=
  core.combineCount (truncatingIfNeeded word .uint64 .uint16 value) 2

def combineUInt8 (core : Core word) (value : Value word .uint8) : Core word :=
  core.combineCount (truncatingIfNeeded word .uint64 .uint8 value) 1

/-- `combine(_:)` on a `UInt`. -/
def combineUInt (core : Core word) (value : Value word .uint) : Core word :=
  match word with
  | .word32 => core.combineUInt32 (truncatingIfNeeded .word32 .uint32 .uint value)
  | .word16 => core.combineUInt64 (truncatingIfNeeded .word16 .uint64 .uint value)

/-- The bytes that a `UInt` counts for, after its extension on AVR. -/
def uintByteCount : WordSize → ℕ
  | .word16 => 8
  | .word32 => 4

/-- `combine(bytes:count:)`. -/
def combineBytesCount (core : Core word) (bytes : Value word .uint64)
    (count : Value word .int) : Core word :=
  core.combineCount bytes (truncatingIfNeeded word .uint64 .int count)

/-- The loop over whole words and the bytes that remain after it. -/
def combineWords (core : Core word) : List (BitVec 8) → Core word × List (BitVec 8)
  | b0 :: b1 :: b2 :: b3 :: b4 :: b5 :: b6 :: b7 :: data =>
      (core.combineUInt64 (pack 64 [b0, b1, b2, b3, b4, b5, b6, b7])).combineWords data
  | data => (core, data)

/-- The bytes of a buffer outside its whole words, if there are any. -/
def combinePartial (core : Core word) (p : List (BitVec 8)) (count : ℕ) : Core word :=
  if 0 < count then
    core.combineBytesCount (loadPartialUnalignedUInt64LE word p count) (BitVec.ofNat _ count)
  else core

/-- `combine(bytes:)` on a raw buffer. -/
def combineBuffer (core : Core word) (buffer : RawBuffer word) : Core word :=
  if buffer.bytes.length = 0 then core
  else
    let start := buffer.baseAddress
    let stop := roundUp start (uint64Alignment word)
    let startCount := min buffer.bytes.length (BitVec.toNat (stop - start))
    let core := core.combinePartial buffer.bytes startCount
    let (core, data) := core.combineWords (buffer.bytes.drop startCount)
    core.combinePartial data data.length

/-- `finalize()`. -/
def finalize (core : Core word) : Value word .uint64 :=
  core.state.finalize core.buffer.value

/-- The core after a message: its whole words are absorbed and its tail is pending. -/
structure Holds (core : Core word) (key : SipHash.Key) (message : List (BitVec 8)) : Prop where
  state_eq : core.state.toSipHash =
    (SipHash.blocks message).foldl (SipHash.compress 1) (SipHash.init key)
  buffer_holds : core.buffer.Holds (SipHash.tail message) message.length

namespace Holds

variable {core : Core word} {key : SipHash.Key} {message : List (BitVec 8)}

theorem start (rawSeed : Value word .uint64 × Value word .uint64) :
    (initRawSeed rawSeed).Holds ⟨rawSeed.1, rawSeed.2⟩ [] :=
  ⟨State.toSipHash_initRawSeed rawSeed, TailBuffer.Holds.empty⟩

theorem pend (holds : core.Holds key message) {bytes : List (BitVec 8)}
    {buffer : TailBuffer word} (room : (SipHash.tail message ++ bytes).length < 8)
    (bufferHolds : buffer.Holds (SipHash.tail message ++ bytes) (message.length + bytes.length)) :
    (⟨buffer, core.state⟩ : Core word).Holds key (message ++ bytes) := by
  refine ⟨?_, ?_⟩
  · rw [SipHash.blocks_append, SipHash.blocks_of_short room, List.append_nil]
    exact holds.state_eq
  · rw [SipHash.tail_append, SipHash.tail_of_short room, List.length_append]
    exact bufferHolds

theorem absorb (holds : core.Holds key message) (bytes : List (BitVec 8))
    {buffer : TailBuffer word} (full : 8 ≤ (SipHash.tail message).length + bytes.length)
    (bufferHolds : buffer.Holds (bytes.drop (8 - (SipHash.tail message).length))
      (message.length + bytes.length)) :
    (⟨buffer, core.state.compress (pack 64 (SipHash.tail message ++
      bytes.take (8 - (SipHash.tail message).length)))⟩ : Core word).Holds
      key (message ++ bytes) := by
  have short := holds.buffer_holds.length_lt
  have few := bufferHolds.length_lt
  have whole : (SipHash.tail message ++
      bytes.take (8 - (SipHash.tail message).length)).length = 8 := by
    rw [List.length_append, List.length_take]
    omega
  have split : SipHash.tail message ++ bytes =
      (SipHash.tail message ++ bytes.take (8 - (SipHash.tail message).length)) ++
        bytes.drop (8 - (SipHash.tail message).length) := by
    rw [List.append_assoc, List.take_append_drop]
  refine ⟨?_, ?_⟩
  · rw [State.toSipHash_compress, SipHash.blocks_append, split, SipHash.blocks_cons whole,
      SipHash.blocks_of_short few, List.foldl_append, ← holds.state_eq]
    rfl
  · rw [SipHash.tail_append, split, SipHash.tail_cons whole, SipHash.tail_of_short few,
      List.length_append]
    exact bufferHolds

theorem combineUInt64 (holds : core.Holds key message) (bytes : List (BitVec 8))
    (whole : bytes.length = 8) :
    (core.combineUInt64 (pack 64 bytes)).Holds key (message ++ bytes) := by
  rcases holds.buffer_holds.append whole with ⟨chunk, bufferHolds⟩
  have absorbed := holds.absorb bytes (by omega)
    (by rw [show message.length + bytes.length = message.length + 8 by omega]; exact bufferHolds)
  rw [← chunk] at absorbed
  exact absorbed

theorem combineCount (holds : core.Holds key message) (units : List (BitVec 8)) {count : ℕ}
    (few : count < 8) (covers : count ≤ units.length)
    (exact : units.length = count ∨ (SipHash.tail message).length + count = 8) :
    (core.combineCount (pack 64 units) (BitVec.ofNat 64 count)).Holds key
      (message ++ units.take count) := by
  have taken : (units.take count).length = count := by
    rw [List.length_take]
    omega
  rw [Core.combineCount]
  by_cases full : 8 ≤ (SipHash.tail message).length + count
  · rcases holds.buffer_holds.appendCount_of_full few full exact covers with
      ⟨chunk, bufferHolds⟩
    have absorbed := holds.absorb (units.take count) (by omega) (by rwa [taken])
    rw [List.take_take, Nat.min_eq_left (by omega)] at absorbed
    split
    · rename_i appended
      rw [appended] at chunk absorbed
      simp only [Option.some_inj] at chunk
      rw [chunk]
      exact absorbed
    · rename_i appended
      rw [appended] at chunk
      simp at chunk
  · have whole : units.length = count := by omega
    subst whole
    have room : (SipHash.tail message).length + units.length < 8 := by omega
    rcases holds.buffer_holds.appendCount_of_room room with ⟨none, bufferHolds⟩
    have pended := holds.pend (by rw [List.length_append]; exact room) bufferHolds
    rw [List.take_of_length_le le_rfl]
    split
    · rename_i appended
      rw [appended] at none
      simp at none
    · rename_i appended
      rw [appended] at pended
      exact pended

theorem combineValue (holds : core.Holds key message) {width count : ℕ} {value : BitVec width}
    (few : count < 8) (exact : value.toNat < 2 ^ (8 * count)) :
    (core.combineCount (value.setWidth 64) (BitVec.ofNat 64 count)).Holds key
      (message ++ unpack 8 count value) := by
  have combined := holds.combineCount (unpack 8 count value) few (by simp) (by simp)
  rw [pack_unpack exact, List.take_of_length_le (by simp)] at combined
  exact combined

end Holds

theorem loadPartialFrom_eq (word : WordSize) {p : List (BitVec 8)} {count : ℕ}
    (result : Value word .uint64) (short : count ≤ 8) (inside : count ≤ p.length) :
    loadPartialFrom word p count result = result ||| pack 64 (p.take count) := by
  induction count generalizing result with
  | zero => simp [loadPartialFrom]
  | succ offset lower =>
      have within : offset < p.length := by omega
      have byte : truncatingIfNeeded word .uint64 .uint8 (p.getD offset 0) =
          pack 64 [p[offset]] := by
        rw [truncatingIfNeeded_eq_extend ((extendsSign_eq_iff word .uint8).mpr (by simp)),
          pack_singleton, List.getD_eq_getElem?_getD, List.getElem?_eq_getElem within,
          Option.getD_some]
        rfl
      have shifted : maskingShiftLeft word .uint64 (pack 64 [p[offset]])
          (BitVec.ofNat 64 (8 * offset)) = pack 64 [p[offset]] <<< (8 * offset) :=
        maskingShiftLeft_ofNat _ (by simp only [IntegerType.bitWidth]; omega)
      have length : (p.take offset).length = offset := by rw [List.length_take]; omega
      rw [loadPartialFrom, lower _ (by omega) (by omega), byte, shifted,
        ← List.take_append_getElem within, pack_append_or (by rw [length]; omega), length,
        BitVec.or_assoc, BitVec.or_comm (pack 64 [p[offset]] <<< (8 * offset))]

theorem loadPartialUnalignedUInt64LE_eq (word : WordSize) {p : List (BitVec 8)} {count : ℕ}
    (short : count ≤ 8) (inside : count ≤ p.length) :
    loadPartialUnalignedUInt64LE word p count = pack 64 (p.take count) := by
  rw [loadPartialUnalignedUInt64LE, loadPartialFrom_eq word 0 short inside]
  exact BitVec.zero_or

theorem roundUp_sub_lt (start : Value word .uint) :
    BitVec.toNat (roundUp start (uint64Alignment word) - start) < 8 := by
  cases word with
  | word16 =>
      have same : roundUp start (uint64Alignment .word16) = start := by
        have allOnes : ~~~((1 : BitVec 16) - 1) = BitVec.allOnes 16 := rfl
        have cancelled : start + 1 - 1 = start := BitVec.add_sub_cancel start 1
        rw [roundUp, uint64Alignment, allOnes, cancelled]
        exact BitVec.and_allOnes
      rw [same, BitVec.sub_self]
      decide
  | word32 =>
      have cleared (x : BitVec 32) : x &&& ~~~(7#32) = x >>> 3 <<< 3 := by
        apply BitVec.eq_of_getLsbD_eq
        intro index index_lt
        have mask : (BitVec.ofNat 32 (2 ^ 3 - 1)).getLsbD index = decide (index < 3) := by
          rw [BitVec.getLsbD_ofNat, Nat.testBit_two_pow_sub_one]
          simp [index_lt]
        rw [BitVec.getLsbD_and, BitVec.getLsbD_not, BitVec.getLsbD_shiftLeft,
          BitVec.getLsbD_ushiftRight]
        rw [show 7#32 = BitVec.ofNat 32 (2 ^ 3 - 1) from rfl, mask]
        by_cases low : index < 3
        · simp [low]
        · simp [low, index_lt, Nat.add_sub_cancel' (Nat.le_of_not_lt low)]
      have rounded : roundUp start (uint64Alignment .word32) =
          ((start + 8#32 - 1#32) >>> 3 <<< 3 : BitVec 32) := cleared _
      have stop : BitVec.toNat (roundUp start (uint64Alignment .word32)) =
          (start.toNat + 7) % 2 ^ 32 / 8 * 8 := by
        have eight : BitVec.toNat (8#32) = 8 := rfl
        have one : BitVec.toNat (1#32) = 1 := rfl
        rw [rounded, BitVec.toNat_shiftLeft, BitVec.toNat_ushiftRight, BitVec.toNat_sub,
          BitVec.toNat_add, eight, one, Nat.shiftLeft_eq, Nat.shiftRight_eq_div_pow]
        simp only [IntegerType.bitWidth, WordSize.bits]
        omega
      have bounded : start.toNat < 2 ^ 32 := start.isLt
      rw [BitVec.toNat_sub, stop]
      simp only [IntegerType.bitWidth, WordSize.bits]
      omega

namespace Holds

variable {core : Core word} {key : SipHash.Key} {message : List (BitVec 8)}

theorem combineWords (holds : core.Holds key message) (data : List (BitVec 8)) :
    ∃ consumed, data = consumed ++ (core.combineWords data).2 ∧
      (core.combineWords data).2.length < 8 ∧
      (core.combineWords data).1.Holds key (message ++ consumed) := by
  -- The induction follows the blocks of the message.
  fun_induction SipHash.tail data generalizing core message with
  | case1 b0 b1 b2 b3 b4 b5 b6 b7 rest later =>
      have combined := holds.combineUInt64 [b0, b1, b2, b3, b4, b5, b6, b7] rfl
      rcases later combined with ⟨consumed, split, short, after⟩
      refine ⟨[b0, b1, b2, b3, b4, b5, b6, b7] ++ consumed, ?_, short, ?_⟩
      · rw [List.append_assoc]
        exact congrArg ([b0, b1, b2, b3, b4, b5, b6, b7] ++ ·) split
      · rw [← List.append_assoc]
        exact after
  | case2 data noBlock =>
      have same : core.combineWords data = (core, data) := by rw [Core.combineWords]; exact noBlock
      rw [same]
      exact ⟨[], rfl, SipHash.length_lt_of_no_block noBlock, by simpa using holds⟩

theorem combineBytesCount (holds : core.Holds key message) (bytes : Value word .uint64)
    (count : Value word .int) (few : count.toNat < 8)
    (exact : bytes.toNat < 2 ^ (8 * count.toNat)) :
    (core.combineBytesCount bytes count).Holds key
      (message ++ unpack 8 count.toNat bytes) := by
  have converted : truncatingIfNeeded word .uint64 .int count = BitVec.ofNat 64 count.toNat := by
    have nonnegative : count.msb = false := by
      rw [BitVec.msb_eq_false_iff_two_mul_lt]
      have room : 2 ^ 4 ≤ 2 ^ IntegerType.int.bitWidth word := by cases word <;> decide
      omega
    rw [truncatingIfNeeded_eq_extend ((extendsSign_eq_iff word .int).mpr (by simp)),
      TwosComplement.extend, if_pos rfl, BitVec.signExtend_eq_setWidth_of_msb_false nonnegative]
    exact BitVec.eq_of_toNat_eq (by simp)
  have combined := holds.combineValue few exact
  rw [BitVec.setWidth_eq] at combined
  rw [Core.combineBytesCount, converted]
  exact combined

theorem combinePartial (holds : core.Holds key message) {p : List (BitVec 8)} {count : ℕ}
    (few : count < 8) (inside : count ≤ p.length) :
    (core.combinePartial p count).Holds key (message ++ p.take count) := by
  rw [Core.combinePartial]
  split_ifs with some
  · have taken : (p.take count).length = count := by
      rw [List.length_take]
      omega
    have converted : (BitVec.ofNat (IntegerType.int.bitWidth word) count).toNat = count := by
      have room : 8 ≤ 2 ^ IntegerType.int.bitWidth word := by cases word <;> decide
      rw [BitVec.toNat_ofNat]
      exact Nat.mod_eq_of_lt (by omega)
    have exact : (pack 64 (p.take count)).toNat < 2 ^ (8 * count) := by
      have bounded := number_lt (p.take count)
      rw [taken] at bounded
      rw [toNat_pack (by omega)]
      exact bounded
    have combined := holds.combineBytesCount (pack 64 (p.take count)) (BitVec.ofNat _ count)
      (by omega) (by rw [converted]; exact exact)
    have unpacked : unpack 8 (p.take count).length (pack 64 (p.take count)) = p.take count :=
      unpack_pack (by omega)
    rw [taken] at unpacked
    rw [converted, unpacked] at combined
    rw [loadPartialUnalignedUInt64LE_eq word few.le inside]
    exact combined
  · rw [show count = 0 by omega, List.take_zero, List.append_nil]
    exact holds

/-- A raw buffer is combined byte for byte whatever its alignment. -/
theorem combineBuffer (holds : core.Holds key message) (buffer : RawBuffer word) :
    (core.combineBuffer buffer).Holds key (message ++ buffer.bytes) := by
  rw [Core.combineBuffer]
  by_cases empty : buffer.bytes.length = 0
  · rw [if_pos empty, List.length_eq_zero_iff.mp empty, List.append_nil]
    exact holds
  · have aligned := roundUp_sub_lt buffer.baseAddress
    rw [if_neg empty]
    extract_lets start stop startCount first
    have few : startCount < 8 := Nat.lt_of_le_of_lt (Nat.min_le_right _ _) aligned
    have head := holds.combinePartial few (Nat.min_le_left _ _)
    rcases head.combineWords (buffer.bytes.drop startCount) with ⟨consumed, split, short, body⟩
    have last := body.combinePartial short le_rfl
    rw [List.take_of_length_le le_rfl, List.append_assoc, List.append_assoc, ← split,
      List.take_append_drop] at last
    exact last

theorem combineUInt8 (holds : core.Holds key message) (value : Value word .uint8) :
    (core.combineUInt8 value).Holds key (message ++ unpack 8 1 value) := by
  have combined := holds.combineValue (by decide : 1 < 8) value.isLt
  rw [Core.combineUInt8, truncatingIfNeeded_unsigned rfl (by simp)]
  exact combined

theorem combineUInt32 (holds : core.Holds key message) (value : Value word .uint32) :
    (core.combineUInt32 value).Holds key (message ++ unpack 8 4 value) := by
  have combined := holds.combineValue (by decide : 4 < 8) value.isLt
  rw [Core.combineUInt32, truncatingIfNeeded_unsigned rfl (by simp)]
  exact combined

theorem combineExtended (holds : core.Holds key message) {width : ℕ} (value : BitVec width)
    (narrow : width ≤ 64) :
    (core.combineUInt64 (value.setWidth 64)).Holds key (message ++ unpack 8 8 value) := by
  have covers : value.toNat < 2 ^ (8 * 8) :=
    value.isLt.trans_le (Nat.pow_le_pow_right (by omega) narrow)
  have combined := holds.combineUInt64 (unpack 8 8 value) (length_unpack 8 value)
  rw [pack_unpack covers] at combined
  exact combined

theorem combineUInt (holds : core.Holds key message) (value : Value word .uint) :
    (core.combineUInt value).Holds key (message ++ unpack 8 (uintByteCount word) value) := by
  cases word with
  | word16 =>
      have combined := holds.combineExtended value (by decide)
      rw [Core.combineUInt, truncatingIfNeeded_unsigned rfl (by simp)]
      exact combined
  | word32 =>
      have combined := holds.combineUInt32 value
      rw [Core.combineUInt, truncatingIfNeeded_unsigned rfl (by simp)]
      exact combined

/-- The sign that ARM puts above a `UInt16` does not reach its two bytes. -/
theorem unpack_extended (value : BitVec 16) :
    unpack 8 2 ((value.signExtend 32).setWidth 64) = unpack 8 2 value := by
  have kept : ((value.signExtend 32).setWidth 64).setWidth 16 = value := by
    have reduced : (TwosComplement.extend true 32 value).setWidth 16 =
        TwosComplement.extend true 16 value := TwosComplement.setWidth_extend value (by decide)
    rw [TwosComplement.extend_self] at reduced
    rw [BitVec.setWidth_setWidth_of_le _ (by decide)]
    exact reduced
  have low := congrArg BitVec.toNat kept
  rw [BitVec.toNat_setWidth] at low
  apply eq_of_number_eq (by simp)
  rw [number_unpack, number_unpack, low]
  exact (Nat.mod_eq_of_lt value.isLt).symm

/-- The two bytes of a `UInt16`, with the sign above them on ARM. -/
theorem combineUInt16 (holds : core.Holds key message) {value : Value word .uint16}
    (sound : word = .word32 → 0x8000 ≤ value.toNat → message.length % 8 = 6) :
    (core.combineUInt16 value).Holds key (message ++ unpack 8 2 value) := by
  rw [Core.combineUInt16]
  by_cases faithful : Faithful word .uint16 .uint64 value
  · have combined := holds.combineValue (by decide : 2 < 8) value.isLt
    rw [faithful]
    exact combined
  · rcases not_not.mp ((faithful_iff _ _ _ _).not.mp faithful) with ⟨rfl, _, _, large⟩
    have filled : (SipHash.tail message).length + 2 = 8 := by
      rw [msb_uint16_iff] at large
      have unsigned : toInt .word32 .uint16 value = value.toNat := rfl
      have offset := sound rfl (by omega)
      rw [SipHash.length_tail]
      omega
    rw [truncatingIfNeeded_uint16_word32]
    generalize extended : (value.signExtend 32).setWidth (IntegerType.uint64.bitWidth .word32) = x
    have covers : x.toNat < 2 ^ (8 * 8) := x.isLt
    have combined := holds.combineCount (unpack 8 8 x) (by decide : 2 < 8) (by simp)
      (Or.inr filled)
    rw [pack_unpack covers, BitVec.setWidth_eq, unpack_take (by decide), ← extended,
      unpack_extended] at combined
    rw [← extended]
    exact combined

end Holds

end Core

end Hasher

end USwift
