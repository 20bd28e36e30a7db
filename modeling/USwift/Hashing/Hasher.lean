import USwift.Hashing.Core

/-!
# Runs of the hasher

The calls that combine values into a hasher, in any order and number. What a run
hashes is the byte string that its calls combine, as long as every value reaches
the tail buffer with nothing above its own bytes.
-/

namespace USwift

open Packing

namespace Hasher

/-- The arguments of the calls that combine into a hasher. -/
inductive Call (word : WordSize) where
  | uint8 (value : Value word .uint8)
  | uint16 (value : Value word .uint16)
  | uint32 (value : Value word .uint32)
  | uint64 (value : Value word .uint64)
  | uint (value : Value word .uint)
  | buffer (bytes : RawBuffer word)
  | bytesCount (bytes : Value word .uint64) (count : Value word .int)

namespace Call

def perform (core : Core word) : Call word → Core word
  | uint8 value => core.combineUInt8 value
  | uint16 value => core.combineUInt16 value
  | uint32 value => core.combineUInt32 value
  | uint64 value => core.combineUInt64 value
  | uint value => core.combineUInt value
  | buffer bytes => core.combineBuffer bytes
  | bytesCount bytes count => core.combineBytesCount bytes count

/-- The little-endian bytes that a call stands for. -/
def message : Call word → List (BitVec 8)
  | uint8 value => unpack 8 1 value
  | uint16 value => unpack 8 2 value
  | uint32 value => unpack 8 4 value
  | uint64 value => unpack 8 8 value
  | uint value => unpack 8 (Core.uintByteCount word) value
  | buffer bytes => bytes.bytes
  | bytesCount bytes count => unpack 8 count.toNat bytes

/--
What a call needs at an offset in the message: the bytes of the short form lie
below its count, which is less than eight, and on ARM a `UInt16` with its top
bit set ends a block.
-/
def Sound (offset : ℕ) : Call word → Prop
  | uint16 value => word = .word32 → 0x8000 ≤ value.toNat → offset % 8 = 6
  | bytesCount bytes count => count.toNat < 8 ∧ bytes.toNat < 2 ^ (8 * count.toNat)
  | _ => True

/-- The byte string that a run of calls combines. -/
def messages (calls : List (Call word)) : List (BitVec 8) :=
  calls.flatMap message

/-- Every call of a run is sound at the offset where it begins. -/
def SoundFrom : ℕ → List (Call word) → Prop
  | _, [] => True
  | offset, call :: calls =>
      call.Sound offset ∧ SoundFrom (offset + call.message.length) calls

end Call

namespace Core

variable {word : WordSize}

/-- The calls of a run one after the other. -/
def run (core : Core word) (calls : List (Call word)) : Core word :=
  calls.foldl Call.perform core

namespace Holds

variable {core : Core word} {key : SipHash.Key} {message : List (BitVec 8)}

theorem perform (holds : core.Holds key message) {call : Call word}
    (sound : call.Sound message.length) :
    (call.perform core).Holds key (message ++ call.message) := by
  cases call with
  | uint8 value => exact holds.combineUInt8 value
  | uint16 value => exact holds.combineUInt16 sound
  | uint32 value => exact holds.combineUInt32 value
  | uint64 value =>
      have combined := holds.combineExtended value le_rfl
      rw [BitVec.setWidth_eq] at combined
      exact combined
  | uint value => exact holds.combineUInt value
  | buffer bytes => exact holds.combineBuffer bytes
  | bytesCount bytes count => exact holds.combineBytesCount bytes count sound.1 sound.2

theorem run (holds : core.Holds key message) {calls : List (Call word)}
    (sound : Call.SoundFrom message.length calls) :
    (core.run calls).Holds key (message ++ Call.messages calls) := by
  induction calls generalizing core message with
  | nil => simpa [Core.run, Call.messages] using holds
  | cons call calls rest =>
      rcases sound with ⟨first, later⟩
      have performed := holds.perform first
      have finished := rest performed (by rw [List.length_append]; exact later)
      rw [List.append_assoc] at finished
      exact finished

theorem finalize (holds : core.Holds key message) :
    core.finalize = SipHash.hash 1 3 key message := by
  rw [Core.finalize, State.finalize_eq, holds.state_eq, holds.buffer_holds.value_eq]
  rfl

end Holds

end Core

/-- A fresh hasher after a run of calls. -/
def hashRun {word : WordSize} (rawSeed : Value word .uint64 × Value word .uint64)
    (calls : List (Call word)) : Value word .uint64 :=
  ((Core.initRawSeed rawSeed).run calls).finalize

theorem hashRun_eq {word : WordSize} (rawSeed : Value word .uint64 × Value word .uint64)
    {calls : List (Call word)} (sound : Call.SoundFrom 0 calls) :
    hashRun rawSeed calls = SipHash.hash 1 3 ⟨rawSeed.1, rawSeed.2⟩ (Call.messages calls) :=
  ((Core.Holds.start rawSeed).run sound).finalize

/--
A run of sound calls hashes the bytes combined with SipHash-1-3 under the seed
of the hasher. In particular the value depends only on those bytes, not on their
division into calls.
-/
theorem hashRun_siphash {word : WordSize} (rawSeed : Value word .uint64 × Value word .uint64)
    (calls : List (Call word)) (sound : Call.SoundFrom 0 calls) :
    hashRun rawSeed calls = SipHash.hash 1 3 ⟨rawSeed.1, rawSeed.2⟩ (Call.messages calls) ∧
      ∀ others : List (Call word), Call.SoundFrom 0 others →
        Call.messages others = Call.messages calls →
        hashRun rawSeed others = hashRun rawSeed calls := by
  refine ⟨hashRun_eq rawSeed sound, ?_⟩
  intro others othersSound same
  rw [hashRun_eq rawSeed sound, hashRun_eq rawSeed othersSound, same]

theorem hashRun_siphash_split :
    hashRun (3, 5) [(Call.buffer ⟨6, [0x01, 0x82, 0x43]⟩ : Call .word16)] =
      hashRun (3, 5) [Call.uint16 0x8201, Call.uint8 0x43] := by
  have sound : Call.SoundFrom 0 [(Call.uint16 0x8201 : Call .word16), Call.uint8 0x43] :=
    ⟨by simp [Call.Sound], trivial, trivial⟩
  exact (hashRun_siphash (3, 5) _ sound).2 _ ⟨trivial, trivial⟩ rfl

/-- On ARM the sign above a large `UInt16` reaches the hash. -/
theorem not_hashRun_siphash :
    ¬ ∀ calls : List (Call .word32),
      hashRun (0, 0) calls = SipHash.hash 1 3 ⟨0, 0⟩ (Call.messages calls) := by
  intro all
  have same := all [Call.uint16 0x8000]
  revert same
  decide +kernel

end Hasher

end USwift
