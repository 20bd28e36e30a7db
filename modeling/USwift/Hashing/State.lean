import USwift.Integer.Types
import USwift.Library.SipHash

/-!
# The state of the hasher

`Hasher._State` holds the four words that are mixed for every block. Its rounds
are written with the masking shifts of `UInt64` on mutable fields; this file
relates them to the rounds of SipHash-1-3.
-/

namespace USwift

namespace Hasher

/-- `_State`. The fields reserved for future use are left out. -/
structure State (word : WordSize) where
  v0 : Value word .uint64
  v1 : Value word .uint64
  v2 : Value word .uint64
  v3 : Value word .uint64
  deriving DecidableEq

namespace State

variable {word : WordSize}

/-- `init(rawSeed:)`. -/
def initRawSeed (rawSeed : Value word .uint64 × Value word .uint64) : State word where
  v3 := 0x7465646279746573 ^^^ rawSeed.2
  v2 := 0x6c7967656e657261 ^^^ rawSeed.1
  v1 := 0x646f72616e646f6d ^^^ rawSeed.2
  v0 := 0x736f6d6570736575 ^^^ rawSeed.1

/-- `_rotateLeft(_:by:)`. -/
def rotateLeft (x amount : Value word .uint64) : Value word .uint64 :=
  maskingShiftLeft word .uint64 x amount ||| maskingShiftRight word .uint64 x (64 - amount)

/-- `_round`, one assignment of the source after the other. -/
def round (state : State word) : State word :=
  let state := { state with v0 := state.v0 + state.v1 }
  let state := { state with v1 := rotateLeft state.v1 13 }
  let state := { state with v1 := state.v1 ^^^ state.v0 }
  let state := { state with v0 := rotateLeft state.v0 32 }
  let state := { state with v2 := state.v2 + state.v3 }
  let state := { state with v3 := rotateLeft state.v3 16 }
  let state := { state with v3 := state.v3 ^^^ state.v2 }
  let state := { state with v0 := state.v0 + state.v3 }
  let state := { state with v3 := rotateLeft state.v3 21 }
  let state := { state with v3 := state.v3 ^^^ state.v0 }
  let state := { state with v2 := state.v2 + state.v1 }
  let state := { state with v1 := rotateLeft state.v1 17 }
  let state := { state with v1 := state.v1 ^^^ state.v2 }
  { state with v2 := rotateLeft state.v2 32 }

/-- `_extract`. -/
def extract (state : State word) : Value word .uint64 :=
  state.v0 ^^^ state.v1 ^^^ state.v2 ^^^ state.v3

/-- `compress(_:)`. -/
def compress (state : State word) (m : Value word .uint64) : State word :=
  let state := { state with v3 := state.v3 ^^^ m }
  let state := round state
  { state with v0 := state.v0 ^^^ m }

/-- `finalize(tailAndByteCount:)`. -/
def finalize (state : State word) (tailAndByteCount : Value word .uint64) :
    Value word .uint64 :=
  let state := compress state tailAndByteCount
  let state := { state with v2 := state.v2 ^^^ 0xff }
  extract (round (round (round state)))

/-- The state of the algorithm that a state of the hasher stands for. -/
def toSipHash (state : State word) : SipHash.State :=
  ⟨state.v0, state.v1, state.v2, state.v3⟩

theorem rotateLeft_eq (x : Value word .uint64) {amount : ℕ} (positive : 0 < amount)
    (below : amount < 64) :
    rotateLeft x (BitVec.ofNat 64 amount) = BitVec.rotateLeft x amount := by
  have left : (BitVec.ofNat 64 amount).toNat = amount := by
    rw [BitVec.toNat_ofNat]
    exact Nat.mod_eq_of_lt (by omega)
  have right : ((64 : BitVec 64) - BitVec.ofNat 64 amount).toNat = 64 - amount := by
    rw [BitVec.toNat_sub, left]
    change (2 ^ 64 - amount + 64) % 2 ^ 64 = 64 - amount
    omega
  rw [rotateLeft, maskingShiftLeft_of_lt x (by rw [left]; exact below), left]
  rw [maskingShiftRight, if_neg (by simp), BitVec.ushiftRight_eq',
    toNat_maskedAmount_of_lt (by rw [right]; simp only [IntegerType.bitWidth]; omega), right,
    BitVec.rotateLeft_def, Nat.mod_eq_of_lt below]

theorem toSipHash_initRawSeed (rawSeed : Value word .uint64 × Value word .uint64) :
    (initRawSeed rawSeed).toSipHash = SipHash.init ⟨rawSeed.1, rawSeed.2⟩ := by
  simp only [toSipHash, initRawSeed, SipHash.init, BitVec.xor_comm]

theorem toSipHash_round (state : State word) :
    (round state).toSipHash = SipHash.round state.toSipHash := by
  have by13 (x : Value word .uint64) : rotateLeft x 13 = BitVec.rotateLeft x 13 :=
    rotateLeft_eq x (by decide) (by decide)
  have by16 (x : Value word .uint64) : rotateLeft x 16 = BitVec.rotateLeft x 16 :=
    rotateLeft_eq x (by decide) (by decide)
  have by17 (x : Value word .uint64) : rotateLeft x 17 = BitVec.rotateLeft x 17 :=
    rotateLeft_eq x (by decide) (by decide)
  have by21 (x : Value word .uint64) : rotateLeft x 21 = BitVec.rotateLeft x 21 :=
    rotateLeft_eq x (by decide) (by decide)
  have by32 (x : Value word .uint64) : rotateLeft x 32 = BitVec.rotateLeft x 32 :=
    rotateLeft_eq x (by decide) (by decide)
  simp only [round, toSipHash, SipHash.round, SipHash.halfRound, by13, by16, by17, by21, by32]

theorem toSipHash_compress (state : State word) (m : Value word .uint64) :
    (compress state m).toSipHash = SipHash.compress 1 state.toSipHash m := by
  have mixed := toSipHash_round { state with v3 := state.v3 ^^^ m }
  simp only [SipHash.compress, SipHash.rounds, compress]
  have source : ({ state with v3 := state.v3 ^^^ m } : State word).toSipHash =
      { state.toSipHash with v3 := state.toSipHash.v3 ^^^ m } := rfl
  rw [← source, ← mixed]
  rfl

theorem finalize_eq (state : State word) (tailAndByteCount : Value word .uint64) :
    finalize state tailAndByteCount =
      SipHash.finalize 3 (SipHash.compress 1 state.toSipHash tailAndByteCount) := by
  rw [← toSipHash_compress]
  generalize compressed : compress state tailAndByteCount = absorbed
  simp only [finalize, compressed, SipHash.finalize, SipHash.rounds]
  have source : ({ absorbed with v2 := absorbed.v2 ^^^ 0xff } : State word).toSipHash =
      { absorbed.toSipHash with v2 := absorbed.toSipHash.v2 ^^^ 0xff } := rfl
  rw [← source, ← toSipHash_round, ← toSipHash_round, ← toSipHash_round]
  rfl

end State

end Hasher

end USwift
