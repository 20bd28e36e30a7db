import USwift.Library.Packing

/-!
# SipHash

The keyed hash function SipHash with any number of compression and finalization
rounds, over byte strings of any length. The message is cut into words of eight
bytes. The last word holds the bytes that are left below the length modulo 256.
-/

namespace SipHash

open Packing

/-- The four words of internal state. -/
structure State where
  v0 : BitVec 64
  v1 : BitVec 64
  v2 : BitVec 64
  v3 : BitVec 64
  deriving DecidableEq

/-- A key of two words. -/
structure Key where
  k0 : BitVec 64
  k1 : BitVec 64
  deriving DecidableEq

def init (key : Key) : State where
  v0 := key.k0 ^^^ 0x736f6d6570736575
  v1 := key.k1 ^^^ 0x646f72616e646f6d
  v2 := key.k0 ^^^ 0x6c7967656e657261
  v3 := key.k1 ^^^ 0x7465646279746573

/-- The first half of a round mixes `v0` with `v1` and `v2` with `v3`. -/
def halfRound (state : State) : State :=
  let v0 := state.v0 + state.v1
  let v2 := state.v2 + state.v3
  let v1 := state.v1.rotateLeft 13 ^^^ v0
  let v3 := state.v3.rotateLeft 16 ^^^ v2
  ⟨v0.rotateLeft 32, v1, v2, v3⟩

def round (state : State) : State :=
  let state := halfRound state
  let v2 := state.v2 + state.v1
  let v0 := state.v0 + state.v3
  let v1 := state.v1.rotateLeft 17 ^^^ v2
  let v3 := state.v3.rotateLeft 21 ^^^ v0
  ⟨v0, v1, v2.rotateLeft 32, v3⟩

def rounds : ℕ → State → State
  | 0, state => state
  | count + 1, state => rounds count (round state)

/-- Absorb one word. -/
def compress (compression : ℕ) (state : State) (word : BitVec 64) : State :=
  let mixed := rounds compression { state with v3 := state.v3 ^^^ word }
  { mixed with v0 := mixed.v0 ^^^ word }

def finalize (finalization : ℕ) (state : State) : BitVec 64 :=
  let mixed := rounds finalization { state with v2 := state.v2 ^^^ 0xff }
  mixed.v0 ^^^ mixed.v1 ^^^ mixed.v2 ^^^ mixed.v3

/-- The whole words of a message. -/
def blocks : List (BitVec 8) → List (BitVec 64)
  | b0 :: b1 :: b2 :: b3 :: b4 :: b5 :: b6 :: b7 :: rest =>
      pack 64 [b0, b1, b2, b3, b4, b5, b6, b7] :: blocks rest
  | _ => []

/-- The bytes after the whole words. -/
def tail : List (BitVec 8) → List (BitVec 8)
  | _ :: _ :: _ :: _ :: _ :: _ :: _ :: _ :: rest => tail rest
  | rest => rest

/-- The last word of a message. -/
def lastBlock (message : List (BitVec 8)) : BitVec 64 :=
  pack 64 (tail message) ||| BitVec.ofNat 64 message.length <<< 56

/-- The hash of a message under a key. -/
def hash (compression finalization : ℕ) (key : Key) (message : List (BitVec 8)) : BitVec 64 :=
  finalize finalization
    (compress compression ((blocks message).foldl (compress compression) (init key))
      (lastBlock message))

theorem blocks_of_short {message : List (BitVec 8)} (short : message.length < 8) :
    blocks message = [] := by
  rw [blocks]
  rintro b0 b1 b2 b3 b4 b5 b6 b7 rest rfl
  simp at short
  omega

theorem tail_of_short {message : List (BitVec 8)} (short : message.length < 8) :
    tail message = message := by
  rw [tail]
  rintro b0 b1 b2 b3 b4 b5 b6 b7 rest rfl
  simp at short
  omega

theorem blocks_cons {block rest : List (BitVec 8)} (whole : block.length = 8) :
    blocks (block ++ rest) = pack 64 block :: blocks rest := by
  match block, whole with
  | [_, _, _, _, _, _, _, _], _ => rfl

theorem tail_cons {block rest : List (BitVec 8)} (whole : block.length = 8) :
    tail (block ++ rest) = tail rest := by
  match block, whole with
  | [_, _, _, _, _, _, _, _], _ => rfl

theorem length_lt_of_no_block {message : List (BitVec 8)}
    (noBlock : ∀ b0 b1 b2 b3 b4 b5 b6 b7 rest,
      message = b0 :: b1 :: b2 :: b3 :: b4 :: b5 :: b6 :: b7 :: rest → False) :
    message.length < 8 := by
  by_contra long
  have eight : (message.take 8).length = 8 := by rw [List.length_take]; omega
  match block : message.take 8, eight with
  | [b0, b1, b2, b3, b4, b5, b6, b7], _ =>
      apply noBlock b0 b1 b2 b3 b4 b5 b6 b7 (message.drop 8)
      rw [← List.take_append_drop 8 message, block]
      simp

theorem blocks_append (message more : List (BitVec 8)) :
    blocks (message ++ more) = blocks message ++ blocks (tail message ++ more) := by
  fun_induction tail message with
  | case1 b0 b1 b2 b3 b4 b5 b6 b7 rest shorter =>
      simp only [List.cons_append, blocks, shorter]
  | case2 rest short => rw [blocks_of_short (length_lt_of_no_block short), List.nil_append]

theorem tail_append (message more : List (BitVec 8)) :
    tail (message ++ more) = tail (tail message ++ more) := by
  fun_induction tail message with
  | case1 b0 b1 b2 b3 b4 b5 b6 b7 rest shorter => simp only [List.cons_append, tail, shorter]
  | case2 rest short => rfl

theorem length_tail (message : List (BitVec 8)) : (tail message).length = message.length % 8 := by
  fun_induction tail message with
  | case1 b0 b1 b2 b3 b4 b5 b6 b7 rest shorter =>
      simp only [shorter, List.length_cons]
      omega
  | case2 rest short => exact (Nat.mod_eq_of_lt (length_lt_of_no_block short)).symm

end SipHash
