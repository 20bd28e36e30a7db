import USwift.Collections.Slices
import USwift.Integer.Distance
import USwift.Library.Positions
import USwift.Unicode.ValidUTF8Buffer

/-!
# Indices of buffers of valid UTF-8

An index of `_ValidUTF8Buffer` is what remains of its bits, so that walking forwards drops
bytes and arrives at a zero. The operations that go backwards or measure a distance take
the number of bytes that remain for the number of bytes before the index. Replacing bytes
only walks forwards.
-/

namespace USwift

open Iteration Packing Positions

namespace ValidUTF8Buffer

/-- `_ValidUTF8Buffer.Index`. -/
structure Index (word : WordSize) where
  biasedBits : Value word .uint32
  deriving DecidableEq

section Operations

variable {word : WordSize}

/-- `startIndex`. -/
def startIndex (buffer : ValidUTF8Buffer word) : Index word := ⟨buffer.biasedBits⟩

/-- `endIndex`. -/
def endIndex : Index word := ⟨0⟩

/-- `index(after:)`. -/
def indexAfter (i : Index word) : Index word :=
  ⟨smartShiftRight word .uint32 i.biasedBits (8 : Value word .int)⟩

/-- `subscript`, which reads the index and not the buffer. -/
def subscript (i : Index word) : Value word .uint8 :=
  truncatingIfNeeded word .uint8 .uint32 i.biasedBits - 1

/-- `index(before:)`. -/
def indexBefore (buffer : ValidUTF8Buffer word) (i : Index word) : Index word :=
  let offset := count ⟨i.biasedBits⟩
  ⟨maskingShiftRight word .uint32 buffer.biasedBits
    (truncatingIfNeeded word .uint32 .int (maskingShiftLeft word .int offset 3 - 8))⟩

/-- `distance(from:to:)`. -/
def distance (i j : Index word) : Value word .int :=
  maskingShiftRight word .int
    (leadingZeroBitCount i.biasedBits - leadingZeroBitCount j.biasedBits) 3

/-- `index(_:offsetBy:)`. -/
def indexOffsetBy (buffer : ValidUTF8Buffer word) (i : Index word) (n : Value word .int) :
    Index word :=
  let startOffset := distance buffer.startIndex i
  let newOffset := startOffset + n
  ⟨UIntBuffer.fullShiftRight buffer.biasedBits (maskingShiftLeft word .int newOffset 3)⟩

/-- `removeFirst()`. -/
def removeFirst (buffer : ValidUTF8Buffer word) : Value word .uint8 × ValidUTF8Buffer word :=
  (truncatingIfNeeded word .uint8 .uint32 buffer.biasedBits - 1,
    ⟨UIntBuffer.fullShiftRight buffer.biasedBits (8 : Value word .int)⟩)

/-- `append(contentsOf:)`. -/
def appendContents (buffer other : ValidUTF8Buffer word) : ValidUTF8Buffer word :=
  let offset := maskingShiftLeft word .int buffer.count 3
  ⟨buffer.biasedBits ||| maskingShiftLeft word .uint32
    (truncatingIfNeeded word .uint32 .uint32 other.biasedBits)
    (truncatingIfNeeded word .uint32 .int offset)⟩

/-- `<`, which holds for the index that more bits remain of. -/
def Index.less (lhs rhs : Index word) : Bool :=
  USwift.less word .uint32 rhs.biasedBits lhs.biasedBits

/-- `_ValidUTF8Buffer` as a collection. -/
def collection (word : WordSize) :
    Collection (ValidUTF8Buffer word) (Index word) (Value word .uint8) where
  startIndex := startIndex
  endIndex _ := endIndex
  indexAfter _ := indexAfter
  subscript _ := subscript
  equal lhs rhs := lhs.biasedBits == rhs.biasedBits

/-- The slice of a range of indices, as an iterator. -/
def slice (buffer : ValidUTF8Buffer word) (bounds : Range (Index word)) :
    IndexingIterator (Slice (ValidUTF8Buffer word) (Index word)) (Index word) :=
  .init (Slice.collection (collection word)) (.init buffer bounds)

/--
`replaceSubrange(_:with:)`, given an iterator of the replacement, with no result where one of
the loops takes more than a number of steps.
-/
def replaceSubrange {State : Type} (next : State → Option (Value word .uint8 × State))
    (fuel : ℕ) (buffer : ValidUTF8Buffer word) (target : Range (Index word))
    (replacement : State) : Option (ValidUTF8Buffer word) := do
  let sliceNext := IndexingIterator.next (Slice.collection (collection word))
  let r ← fold sliceNext append fuel
    (buffer.slice (halfOpen buffer.startIndex target.lowerBound)) empty
  let r ← fold next append fuel replacement r
  fold sliceNext append fuel (buffer.slice (halfOpen target.upperBound endIndex)) r

end Operations

variable {word : WordSize} {bytes : List (BitVec 8)}

/-- The index of a byte, whose bits are those of the bytes from there on. -/
def place (word : WordSize) (bytes : List (BitVec 8)) (p : ℕ) : Index word :=
  (ofBytes (bytes.drop p)).startIndex

theorem ushiftRight_ofBytes (fits : bytes.length ≤ 4) (k : ℕ) :
    (ofBytes bytes : ValidUTF8Buffer word).biasedBits >>> (8 * k) =
      (place word bytes k).biasedBits := by
  have narrow : 8 * (bytes.map (· + 1)).length ≤ 32 := by
    rw [List.length_map]
    omega
  have dropped := pack_drop narrow k
  rw [← List.map_drop] at dropped
  exact dropped

theorem place_end {p : ℕ} (behind : bytes.length ≤ p) : place word bytes p = endIndex := by
  rw [place, List.drop_eq_nil_of_le behind]
  rfl

theorem length_drop_le (fits : bytes.length ≤ 4) (p : ℕ) : (bytes.drop p).length ≤ 4 := by
  rw [List.length_drop]
  omega

theorem ushiftRight_place (fits : bytes.length ≤ 4) (p k : ℕ) :
    (place word bytes p).biasedBits >>> (8 * k) = (place word bytes (p + k)).biasedBits := by
  have dropped := @ushiftRight_ofBytes word _ (length_drop_le fits p) k
  rw [place, List.drop_drop] at dropped
  exact dropped

theorem indexAfter_place (fits : bytes.length ≤ 4) (p : ℕ) :
    indexAfter (place word bytes p) = place word bytes (p + 1) := by
  have shifted : smartShiftRight word .uint32 (place word bytes p).biasedBits
      (8 : Value word .int) = (place word bytes p).biasedBits >>> (8 * 1) :=
    smartShiftRight_ofNat rfl _ (by decide : 8 < 32)
  exact congrArg Index.mk (shifted.trans (ushiftRight_place fits p 1))

theorem iterate_indexAfter (fits : bytes.length ≤ 4) (k : ℕ) :
    indexAfter^[k] (ofBytes bytes : ValidUTF8Buffer word).startIndex = place word bytes k := by
  induction k with
  | zero => rfl
  | succ k earlier => rw [Function.iterate_succ_apply', earlier, indexAfter_place fits]

theorem subscript_place {p : ℕ} (inside : p < bytes.length) :
    subscript (place word bytes p) = bytes[p] := by
  have first : BitVec.setWidth 8 (place word bytes p).biasedBits = bytes[p] + 1 := by
    rw [place, List.drop_eq_getElem_cons inside]
    exact setWidth_pack_cons _ _ (by decide : 8 ≤ 32)
  rw [subscript, UIntBuffer.truncatingIfNeeded_uint32]
  exact (congrArg (· - 1) first).trans (BitVec.add_sub_cancel bytes[p] 1)

theorem toInt_leadingZeroBitCount {x : Value word .uint32} (few : (BitVec.clz x).toNat ≤ 32) :
    toInt word .int (leadingZeroBitCount x) = (BitVec.clz x).toNat := by
  have all : ∀ zeros : Fin 33, lowWord word .uint32 (BitVec.ofNat 32 zeros) =
      BitVec.ofNat (IntegerType.int.bitWidth word) zeros := by
    cases word <;> decide
  have counted := all ⟨(BitVec.clz x).toNat, by omega⟩
  rw [BitVec.ofNat_toNat, BitVec.setWidth_eq] at counted
  rw [leadingZeroBitCount, counted, toInt_int_ofNat (by omega)]

theorem toInt_shiftRight_three (x : Value word .int) :
    toInt word .int (maskingShiftRight word .int x 3) = toInt word .int x / 8 := by
  have amount : (maskedAmount word .int 3).toNat = 3 := by cases word <;> decide
  rw [maskingShiftRight, if_pos rfl, BitVec.sshiftRight_eq', amount]
  exact (BitVec.toInt_sshiftRight).trans (Int.shiftRight_eq_div_pow _ 3)

/-- A shift of the bits by a number of bytes between minus eight and four. -/
theorem fullShiftRight_bytes (x : Value word .uint32) {m : ℤ} (low : -8 ≤ m) (high : m ≤ 4) :
    UIntBuffer.fullShiftRight x (maskingShiftLeft word .int (BitVec.ofInt _ m) 3) =
      x >>> (8 * (m % 8).toNat) := by
  have amounts : ∀ k : Fin 13,
      maskedAmount word .uint32 (truncatingIfNeeded word .uint32 .int (maskingShiftRight word .int
        (maskingShiftLeft word .int (BitVec.ofInt _ (k - 8)) 3 + 1) 1)) =
          BitVec.ofNat 32 (4 * (((k : ℤ) - 8) % 8).toNat) ∧
      maskedAmount word .uint32 (truncatingIfNeeded word .uint32 .int (maskingShiftRight word .int
        (maskingShiftLeft word .int (BitVec.ofInt _ (k - 8)) 3) 1)) =
          BitVec.ofNat 32 (4 * (((k : ℤ) - 8) % 8).toNat) := by
    cases word <;> decide
  have amount := amounts ⟨(m + 8).toNat, by omega⟩
  have shifted : (((m + 8).toNat : ℕ) : ℤ) - 8 = m := by omega
  dsimp only at amount
  rw [shifted] at amount
  have small : 4 * (m % 8).toNat < 2 ^ 32 := by omega
  rw [UIntBuffer.fullShiftRight, maskingShiftRight, if_neg (by decide), maskingShiftRight,
    if_neg (by decide), amount.1, amount.2, BitVec.ushiftRight_eq', BitVec.ushiftRight_eq',
    BitVec.toNat_ofNat, Nat.mod_eq_of_lt small, ← BitVec.shiftRight_add]
  congr 1
  omega

/-- A collection that is walked and read by the operations on the indices of a buffer. -/
structure SharesIndices {Elements : Type}
    (indexed : Collection Elements (Index word) (Value word .uint8)) (elements : Elements) :
    Prop where
  walks : indexed.indexAfter elements = indexAfter
  reads : indexed.subscript elements = subscript
  compares : indexed.equal = (collection word).equal

theorem collection_shares (buffer : ValidUTF8Buffer word) :
    SharesIndices (collection word) buffer :=
  ⟨rfl, rfl, rfl⟩

theorem slice_shares (elements : Slice (ValidUTF8Buffer word) (Index word)) :
    SharesIndices (Slice.collection (collection word)) elements :=
  ⟨rfl, rfl, rfl⟩

section Valid

variable (noFull : ∀ byte ∈ bytes, byte ≠ 0xFF) (fits : bytes.length ≤ 4)

include noFull fits

theorem count_place (p : ℕ) :
    count ⟨(place word bytes p).biasedBits⟩ = BitVec.ofNat _ (bytes.length - p) := by
  have counted := @count_ofBytes word _
    (fun byte mem => noFull byte (List.mem_of_mem_drop mem)) (length_drop_le fits p)
  rw [List.length_drop] at counted
  exact counted

theorem place_inj {p q : ℕ} :
    place word bytes p = place word bytes q ↔ min p bytes.length = min q bytes.length := by
  constructor
  · intro same
    have counted := @count_place word _ noFull fits p
    rw [same, count_place noFull fits q] at counted
    have values := congrArg (toInt word .int) counted
    rw [toInt_int_ofNat (by omega), toInt_int_ofNat (by omega)] at values
    omega
  · intro same
    have bounded (p : ℕ) : place word bytes p = place word bytes (min p bytes.length) := by
      rcases Nat.le_total p bytes.length with inside | behind
      · rw [min_eq_left inside]
      · rw [min_eq_right behind, place_end behind, place_end le_rfl]
    rw [bounded p, bounded q, same]

/-- The index before another one, as if its remaining bytes were the ones before it. -/
theorem indexBefore_place (p : ℕ) :
    (ofBytes bytes).indexBefore (place word bytes p) =
      place word bytes (if bytes.length ≤ p then 3 else bytes.length - p - 1) := by
  have amounts : ∀ remaining : Fin 5, maskedAmount word .uint32
      (truncatingIfNeeded word .uint32 .int
        (maskingShiftLeft word .int (BitVec.ofNat _ remaining) 3 - 8)) =
      BitVec.ofNat 32 (8 * if remaining.val = 0 then 3 else remaining.val - 1) := by
    cases word <;> decide
  have amount := amounts ⟨bytes.length - p, by omega⟩
  have same : (if bytes.length - p = 0 then 3 else bytes.length - p - 1) =
      if bytes.length ≤ p then 3 else bytes.length - p - 1 := by
    split_ifs <;> omega
  dsimp only at amount
  rw [same] at amount
  rw [indexBefore, count_place noFull fits, maskingShiftRight, if_neg (by decide), amount]
  refine congrArg Index.mk (Eq.trans ?_ (ushiftRight_ofBytes fits _))
  rw [BitVec.ushiftRight_eq', BitVec.toNat_ofNat, Nat.mod_eq_of_lt]
  split_ifs <;> omega

theorem place_eq_zero_iff (p : ℕ) :
    (place word bytes p).biasedBits = 0 ↔ bytes.length ≤ p := by
  have same : (place word bytes p).biasedBits = 0 ↔ place word bytes p = endIndex :=
    ⟨fun zero => congrArg Index.mk zero, fun equal => congrArg Index.biasedBits equal⟩
  rw [same, ← place_end (le_refl bytes.length), place_inj noFull fits]
  omega

/-- As many leading zeros as bits have been dropped are new. -/
theorem toNat_clz_place {p : ℕ} (inside : p < bytes.length) :
    (BitVec.clz (place word bytes p).biasedBits).toNat =
      (BitVec.clz (ofBytes bytes : ValidUTF8Buffer word).biasedBits).toNat + 8 * p := by
  have shifted := @ushiftRight_ofBytes word _ fits p
  rw [← shifted]
  apply toNat_clz_ushiftRight
  rw [shifted]
  exact (place_eq_zero_iff noFull fits p).not.mpr (by omega)

theorem toInt_leadingZeroBitCount_place (p : ℕ) :
    toInt word .int (leadingZeroBitCount (place word bytes p).biasedBits) =
      if p < bytes.length then
        (BitVec.clz (ofBytes bytes : ValidUTF8Buffer word).biasedBits).toNat + 8 * (p : ℤ)
      else 32 := by
  by_cases inside : p < bytes.length
  · have nonzero : (place word bytes p).biasedBits ≠ 0 :=
      (place_eq_zero_iff noFull fits p).not.mpr (by omega)
    rw [if_pos inside, toInt_leadingZeroBitCount (toNat_clz_lt nonzero).le,
      toNat_clz_place noFull fits inside]
    push_cast
    rfl
  · have zero : (place word bytes p).biasedBits = 0 :=
      (place_eq_zero_iff noFull fits p).mpr (by omega)
    rw [if_neg inside, zero]
    cases word <;> decide

theorem clz_bounds (nonempty : 0 < bytes.length) :
    8 * (4 - bytes.length) ≤ (BitVec.clz (ofBytes bytes : ValidUTF8Buffer word).biasedBits).toNat ∧
      (BitVec.clz (ofBytes bytes : ValidUTF8Buffer word).biasedBits).toNat <
        8 * (4 - bytes.length) + 8 := by
  rcases List.eq_nil_or_concat bytes with rfl | ⟨front, last, rfl⟩
  · cases nonempty
  · rw [List.concat_eq_append] at noFull fits ⊢
    rw [List.length_append, List.length_singleton] at fits ⊢
    have zeros := (clz_ofBytes front (noFull last (by simp)) fits).1
    change (BitVec.clz (ofBytes (front ++ [last]) : ValidUTF8Buffer word).biasedBits).toNat / 8 =
      3 - front.length at zeros
    omega

theorem toInt_distance_place (p q : ℕ) :
    toInt word .int (distance (place word bytes p) (place word bytes q)) =
      (toInt word .int (leadingZeroBitCount (place word bytes p).biasedBits) -
        toInt word .int (leadingZeroBitCount (place word bytes q).biasedBits)) / 8 := by
  have bounds := int_bounds word
  have bounded (p : ℕ) :
      0 ≤ toInt word .int (leadingZeroBitCount (place word bytes p).biasedBits) ∧
        toInt word .int (leadingZeroBitCount (place word bytes p).biasedBits) ≤ 32 := by
    rw [toInt_leadingZeroBitCount_place noFull fits]
    split_ifs with inside
    · have zeros := @clz_bounds word _ noFull fits (by omega)
      omega
    · decide
  have first := bounded p
  have second := bounded q
  rw [distance, toInt_shiftRight_three, toInt_int_sub (by omega) (by omega)]

theorem toInt_distance_of_inside {p q : ℕ} (p_lt : p < bytes.length) (q_le : q ≤ bytes.length) :
    toInt word .int (distance (place word bytes p) (place word bytes q)) = (p : ℤ) - q := by
  have zeros := @clz_bounds word _ noFull fits (by omega)
  rw [toInt_distance_place noFull fits, toInt_leadingZeroBitCount_place noFull fits,
    toInt_leadingZeroBitCount_place noFull fits, if_pos p_lt]
  split_ifs with inside <;> omega

theorem toInt_distance_end {q : ℕ} (q_le : q ≤ bytes.length) :
    toInt word .int (distance (place word bytes bytes.length) (place word bytes q)) ≤
        (bytes.length : ℤ) - q ∧
      (bytes.length : ℤ) - q - 1 ≤
        toInt word .int (distance (place word bytes bytes.length) (place word bytes q)) ∧
      (q = bytes.length →
        toInt word .int (distance (place word bytes bytes.length) (place word bytes q)) = 0) := by
  rw [toInt_distance_place noFull fits, toInt_leadingZeroBitCount_place noFull fits,
    toInt_leadingZeroBitCount_place noFull fits, if_neg (lt_irrefl _)]
  split_ifs with inside
  · have zeros := @clz_bounds word _ noFull fits (by omega)
    omega
  · omega

/-- A distance has the wrong sign, so that it is right only where it is zero. -/
theorem distance_place_iff {p q : ℕ} (p_le : p ≤ bytes.length) (q_le : q ≤ bytes.length) :
    toInt word .int (distance (place word bytes p) (place word bytes q)) = (q : ℤ) - p ↔
      p = q := by
  rcases p_le.lt_or_eq with inside | rfl
  · rw [toInt_distance_of_inside noFull fits inside q_le]
    omega
  · have measured := @toInt_distance_end word _ noFull fits _ q_le
    omega

theorem indexOffsetBy_place {p : ℕ} (p_le : p ≤ bytes.length) {n : Value word .int}
    (low : 0 ≤ p + toInt word .int n) (high : p + toInt word .int n ≤ bytes.length) :
    (ofBytes bytes).indexOffsetBy (place word bytes p) n =
      place word bytes ((toInt word .int n - p) % 8).toNat := by
  have bounds := int_bounds word
  have back : toInt word .int (distance (ofBytes bytes).startIndex (place word bytes p)) = -p := by
    change toInt word .int (distance (place word bytes 0) (place word bytes p)) = -p
    rcases Nat.eq_zero_or_pos bytes.length with none | some
    · obtain rfl : p = 0 := by omega
      have measured := @toInt_distance_end word _ noFull fits _ p_le
      rw [none] at measured
      omega
    · rw [toInt_distance_of_inside noFull fits some p_le]
      omega
  have sum : toInt word .int (distance (ofBytes bytes).startIndex (place word bytes p) + n) =
      toInt word .int n - p := by
    rw [toInt_int_add] <;> omega
  have value : distance (ofBytes bytes).startIndex (place word bytes p) + n =
      BitVec.ofInt _ (toInt word .int n - p) := by
    rw [← sum]
    exact (BitVec.ofInt_toInt).symm
  rw [indexOffsetBy, value, fullShiftRight_bytes _ (by omega) (by omega)]
  exact congrArg Index.mk (ushiftRight_ofBytes fits _)

theorem indexOffsetBy_place_iff {p : ℕ} (p_le : p ≤ bytes.length) {n : Value word .int}
    (low : 0 ≤ p + toInt word .int n) (high : p + toInt word .int n ≤ bytes.length) :
    (ofBytes bytes).indexOffsetBy (place word bytes p) n =
        place word bytes (p + toInt word .int n).toNat ↔
      p = 0 ∨ p = 4 ∨ p + toInt word .int n = bytes.length ∧ bytes.length < 2 * p := by
  rw [indexOffsetBy_place noFull fits p_le low high, place_inj noFull fits]
  omega

theorem indexBefore_indexAfter_iff {p : ℕ} (p_lt : p < bytes.length) :
    (ofBytes bytes).indexBefore (indexAfter (place word bytes p)) = place word bytes p ↔
      bytes.length = 2 * p + 2 ∨ p = 3 := by
  rw [indexAfter_place fits, indexBefore_place noFull fits, place_inj noFull fits]
  split_ifs <;> omega

theorem less_place {p q : ℕ} (p_lt : p < bytes.length) (earlier : p < q) :
    (place word bytes q).biasedBits.toNat < (place word bytes p).biasedBits.toNat := by
  have nonzero : (place word bytes p).biasedBits ≠ 0 :=
    (place_eq_zero_iff noFull fits p).not.mpr (by omega)
  have positive : 0 < (place word bytes p).biasedBits.toNat := by
    apply Nat.pos_of_ne_zero
    intro zero
    exact nonzero (BitVec.eq_of_toNat_eq zero)
  have shifted := @ushiftRight_place word _ fits p (q - p)
  rw [show p + (q - p) = q by omega] at shifted
  rw [← shifted, BitVec.toNat_ushiftRight, Nat.shiftRight_eq_div_pow]
  exact Nat.div_lt_self positive (Nat.one_lt_two_pow (by omega))

theorem less_place_iff {p q : ℕ} (p_le : p ≤ bytes.length) (q_le : q ≤ bytes.length) :
    Index.less (place word bytes p) (place word bytes q) = true ↔ p < q := by
  rw [Index.less, less_iff]
  change ((place word bytes q).biasedBits.toNat : ℤ) < (place word bytes p).biasedBits.toNat ↔ _
  rw [Int.ofNat_lt]
  constructor
  · intro more
    rcases lt_trichotomy p q with earlier | rfl | later
    · exact earlier
    · exact absurd more (lt_irrefl _)
    · exact absurd more (less_place noFull fits (by omega) later).not_gt
  · intro earlier
    exact less_place noFull fits (by omega) earlier

theorem equal_place_iff {p q : ℕ} (p_le : p ≤ bytes.length) (q_le : q ≤ bytes.length) :
    (collection word).equal (place word bytes p) (place word bytes q) = true ↔ p = q := by
  have same : (collection word).equal (place word bytes p) (place word bytes q) = true ↔
      place word bytes p = place word bytes q := by
    change ((place word bytes p).biasedBits == (place word bytes q).biasedBits) = true ↔ _
    rw [beq_iff_eq]
    exact ⟨fun bits => congrArg Index.mk bits, fun equal => congrArg Index.biasedBits equal⟩
  rw [same, place_inj noFull fits, min_eq_left p_le, min_eq_left q_le]

/-- The buffer and its slices are iterated from an index to the last one. -/
theorem yields_places {Elements : Type}
    {indexed : Collection Elements (Index word) (Value word .uint8)} {elements : Elements}
    (shares : SharesIndices indexed elements) (p count : ℕ) (inside : p + count ≤ bytes.length)
    (last : indexed.endIndex elements = place word bytes (p + count)) :
    Yields (IndexingIterator.next indexed) ⟨elements, place word bytes p⟩
      ((bytes.drop p).take count) := by
  induction count generalizing p with
  | zero =>
      have stops : indexed.equal (place word bytes p) (indexed.endIndex elements) = true := by
        rw [shares.compares, last, equal_place_iff noFull fits (by omega) inside, Nat.add_zero]
      exact .done (if_pos stops)
  | succ count further =>
      have more : ¬ indexed.equal (place word bytes p) (indexed.endIndex elements) = true := by
        rw [shares.compares, last, equal_place_iff noFull fits (by omega) inside]
        omega
      have advanced : IndexingIterator.next indexed ⟨elements, place word bytes p⟩ =
          some (bytes[p], ⟨elements, place word bytes (p + 1)⟩) := by
        rw [← @subscript_place word, ← indexAfter_place fits, ← shares.walks, ← shares.reads]
        exact if_neg more
      rw [List.drop_eq_getElem_cons (by omega), List.take_succ_cons]
      apply Yields.step advanced
      apply further (p + 1) (by omega)
      rw [last, Nat.add_right_comm, Nat.add_assoc]

theorem foldl_append_ofBytes {others : List (BitVec 8)}
    (othersNoFull : ∀ byte ∈ others, byte ≠ 0xFF)
    (both : bytes.length + others.length ≤ 4) :
    others.foldl append (ofBytes bytes : ValidUTF8Buffer word) = ofBytes (bytes ++ others) := by
  induction others generalizing bytes with
  | nil => rw [List.foldl_nil, List.append_nil]
  | cons byte others further =>
      rw [List.forall_mem_cons] at othersNoFull
      rw [List.length_cons] at both
      have longer : ∀ byte' ∈ bytes ++ [byte], byte' ≠ 0xFF := by
        intro byte' mem
        rcases List.mem_append.mp mem with before | last
        · exact noFull byte' before
        · rw [List.mem_singleton.mp last]
          exact othersNoFull.1
      have length : (bytes ++ [byte]).length = bytes.length + 1 := by simp
      rw [List.foldl_cons, append_ofBytes bytes noFull (by omega),
        further longer (by omega) othersNoFull.2 (by omega), List.append_assoc,
        List.singleton_append]

/-- A loop that appends what an iterator produces. -/
theorem fold_append_ofBytes {State : Type} {next : State → Option (Value word .uint8 × State)}
    {state : State} {others : List (BitVec 8)} (yields : Yields next state others)
    (othersNoFull : ∀ byte ∈ others, byte ≠ 0xFF) (both : bytes.length + others.length ≤ 4) :
    fold next append 5 state (ofBytes bytes : ValidUTF8Buffer word) =
      some (ofBytes (bytes ++ others)) := by
  have enough : others.length < 5 := by omega
  exact (yields.fold enough _).trans
    (congrArg some (foldl_append_ofBytes noFull fits othersNoFull both))

theorem removeFirst_ofBytes {byte : BitVec 8} {rest : List (BitVec 8)}
    (split : bytes = byte :: rest) :
    (ofBytes bytes : ValidUTF8Buffer word).removeFirst = (byte, ofBytes rest) := by
  have nonempty : 0 < bytes.length := by simp [split]
  have first : subscript (place word bytes 0) = bytes[0] := subscript_place nonempty
  have shifted : UIntBuffer.fullShiftRight (ofBytes bytes : ValidUTF8Buffer word).biasedBits
      (8 : Value word .int) = (ofBytes bytes : ValidUTF8Buffer word).biasedBits >>> (8 * 1) :=
    (UIntBuffer.fullShift_ofNat (Or.inl rfl) _ (by decide : 8 ≤ 32)).2
  rw [removeFirst, shifted, ushiftRight_ofBytes fits]
  subst split
  exact Prod.ext first rfl

theorem appendContents_ofBytes {others : List (BitVec 8)}
    (both : bytes.length + others.length ≤ 4) :
    (ofBytes bytes : ValidUTF8Buffer word).appendContents (ofBytes others) =
      ofBytes (bytes ++ others) := by
  have offsets : ∀ count : Fin 5, maskedAmount word .uint32 (truncatingIfNeeded word .uint32 .int
      (maskingShiftLeft word .int (BitVec.ofNat _ count) 3)) =
        BitVec.ofNat 32 (8 * count % 32) := by
    cases word <;> decide
  have offset := offsets ⟨bytes.length, by omega⟩
  dsimp only at offset
  have same : truncatingIfNeeded word .uint32 .uint32
      (ofBytes others : ValidUTF8Buffer word).biasedBits =
        (ofBytes others : ValidUTF8Buffer word).biasedBits := by
    rw [UIntBuffer.truncatingIfNeeded_uint32]
    exact BitVec.setWidth_eq _
  have shifted : maskingShiftLeft word .uint32 (ofBytes others : ValidUTF8Buffer word).biasedBits
      (truncatingIfNeeded word .uint32 .int
        (maskingShiftLeft word .int (ofBytes bytes : ValidUTF8Buffer word).count 3)) =
      pack 32 (others.map (· + 1)) <<< (8 * (bytes.map (· + 1)).length) := by
    rw [count_ofBytes noFull fits, maskingShiftLeft, offset, List.length_map]
    rcases fits.lt_or_eq with room | full
    · rw [Nat.mod_eq_of_lt (by omega), BitVec.shiftLeft_eq', BitVec.toNat_ofNat,
        Nat.mod_eq_of_lt (by omega)]
      rfl
    · -- the masked amount is zero, and so is what it shifts
      obtain rfl : others = [] := List.eq_nil_of_length_eq_zero (by omega)
      rw [full]
      rfl
  have whole : pack 32 ((bytes ++ others).map (· + 1)) =
      pack 32 (bytes.map (· + 1)) |||
        pack 32 (others.map (· + 1)) <<< (8 * (bytes.map (· + 1)).length) := by
    rw [List.map_append, pack_append_or (by rw [List.length_map]; omega)]
  rw [appendContents, same, shifted]
  exact congrArg ValidUTF8Buffer.mk whole.symm

/-- The three loops of a replacement, which append to a buffer that is empty at first. -/
theorem replaceSubrange_ofBytes {State : Type}
    {next : State → Option (Value word .uint8 × State)} {replacement : State}
    {others : List (BitVec 8)} (yields : Yields next replacement others)
    (othersNoFull : ∀ byte ∈ others, byte ≠ 0xFF) {p q : ℕ} (p_le : p ≤ bytes.length)
    (q_le : q ≤ bytes.length) (within : p + others.length + (bytes.length - q) ≤ 4) :
    (ofBytes bytes).replaceSubrange next 5 ⟨place word bytes p, place word bytes q⟩ replacement =
      some (ofBytes (bytes.take p ++ others ++ bytes.drop q)) := by
  have taken : ∀ byte ∈ bytes.take p, byte ≠ 0xFF := fun byte mem =>
    noFull byte (List.mem_of_mem_take mem)
  have dropped : ∀ byte ∈ bytes.drop q, byte ≠ 0xFF := fun byte mem =>
    noFull byte (List.mem_of_mem_drop mem)
  have front : Yields (IndexingIterator.next (Slice.collection (collection word)))
      ((ofBytes bytes).slice ⟨(ofBytes bytes).startIndex, place word bytes p⟩) (bytes.take p) := by
    have last : place word bytes p = place word bytes (0 + p) := by rw [Nat.zero_add]
    exact yields_places noFull fits (slice_shares _) 0 p (by omega) last
  have back : Yields (IndexingIterator.next (Slice.collection (collection word)))
      ((ofBytes bytes).slice ⟨place word bytes q, endIndex⟩) (bytes.drop q) := by
    have rest : (bytes.drop q).take (bytes.length - q) = bytes.drop q :=
      List.take_of_length_le (List.length_drop).le
    rw [← rest]
    have last : (endIndex : Index word) = place word bytes (q + (bytes.length - q)) := by
      rw [Nat.add_sub_cancel' q_le, place_end le_rfl]
    exact yields_places noFull fits (slice_shares _) q (bytes.length - q) (by omega) last
  have longer : ∀ byte ∈ bytes.take p ++ others, byte ≠ 0xFF := fun byte mem =>
    (List.mem_append.mp mem).elim (taken byte) (othersNoFull byte)
  have first := @fold_append_ofBytes word [] (by simp) (by simp) _ _ _ _ front taken
    (by simp; omega)
  have second := @fold_append_ofBytes word _ taken (by simp; omega) _ _ _ _ yields othersNoFull
    (by simp; omega)
  have third := @fold_append_ofBytes word _ longer (by simp; omega) _ _ _ _ back dropped
    (by simp; omega)
  exact Option.bind_eq_some_iff.mpr
    ⟨_, first, Option.bind_eq_some_iff.mpr ⟨_, second, third⟩⟩

end Valid

/-- An index that is walked to from the start. -/
def walked (word : WordSize) (bytes : List (BitVec 8)) (p : ℕ) : Index word :=
  indexAfter^[p] (ofBytes bytes).startIndex

theorem walked_eq (fits : bytes.length ≤ 4) (p : ℕ) : walked word bytes p = place word bytes p :=
  iterate_indexAfter fits p

/-- The position of an index, told by the number of bytes that remain. -/
def position (bytes : List (BitVec 8)) (i : Index word) : ℤ :=
  bytes.length - toInt word .int (count ⟨i.biasedBits⟩)

/-- What a buffer does as the list of its bytes does. -/
structure ActsAsList (word : WordSize) (bytes : List (BitVec 8)) : Prop where
  count_eq : toInt word .int (ofBytes bytes : ValidUTF8Buffer word).count = bytes.length
  iterates : Yields next (ofBytes bytes : ValidUTF8Buffer word) bytes
  walks : Yields (IndexingIterator.next (collection word))
    (.init (collection word) (ofBytes bytes)) bytes
  walked_end : walked word bytes bytes.length = endIndex
  subscript_walked : ∀ p (inside : p < bytes.length), subscript (walked word bytes p) = bytes[p]
  position_walked : ∀ p ≤ bytes.length, position bytes (walked word bytes p) = p
  less_walked_iff : ∀ p ≤ bytes.length, ∀ q ≤ bytes.length,
    (walked word bytes p).less (walked word bytes q) = true ↔ p < q
  append_eq : ∀ byte, bytes.length + 1 ≤ 4 →
    (ofBytes bytes : ValidUTF8Buffer word).append byte = ofBytes (bytes ++ [byte])
  removeFirst_eq : ∀ byte rest, bytes = byte :: rest →
    (ofBytes bytes : ValidUTF8Buffer word).removeFirst = (byte, ofBytes rest)
  appendContents_eq : ∀ others : List (BitVec 8), bytes.length + others.length ≤ 4 →
    (ofBytes bytes : ValidUTF8Buffer word).appendContents (ofBytes others) =
      ofBytes (bytes ++ others)
  replaceSubrange_eq : ∀ (State : Type) (next : State → Option (Value word .uint8 × State))
    (replacement : State) (others : List (BitVec 8)), Yields next replacement others →
    (∀ byte ∈ others, byte ≠ 0xFF) → ∀ p ≤ bytes.length, ∀ q ≤ bytes.length,
    p + others.length + (bytes.length - q) ≤ 4 →
      (ofBytes bytes).replaceSubrange next 5 ⟨walked word bytes p, walked word bytes q⟩
        replacement = some (ofBytes (bytes.take p ++ others ++ bytes.drop q))

/-- The index operations of a buffer agree with walking from the start. -/
def IndicesConsistent (word : WordSize) (bytes : List (BitVec 8)) : Prop :=
  Consistent (fun i => ∃ p ≤ bytes.length, i = walked word bytes p) (position bytes) bytes.length
    (toInt word .int) indexAfter (ofBytes bytes).indexBefore (ofBytes bytes).indexOffsetBy distance

section Valid

variable (noFull : ∀ byte ∈ bytes, byte ≠ 0xFF) (fits : bytes.length ≤ 4)

include noFull fits

theorem actsAsList : ActsAsList word bytes where
  count_eq := by
    rw [count_ofBytes noFull fits, toInt_int_ofNat (by omega)]
  iterates := yields_ofBytes noFull fits
  walks := by
    have last : (endIndex : Index word) = place word bytes (0 + bytes.length) := by
      rw [Nat.zero_add, place_end le_rfl]
    have all := yields_places noFull fits (collection_shares (ofBytes bytes)) 0 bytes.length
      (by omega) last
    rwa [List.drop_zero, List.take_length] at all
  walked_end := (walked_eq fits _).trans (place_end le_rfl)
  subscript_walked p inside := by
    rw [walked_eq fits, subscript_place inside]
  position_walked p p_le := by
    rw [position, walked_eq fits, count_place noFull fits,
      toInt_int_ofNat (by omega)]
    omega
  less_walked_iff p p_le q q_le := by
    rw [walked_eq fits, walked_eq fits, less_place_iff noFull fits p_le q_le]
  append_eq byte room := append_ofBytes bytes noFull room byte
  removeFirst_eq byte rest split := removeFirst_ofBytes noFull fits split
  appendContents_eq others both := appendContents_ofBytes noFull fits both
  replaceSubrange_eq State next replacement others yields othersNoFull p p_le q q_le within := by
    rw [walked_eq fits, walked_eq fits]
    exact replaceSubrange_ofBytes noFull fits yields othersNoFull p_le q_le within

theorem numbered_walked : Numbered (fun i => ∃ p ≤ bytes.length, i = walked word bytes p)
    (position bytes) bytes.length where
  low := by
    rintro _ ⟨p, p_le, rfl⟩
    rw [(actsAsList noFull fits).position_walked p p_le]
    omega
  high := by
    rintro _ ⟨p, p_le, rfl⟩
    rw [(actsAsList noFull fits).position_walked p p_le]
    omega
  injective := by
    rintro _ _ ⟨p, p_le, rfl⟩ ⟨q, q_le, rfl⟩ same
    rw [(actsAsList noFull fits).position_walked p p_le,
      (actsAsList noFull fits).position_walked q q_le] at same
    rw [Int.ofNat_inj.mp same]

theorem indicesConsistent_iff : IndicesConsistent word bytes ↔ bytes = [] := by
  constructor
  · intro consistent
    by_contra nonempty
    have some : 0 < bytes.length := List.length_pos_iff.mpr nonempty
    have measured := consistent.amount_distance _ _ ⟨0, some.le, rfl⟩ ⟨bytes.length, le_rfl, rfl⟩
    rw [(actsAsList noFull fits).position_walked 0 some.le,
      (actsAsList noFull fits).position_walked _ le_rfl, walked_eq fits,
      walked_eq fits, distance_place_iff noFull fits some.le le_rfl] at measured
    omega
  · rintro rfl
    have only (i : Index word) : (∃ p ≤ ([] : List (BitVec 8)).length, i = walked word [] p) →
        i = endIndex := by
      rintro ⟨p, p_le, rfl⟩
      rw [Nat.le_zero.mp p_le]
      rfl
    have still (n : Value word .int) (zero : toInt word .int n = 0) : n = 0 :=
      toInt_injective (zero.trans (toInt_zero word .int).symm)
    have place_zero : position [] (endIndex : Index word) = 0 := by cases word <;> decide
    have unmoved : (ofBytes []).indexOffsetBy (endIndex : Index word) 0 = endIndex := by
      cases word <;> decide
    have apart : toInt word .int (distance (endIndex : Index word) endIndex) = 0 := by
      cases word <;> decide
    have numbered := @numbered_walked word [] noFull fits
    refine Consistent.of_moves numbered (fun _ _ => toInt_injective) ?_ ?_ ?_ ?_
    · intro i valid low high
      rw [only i valid, place_zero] at high
      exact absurd high (by decide)
    · intro i valid low high
      rw [only i valid, place_zero] at low
      exact absurd low (by decide)
    · intro n i valid low high
      rw [only i valid, place_zero, zero_add] at low high
      have zero : toInt word .int n = 0 := le_antisymm high low
      dsimp only
      rw [only i valid, still n zero, unmoved, place_zero, toInt_zero]
      exact ⟨⟨0, le_rfl, rfl⟩, rfl⟩
    · intro i j i_valid j_valid
      rw [only i i_valid, only j j_valid, apart, sub_self]

end Valid

end ValidUTF8Buffer

open ValidUTF8Buffer

/--
A buffer of valid UTF-8 acts as the list of its bytes, also where it is walked forwards. The
other index operations agree with walking at some of the positions, and at all of them in the
empty buffer only.
-/
theorem validUTF8Buffer_iff (word : WordSize) (bytes : List (BitVec 8))
    (noFull : ∀ byte ∈ bytes, byte ≠ 0xFF) (fits : bytes.length ≤ 4) :
    (ActsAsList word bytes ∧ IndicesConsistent word bytes ↔ bytes = []) ∧
    ActsAsList word bytes ∧
    (∀ p < bytes.length,
      (ofBytes bytes).indexBefore (indexAfter (walked word bytes p)) = walked word bytes p ↔
        bytes.length = 2 * p + 2 ∨ p = 3) ∧
    (∀ p ≤ bytes.length, ∀ q ≤ bytes.length,
      toInt word .int (ValidUTF8Buffer.distance (walked word bytes p) (walked word bytes q)) =
          (q : ℤ) - p ↔
        p = q) ∧
    ∀ p ≤ bytes.length, ∀ n : Value word .int,
      0 ≤ p + toInt word .int n → p + toInt word .int n ≤ bytes.length →
      ((ofBytes bytes).indexOffsetBy (walked word bytes p) n =
          walked word bytes (p + toInt word .int n).toNat ↔
        p = 0 ∨ p = 4 ∨ p + toInt word .int n = bytes.length ∧ bytes.length < 2 * p) := by
  have acts : ActsAsList word bytes := actsAsList noFull fits
  refine ⟨?_, acts, ?_, ?_, ?_⟩
  · rw [indicesConsistent_iff noFull fits, and_iff_right acts]
  · intro p p_lt
    rw [walked_eq fits, indexBefore_indexAfter_iff noFull fits p_lt]
  · intro p p_le q q_le
    rw [walked_eq fits, walked_eq fits, distance_place_iff noFull fits p_le q_le]
  · intro p p_le n low high
    rw [walked_eq fits, walked_eq fits,
      indexOffsetBy_place_iff noFull fits p_le low high]

/-- The buffer of four bytes. -/
theorem four_bytes_act_as_list : ActsAsList .word16 [0xF0, 0x9F, 0x98, 0x80] :=
  (validUTF8Buffer_iff .word16 _ (by decide) (by decide)).2.1

/-- The distance from the start to the end of a buffer of one byte is minus one. -/
theorem one_byte_distance_backwards :
    ¬ ∀ (word : WordSize) (bytes : List (BitVec 8)), (∀ byte ∈ bytes, byte ≠ 0xFF) →
      bytes.length ≤ 4 → ActsAsList word bytes ∧ IndicesConsistent word bytes := by
  intro consistent
  have measured := (consistent .word16 [0x41] (by decide) (by decide)).2.amount_distance _ _
    ⟨0, Nat.zero_le _, rfl⟩ ⟨1, le_rfl, rfl⟩
  revert measured
  decide

end USwift
