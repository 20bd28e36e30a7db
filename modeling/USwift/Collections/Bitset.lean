import Mathlib.Data.Finset.Sort
import USwift.Collections.RandomAccess
import USwift.Integer.BitCounts
import USwift.Integer.MaskingShift
import USwift.Library.BitSets

/-!
# Bit sets

`_UnsafeBitset` keeps a set of small integers in the bits of words, which lie in memory behind a
pointer. An element is split into the number of a word and the number of a bit. The iterator
clears the lowest bit of a copy of a word with every element, and goes on to the next word when
none is left. The list of the sources that are compiled has `Bitset.swift` commented out.
-/

namespace USwift

open FixedWidthInteger

/-- `_UnsafeBitset`, with the words that lie in memory from its pointer on. -/
structure UnsafeBitset (word : WordSize) where
  words : ℕ → Value word .uint
  wordCount : Value word .int

namespace UnsafeBitset

variable {word : WordSize}

namespace Word

/-- `Word.capacity`. -/
def capacity (word : WordSize) : Value word .int := bitWidthInt word .uint

/-- The mask of a bit. -/
def mask (bit : Value word .int) : Value word .uint :=
  genericMaskingShiftLeft word .uint 1 bit

def uncheckedContains (value : Value word .uint) (bit : Value word .int) : Bool :=
  value &&& mask bit != 0

def uncheckedInsert (value : Value word .uint) (bit : Value word .int) :
    Value word .uint × Bool :=
  (value ||| mask bit, value &&& mask bit == 0)

def uncheckedRemove (value : Value word .uint) (bit : Value word .int) :
    Value word .uint × Bool :=
  (value &&& ~~~mask bit, value &&& mask bit != 0)

/-- `nonzeroBitCount`. -/
def count (value : Value word .uint) : Value word .int :=
  truncatingIfNeeded word .int .uint (BitVec.cpop value)

/-- `next()`, which clears the lowest bit. -/
def next (value : Value word .uint) : Option (Value word .int) × Value word .uint :=
  if value == 0 then (none, value)
  else (some (trailingZeroBitCount word .uint value), value &&& (value - 1))

end Word

section Operations

/-- `word(for:)`. -/
def wordFor (element : Value word .int) : Value word .int :=
  BitVec.udiv element (Word.capacity word)

/-- `bit(for:)`. -/
def bitFor (element : Value word .int) : Value word .int :=
  BitVec.umod element (Word.capacity word)

/-- `join(word:bit:)`. -/
def join (index bit : Value word .int) : Value word .int :=
  index * Word.capacity word + bit

/-- `wordCount(forCapacity:)`. -/
def wordCountFor (capacity : Value word .int) : Value word .int :=
  wordFor (capacity + Word.capacity word - 1)

/-- The word with a number, which no element makes negative. -/
def wordAt (bitset : UnsafeBitset word) (index : Value word .int) : Value word .uint :=
  bitset.words (BitVec.toNat index)

def setWord (bitset : UnsafeBitset word) (index : Value word .int) (value : Value word .uint) :
    UnsafeBitset word :=
  { bitset with words := Function.update bitset.words (BitVec.toNat index) value }

def uncheckedContains (bitset : UnsafeBitset word) (element : Value word .int) : Bool :=
  Word.uncheckedContains (bitset.wordAt (wordFor element)) (bitFor element)

def uncheckedInsert (bitset : UnsafeBitset word) (element : Value word .int) :
    UnsafeBitset word × Bool :=
  let (value, inserted) :=
    Word.uncheckedInsert (bitset.wordAt (wordFor element)) (bitFor element)
  (bitset.setWord (wordFor element) value, inserted)

def uncheckedRemove (bitset : UnsafeBitset word) (element : Value word .int) :
    UnsafeBitset word × Bool :=
  let (value, removed) :=
    Word.uncheckedRemove (bitset.wordAt (wordFor element)) (bitFor element)
  (bitset.setWord (wordFor element) value, removed)

/-- `clear()`. -/
def clear (bitset : UnsafeBitset word) : UnsafeBitset word :=
  { bitset with
    words := fun index => if index < BitVec.toNat bitset.wordCount then 0 else bitset.words index }

/-- `count`, by a loop over the words. -/
def count (bitset : UnsafeBitset word) : Value word .int :=
  (List.range (BitVec.toNat bitset.wordCount)).foldl
    (fun count index => count + Word.count (bitset.words index)) 0

/-- `withTemporaryBitset(capacity:body:)` up to the call of the body, over memory of any content. -/
def temporary (memory : ℕ → Value word .uint) (capacity : Value word .int) : UnsafeBitset word :=
  clear { words := memory, wordCount := maximum 1 (wordCountFor capacity) }

end Operations

/-- `_UnsafeBitset.Iterator`. -/
structure Iterator (word : WordSize) where
  index : Value word .int
  value : Value word .uint

section Iteration

variable (bitset : UnsafeBitset word)

def makeIterator : Iterator word where
  index := 0
  value := if less word .int 0 bitset.wordCount then bitset.words 0 else 0

/-- The loop of `next()` over the words that follow, for at most a number of rounds. -/
def Iterator.advance : ℕ → Iterator word → Option (Option (Value word .int) × Iterator word)
  | 0, _ => none
  | rounds + 1, iterator =>
      if less word .int (iterator.index + 1) bitset.wordCount then
        let index := iterator.index + 1
        match Word.next (bitset.wordAt index) with
        | (some bit, value) => some (some (join index bit), ⟨index, value⟩)
        | (none, value) => advance rounds ⟨index, value⟩
      else some (none, iterator)

/-- `next()`. -/
def Iterator.next (rounds : ℕ) (iterator : Iterator word) :
    Option (Option (Value word .int) × Iterator word) :=
  match Word.next iterator.value with
  | (some bit, value) => some (some (join iterator.index bit), { iterator with value := value })
  | (none, value) => Iterator.advance bitset rounds { iterator with value := value }

/-- The elements that calls of `next()` produce until there is none, for a number of calls. -/
def Iterator.elements (rounds : ℕ) : ℕ → Iterator word → Option (List (Value word .int))
  | 0, _ => none
  | calls + 1, iterator =>
      match Iterator.next bitset rounds iterator with
      | none => none
      | some (none, _) => some []
      | some (some element, rest) => (Iterator.elements rounds calls rest).map (element :: ·)

end Iteration

open BitSets

section Numbers

theorem bits_bounds (word : WordSize) : 16 ≤ word.bits ∧ word.bits ≤ 32 := by
  cases word <;> decide

theorem toNat_capacity (word : WordSize) : BitVec.toNat (Word.capacity word) = word.bits := by
  cases word <;> rfl

theorem toNat_wordFor (element : Value word .int) :
    BitVec.toNat (wordFor element) = BitVec.toNat element / word.bits := by
  rw [wordFor, BitVec.udiv_eq, BitVec.toNat_udiv, toNat_capacity]

theorem toNat_bitFor (element : Value word .int) :
    BitVec.toNat (bitFor element) = BitVec.toNat element % word.bits := by
  rw [bitFor, BitVec.umod_eq, BitVec.toNat_umod, toNat_capacity]

/-- Numbers below the sign bit are what they are as an `Int`. -/
theorem toInt_of_small {x : Value word .int} (small : BitVec.toNat x < 2 ^ (word.bits - 1)) :
    toInt word .int x = BitVec.toNat x := by
  have held := @toInt_ofNat word .int (BitVec.toNat x) small
  rwa [BitVec.ofNat_toNat, BitVec.setWidth_eq] at held

theorem two_pow_bits (word : WordSize) : 2 ^ word.bits = 2 * 2 ^ (word.bits - 1) := by
  cases word <;> rfl

theorem toNat_one : BitVec.toNat (1 : Value word .int) = 1 := by
  cases word <;> rfl

/-- Sums below the sign bit do not overflow. -/
theorem toNat_add_small {x y : Value word .int}
    (small : BitVec.toNat x + BitVec.toNat y < 2 ^ (word.bits - 1)) :
    BitVec.toNat (x + y) = BitVec.toNat x + BitVec.toNat y := by
  have double := two_pow_bits word
  rw [BitVec.toNat_add]
  exact Nat.mod_eq_of_lt (show _ < 2 ^ word.bits by omega)

theorem mod_lt_bits (n : ℕ) (word : WordSize) : n % word.bits < word.bits :=
  Nat.mod_lt _ (Nat.lt_of_lt_of_le (by decide) (bits_bounds word).1)

end Numbers

namespace Word

variable {value : Value word .uint} {element : Value word .int}

theorem mask_eq (element : Value word .int) :
    mask (bitFor element) = BitVec.twoPow _ (BitVec.toNat element % word.bits) := by
  have inside := mod_lt_bits (BitVec.toNat element) word
  have most := (bits_bounds word).2
  have bit : bitFor element = BitVec.ofNat _ (BitVec.toNat element % word.bits) := by
    apply BitVec.eq_of_toNat_eq
    rw [BitVec.toNat_ofNat]
    exact (toNat_bitFor element).trans (Nat.mod_eq_of_lt (inside.trans Nat.lt_two_pow_self)).symm
  rw [mask, genericMaskingShiftLeft, bit, truncatingIfNeeded_int_ofNat (by omega),
    maskingShiftLeft_ofNat _ inside]
  rfl

theorem contains_eq (value : Value word .uint) (element : Value word .int) :
    uncheckedContains value (bitFor element) =
      BitVec.getLsbD value (BitVec.toNat element % word.bits) := by
  have inside := mod_lt_bits (BitVec.toNat element) word
  have nonzero : BitVec.twoPow (IntegerType.uint.bitWidth word)
      (BitVec.toNat element % word.bits) ≠ 0 := by
    intro nothing
    have bit := congrArg (BitVec.getLsbD · (BitVec.toNat element % word.bits)) nothing
    simp only [BitVec.getLsbD_twoPow] at bit
    simp [show BitVec.toNat element % word.bits < IntegerType.uint.bitWidth word from inside] at bit
  rw [uncheckedContains, mask_eq, BitVec.and_twoPow]
  cases BitVec.getLsbD value (BitVec.toNat element % word.bits) with
  | true => simpa using nonzero
  | false => simp

theorem insert_eq (value : Value word .uint) (element : Value word .int) :
    (uncheckedInsert value (bitFor element)).2 =
      !BitVec.getLsbD value (BitVec.toNat element % word.bits) := by
  rw [← contains_eq]
  simp [uncheckedInsert, uncheckedContains, bne]

theorem getLsbD_insert {index : ℕ} :
    BitVec.getLsbD (uncheckedInsert value (bitFor element)).1 index =
      (BitVec.getLsbD value index || decide (BitVec.toNat element % word.bits = index)) := by
  have bit := mod_lt_bits (BitVec.toNat element) word
  rw [uncheckedInsert, mask_eq, BitVec.getLsbD_or, BitVec.getLsbD_twoPow,
    decide_eq_true (show _ < IntegerType.uint.bitWidth word from bit), Bool.true_and]

theorem getLsbD_remove {index : ℕ} (inside : index < word.bits) :
    BitVec.getLsbD (uncheckedRemove value (bitFor element)).1 index =
      (BitVec.getLsbD value index && !decide (BitVec.toNat element % word.bits = index)) := by
  have bit := mod_lt_bits (BitVec.toNat element) word
  rw [uncheckedRemove, mask_eq, BitVec.getLsbD_and, BitVec.getLsbD_not, BitVec.getLsbD_twoPow,
    decide_eq_true (show _ < IntegerType.uint.bitWidth word from bit), Bool.true_and,
    decide_eq_true (show index < IntegerType.uint.bitWidth word from inside), Bool.true_and]

theorem next_zero : next (0 : Value word .uint) = (none, 0) := by
  simp [next]

/-- A word that is not zero produces its lowest bit and keeps the others. -/
theorem next_nonzero (nonzero : value ≠ 0) :
    ∃ bit rest, next value = (some bit, rest) ∧
      ones value = BitVec.toNat bit :: ones rest := by
  refine ⟨_, _, if_neg (by simpa using nonzero), ?_⟩
  have number := toInt_trailingZeroBitCount value
  have same := toInt_eq_toNat (x := trailingZeroBitCount word .uint value)
    (by rw [number]; exact Int.natCast_nonneg _)
  rw [number] at same
  rw [← Int.ofNat_inj.mp same]
  exact ones_eq_cons nonzero

theorem toNat_count (value : Value word .uint) :
    BitVec.toNat (count value) = (ones value).length := by
  have number : toInt word .int (count value) = (ones value).length := by
    rw [length_ones]
    exact FixedWidthInteger.toInt_count (BitVec.toNat_cpop_le _)
  have same := toInt_eq_toNat (x := count value) (by rw [number]; exact Int.natCast_nonneg _)
  rw [number] at same
  exact (Int.ofNat_inj.mp same).symm

end Word

section Representation

/-- The elements of a set are the ones of the words, and every possible element is an `Int`. -/
structure Represents (bitset : UnsafeBitset word) (s : Finset ℕ) : Prop where
  positive : 0 < BitVec.toNat bitset.wordCount
  fits : BitVec.toNat bitset.wordCount * word.bits < 2 ^ (word.bits - 1)
  mem_iff : ∀ n, n ∈ s ↔ n < BitVec.toNat bitset.wordCount * word.bits ∧
    BitVec.getLsbD (bitset.words (n / word.bits)) (n % word.bits) = true

variable {bitset : UnsafeBitset word} {s t : Finset ℕ} {element : Value word .int}

theorem Represents.wordCount_small (held : bitset.Represents s) :
    BitVec.toNat bitset.wordCount < 2 ^ (word.bits - 1) := by
  have few := (bits_bounds word).1
  exact Nat.lt_of_le_of_lt (Nat.le_mul_of_pos_right _ (by omega)) held.fits

theorem getLsbD_wordAt (held : bitset.Represents s)
    (inside : BitVec.toNat element < BitVec.toNat bitset.wordCount * word.bits) :
    BitVec.getLsbD (bitset.wordAt (wordFor element)) (BitVec.toNat element % word.bits) =
      decide (BitVec.toNat element ∈ s) := by
  rw [wordAt, toNat_wordFor]
  apply Bool.eq_iff_iff.mpr
  rw [decide_eq_true_iff, held.mem_iff, and_iff_right inside]

theorem contains_spec (held : bitset.Represents s)
    (inside : BitVec.toNat element < BitVec.toNat bitset.wordCount * word.bits) :
    bitset.uncheckedContains element = decide (BitVec.toNat element ∈ s) := by
  rw [uncheckedContains, Word.contains_eq, getLsbD_wordAt held inside]

/-- Another word in the place of the element's word changes the set in the places of that word. -/
theorem represents_setWord (held : bitset.Represents s) {value : Value word .uint}
    (here : ∀ n, n / word.bits = BitVec.toNat element / word.bits →
      (n ∈ t ↔ n < BitVec.toNat bitset.wordCount * word.bits ∧
        BitVec.getLsbD value (n % word.bits) = true))
    (elsewhere : ∀ n, n / word.bits ≠ BitVec.toNat element / word.bits → (n ∈ t ↔ n ∈ s)) :
    (bitset.setWord (wordFor element) value).Represents t where
  positive := held.positive
  fits := held.fits
  mem_iff := by
    intro n
    simp only [setWord, toNat_wordFor]
    by_cases same : n / word.bits = BitVec.toNat element / word.bits
    · rw [same, Function.update_self]
      exact here n same
    · rw [Function.update_of_ne same, elsewhere n same]
      exact held.mem_iff n

theorem eq_of_parts {m n : ℕ} (word : WordSize) (index : m / word.bits = n / word.bits)
    (bit : m % word.bits = n % word.bits) : m = n := by
  rw [← Nat.div_add_mod m word.bits, index, bit, Nat.div_add_mod]

theorem insert_spec (held : bitset.Represents s)
    (inside : BitVec.toNat element < BitVec.toNat bitset.wordCount * word.bits) :
    (bitset.uncheckedInsert element).1.Represents (insert (BitVec.toNat element) s) ∧
      (bitset.uncheckedInsert element).2 = !decide (BitVec.toNat element ∈ s) := by
  refine ⟨represents_setWord held ?_ ?_, ?_⟩
  · intro n same
    refine Iff.trans ?_ (and_congr_right fun _ => Bool.eq_iff_iff.mp Word.getLsbD_insert.symm)
    rw [wordAt, toNat_wordFor, ← same, Bool.or_eq_true, decide_eq_true_iff, Finset.mem_insert,
      held.mem_iff]
    constructor
    · rintro (rfl | ⟨below, set⟩)
      · exact ⟨inside, Or.inr rfl⟩
      · exact ⟨below, Or.inl set⟩
    · rintro ⟨below, set | bit⟩
      · exact Or.inr ⟨below, set⟩
      · exact Or.inl (eq_of_parts word same bit.symm)
  · intro n different
    rw [Finset.mem_insert, or_iff_right]
    rintro rfl
    exact different rfl
  · rw [← getLsbD_wordAt held inside]
    exact Word.insert_eq _ element

theorem remove_spec (held : bitset.Represents s)
    (inside : BitVec.toNat element < BitVec.toNat bitset.wordCount * word.bits) :
    (bitset.uncheckedRemove element).1.Represents (s.erase (BitVec.toNat element)) ∧
      (bitset.uncheckedRemove element).2 = decide (BitVec.toNat element ∈ s) := by
  refine ⟨represents_setWord held ?_ ?_, contains_spec held inside⟩
  · intro n same
    have bits := mod_lt_bits n word
    refine Iff.trans ?_
      (and_congr_right fun _ => Bool.eq_iff_iff.mp (Word.getLsbD_remove bits).symm)
    rw [wordAt, toNat_wordFor, ← same, Bool.and_eq_true, Bool.not_eq_true',
      decide_eq_false_iff_not, Finset.mem_erase, held.mem_iff]
    constructor
    · rintro ⟨different, below, set⟩
      exact ⟨below, set, fun bit => different (eq_of_parts word same bit.symm)⟩
    · rintro ⟨below, set, bit⟩
      exact ⟨fun equal => bit (by rw [equal]), below, set⟩
  · intro n different
    rw [Finset.mem_erase, and_iff_right]
    rintro rfl
    exact different rfl

theorem clear_spec (positive : 0 < BitVec.toNat bitset.wordCount)
    (fits : BitVec.toNat bitset.wordCount * word.bits < 2 ^ (word.bits - 1)) :
    bitset.clear.Represents ∅ where
  positive := positive
  fits := fits
  mem_iff := by
    intro n
    have bits := mod_lt_bits n word
    apply iff_of_false (Finset.notMem_empty n)
    rintro ⟨below, set⟩
    have inside : n / word.bits < BitVec.toNat bitset.wordCount :=
      (Nat.div_lt_iff_lt_mul (by omega)).mpr below
    simp only [clear, if_pos inside] at set
    simp at set

end Representation

section Temporary

variable {capacity : Value word .int} (memory : ℕ → Value word .uint)

theorem toNat_wordCountFor (room : BitVec.toNat capacity + word.bits ≤ 2 ^ (word.bits - 1)) :
    BitVec.toNat (wordCountFor capacity) =
      (BitVec.toNat capacity + word.bits - 1) / word.bits := by
  have few := (bits_bounds word).1
  have double := two_pow_bits word
  have sum : BitVec.toNat (capacity + Word.capacity word) = BitVec.toNat capacity + word.bits := by
    rw [BitVec.toNat_add, toNat_capacity]
    exact Nat.mod_eq_of_lt (show _ < 2 ^ word.bits by omega)
  have one : BitVec.toNat (1 : Value word .int) = 1 := toNat_one
  rw [wordCountFor, toNat_wordFor, BitVec.toNat_sub_of_le (BitVec.le_def.mpr (by omega)), sum, one]

/-- There are words for the capacity, and at least one. -/
theorem toNat_wordCount_temporary
    (room : BitVec.toNat capacity + word.bits ≤ 2 ^ (word.bits - 1)) :
    BitVec.toNat (temporary memory capacity).wordCount =
      max 1 ((BitVec.toNat capacity + word.bits - 1) / word.bits) := by
  have few := (bits_bounds word).1
  have number := toNat_wordCountFor room
  have most : (BitVec.toNat capacity + word.bits - 1) / word.bits < 2 ^ (word.bits - 1) :=
    Nat.lt_of_le_of_lt (Nat.div_le_self _ _) (by omega)
  have value := toInt_of_small (x := wordCountFor capacity) (by omega)
  have one : toInt word .int 1 = 1 := by
    cases word <;> rfl
  show BitVec.toNat (maximum 1 (wordCountFor capacity)) = _
  rw [maximum, ← number]
  by_cases none_ : less word .int (wordCountFor capacity) 1 = true
  · rw [none_, if_neg (by decide), toNat_one]
    rw [less_iff, one] at none_
    omega
  · rw [Bool.not_eq_true] at none_
    rw [none_, if_pos (by decide)]
    rw [← Bool.not_eq_true, less_iff, one] at none_
    omega

theorem temporary_spec (room : BitVec.toNat capacity + word.bits ≤ 2 ^ (word.bits - 1)) :
    (temporary memory capacity).Represents ∅ ∧
      BitVec.toNat capacity ≤
        BitVec.toNat (temporary memory capacity).wordCount * word.bits := by
  have few := (bits_bounds word).1
  have number := toNat_wordCount_temporary memory room
  have most : word.bits < 2 ^ (word.bits - 1) := by
    cases word <;> decide
  have parts := Nat.div_add_mod (BitVec.toNat capacity + word.bits - 1) word.bits
  have last := mod_lt_bits (BitVec.toNat capacity + word.bits - 1) word
  have whole : max 1 ((BitVec.toNat capacity + word.bits - 1) / word.bits) * word.bits =
      max word.bits (word.bits * ((BitVec.toNat capacity + word.bits - 1) / word.bits)) := by
    rw [← Nat.mul_max_mul_right, Nat.one_mul, Nat.mul_comm word.bits]
  refine ⟨clear_spec ?_ ?_, ?_⟩
  · exact Nat.lt_of_lt_of_eq (by omega) number.symm
  · refine Nat.lt_of_le_of_lt (Nat.le_of_eq (congrArg (· * word.bits) number)) ?_
    show _ * _ < _
    rw [whole]
    omega
  · rw [number, whole]
    omega

end Temporary

section Members

variable (bitset : UnsafeBitset word)

/-- The elements that one word stands for, in increasing order. -/
def block (index : ℕ) : List ℕ :=
  (ones (bitset.words index)).map (index * word.bits + ·)

/-- The elements of the words from one on. -/
def blocks (start : ℕ) : List ℕ :=
  (List.range' start (BitVec.toNat bitset.wordCount - start)).flatMap bitset.block

/-- The elements that an iterator still produces. -/
def remaining (iterator : Iterator word) : List ℕ :=
  (ones iterator.value).map (BitVec.toNat iterator.index * word.bits + ·) ++
    bitset.blocks (BitVec.toNat iterator.index + 1)

variable {bitset} {s : Finset ℕ}

theorem mem_block {index n : ℕ} : n ∈ bitset.block index ↔
    n / word.bits = index ∧ BitVec.getLsbD (bitset.words index) (n % word.bits) = true := by
  have few := (bits_bounds word).1
  rw [block, List.mem_map]
  constructor
  · rintro ⟨bit, set, rfl⟩
    have inside : bit < word.bits := BitVec.lt_of_getLsbD (mem_ones.mp set)
    rw [Nat.mul_comm, Nat.mul_add_div (by omega), Nat.div_eq_of_lt inside, Nat.mul_add_mod,
      Nat.mod_eq_of_lt inside]
    exact ⟨rfl, mem_ones.mp set⟩
  · rintro ⟨rfl, set⟩
    exact ⟨n % word.bits, mem_ones.mpr set, Nat.div_add_mod' n word.bits⟩

theorem length_block (bitset : UnsafeBitset word) (index : ℕ) :
    (bitset.block index).length = (ones (bitset.words index)).length :=
  List.length_map _

theorem length_block_le (bitset : UnsafeBitset word) (index : ℕ) :
    (bitset.block index).length ≤ word.bits := by
  rw [length_block, ones]
  exact (List.length_filter_le _ _).trans (Nat.le_of_eq List.length_range)

theorem mem_blocks (held : bitset.Represents s) {n : ℕ} : n ∈ bitset.blocks 0 ↔ n ∈ s := by
  have few := (bits_bounds word).1
  simp only [blocks, List.mem_flatMap, List.mem_range'_1, mem_block]
  rw [held.mem_iff, ← Nat.div_lt_iff_lt_mul (by omega)]
  constructor
  · rintro ⟨index, ⟨_, below⟩, rfl, set⟩
    exact ⟨by omega, set⟩
  · rintro ⟨below, set⟩
    exact ⟨n / word.bits, ⟨Nat.zero_le _, by omega⟩, rfl, set⟩

theorem blocks_increasing (start : ℕ) : (bitset.blocks start).Pairwise (· < ·) := by
  have few := (bits_bounds word).1
  rw [blocks, List.pairwise_flatMap]
  constructor
  · intro index _
    rw [block, List.pairwise_map]
    exact (ones_increasing _).imp fun less => Nat.add_lt_add_left less _
  · apply List.Pairwise.imp _ (List.pairwise_lt_range' (s := start) 1 (by decide))
    intro first second less m inFirst n inSecond
    have one := (mem_block.mp inFirst).1
    have other := (mem_block.mp inSecond).1
    by_contra notBelow
    have order := Nat.div_le_div_right (c := word.bits) (Nat.le_of_not_lt notBelow)
    omega

/-- All blocks are the set in increasing order. -/
theorem blocks_zero (held : bitset.Represents s) : bitset.blocks 0 = s.sort (· ≤ ·) := by
  apply eq_of_increasing (blocks_increasing 0) (Finset.sortedLT_sort s).pairwise
  intro n
  rw [mem_blocks held, Finset.mem_sort]

theorem blocks_cons {start : ℕ} (inside : start < BitVec.toNat bitset.wordCount) :
    bitset.blocks start = bitset.block start ++ bitset.blocks (start + 1) := by
  rw [blocks, blocks, show BitVec.toNat bitset.wordCount - start =
    (BitVec.toNat bitset.wordCount - (start + 1)) + 1 by omega, List.range'_succ,
    List.flatMap_cons]

theorem blocks_end {start : ℕ} (outside : BitVec.toNat bitset.wordCount ≤ start) :
    bitset.blocks start = [] := by
  rw [blocks, Nat.sub_eq_zero_of_le outside]
  rfl

end Members

section Calls

variable {bitset : UnsafeBitset word} {s : Finset ℕ}

/-- A call produces the first number of a list, and its iterator is left with the others. -/
def Yields (bitset : UnsafeBitset word) :
    List ℕ → Option (Option (Value word .int) × Iterator word) → Prop
  | [], result => ∃ rest, result = some (none, rest)
  | n :: others, result => ∃ element rest, result = some (some element, rest) ∧
      BitVec.toNat element = n ∧ BitVec.toNat rest.index < BitVec.toNat bitset.wordCount ∧
      bitset.remaining rest = others

theorem toNat_join (held : bitset.Represents s) {index bit : Value word .int}
    (inside : BitVec.toNat index < BitVec.toNat bitset.wordCount)
    (small : BitVec.toNat bit < word.bits) :
    BitVec.toNat (join index bit) = BitVec.toNat index * word.bits + BitVec.toNat bit := by
  have fits := held.fits
  have double := two_pow_bits word
  have next := Nat.mul_le_mul_right word.bits (Nat.succ_le_of_lt inside)
  rw [Nat.succ_mul] at next
  have product : BitVec.toNat (index * Word.capacity word) = BitVec.toNat index * word.bits := by
    rw [BitVec.toNat_mul, toNat_capacity]
    exact Nat.mod_eq_of_lt (show _ < 2 ^ word.bits by omega)
  rw [join, toNat_add_small (by rw [product]; omega), product]

/-- What a word that is not empty produces is the first number that remains. -/
theorem word_next_yields (held : bitset.Represents s) {index : Value word .int}
    {value : Value word .uint} (inside : BitVec.toNat index < BitVec.toNat bitset.wordCount)
    (nonzero : value ≠ 0) :
    ∃ bit rest, Word.next value = (some bit, rest) ∧
      bitset.Yields (bitset.remaining ⟨index, value⟩)
        (some (some (join index bit), ⟨index, rest⟩)) := by
  obtain ⟨bit, rest, produced, parts⟩ := Word.next_nonzero nonzero
  have member : BitVec.toNat bit ∈ ones value := by
    rw [parts]
    exact List.mem_cons_self
  have small : BitVec.toNat bit < word.bits := BitVec.lt_of_getLsbD (mem_ones.mp member)
  refine ⟨bit, rest, produced, ?_⟩
  rw [remaining, parts, List.map_cons, List.cons_append]
  exact ⟨_, _, rfl, toNat_join held inside small, inside, rfl⟩

theorem less_wordCount_iff (held : bitset.Represents s) {index : Value word .int}
    (inside : BitVec.toNat index < BitVec.toNat bitset.wordCount) :
    BitVec.toNat (index + 1) = BitVec.toNat index + 1 ∧
      (less word .int (index + 1) bitset.wordCount = true ↔
        BitVec.toNat index + 1 < BitVec.toNat bitset.wordCount) := by
  have small := held.wordCount_small
  have next : BitVec.toNat (index + 1) = BitVec.toNat index + 1 := by
    rw [toNat_add_small (by rw [toNat_one]; omega), toNat_one]
  refine ⟨next, ?_⟩
  rw [less_iff, toInt_of_small (by omega), toInt_of_small (by omega), next]
  omega

/-- The loop goes on to the next word that is not empty. -/
theorem advance_yields (held : bitset.Represents s) {rounds : ℕ} {iterator : Iterator word}
    (inside : BitVec.toNat iterator.index < BitVec.toNat bitset.wordCount)
    (enough : BitVec.toNat bitset.wordCount ≤ BitVec.toNat iterator.index + rounds) :
    bitset.Yields (bitset.blocks (BitVec.toNat iterator.index + 1))
      (Iterator.advance bitset rounds iterator) := by
  induction rounds generalizing iterator with
  | zero => omega
  | succ rounds step =>
      obtain ⟨next, further⟩ := less_wordCount_iff held inside
      rw [Iterator.advance]
      by_cases more : BitVec.toNat iterator.index + 1 < BitVec.toNat bitset.wordCount
      · rw [if_pos (further.mpr more)]
        have here : BitVec.toNat (iterator.index + 1) < BitVec.toNat bitset.wordCount := by
          rwa [next]
        have split : bitset.blocks (BitVec.toNat iterator.index + 1) =
            bitset.remaining ⟨iterator.index + 1, bitset.wordAt (iterator.index + 1)⟩ := by
          rw [blocks_cons more, remaining, next, block, wordAt, next]
        rw [split]
        by_cases empty : bitset.wordAt (iterator.index + 1) = 0
        -- An empty word produces nothing, and the loop goes on with one round less.
        · simp only [empty, Word.next_zero]
          have later := @step ⟨iterator.index + 1, 0⟩ here (by simp only [next]; omega)
          rwa [remaining, ones_zero, List.map_nil, List.nil_append]
        · obtain ⟨bit, rest, produced, yields⟩ := word_next_yields held here empty
          simp only [produced]
          exact yields
      · rw [if_neg fun less => more (further.mp less), blocks_end (by omega)]
        exact ⟨iterator, rfl⟩

theorem next_yields (held : bitset.Represents s) {rounds : ℕ} {iterator : Iterator word}
    (inside : BitVec.toNat iterator.index < BitVec.toNat bitset.wordCount)
    (enough : BitVec.toNat bitset.wordCount ≤ rounds) :
    bitset.Yields (bitset.remaining iterator) (Iterator.next bitset rounds iterator) := by
  obtain ⟨index, value⟩ := iterator
  rw [Iterator.next]
  by_cases empty : value = 0
  · subst empty
    simp only [Word.next_zero]
    have later := @advance_yields _ _ _ held rounds ⟨index, 0⟩ inside
      (Nat.le_trans enough (Nat.le_add_left _ _))
    rwa [remaining, ones_zero, List.map_nil, List.nil_append]
  · obtain ⟨bit, rest, produced, yields⟩ := word_next_yields held inside empty
    simp only [produced]
    exact yields

/-- The calls produce what remains, in this order. -/
theorem elements_spec (held : bitset.Represents s) {rounds calls : ℕ} {iterator : Iterator word}
    (inside : BitVec.toNat iterator.index < BitVec.toNat bitset.wordCount)
    (enough : BitVec.toNat bitset.wordCount ≤ rounds)
    (called : (bitset.remaining iterator).length < calls) :
    ∃ produced, Iterator.elements bitset rounds calls iterator = some produced ∧
      produced.map BitVec.toNat = bitset.remaining iterator := by
  induction calls generalizing iterator with
  | zero => omega
  | succ calls step =>
      have yields := next_yields held inside enough
      cases left : bitset.remaining iterator with
      | nil =>
          rw [left] at yields
          obtain ⟨rest, ended⟩ := yields
          exact ⟨[], by simp only [Iterator.elements, ended], rfl⟩
      | cons n others =>
          rw [left] at yields called
          obtain ⟨element, rest, produced, rfl, within, same⟩ := yields
          rw [List.length_cons] at called
          obtain ⟨tail, more, values⟩ := step within (by rw [same]; omega)
          refine ⟨element :: tail, ?_, ?_⟩
          · simp only [Iterator.elements, produced, more, Option.map_some]
          · rw [List.map_cons, values, same]

/-- A whole iteration produces the set in increasing order. -/
theorem iteration_spec (held : bitset.Represents s) {rounds calls : ℕ}
    (enough : BitVec.toNat bitset.wordCount ≤ rounds) (called : s.card < calls) :
    ∃ produced, Iterator.elements bitset rounds calls bitset.makeIterator = some produced ∧
      produced.map BitVec.toNat = s.sort (· ≤ ·) := by
  have positive := held.positive
  have nonempty : less word .int 0 bitset.wordCount = true := by
    rw [less_iff, toInt_zero, toInt_of_small held.wordCount_small]
    omega
  have zero : BitVec.toNat (0 : Value word .int) = 0 := BitVec.toNat_zero
  have all : bitset.remaining bitset.makeIterator = s.sort (· ≤ ·) := by
    rw [← blocks_zero held, blocks_cons positive, remaining, makeIterator, if_pos nonempty, block,
      zero]
  rw [← all]
  apply elements_spec held _ enough
  · rw [all, Finset.length_sort]
    exact called
  · exact Nat.lt_of_le_of_lt (Nat.le_of_eq zero) positive

/-- The count is the number of elements. -/
theorem count_spec (held : bitset.Represents s) : toInt word .int bitset.count = s.card := by
  have fits := held.fits
  -- The sum stays below the sign bit, since a block has no more elements than a word has bits.
  have visited (number : ℕ) (within : number ≤ BitVec.toNat bitset.wordCount) :
      BitVec.toNat ((List.range number).foldl
        (fun count index => count + Word.count (bitset.words index)) (0 : Value word .int)) =
      ((List.range number).flatMap bitset.block).length ∧
        ((List.range number).flatMap bitset.block).length ≤ number * word.bits := by
    induction number with
    | zero => simp
    | succ number step =>
        obtain ⟨value, bound⟩ := step (by omega)
        have few := length_block_le bitset number
        have room := Nat.mul_le_mul_right word.bits within
        rw [Nat.succ_mul] at room ⊢
        rw [List.range_succ, List.foldl_append, List.flatMap_append, List.length_append,
          List.flatMap_singleton]
        refine ⟨?_, by omega⟩
        rw [List.foldl_cons, List.foldl_nil, toNat_add_small, value, Word.toNat_count, length_block]
        rw [value, Word.toNat_count, ← length_block]
        omega
  obtain ⟨value, bound⟩ := visited _ le_rfl
  rw [toInt_of_small, count, value]
  · rw [← Finset.length_sort (· ≤ ·), ← blocks_zero held, blocks, Nat.sub_zero,
      List.range_eq_range']
  · rw [count, value]
    omega

end Calls

/-- What a user of a bit set does. -/
inductive Operation (word : WordSize) where
  | contains (element : Value word .int)
  | insert (element : Value word .int)
  | remove (element : Value word .int)
  | clear

namespace Operation

/-- The element that an operation is about, if any, is below a capacity. -/
def Inside (limit : ℕ) : Operation word → Prop
  | contains element | insert element | remove element => BitVec.toNat element < limit
  | clear => True

instance (limit : ℕ) (operation : Operation word) : Decidable (operation.Inside limit) :=
  match operation with
  | contains _ | insert _ | remove _ => inferInstanceAs (Decidable (_ < _))
  | clear => inferInstanceAs (Decidable True)

/-- An operation on a bit set, with the flag that it returns. -/
def perform (bitset : UnsafeBitset word) : Operation word → UnsafeBitset word × Option Bool
  | contains element => (bitset, some (bitset.uncheckedContains element))
  | insert element => let (changed, inserted) := bitset.uncheckedInsert element
      (changed, some inserted)
  | remove element => let (changed, removed) := bitset.uncheckedRemove element
      (changed, some removed)
  | clear => (bitset.clear, none)

/-- What an operation means on a set of numbers. -/
def meaning (s : Finset ℕ) : Operation word → Finset ℕ × Option Bool
  | contains element => (s, some (decide (BitVec.toNat element ∈ s)))
  | insert element =>
      (Insert.insert (BitVec.toNat element) s, some (!decide (BitVec.toNat element ∈ s)))
  | remove element => (s.erase (BitVec.toNat element), some (decide (BitVec.toNat element ∈ s)))
  | clear => (∅, none)

end Operation

/-- The operations one after the other, with the flags that they return. -/
def perform (bitset : UnsafeBitset word) :
    List (Operation word) → UnsafeBitset word × List (Option Bool)
  | [] => (bitset, [])
  | operation :: others =>
      let (changed, flag) := operation.perform bitset
      let (last, flags) := perform changed others
      (last, flag :: flags)

/-- What operations mean on a set of numbers. -/
def meaning (s : Finset ℕ) : List (Operation word) → Finset ℕ × List (Option Bool)
  | [] => (s, [])
  | operation :: others =>
      let (changed, flag) := operation.meaning s
      let (last, flags) := meaning changed others
      (last, flag :: flags)

section Runs

variable {bitset : UnsafeBitset word} {s : Finset ℕ}

theorem operation_spec (held : bitset.Represents s) {operation : Operation word}
    (inside : operation.Inside (BitVec.toNat bitset.wordCount * word.bits)) :
    (operation.perform bitset).1.Represents (operation.meaning s).1 ∧
      (operation.perform bitset).2 = (operation.meaning s).2 ∧
      (operation.perform bitset).1.wordCount = bitset.wordCount := by
  cases operation with
  | contains element => exact ⟨held, congrArg some (contains_spec held inside), rfl⟩
  | insert element =>
      obtain ⟨kept, flag⟩ := insert_spec held inside
      exact ⟨kept, congrArg some flag, rfl⟩
  | remove element =>
      obtain ⟨kept, flag⟩ := remove_spec held inside
      exact ⟨kept, congrArg some flag, rfl⟩
  | clear => exact ⟨clear_spec held.positive held.fits, rfl, rfl⟩

theorem perform_spec (held : bitset.Represents s) {operations : List (Operation word)}
    (inside : ∀ operation ∈ operations,
      operation.Inside (BitVec.toNat bitset.wordCount * word.bits)) :
    (bitset.perform operations).1.Represents (meaning s operations).1 ∧
      (bitset.perform operations).2 = (meaning s operations).2 ∧
      (bitset.perform operations).1.wordCount = bitset.wordCount := by
  induction operations generalizing bitset s with
  | nil => exact ⟨held, rfl, rfl⟩
  | cons operation others step =>
      obtain ⟨kept, flag, words⟩ := operation_spec held (inside operation List.mem_cons_self)
      have later := step kept fun other member => by
        rw [words]
        exact inside other (List.mem_cons_of_mem _ member)
      obtain ⟨last, flags, same⟩ := later
      refine ⟨last, ?_, same.trans words⟩
      exact congrArg₂ List.cons flag flags

end Runs

/-- A temporary bit set, over memory of any content, is a sorted set of the numbers below its
capacity: after any operations their flags, the count and a whole iteration are those of the
set. -/
theorem temporary_actsAsSet (memory : ℕ → Value word .uint) (capacity : Value word .int)
    (room : BitVec.toNat capacity + word.bits ≤ 2 ^ (word.bits - 1))
    (operations : List (Operation word))
    (inside : ∀ operation ∈ operations, operation.Inside (BitVec.toNat capacity)) :
    let (bitset, flags) := (temporary memory capacity).perform operations
    let (s, expected) := meaning ∅ operations
    flags = expected ∧ toInt word .int bitset.count = s.card ∧
      ∀ rounds calls, BitVec.toNat bitset.wordCount ≤ rounds → s.card < calls →
        ∃ produced, Iterator.elements bitset rounds calls bitset.makeIterator = some produced ∧
          produced.map BitVec.toNat = s.sort (· ≤ ·) := by
  obtain ⟨empty, enough⟩ := temporary_spec memory room
  have within (operation) (member : operation ∈ operations) :
      operation.Inside
        (BitVec.toNat (temporary memory capacity).wordCount * word.bits) := by
    have below := inside operation member
    cases operation with
    | clear => exact trivial
    | contains element | insert element | remove element =>
        exact Nat.lt_of_lt_of_le below enough
  obtain ⟨held, flags, _⟩ := perform_spec empty within
  exact ⟨flags, count_spec held, fun _ _ enough called => iteration_spec held enough called⟩

/-- Two words of 16 bits for twenty numbers, in memory that is not empty. -/
theorem temporary_actsAsSet_twenty :
    ((temporary (fun _ => 0xBEEF) (20 : Value .word16 .int)).perform
      [.insert 19, .insert 3, .insert 19, .remove 3, .insert 0, .contains 3]).2 =
      [some true, some true, some false, some true, some true, some false] := by
  have acts := @temporary_actsAsSet .word16 (fun _ => 0xBEEF) 20 (by decide)
    [.insert 19, .insert 3, .insert 19, .remove 3, .insert 0, .contains 3] (by decide)
  exact acts.1.trans (by decide)

end UnsafeBitset

end USwift
