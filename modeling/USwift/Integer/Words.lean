import USwift.Integer.Types
import USwift.Library.Iteration

/-!
# The words of an integer

Every integer type has a nested collection `Words` over its value. The
collection computes each word by a masking shift followed by `_lowWord`, and
its default iterator walks the positions up to `endIndex`.
-/

namespace USwift

open Iteration

variable {word : WordSize} {type : IntegerType}

/-- The nested collection `Words` of an integer type. -/
structure Words (word : WordSize) (type : IntegerType) where
  value : Value word type

namespace Words

/-- The width that the type's `count` is computed from. -/
def countedWidth : WordSize → IntegerType → ℕ
  -- `Int.Words.count` was copied from the 16-bit file without its width.
  | .word32, .int => 16
  | word, type => type.bitWidth word

def startIndex (_words : Words word type) : Value word .int := 0

def count (_words : Words word type) : Value word .int :=
  BitVec.ofNat _ ((countedWidth word type + word.bits - 1) / word.bits)

def endIndex (words : Words word type) : Value word .int := words.count

def indexAfter (_words : Words word type) (position : Value word .int) : Value word .int :=
  position + 1

/-- `subscript(position:)`. The preconditions on the position do nothing when they fail. -/
def subscript (words : Words word type) (position : Value word .int) : Value word .uint :=
  let shift : Value word .uint := position * BitVec.ofNat _ word.bits
  lowWord word type
    (maskingShiftRight word type words.value (truncatingBits word type shift))

/-- `IndexingIterator.next` at a position. -/
def next (words : Words word type) (position : Value word .int) :
    Option (Value word .uint × Value word .int) :=
  if position = words.endIndex then none
  else some (words.subscript position, words.indexAfter position)

/-- The elements at successive positions, as `for word in words` visits them. -/
def elementsFrom (words : Words word type) : ℕ → Value word .int → List (Value word .uint)
  | 0, _ => []
  | remaining + 1, position =>
      words.subscript position :: words.elementsFrom remaining (words.indexAfter position)

/-- The elements of the collection in order. -/
def elements (words : Words word type) : List (Value word .uint) :=
  words.elementsFrom words.count.toNat words.startIndex

end Words

/-- The number of words of a type. -/
def wordCount (word : WordSize) (type : IntegerType) : ℕ :=
  (type.bitWidth word + word.bits - 1) / word.bits

namespace Words

theorem toNat_count (words : Words word type) : words.count.toNat = wordCount word type := by
  cases word <;> cases type <;> rfl

theorem wordCount_le (word : WordSize) (type : IntegerType) : wordCount word type ≤ 4 := by
  cases word <;> cases type <;> decide

@[simp]
theorem length_elementsFrom (words : Words word type) (remaining : ℕ)
    (position : Value word .int) :
    (words.elementsFrom remaining position).length = remaining := by
  induction remaining generalizing position with
  | zero => rfl
  | succ remaining shorter => simp [elementsFrom, shorter]

theorem getElem?_elementsFrom (words : Words word type) {remaining : ℕ}
    (position : Value word .int) {offset : ℕ} (inside : offset < remaining) :
    (words.elementsFrom remaining position)[offset]? =
      some (words.subscript (position + BitVec.ofNat _ offset)) := by
  induction remaining generalizing position offset with
  | zero => omega
  | succ remaining shorter =>
      cases offset with
      | zero => simp [elementsFrom]
      | succ offset =>
          simp only [elementsFrom, List.getElem?_cons_succ]
          rw [shorter (words.indexAfter position) (by omega), indexAfter]
          congr 2
          rw [BitVec.add_assoc, Nat.add_comm offset 1, BitVec.ofNat_add]
          rfl

theorem yields_elementsFrom (words : Words word type) {remaining : ℕ}
    {position : Value word .int}
    (reaches : position.toNat + remaining = words.count.toNat) :
    Yields words.next position (words.elementsFrom remaining position) := by
  induction remaining generalizing position with
  | zero =>
      apply Yields.done
      rw [next, if_pos]
      exact BitVec.eq_of_toNat_eq (by simpa [endIndex] using reaches)
  | succ remaining shorter =>
      have bounded := words.count.isLt
      have advances : (words.indexAfter position).toNat = position.toNat + 1 := by
        have one : (1 : Value word .int).toNat = 1 := by cases word <;> rfl
        rw [indexAfter, BitVec.toNat_add, one, Nat.mod_eq_of_lt (by omega)]
      refine Yields.step ?_ (shorter (by omega))
      rw [next, if_neg]
      intro atEnd
      rw [atEnd, endIndex] at reaches
      omega

theorem yields_elements (words : Words word type) :
    Yields words.next words.startIndex words.elements :=
  words.yields_elementsFrom (by simp [startIndex])

theorem toNat_shift_of_lt {word : WordSize} {type : IntegerType} {position : ℕ}
    (inside : position < wordCount word type) :
    (truncatingBits word type (BitVec.ofNat (IntegerType.int.bitWidth word) position *
      BitVec.ofNat _ word.bits)).toNat = position * word.bits ∧
      position * word.bits < type.bitWidth word := by
  have small : position ≤ 3 := by have := wordCount_le word type; omega
  have shift_lt : position * word.bits < type.bitWidth word := by
    rw [wordCount] at inside
    have positive := word.bits_pos
    have below := (Nat.lt_div_iff_mul_lt positive).mp inside
    omega
  refine ⟨?_, shift_lt⟩
  have fits : position * word.bits < 2 ^ word.bits := by
    cases word <;> simp only [WordSize.bits] <;> omega
  have narrow : position * word.bits < 2 ^ type.bitWidth word :=
    shift_lt.trans Nat.lt_two_pow_self
  rw [truncatingBits_eq_setWidth, BitVec.toNat_setWidth, ← BitVec.ofNat_mul,
    BitVec.toNat_ofNat]
  simp only [IntegerType.bitWidth]
  rw [Nat.mod_eq_of_lt fits, Nat.mod_eq_of_lt narrow]

theorem getLsbD_subscript (words : Words word type) {position : ℕ}
    (inside : position < wordCount word type) {index : ℕ} (index_lt : index < word.bits) :
    (words.subscript (BitVec.ofNat _ position)).getLsbD index =
      TwosComplement.bit (extendsSign word type) words.value
        (position * word.bits + index) := by
  rcases toNat_shift_of_lt inside with ⟨shift_eq, shift_lt⟩
  rw [subscript, lowWord_eq_extend, TwosComplement.getLsbD_extend]
  simp only [index_lt, decide_true, Bool.true_and]
  by_cases faithful : extendsSign word type = type.isSigned
  · rw [faithful, bit_maskingShiftRight_of_lt _ (by rw [shift_eq]; exact shift_lt), shift_eq]
  · -- Only the single word of `UInt16` in the 32-bit files is extended differently.
    obtain ⟨rfl, rfl⟩ : word = .word32 ∧ type = .uint16 := by
      revert faithful
      cases word <;> cases type <;> decide
    obtain rfl : position = 0 := by
      have : wordCount .word32 .uint16 = 1 := rfl
      omega
    have unshifted : maskingShiftRight .word32 .uint16 words.value 0 = words.value := by
      simp [maskingShiftRight, maskedAmount]
    simp only [Nat.zero_mul, Nat.zero_add]
    rw [← unshifted]
    rfl

theorem length_elements (words : Words word type) :
    words.elements.length = words.count.toNat :=
  words.length_elementsFrom _ _

theorem getElem?_elements (words : Words word type) {position : ℕ}
    (inside : position < wordCount word type) :
    words.elements[position]? = some (words.subscript (BitVec.ofNat _ position)) := by
  rw [elements, toNat_count, getElem?_elementsFrom _ _ inside]
  simp [startIndex]

end Words

end USwift
