import USwift.Unicode.UTF8Segments
import USwift.Library.Utf8Backwards

/-!
# The reverse parser of UTF-8

`UTF8.ReverseParser` reads a text from its end, so that the last byte is lowest in
the buffer and the masks are those of the forward parser with their bytes swapped.
-/

namespace USwift

open Packing Utf8

namespace UTF8

variable {word : WordSize}

namespace ReverseParser

/-- `_invalidLength()`. -/
def invalidLength (buffer : UIntBuffer word .uint8) : Value word .uint8 :=
  let storage := buffer.storage
  if storage &&& 0xF0C0 == 0xE080 then
    -- 2-byte prefix of 3-byte sequence
    let top5Bits := storage &&& 0x0F20
    if top5Bits != 0 && top5Bits != 0x0D20 then 2 else 1
  else if storage &&& 0xF8C0 == 0xF080 then
    -- 2-byte prefix of 4-byte sequence
    let top5bits := storage &&& 0x0730
    if top5bits != 0 && !less word .uint32 0x0400 top5bits then 2 else 1
  else if storage &&& 0xF8C0C0 == 0xF08080 then
    -- 3-byte prefix of 4-byte sequence
    let top5bits := storage &&& 0x073000
    if top5bits != 0 && !less word .uint32 0x040000 top5bits then 3 else 1
  else 1

/-- `_parseMultipleCodeUnits()`. -/
def parseMultipleCodeUnits (buffer : UIntBuffer word .uint8) : Bool × Value word .uint8 :=
  let storage := buffer.storage
  let invalid := (false, invalidLength buffer * 8)
  if storage &&& 0xE0C0 == 0xC080 then
    -- 2-byte sequence
    let top4Bits := storage &&& 0x1E00
    if top4Bits != 0 then (true, 2 * 8) else invalid
  else if storage &&& 0xF0C0C0 == 0xE08080 then
    -- 3-byte sequence
    let top5Bits := storage &&& 0x0F2000
    if top5Bits != 0 && top5Bits != 0x0D2000 then (true, 3 * 8) else invalid
  else if storage &&& 0xF8C0C0C0 == 0xF0808080 then
    -- 4-byte sequence
    let top5bits := storage &&& 0x07300000
    if top5bits != 0 && !less word .uint32 0x04000000 top5bits then (true, 4 * 8) else invalid
  else invalid

/-- `_bufferedScalar(bitCount:)`. -/
def bufferedScalar (buffer : UIntBuffer word .uint8) (bitCount : Value word .uint8) :
    ValidUTF8Buffer word :=
  let x := truncatingIfNeeded word .uint32 .uint32 (byteSwapped word .uint32 buffer.storage)
  let shift : Value word .uint8 := 32 - bitCount
  ⟨maskingShiftRight word .uint32 (x + 0x01010101)
    (truncatingIfNeeded word .uint32 .uint8 shift)⟩

end ReverseParser

/-- `UTF8.ReverseParser`. -/
abbrev reverseParser (word : WordSize) : UTFParser word where
  codeUnit := .uint8
  EncodedScalar := ValidUTF8Buffer word
  isScalar := isASCII
  ofCodeUnit codeUnit := ValidUTF8Buffer.empty.append codeUnit
  parseMultipleCodeUnits := ReverseParser.parseMultipleCodeUnits
  bufferedScalar := ReverseParser.bufferedScalar

namespace ReverseParser

/-- How many bytes are invalid, the first byte being the last of the text. -/
def invalidDecision (x0 x1 x2 : ℕ) : ℕ :=
  if Continues x0 ∧ 0xE0 ≤ x1 ∧ x1 ≤ 0xEF then if Second3 x1 x0 then 2 else 1
  else if Continues x0 ∧ 0xF0 ≤ x1 ∧ x1 ≤ 0xF7 then if Second4 x1 x0 then 2 else 1
  else if Continues x0 ∧ Continues x1 ∧ 0xF0 ≤ x2 ∧ x2 ≤ 0xF7 then
    if Second4 x2 x1 then 3 else 1
  else 1

/-- Whether the last bytes are a scalar, and how many are decided on. -/
def decision (x0 x1 x2 x3 : ℕ) : Bool × ℕ :=
  if Continues x0 ∧ 0xC0 ≤ x1 ∧ x1 ≤ 0xDF then
    if 0xC2 ≤ x1 then (true, 2) else (false, invalidDecision x0 x1 x2)
  else if Continues x0 ∧ Continues x1 ∧ 0xE0 ≤ x2 ∧ x2 ≤ 0xEF then
    if Second3 x2 x1 then (true, 3) else (false, invalidDecision x0 x1 x2)
  else if Continues x0 ∧ Continues x1 ∧ Continues x2 ∧ 0xF0 ≤ x3 ∧ x3 ≤ 0xF7 then
    if Second4 x3 x2 then (true, 4) else (false, invalidDecision x0 x1 x2)
  else (false, invalidDecision x0 x1 x2)

/-- A decision with its length in bits. -/
def measured (decided : Bool × ℕ) : Bool × BitVec 8 :=
  (decided.1, BitVec.ofNat 8 (8 * decided.2))

section Tests

variable {x0 x1 x2 x3 : BitVec 8}

theorem toNat_quad_and (x0 x1 x2 x3 m0 m1 m2 m3 : BitVec 8) :
    (quad x0 x1 x2 x3 &&& quad m0 m1 m2 m3).toNat =
      (x0 &&& m0).toNat + 256 * (x1 &&& m1).toNat + 65536 * (x2 &&& m2).toNat +
        16777216 * (x3 &&& m3).toNat := by
  rw [quad_and, quad, toNat_pack (by simp)]
  simp only [number_cons, number_nil]
  omega

theorem second3_iff {lead second : BitVec 8} (range : 0xE0 ≤ lead.toNat ∧ lead.toNat ≤ 0xEF)
    (tail : Continues second.toNat) {top5Bits surrogate : BitVec 32}
    (zero : top5Bits = 0 ↔ second &&& 0x20 = 0 ∧ lead &&& 0x0F = 0)
    (same : top5Bits = surrogate ↔ second &&& 0x20 = 0x20 ∧ lead &&& 0x0F = 0x0D) :
    (top5Bits != 0 && top5Bits != surrogate) = true ↔ Second3 lead.toNat second.toNat := by
  rw [(bit5_of_continuation second tail).1, (low4_of_lead3 lead range).1] at zero
  rw [(bit5_of_continuation second tail).2, (low4_of_lead3 lead range).2] at same
  rw [Bool.and_eq_true, bne_iff_ne, bne_iff_ne, ne_eq, ne_eq, zero, same]
  omega

theorem second4_iff {lead second : BitVec 8} (range : 0xF0 ≤ lead.toNat ∧ lead.toNat ≤ 0xF7)
    (tail : Continues second.toNat) {top5bits limit : Value word .uint32} {scale : ℕ}
    (positive : 0 < scale)
    (value : BitVec.toNat top5bits =
      scale * ((second &&& 0x30).toNat + 256 * (lead &&& 0x07).toNat))
    (limit_eq : BitVec.toNat limit = scale * 1024) :
    (top5bits != 0 && !less word .uint32 limit top5bits) = true ↔
      Second4 lead.toNat second.toNat := by
  have bits := bits45_of_continuation second tail
  have highZero : (second &&& 0x30).toNat = 0 ↔ second.toNat < 0x90 := by
    rw [← bits.1, ← BitVec.toNat_inj]
    rfl
  have zero : top5bits = 0 ↔ (second &&& 0x30).toNat + 256 * (lead &&& 0x07).toNat = 0 := by
    rw [← BitVec.toNat_inj, value]
    exact mul_eq_zero_iff_left positive.ne'
  have below : BitVec.toNat limit < BitVec.toNat top5bits ↔
      1024 < (second &&& 0x30).toNat + 256 * (lead &&& 0x07).toNat := by
    rw [value, limit_eq]
    exact Nat.mul_lt_mul_left positive
  rw [Bool.and_eq_true, bne_iff_ne, Bool.not_eq_true', ← Bool.not_eq_true, less_unsigned_iff rfl,
    ne_eq, zero, below, low3_of_lead4 lead range]
  omega

theorem invalidLength_eq (bitCount : Value word .uint8) :
    invalidLength (⟨quad x0 x1 x2 x3, bitCount⟩ : UIntBuffer word .uint8) =
      BitVec.ofNat 8 (invalidDecision x0.toNat x1.toNat x2.toNat) := by
  have length (condition : Prop) [Decidable condition] (count : ℕ) :
      (if condition then BitVec.ofNat 8 count else BitVec.ofNat 8 1) =
        BitVec.ofNat 8 (if condition then count else 1) :=
    (apply_ite (BitVec.ofNat 8) condition count 1).symm
  rw [invalidDecision]
  refine Eq.trans ?_ (apply_ite (BitVec.ofNat 8) _ _ _).symm
  refine ite_congr (propext ?_) ?_ ?_
  · have bytes := quad_and_eq_iff x0 x1 x2 x3 0xC0 0xF0 0 0 0x80 0xE0 0 0
    rw [continuation_iff, lead3_iff, and_zero_iff, and_zero_iff, and_true, and_true] at bytes
    exact beq_iff_eq.trans bytes
  · rintro ⟨tail, lead⟩
    refine Eq.trans (if_congr (second3_iff lead tail ?_ ?_) rfl rfl) (length _ 2)
    · have bytes := quad_and_eq_iff x0 x1 x2 x3 0x20 0x0F 0 0 0 0 0 0
      rwa [and_zero_iff, and_zero_iff, and_true, and_true] at bytes
    · have bytes := quad_and_eq_iff x0 x1 x2 x3 0x20 0x0F 0 0 0x20 0x0D 0 0
      rwa [and_zero_iff, and_zero_iff, and_true, and_true] at bytes
  · intro _
    refine Eq.trans ?_ (apply_ite (BitVec.ofNat 8) _ _ _).symm
    refine ite_congr (propext ?_) ?_ ?_
    · have bytes := quad_and_eq_iff x0 x1 x2 x3 0xC0 0xF8 0 0 0x80 0xF0 0 0
      rw [continuation_iff, lead4_iff, and_zero_iff, and_zero_iff, and_true, and_true] at bytes
      exact beq_iff_eq.trans bytes
    · rintro ⟨tail, lead⟩
      refine Eq.trans (if_congr (second4_iff lead tail one_pos ?_ rfl) rfl rfl) (length _ 2)
      exact (toNat_quad_and x0 x1 x2 x3 0x30 0x07 0 0).trans (by simp)
    · intro _
      refine Eq.trans ?_ (apply_ite (BitVec.ofNat 8) _ _ _).symm
      refine ite_congr (propext ?_) ?_ fun _ => rfl
      · have bytes := quad_and_eq_iff x0 x1 x2 x3 0xC0 0xC0 0xF8 0 0x80 0x80 0xF0 0
        rw [continuation_iff, continuation_iff, lead4_iff, and_zero_iff, and_true] at bytes
        exact beq_iff_eq.trans bytes
      · rintro ⟨_, tail, lead⟩
        refine Eq.trans (if_congr (second4_iff lead tail (by decide : 0 < 256) ?_ rfl) rfl rfl)
          (length _ 3)
        exact (toNat_quad_and x0 x1 x2 x3 0 0x30 0x07 0).trans (by simp; omega)

theorem parseMultipleCodeUnits_eq (bitCount : Value word .uint8) :
    parseMultipleCodeUnits (⟨quad x0 x1 x2 x3, bitCount⟩ : UIntBuffer word .uint8) =
      measured (decision x0.toNat x1.toNat x2.toNat x3.toNat) := by
  have invalid : (false, invalidLength (⟨quad x0 x1 x2 x3, bitCount⟩ : UIntBuffer word .uint8) *
      (8 : BitVec 8)) = measured (false, invalidDecision x0.toNat x1.toNat x2.toNat) := by
    rw [invalidLength_eq, measured, Nat.mul_comm, BitVec.ofNat_mul]
    rfl
  have result (condition : Prop) [Decidable condition] (count : ℕ) :
      (if condition then measured (true, count)
        else (false, invalidLength (⟨quad x0 x1 x2 x3, bitCount⟩ : UIntBuffer word .uint8) *
          (8 : BitVec 8))) =
        measured (if condition then (true, count)
          else (false, invalidDecision x0.toNat x1.toNat x2.toNat)) := by
    rw [invalid]
    exact (apply_ite measured condition _ _).symm
  rw [decision]
  refine Eq.trans ?_ (apply_ite measured _ _ _).symm
  refine ite_congr (propext ?_) ?_ ?_
  · have bytes := quad_and_eq_iff x0 x1 x2 x3 0xC0 0xE0 0 0 0x80 0xC0 0 0
    rw [continuation_iff, lead2_iff, and_zero_iff, and_zero_iff, and_true, and_true] at bytes
    exact beq_iff_eq.trans bytes
  · rintro ⟨_, lead⟩
    have bits := quad_and_eq_iff x0 x1 x2 x3 0 0x1E 0 0 0 0 0 0
    rw [low4_of_lead2 x1 lead, and_zero_iff, and_zero_iff, and_zero_iff, true_and, and_true,
      and_true] at bits
    refine Eq.trans (if_congr ?_ rfl rfl) (result _ 2)
    exact bne_iff_ne.trans (bits.not.trans (by omega))
  · intro _
    refine Eq.trans ?_ (apply_ite measured _ _ _).symm
    refine ite_congr (propext ?_) ?_ ?_
    · have bytes := quad_and_eq_iff x0 x1 x2 x3 0xC0 0xC0 0xF0 0 0x80 0x80 0xE0 0
      rw [continuation_iff, continuation_iff, lead3_iff, and_zero_iff, and_true] at bytes
      exact beq_iff_eq.trans bytes
    · rintro ⟨_, tail, lead⟩
      refine Eq.trans (if_congr (second3_iff lead tail ?_ ?_) rfl rfl) (result _ 3)
      · have bytes := quad_and_eq_iff x0 x1 x2 x3 0 0x20 0x0F 0 0 0 0 0
        rwa [and_zero_iff, and_zero_iff, true_and, and_true] at bytes
      · have bytes := quad_and_eq_iff x0 x1 x2 x3 0 0x20 0x0F 0 0 0x20 0x0D 0
        rwa [and_zero_iff, and_zero_iff, true_and, and_true] at bytes
    · intro _
      refine Eq.trans ?_ (apply_ite measured _ _ _).symm
      refine ite_congr (propext ?_) ?_ fun _ => invalid
      · have bytes := quad_and_eq_iff x0 x1 x2 x3 0xC0 0xC0 0xC0 0xF8 0x80 0x80 0x80 0xF0
        rw [continuation_iff, continuation_iff, continuation_iff, lead4_iff] at bytes
        exact beq_iff_eq.trans bytes
      · rintro ⟨_, _, tail, lead⟩
        refine Eq.trans (if_congr (second4_iff lead tail (by decide : 0 < 65536) ?_ rfl) rfl rfl)
          (result _ 4)
        exact (toNat_quad_and x0 x1 x2 x3 0 0 0x30 0x07).trans (by simp; omega)

end Tests

section Decision

variable {x0 x1 x2 x3 : ℕ}

theorem outcome_of_decision (x0 x1 x2 x3 : ℕ) :
    decision x0 x1 x2 x3 = (false, 1) ∨
      decision x0 x1 x2 x3 = outcome x1 x0 0 0 ∧ (outcome x1 x0 0 0).2 = 2 ∨
      decision x0 x1 x2 x3 = outcome x2 x1 x0 0 ∧ (outcome x2 x1 x0 0).2 = 3 ∨
      decision x0 x1 x2 x3 = outcome x3 x2 x1 x0 ∧ (outcome x3 x2 x1 x0).2 = 4 := by
  have invalid : invalidDecision x0 x1 x2 = 1 ∨
      outcome x1 x0 0 0 = (false, 2) ∧ invalidDecision x0 x1 x2 = 2 ∨
      outcome x2 x1 x0 0 = (false, 3) ∧ invalidDecision x0 x1 x2 = 3 := by
    have zero : ¬ Continues 0 := by decide
    rw [invalidDecision]
    split_ifs with prefix3 second prefix4 second prefix4 second
    · exact Or.inr (Or.inl ⟨outcome_of_several (.twoOfThree prefix3.2 second zero), rfl⟩)
    · exact Or.inl rfl
    · exact Or.inr (Or.inl ⟨outcome_of_several (.twoOfFour prefix4.2 second zero), rfl⟩)
    · exact Or.inl rfl
    · exact Or.inr (Or.inr
        ⟨outcome_of_several (.threeOfFour prefix4.2.2 second prefix4.1 zero), rfl⟩)
    · exact Or.inl rfl
    · exact Or.inl rfl
  have short : decision x0 x1 x2 x3 = (false, invalidDecision x0 x1 x2) →
      decision x0 x1 x2 x3 = (false, 1) ∨
        decision x0 x1 x2 x3 = outcome x1 x0 0 0 ∧ (outcome x1 x0 0 0).2 = 2 ∨
        decision x0 x1 x2 x3 = outcome x2 x1 x0 0 ∧ (outcome x2 x1 x0 0).2 = 3 ∨
        decision x0 x1 x2 x3 = outcome x3 x2 x1 x0 ∧ (outcome x3 x2 x1 x0).2 = 4 := by
    intro decided
    rw [decided]
    rcases invalid with single | ⟨reaches, two⟩ | ⟨reaches, three⟩
    · exact Or.inl (by rw [single])
    · exact Or.inr (Or.inl (by rw [two, reaches]; exact ⟨rfl, rfl⟩))
    · exact Or.inr (Or.inr (Or.inl (by rw [three, reaches]; exact ⟨rfl, rfl⟩)))
  rw [decision] at short ⊢
  split_ifs at short ⊢ with pattern2 top4 pattern3 second pattern4 second
  · rw [outcome_of_several (.two ⟨top4, pattern2.2.2⟩ pattern2.1)]
    exact Or.inr (Or.inl ⟨rfl, rfl⟩)
  · exact short rfl
  · rw [outcome_of_several (.three pattern3.2.2 second pattern3.1)]
    exact Or.inr (Or.inr (Or.inl ⟨rfl, rfl⟩))
  · exact short rfl
  · rw [outcome_of_several (.four pattern4.2.2.2 second pattern4.2.1 pattern4.1)]
    exact Or.inr (Or.inr (Or.inr ⟨rfl, rfl⟩))
  · exact short rfl
  · exact short rfl

theorem decision_two {result : Bool × ℕ} (several : Several x1 x0 0 0 result) (x2 x3 : ℕ) :
    decision x0 x1 x2 x3 = result := by
  cases several with
  | two lead second => rw [decision, if_pos ⟨second, by omega⟩, if_pos lead.1]
  | twoOfThree lead second _ =>
      rw [decision, if_neg (by omega), if_neg (by omega), if_neg (by omega), invalidDecision,
        if_pos ⟨second.1, lead⟩, if_pos second]
  | twoOfFour lead second _ =>
      rw [decision, if_neg (by omega), if_neg (by omega), if_neg (by omega), invalidDecision,
        if_neg (by omega), if_pos ⟨second.1, lead⟩, if_pos second]
  | three _ _ third => exact absurd third (by decide)
  | threeOfFour _ _ third _ => exact absurd third (by decide)
  | four _ _ third _ => exact absurd third (by decide)

theorem decision_three {result : Bool × ℕ} (several : Several x2 x1 x0 0 result)
    (long : result.2 = 3) (x3 : ℕ) : decision x0 x1 x2 x3 = result := by
  cases several with
  | two => cases long
  | twoOfThree => cases long
  | twoOfFour => cases long
  | three lead second third =>
      rw [decision, if_neg (by omega), if_pos ⟨third, second.1, lead⟩, if_pos second]
  | threeOfFour lead second third _ =>
      rw [decision, if_neg (by omega), if_neg (by omega), if_neg (by omega), invalidDecision,
        if_neg (by omega), if_neg (by omega), if_pos ⟨third, second.1, lead⟩, if_pos second]
  | four _ _ _ fourth => exact absurd fourth (by decide)

theorem decision_four {result : Bool × ℕ} (several : Several x3 x2 x1 x0 result)
    (long : result.2 = 4) : decision x0 x1 x2 x3 = result := by
  cases several with
  | two => cases long
  | twoOfThree => cases long
  | twoOfFour => cases long
  | three => cases long
  | threeOfFour => cases long
  | four lead second third fourth =>
      rw [decision, if_neg (by omega), if_neg (by omega), if_pos ⟨fourth, third, second.1, lead⟩,
        if_pos second]

end Decision

/-- The decision on the last bytes of a text, with zeros in front of its beginning. -/
def decisionOf (last : BitVec 8) (before : List (BitVec 8)) : Bool × ℕ :=
  decision last.toNat (before.headD 0).toNat (before.tail.headD 0).toNat
    (before.tail.tail.headD 0).toNat

theorem decisionOf_eq {lead last : BitVec 8} {trail more before : List (BitVec 8)}
    (whole : last :: before = trail.reverse ++ lead :: more) (some : trail ≠ [])
    (reaches : (outcomeOf lead trail).2 = trail.length + 1) :
    decisionOf last before = outcomeOf lead trail := by
  have positive := List.length_pos_of_ne_nil some
  have most := outcomeOf_le_four lead trail
  have several := several_of_outcome (show (outcomeOf lead trail).2 ≠ 1 by omega)
  rcases trail with _ | ⟨y1, _ | ⟨y2, _ | ⟨y3, _ | ⟨y4, trail⟩⟩⟩⟩
  · exact absurd rfl some
  · rcases List.cons.inj whole with ⟨rfl, rfl⟩
    exact decision_two several _ _
  · rcases List.cons.inj whole with ⟨rfl, rfl⟩
    exact decision_three several reaches _
  · rcases List.cons.inj whole with ⟨rfl, rfl⟩
    exact decision_four several reaches
  · simp only [List.length_cons] at reaches
    omega

theorem reaches_of_decisionOf {last : BitVec 8} {before : List (BitVec 8)}
    (several : decisionOf last before ≠ (false, 1)) :
    ∃ lead trail more, last :: before = trail.reverse ++ lead :: more ∧ trail ≠ [] ∧
      decisionOf last before = outcomeOf lead trail ∧
        (outcomeOf lead trail).2 = trail.length + 1 := by
  have absent (y1 y2 y3 : ℕ) : (outcome 0 y1 y2 y3).2 = 1 :=
    congrArg Prod.snd (outcome_ascii y1 y2 y3 (Nat.zero_le _))
  rcases outcome_of_decision last.toNat (before.headD 0).toNat (before.tail.headD 0).toNat
    (before.tail.tail.headD 0).toNat with single | ⟨same, two⟩ | ⟨same, three⟩ | ⟨same, four⟩
  · exact absurd single several
  · rcases before with _ | ⟨y1, more⟩
    · exact absurd ((absent _ _ _).symm.trans two) (by decide)
    · exact ⟨y1, [last], more, rfl, by simp, same, two⟩
  · rcases before with _ | ⟨y1, _ | ⟨y2, more⟩⟩
    · exact absurd ((absent _ _ _).symm.trans three) (by decide)
    · exact absurd ((absent _ _ _).symm.trans three) (by decide)
    · exact ⟨y2, [y1, last], more, rfl, by simp, same, three⟩
  · rcases before with _ | ⟨y1, _ | ⟨y2, _ | ⟨y3, more⟩⟩⟩
    · exact absurd ((absent _ _ _).symm.trans four) (by decide)
    · exact absurd ((absent _ _ _).symm.trans four) (by decide)
    · exact absurd ((absent _ _ _).symm.trans four) (by decide)
    · exact ⟨y3, [y2, y1, last], more, rfl, by simp, same, four⟩

end ReverseParser

end UTF8

end USwift
