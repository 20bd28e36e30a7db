import USwift.Integer.FullWidth
import USwift.Integer.MaskingShift
import USwift.Library.Iteration
import USwift.Library.Rejection

/-!
# Random integers below a bound

A generator delivers one `UInt32` at a time. `_random(using:)` makes a value of any integer
type from it, and `next(upperBound:)` takes such a value to the upper half of its product
with the bound. It draws again where the lower half says so, and finds out how small that
has to be only when it is small enough to matter.
-/

namespace USwift

open Heterogeneous TwosComplement Iteration Rejection

section Operations

variable (word : WordSize) (type : IntegerType) {Generator : Type}
  (next : Generator → Value word .uint32 × Generator)

/-- `signum()`. -/
def signum (self : Value word type) : Value word type :=
  (if less word type 0 self then 1 else 0) - (if less word type self 0 then 1 else 0)

/-- The loop of `_random(using:)` over the positions that remain. -/
def randomLoop : List (Value word .int) → Value word type → Generator →
    Value word type × Generator
  | [], tmp, generator => (tmp, generator)
  | i :: rest, tmp, generator =>
      let drawn := next generator
      randomLoop rest
        (tmp + genericMaskingShiftLeft word type (truncatingIfNeeded word type .uint32 drawn.1)
          ((BitVec.ofNat _ 32 : Value word .int) * i)) drawn.2

/-- `_random(using:)`, with no result where a division has none. -/
def _random (generator : Generator) : Option (Value word type × Generator) :=
  if type.bitWidth word ≤ 32 then
    let drawn := next generator
    some (truncatingIfNeeded word type .uint32 drawn.1, drawn.2)
  else do
    let bitWidth : Value word .int := BitVec.ofNat _ (type.bitWidth word)
    let quotient ← divideAssign word .int bitWidth (BitVec.ofNat _ 32)
    let remainder ← remainderAssign word .int bitWidth (BitVec.ofNat _ 32)
    let count := (toInt word .int (quotient + signum word .int remainder)).toNat
    some (randomLoop word type next ((List.range count).map (BitVec.ofNat _)) 0 generator)

/-- The loop of `next(upperBound:)`, for at most a number of draws. -/
def redraw (upperBound t : Value word type) : ℕ →
    Value word type × Value word type.magnitude → Generator → Option (Value word type × Generator)
  | 0, _, _ => none
  | fuel + 1, m, generator =>
      if lessThan word m.2 t then do
        let drawn ← _random word type next generator
        redraw upperBound t fuel (multipliedFullWidth word type drawn.1 upperBound) drawn.2
      else some (m.1, generator)

/-- `next(upperBound:)`, with no result where a bound on the draws is reached. -/
def nextUpperBound (upperBound : Value word type) (fuel : ℕ) (generator : Generator) :
    Option (Value word type × Generator) := do
  let drawn ← _random word type next generator
  let m := multipliedFullWidth word type drawn.1 upperBound
  if lessThan word m.2 upperBound then
    let t ← remainderAssign word type (0 - upperBound) upperBound
    redraw word type next upperBound t fuel m drawn.2
  else some (m.1, drawn.2)

end Operations

variable {word : WordSize} {type : IntegerType}

/-- The lower half of the product of a draw with the bound is too small. -/
def Rejects (upperBound x : Value word type) : Prop :=
  (multipliedFullWidth word type x upperBound).2.toNat <
    2 ^ type.bitWidth word % upperBound.toNat

theorem toInt_unsigned (unsigned : type.isSigned = false) (x : Value word type) :
    toInt word type x = BitVec.toNat x := by
  rw [toInt, unsigned]
  rfl

/-- The halves of a product of unsigned values. -/
theorem toNat_multipliedFullWidth (unsigned : type.isSigned = false) (x y : Value word type) :
    (multipliedFullWidth word type x y).1.toNat =
        x.toNat * y.toNat / 2 ^ type.bitWidth word ∧
      (multipliedFullWidth word type x y).2.toNat =
        x.toNat * y.toNat % 2 ^ type.bitWidth word := by
  have exact := multipliedFullWidth_exact x y
  have width := congrArg (2 ^ ·) (type.bitWidth_magnitude word)
  have low := (multipliedFullWidth word type x y).2.isLt.trans_eq width.symm
  rw [toInt_unsigned unsigned, toInt_unsigned unsigned, toInt_unsigned unsigned,
    toInt_magnitudeType] at exact
  norm_cast at exact
  rw [← exact]
  constructor
  · rw [Nat.mul_comm, Nat.mul_add_div (Nat.two_pow_pos _), Nat.div_eq_of_lt low, Nat.add_zero]
  · rw [Nat.mul_add_mod', Nat.mod_eq_of_lt low]

theorem rejects_iff (unsigned : type.isSigned = false) (upperBound x : Value word type) :
    Rejects upperBound x ↔
      Rejected (2 ^ type.bitWidth word) (BitVec.toNat upperBound) (BitVec.toNat x) := by
  rw [Rejects, (toNat_multipliedFullWidth unsigned x upperBound).2]
  rfl

/-- The two comparisons of a lower half stay within one width. -/
theorem lessThan_lower_iff (unsigned : type.isSigned = false)
    (low : Value word type.magnitude) (y : Value word type) :
    lessThan word low y = true ↔ BitVec.toNat low < BitVec.toNat y := by
  have width := type.bitWidth_magnitude word
  have lowFaithful : Faithful word type.magnitude type low :=
    (faithful_iff word _ _ _).mpr fun irregular => by
      rw [irregular.2.1] at width
      have sixteen : IntegerType.uint16.bitWidth word = 16 := rfl
      omega
  have yFaithful : Faithful word type type.magnitude y :=
    (faithful_iff word _ _ _).mpr fun irregular => by
      have wide := irregular.2.2.1
      rw [irregular.2.1] at wide
      exact absurd wide (by simp)
  rw [lessThan_iff lowFaithful yFaithful, toInt_magnitudeType, toInt_unsigned unsigned]
  exact Int.ofNat_lt

theorem remainderAssign_unsigned (unsigned : type.isSigned = false) (lhs : Value word type)
    {rhs : Value word type} (nonzero : rhs ≠ 0) :
    remainderAssign word type lhs rhs = some (lhs % rhs) := by
  have other : type ≠ .int64 := by
    rintro rfl
    cases unsigned
  rw [remainderAssign_of_ne_int64 other, if_neg fun zero => nonzero (eq_of_beq zero),
    if_neg (by simp [overflowGuard, unsigned])]
  have defined : ¬ DivisionUndefined word type lhs rhs := by
    rintro (zero | ⟨signed, _⟩)
    · exact nonzero zero
    · simp [unsigned] at signed
  rw [remainderBuiltin, if_neg defined, unsigned, if_neg Bool.false_ne_true]

/-- What a bound leaves of the power of two, found without forming the power. -/
theorem remainder_negated_bound (unsigned : type.isSigned = false) {upperBound : Value word type}
    (nonzero : upperBound ≠ 0) :
    ∃ t : Value word type, remainderAssign word type (0 - upperBound) upperBound = some t ∧
      BitVec.toNat t = 2 ^ type.bitWidth word % BitVec.toNat upperBound := by
  have inside := upperBound.isLt
  have positive : BitVec.toNat upperBound ≠ 0 := fun zero =>
    nonzero (BitVec.eq_of_toNat_eq zero)
  have negated : BitVec.toNat (0 - upperBound) = 2 ^ type.bitWidth word - upperBound.toNat := by
    have zero : BitVec.toNat (0 : Value word type) = 0 := BitVec.toNat_zero
    rw [BitVec.toNat_sub, zero, Nat.add_zero]
    exact Nat.mod_eq_of_lt (by omega)
  refine ⟨_, remainderAssign_unsigned unsigned _ nonzero, ?_⟩
  rw [BitVec.toNat_umod, negated, ← Nat.mod_eq_sub_mod inside.le]

/-- Two words in one, the second one shifted. -/
theorem add_shifted_words (first second : BitVec 32) :
    (0 : BitVec 64) + first.setWidth 64 <<< (32 * 0) + second.setWidth 64 <<< (32 * 1) =
      second ++ first := by
  have low := first.isLt
  have high := second.isLt
  apply BitVec.eq_of_toNat_eq
  rw [BitVec.toNat_append, ← Nat.shiftLeft_add_eq_or_of_lt low]
  have zero : (0 : BitVec 64).toNat = 0 := rfl
  simp only [BitVec.toNat_add, BitVec.toNat_shiftLeft, BitVec.toNat_setWidth, Nat.shiftLeft_eq,
    zero]
  omega

theorem randomLoop_uint64 {Generator : Type} (next : Generator → Value word .uint32 × Generator)
    (generator : Generator) :
    randomLoop word .uint64 next ((List.range 2).map (BitVec.ofNat _)) 0 generator =
      ((next (next generator).2).1 ++ (next generator).1, (next (next generator).2).2) := by
  have extended (x : Value word .uint32) : truncatingIfNeeded word .uint64 .uint32 x =
      x.setWidth 64 := truncatingIfNeeded_unsigned rfl (by simp) x
  have shifted (x : Value word .uint64) {i : ℕ} (small : i < 2) :
      genericMaskingShiftLeft word .uint64 x
        ((BitVec.ofNat _ 32 : Value word .int) * BitVec.ofNat _ i) = x <<< (32 * i) := by
    have amount : truncatingIfNeeded word .uint64 .int
        ((BitVec.ofNat _ 32 : Value word .int) * BitVec.ofNat _ i) = BitVec.ofNat _ (32 * i) := by
      rcases (by omega : i = 0 ∨ i = 1) with rfl | rfl <;> cases word <;> decide
    have below : 32 * i < IntegerType.uint64.bitWidth word := by
      rw [IntegerType.bitWidth_uint64]
      omega
    rw [genericMaskingShiftLeft, amount, maskingShiftLeft_ofNat x below]
  have positions : (List.range 2).map (BitVec.ofNat (IntegerType.int.bitWidth word)) =
      [BitVec.ofNat _ 0, BitVec.ofNat _ 1] := rfl
  simp only [positions, randomLoop, extended, shifted _ Nat.zero_lt_two, shifted _ Nat.one_lt_two]
  exact congrArg (·, _) (add_shifted_words _ _)

/-- A draw is cut off from the next two words of the generator. -/
theorem random_eq (unsigned : type.isSigned = false) {Generator : Type}
    (next : Generator → Value word .uint32 × Generator) (generator : Generator) :
    ∃ later, _random word type next generator =
      some (((next (next generator).2).1 ++ (next generator).1).setWidth _, later) := by
  by_cases narrow : type.bitWidth word ≤ 32
  · have converted : truncatingIfNeeded word type .uint32 (next generator).1 =
        (next generator).1.setWidth _ := truncatingIfNeeded_unsigned rfl (by simp) _
    have cut : (next generator).1.setWidth (type.bitWidth word) =
        ((next (next generator).2).1 ++ (next generator).1).setWidth _ := by
      apply BitVec.eq_of_getLsbD_eq
      intro index inside
      simp [BitVec.getLsbD_append, show index < 32 by omega]
    refine ⟨(next generator).2, ?_⟩
    simp only [_random, if_pos narrow, converted, cut]
  · obtain rfl : type = .uint64 := by
      revert unsigned narrow
      cases type <;> cases word <;> decide
    have divided : divideAssign word .int (BitVec.ofNat _ 64) (BitVec.ofNat _ 32) = some 2 := by
      cases word <;> decide
    have rest : remainderAssign word .int (BitVec.ofNat _ 64) (BitVec.ofNat _ 32) = some 0 := by
      cases word <;> decide
    have count : (toInt word .int (2 + signum word .int 0)).toNat = 2 := by
      cases word <;> decide
    refine ⟨(next (next generator).2).2, ?_⟩
    simp only [_random, if_neg narrow, divided, rest, Option.bind_eq_bind, Option.bind_some, count]
    exact congrArg some
      ((randomLoop_uint64 next generator).trans (Prod.ext (BitVec.setWidth_eq _).symm rfl))

/-- All draws but the last one are rejected. -/
def EndsWith (upperBound : Value word type) (draws : List (Value word type))
    (final : Value word type) : Prop :=
  ∃ rejected, draws = rejected ++ [final] ∧ (∀ x ∈ rejected, Rejects upperBound x) ∧
    ¬ Rejects upperBound final

theorem endsWith_cons_of_not_rejects {upperBound x final : Value word type}
    {draws : List (Value word type)} (accepted : ¬ Rejects upperBound x) :
    EndsWith upperBound (x :: draws) final ↔ draws = [] ∧ x = final := by
  constructor
  · rintro ⟨rejected, split, all, _⟩
    cases rejected with
    | nil =>
        rw [List.nil_append, List.cons.injEq] at split
        exact ⟨split.2, split.1⟩
    | cons y rejected =>
        rw [List.cons_append, List.cons.injEq] at split
        exact absurd (all x (split.1 ▸ List.mem_cons_self)) accepted
  · rintro ⟨rfl, rfl⟩
    exact ⟨[], rfl, by simp, accepted⟩

theorem endsWith_cons_of_rejects {upperBound x final : Value word type}
    {draws : List (Value word type)} (rejects : Rejects upperBound x) :
    EndsWith upperBound (x :: draws) final ↔ EndsWith upperBound draws final := by
  constructor
  · rintro ⟨rejected, split, all, accepted⟩
    cases rejected with
    | nil =>
        rw [List.nil_append, List.cons.injEq] at split
        exact absurd (split.1 ▸ rejects) accepted
    | cons y rejected =>
        rw [List.cons_append, List.cons.injEq] at split
        exact ⟨rejected, split.2, fun z inside => all z (List.mem_cons_of_mem _ inside), accepted⟩
  · rintro ⟨rejected, rfl, all, accepted⟩
    refine ⟨x :: rejected, rfl, ?_, accepted⟩
    intro z inside
    rcases List.mem_cons.mp inside with rfl | later
    · exact rejects
    · exact all z later

section Loop

variable (unsigned : type.isSigned = false) {upperBound t : Value word type}
  (threshold : BitVec.toNat t = 2 ^ type.bitWidth word % BitVec.toNat upperBound)
  {Generator : Type} {next : Generator → Value word .uint32 × Generator}

include unsigned threshold

theorem lessThan_threshold_iff (x : Value word type) :
    lessThan word (multipliedFullWidth word type x upperBound).2 t = true ↔
      Rejects upperBound x := by
  rw [lessThan_lower_iff unsigned, threshold, Rejects]

/-- The loop ends after the draws up to the first one that is not rejected. -/
theorem redraw_runs {fuel : ℕ} {x r : Value word type} {generator final : Generator}
    (returned : redraw word type next upperBound t fuel
      (multipliedFullWidth word type x upperBound) generator = some (r, final)) :
    ∃ draws last, Runs (_random word type next) generator draws final ∧
      EndsWith upperBound (x :: draws) last ∧
      r = (multipliedFullWidth word type last upperBound).1 := by
  induction fuel generalizing x generator with
  | zero => simp [redraw] at returned
  | succ fuel shorter =>
      rw [redraw] at returned
      split_ifs at returned with test
      · rw [lessThan_threshold_iff unsigned threshold] at test
        rw [Option.bind_eq_bind, Option.bind_eq_some_iff] at returned
        rcases returned with ⟨⟨y, later⟩, drawn, rest⟩
        rcases shorter rest with ⟨draws, last, runs, ends, result⟩
        exact ⟨y :: draws, last, .step drawn runs, (endsWith_cons_of_rejects test).mpr ends, result⟩
      · rw [lessThan_threshold_iff unsigned threshold] at test
        simp only [Option.some.injEq, Prod.mk.injEq] at returned
        rcases returned with ⟨rfl, rfl⟩
        exact ⟨[], x, .refl _, (endsWith_cons_of_not_rejects test).mpr ⟨rfl, rfl⟩, rfl⟩

theorem redraw_of_runs {x last : Value word type} {draws : List (Value word type)}
    {generator final : Generator} (runs : Runs (_random word type next) generator draws final)
    (ends : EndsWith upperBound (x :: draws) last) :
    ∃ fuel, redraw word type next upperBound t fuel
      (multipliedFullWidth word type x upperBound) generator =
        some ((multipliedFullWidth word type last upperBound).1, final) := by
  induction runs generalizing x with
  | refl generator =>
      by_cases test : Rejects upperBound x
      · rcases (endsWith_cons_of_rejects test).mp ends with ⟨rejected, split, _⟩
        simp at split
      · rcases (endsWith_cons_of_not_rejects test).mp ends with ⟨_, rfl⟩
        refine ⟨1, ?_⟩
        rw [redraw, if_neg ((lessThan_threshold_iff unsigned threshold x).not.mpr test)]
  | step drawn rest shorter =>
      by_cases test : Rejects upperBound x
      · rcases shorter ((endsWith_cons_of_rejects test).mp ends) with ⟨fuel, returned⟩
        refine ⟨fuel + 1, ?_⟩
        rw [redraw, if_pos ((lessThan_threshold_iff unsigned threshold x).mpr test),
          Option.bind_eq_bind, drawn, Option.bind_some]
        exact returned
      · rcases (endsWith_cons_of_not_rejects test).mp ends with ⟨none, _⟩
        cases none

end Loop

/-- The first test lets every draw through that the second one does not reject. -/
theorem not_rejects_of_not_lessThan (unsigned : type.isSigned = false)
    {upperBound x : Value word type} (nonzero : upperBound ≠ 0)
    (test : ¬ lessThan word (multipliedFullWidth word type x upperBound).2 upperBound = true) :
    ¬ Rejects upperBound x := by
  rw [lessThan_lower_iff unsigned] at test
  have positive : 0 < BitVec.toNat upperBound :=
    Nat.pos_of_ne_zero fun zero => nonzero (BitVec.eq_of_toNat_eq zero)
  have below := Nat.mod_lt (2 ^ type.bitWidth word) positive
  rw [Rejects]
  omega

/-- `next(upperBound:)` returns the upper half for the first draw that is not rejected. -/
theorem nextUpperBound_iff (unsigned : type.isSigned = false) {upperBound : Value word type}
    (nonzero : upperBound ≠ 0) {Generator : Type}
    {next : Generator → Value word .uint32 × Generator} {generator final : Generator}
    {r : Value word type} :
    (∃ fuel, nextUpperBound word type next upperBound fuel generator = some (r, final)) ↔
      ∃ draws last, Runs (_random word type next) generator draws final ∧
        EndsWith upperBound draws last ∧
        r = (multipliedFullWidth word type last upperBound).1 := by
  rcases remainder_negated_bound unsigned nonzero with ⟨t, computed, threshold⟩
  constructor
  · rintro ⟨fuel, returned⟩
    rw [nextUpperBound, Option.bind_eq_bind, Option.bind_eq_some_iff] at returned
    rcases returned with ⟨⟨x, later⟩, drawn, rest⟩
    dsimp only at rest
    split_ifs at rest with test
    · rw [computed] at rest
      rcases redraw_runs unsigned threshold rest with ⟨draws, last, runs, ends, result⟩
      exact ⟨x :: draws, last, .step drawn runs, ends, result⟩
    · simp only [Option.some.injEq, Prod.mk.injEq] at rest
      rcases rest with ⟨rfl, rfl⟩
      have accepted := not_rejects_of_not_lessThan unsigned nonzero test
      exact ⟨[x], x, .step drawn (.refl _), (endsWith_cons_of_not_rejects accepted).mpr ⟨rfl, rfl⟩,
        rfl⟩
  · rintro ⟨draws, last, runs, ends, rfl⟩
    cases runs with
    | refl =>
        rcases ends with ⟨rejected, split, _⟩
        simp at split
    | step drawn rest =>
        rename_i later x draws
        by_cases test :
            lessThan word (multipliedFullWidth word type x upperBound).2 upperBound = true
        · rcases redraw_of_runs unsigned threshold rest ends with ⟨fuel, returned⟩
          refine ⟨fuel, ?_⟩
          simp only [nextUpperBound, drawn, Option.bind_eq_bind, Option.bind_some, if_pos test,
            computed, returned]
        · have accepted := not_rejects_of_not_lessThan unsigned nonzero test
          rcases (endsWith_cons_of_not_rejects accepted).mp ends with ⟨rfl, rfl⟩
          cases rest
          refine ⟨0, ?_⟩
          simp only [nextUpperBound, drawn, Option.bind_eq_bind, Option.bind_some, if_neg test]

/-- Two words of a generator, to and fro. -/
def alternate {Word : Type} (words : Word × Word) : Word × (Word × Word) :=
  (words.1, (words.2, words.1))

/-- Every value is drawn from as many pairs of words as any other one. -/
theorem ncard_random (unsigned : type.isSigned = false) (x : Value word type) :
    {words | ∃ later, _random word type alternate words = some (x, later)}.ncard =
      2 ^ (64 - type.bitWidth word) := by
  have drawn (words : Value word .uint32 × Value word .uint32) :
      (∃ later, _random word type alternate words = some (x, later)) ↔
        (words.2 ++ words.1).setWidth (type.bitWidth word) = x := by
    rcases random_eq unsigned alternate words with ⟨final, result⟩
    rw [result]
    simp [alternate]
  simp only [drawn]
  rw [ncard_append fun bits => bits.setWidth (type.bitWidth word) = x]
  exact ncard_setWidth (type.bitWidth_le word) x

/-- Every result below the bound comes from as many draws that are not rejected. -/
theorem ncard_not_rejects (unsigned : type.isSigned = false) {upperBound r : Value word type}
    (below : BitVec.toNat r < BitVec.toNat upperBound) :
    {x | ¬ Rejects upperBound x ∧ (multipliedFullWidth word type x upperBound).1 = r}.ncard =
      2 ^ type.bitWidth word / BitVec.toNat upperBound := by
  have accepted (x : Value word type) :
      (¬ Rejects upperBound x ∧ (multipliedFullWidth word type x upperBound).1 = r) ↔
        ¬ Rejected (2 ^ type.bitWidth word) (BitVec.toNat upperBound) (BitVec.toNat x) ∧
          BitVec.toNat x * BitVec.toNat upperBound / 2 ^ type.bitWidth word = BitVec.toNat r := by
    rw [rejects_iff unsigned, ← BitVec.toNat_inj, (toNat_multipliedFullWidth unsigned x _).1]
  simp only [accepted]
  rw [ncard_words fun n => ¬ Rejected (2 ^ type.bitWidth word) (BitVec.toNat upperBound) n ∧
    n * BitVec.toNat upperBound / 2 ^ type.bitWidth word = BitVec.toNat r]
  exact ncard_accepted (by omega) below

/--
`next(upperBound:)` returns a value below the bound, the upper half for the first draw whose
lower half is not too small. Each of these values comes from as many draws, and each draw
from as many words of the generator.
-/
theorem nextUpperBound_unbiased (word : WordSize) (type : IntegerType)
    (unsigned : type.isSigned = false) (upperBound : Value word type) (nonzero : upperBound ≠ 0) :
    (∀ (Generator : Type) (next : Generator → Value word .uint32 × Generator)
      (generator final : Generator) (r : Value word type),
      (∃ fuel, nextUpperBound word type next upperBound fuel generator = some (r, final)) ↔
        ∃ draws last, Runs (_random word type next) generator draws final ∧
          EndsWith upperBound draws last ∧
          r = (multipliedFullWidth word type last upperBound).1) ∧
    (∀ (Generator : Type) (next : Generator → Value word .uint32 × Generator)
      (generator final : Generator) (r : Value word type) (fuel : ℕ),
      nextUpperBound word type next upperBound fuel generator = some (r, final) →
        BitVec.toNat r < BitVec.toNat upperBound) ∧
    (∀ r : Value word type, BitVec.toNat r < BitVec.toNat upperBound →
      {x | ¬ Rejects upperBound x ∧ (multipliedFullWidth word type x upperBound).1 = r}.ncard =
        2 ^ type.bitWidth word / BitVec.toNat upperBound) ∧
    ∀ x : Value word type,
      {words | ∃ later, _random word type alternate words = some (x, later)}.ncard =
        2 ^ (64 - type.bitWidth word) := by
  refine ⟨fun Generator next generator final r => nextUpperBound_iff unsigned nonzero, ?_,
    fun r below => ncard_not_rejects unsigned below, ncard_random unsigned⟩
  intro Generator next generator final r fuel returned
  rcases (nextUpperBound_iff unsigned nonzero).mp ⟨fuel, returned⟩ with ⟨draws, last, _, _, rfl⟩
  have positive : 0 < BitVec.toNat upperBound :=
    Nat.pos_of_ne_zero fun zero => nonzero (BitVec.eq_of_toNat_eq zero)
  rw [(toNat_multipliedFullWidth unsigned last upperBound).1]
  exact outcome_lt last.isLt positive

/-- Each of the results 0 to 5 comes from 42 of the 256 draws of a `UInt8`. -/
theorem uint8_below_six :
    {x | ¬ @Rejects .word16 .uint8 6 x ∧
      (multipliedFullWidth .word16 .uint8 x 6).1 = 5}.ncard = 42 :=
  (nextUpperBound_unbiased .word16 .uint8 rfl 6 (by decide)).2.2.1 5 (by decide)

end USwift
