import Mathlib.Algebra.Group.Nat.Defs
import USwift.Library.Utf8

/-!
# Encoding forms

The Unicode scalar values and the sequences of code units that stand for them in
UTF-8, UTF-16 and UTF-32. The well-formed sequences of bytes are exactly the ones
that UTF-8 assigns to the scalars.
-/

namespace EncodingForms

open Segmentation

/-- A code point that is not a surrogate. -/
structure Scalar where
  value : ℕ
  inside : value ≤ 0x10FFFF
  notSurrogate : ¬ (0xD800 ≤ value ∧ value ≤ 0xDFFF)
  deriving DecidableEq

namespace Scalar

/-- U+FFFD. -/
def replacement : Scalar := ⟨0xFFFD, by decide, by decide⟩

/-- The lead byte carries the highest bits of a scalar and every continuation byte six more. -/
def utf8 (scalar : Scalar) : List (BitVec 8) :=
  let continuation (shift : ℕ) : BitVec 8 := BitVec.ofNat 8 (0x80 + scalar.value / 2 ^ shift % 64)
  if scalar.value < 0x80 then [BitVec.ofNat 8 scalar.value]
  else if scalar.value < 0x800 then [BitVec.ofNat 8 (0xC0 + scalar.value / 2 ^ 6), continuation 0]
  else if scalar.value < 0x10000 then
    [BitVec.ofNat 8 (0xE0 + scalar.value / 2 ^ 12), continuation 6, continuation 0]
  else
    [BitVec.ofNat 8 (0xF0 + scalar.value / 2 ^ 18), continuation 12, continuation 6,
      continuation 0]

/-- A scalar beyond 16 bits is a lead surrogate and a trail surrogate of ten bits each. -/
def utf16 (scalar : Scalar) : List (BitVec 16) :=
  if scalar.value < 0x10000 then [BitVec.ofNat 16 scalar.value]
  else
    [BitVec.ofNat 16 (0xD800 + (scalar.value - 0x10000) / 2 ^ 10),
      BitVec.ofNat 16 (0xDC00 + (scalar.value - 0x10000) % 2 ^ 10)]

def utf32 (scalar : Scalar) : List (BitVec 32) :=
  [BitVec.ofNat 32 scalar.value]

end Scalar

theorem toNat_ofNat_of_lt {width value : ℕ} (small : value < 2 ^ width) :
    (BitVec.ofNat width value).toNat = value := by
  rw [BitVec.toNat_ofNat]
  exact Nat.mod_eq_of_lt small

theorem contains_ofNat {low high value : ℕ} (above : low ≤ value) (below : value ≤ high)
    (small : high < 256) : (⟨low, high⟩ : Utf8.Range).Contains (BitVec.ofNat 8 value) := by
  rw [Utf8.Range.Contains, toNat_ofNat_of_lt (by omega)]
  exact ⟨above, below⟩

theorem continuation_contains (value : ℕ) :
    Utf8.continuation.Contains (BitVec.ofNat 8 (0x80 + value % 64)) :=
  contains_ofNat (by omega) (by omega) (by decide)

theorem utf8_wellFormed (scalar : Scalar) : Utf8.WellFormed scalar.utf8 := by
  have inside := scalar.inside
  have notSurrogate := scalar.notSurrogate
  have tail := continuation_contains
  rw [Scalar.utf8]
  split_ifs with one two three
  · exact ⟨⟨⟨0x00, 0x7F⟩, []⟩, by decide, contains_ofNat (by omega) (by omega) (by decide), .nil⟩
  · exact ⟨⟨⟨0xC2, 0xDF⟩, [Utf8.continuation]⟩, by decide,
      contains_ofNat (by omega) (by omega) (by decide), .cons (tail _) .nil⟩
  · rcases lt_or_ge scalar.value 0x1000 with first | first
    · exact ⟨⟨⟨0xE0, 0xE0⟩, [⟨0xA0, 0xBF⟩, Utf8.continuation]⟩, by decide,
        contains_ofNat (by omega) (by omega) (by decide),
        .cons (contains_ofNat (by omega) (by omega) (by decide)) (.cons (tail _) .nil)⟩
    rcases lt_or_ge scalar.value 0xD000 with second | second
    · exact ⟨⟨⟨0xE1, 0xEC⟩, [Utf8.continuation, Utf8.continuation]⟩, by decide,
        contains_ofNat (by omega) (by omega) (by decide),
        .cons (tail _) (.cons (tail _) .nil)⟩
    rcases lt_or_ge scalar.value 0xE000 with third | third
    · exact ⟨⟨⟨0xED, 0xED⟩, [⟨0x80, 0x9F⟩, Utf8.continuation]⟩, by decide,
        contains_ofNat (by omega) (by omega) (by decide),
        .cons (contains_ofNat (by omega) (by omega) (by decide)) (.cons (tail _) .nil)⟩
    · exact ⟨⟨⟨0xEE, 0xEF⟩, [Utf8.continuation, Utf8.continuation]⟩, by decide,
        contains_ofNat (by omega) (by omega) (by decide),
        .cons (tail _) (.cons (tail _) .nil)⟩
  · rcases lt_or_ge scalar.value 0x40000 with first | first
    · exact ⟨⟨⟨0xF0, 0xF0⟩, [⟨0x90, 0xBF⟩, Utf8.continuation, Utf8.continuation]⟩, by decide,
        contains_ofNat (by omega) (by omega) (by decide),
        .cons (contains_ofNat (by omega) (by omega) (by decide))
          (.cons (tail _) (.cons (tail _) .nil))⟩
    rcases lt_or_ge scalar.value 0x100000 with second | second
    · exact ⟨⟨⟨0xF1, 0xF3⟩, [Utf8.continuation, Utf8.continuation, Utf8.continuation]⟩,
        by decide, contains_ofNat (by omega) (by omega) (by decide),
        .cons (tail _) (.cons (tail _) (.cons (tail _) .nil))⟩
    · exact ⟨⟨⟨0xF4, 0xF4⟩, [⟨0x80, 0x8F⟩, Utf8.continuation, Utf8.continuation]⟩, by decide,
        contains_ofNat (by omega) (by omega) (by decide),
        .cons (contains_ofNat (by omega) (by omega) (by decide))
          (.cons (tail _) (.cons (tail _) .nil))⟩

theorem ofNat_eq {width value : ℕ} {unit : BitVec width} (same : value = unit.toNat) :
    BitVec.ofNat width value = unit := by
  rw [same, BitVec.ofNat_toNat, BitVec.setWidth_eq]

theorem utf8_two {x0 x1 : BitVec 8} (lead : 0xC2 ≤ x0.toNat ∧ x0.toNat ≤ 0xDF)
    (tail1 : 0x80 ≤ x1.toNat ∧ x1.toNat ≤ 0xBF) : ∃ scalar : Scalar, scalar.utf8 = [x0, x1] := by
  refine ⟨⟨x0.toNat % 32 * 64 + x1.toNat % 64, by omega, by omega⟩, ?_⟩
  rw [Scalar.utf8, if_neg (by dsimp only; omega), if_pos (by dsimp only; omega)]
  congr 2
  · exact ofNat_eq (by dsimp only; omega)
  · exact ofNat_eq (by dsimp only; omega)

theorem utf8_three {x0 x1 x2 : BitVec 8} (lead : 0xE0 ≤ x0.toNat ∧ x0.toNat ≤ 0xEF)
    (tail1 : 0x80 ≤ x1.toNat ∧ x1.toNat ≤ 0xBF) (tail2 : 0x80 ≤ x2.toNat ∧ x2.toNat ≤ 0xBF)
    (notShort : x0.toNat = 0xE0 → 0xA0 ≤ x1.toNat)
    (notSurrogate : x0.toNat = 0xED → x1.toNat ≤ 0x9F) :
    ∃ scalar : Scalar, scalar.utf8 = [x0, x1, x2] := by
  refine ⟨⟨x0.toNat % 16 * 4096 + x1.toNat % 64 * 64 + x2.toNat % 64, by omega, by omega⟩, ?_⟩
  rw [Scalar.utf8, if_neg (by dsimp only; omega), if_neg (by dsimp only; omega),
    if_pos (by dsimp only; omega)]
  congr 3
  · exact ofNat_eq (by dsimp only; omega)
  · exact ofNat_eq (by dsimp only; omega)
  · exact ofNat_eq (by dsimp only; omega)

theorem utf8_four {x0 x1 x2 x3 : BitVec 8} (lead : 0xF0 ≤ x0.toNat ∧ x0.toNat ≤ 0xF4)
    (tail1 : 0x80 ≤ x1.toNat ∧ x1.toNat ≤ 0xBF) (tail2 : 0x80 ≤ x2.toNat ∧ x2.toNat ≤ 0xBF)
    (tail3 : 0x80 ≤ x3.toNat ∧ x3.toNat ≤ 0xBF) (notShort : x0.toNat = 0xF0 → 0x90 ≤ x1.toNat)
    (inside : x0.toNat = 0xF4 → x1.toNat ≤ 0x8F) :
    ∃ scalar : Scalar, scalar.utf8 = [x0, x1, x2, x3] := by
  refine ⟨⟨x0.toNat % 8 * 262144 + x1.toNat % 64 * 4096 + x2.toNat % 64 * 64 + x3.toNat % 64,
    by omega, by omega⟩, ?_⟩
  rw [Scalar.utf8, if_neg (by dsimp only; omega), if_neg (by dsimp only; omega),
    if_neg (by dsimp only; omega)]
  congr 4
  · exact ofNat_eq (by dsimp only; omega)
  · exact ofNat_eq (by dsimp only; omega)
  · exact ofNat_eq (by dsimp only; omega)
  · exact ofNat_eq (by dsimp only; omega)

section Trail

variable {range1 range2 range3 : Utf8.Range} {trail : List (BitVec 8)}

theorem trail_two (agrees : List.Forall₂ Utf8.Range.Contains [range1, range2] trail) :
    ∃ x1 x2, trail = [x1, x2] ∧ range1.Contains x1 ∧ range2.Contains x2 := by
  rcases List.forall₂_cons_left_iff.mp agrees with ⟨x1, _, first, rest, rfl⟩
  rcases List.forall₂_cons_left_iff.mp rest with ⟨x2, _, second, nothing, rfl⟩
  rcases List.forall₂_nil_left_iff.mp nothing with rfl
  exact ⟨x1, x2, rfl, first, second⟩

theorem trail_three (agrees : List.Forall₂ Utf8.Range.Contains [range1, range2, range3] trail) :
    ∃ x1 x2 x3, trail = [x1, x2, x3] ∧ range1.Contains x1 ∧ range2.Contains x2 ∧
      range3.Contains x3 := by
  rcases List.forall₂_cons_left_iff.mp agrees with ⟨x1, _, first, rest, rfl⟩
  rcases trail_two rest with ⟨x2, x3, rfl, second, third⟩
  exact ⟨x1, x2, x3, rfl, first, second, third⟩

end Trail

theorem exists_utf8 {units : List (BitVec 8)} (wellFormed : Utf8.WellFormed units) :
    ∃ scalar : Scalar, scalar.utf8 = units := by
  cases units with
  | nil => exact absurd wellFormed id
  | cons lead trail =>
      rcases wellFormed with ⟨row, mem, contains, agrees⟩
      have bounds (range : Utf8.Range) (unit : BitVec 8) (inside : range.Contains unit) :
          range.low ≤ unit.toNat ∧ unit.toNat ≤ range.high := inside
      simp only [Utf8.table, Utf8.continuation, List.mem_cons, List.not_mem_nil, or_false] at mem
      rcases mem with rfl | rfl | rfl | rfl | rfl | rfl | rfl | rfl | rfl
      · rcases List.forall₂_nil_left_iff.mp agrees with rfl
        have ascii : lead.toNat ≤ 0x7F := contains.2
        refine ⟨⟨lead.toNat, by omega, by omega⟩, ?_⟩
        rw [Scalar.utf8, if_pos (by dsimp only; omega)]
        exact congrArg (fun unit => [unit]) (ofNat_eq rfl)
      · rcases List.forall₂_cons_left_iff.mp agrees with ⟨x1, _, tail1, rest, rfl⟩
        rcases List.forall₂_nil_left_iff.mp rest with rfl
        exact utf8_two contains tail1
      -- The rows of three bytes, then those of four.
      iterate 4
        · rcases trail_two agrees with ⟨x1, x2, rfl, tail1, tail2⟩
          have first := bounds _ _ contains
          have second := bounds _ _ tail1
          dsimp only at first second
          exact utf8_three ⟨by omega, by omega⟩ ⟨by omega, by omega⟩ tail2 (by omega) (by omega)
      iterate 3
        · rcases trail_three agrees with ⟨x1, x2, x3, rfl, tail1, tail2, tail3⟩
          have first := bounds _ _ contains
          have second := bounds _ _ tail1
          dsimp only at first second
          exact utf8_four ⟨by omega, by omega⟩ ⟨by omega, by omega⟩ tail2 tail3 (by omega)
            (by omega)

theorem exists_utf16_one {unit : BitVec 16}
    (notSurrogate : ¬ (0xD800 ≤ unit.toNat ∧ unit.toNat ≤ 0xDFFF)) :
    ∃ scalar : Scalar, scalar.utf16 = [unit] := by
  refine ⟨⟨unit.toNat, by omega, notSurrogate⟩, ?_⟩
  rw [Scalar.utf16, if_pos (by dsimp only; omega)]
  exact congrArg (fun unit => [unit]) (ofNat_eq rfl)

theorem exists_utf16_two {lead trail : BitVec 16}
    (high : 0xD800 ≤ lead.toNat ∧ lead.toNat ≤ 0xDBFF)
    (low : 0xDC00 ≤ trail.toNat ∧ trail.toNat ≤ 0xDFFF) :
    ∃ scalar : Scalar, scalar.utf16 = [lead, trail] := by
  refine ⟨⟨0x10000 + lead.toNat % 1024 * 1024 + trail.toNat % 1024, by omega, by omega⟩, ?_⟩
  rw [Scalar.utf16, if_neg (by dsimp only; omega)]
  refine congrArg₂ List.cons (ofNat_eq ?_) (congrArg (fun unit => [unit]) (ofNat_eq ?_))
  · dsimp only
    omega
  · dsimp only
    omega

end EncodingForms
