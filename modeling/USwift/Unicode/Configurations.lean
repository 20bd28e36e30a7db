import USwift.Unicode.Transcode

/-!
# UTF-8 in the two configurations

The 32-bit files extend the sign of the `UInt16` that `_invalidLength` compares with,
so that the prefix of a longer sequence is never recognized there. Every byte of an
ill-formed segment is then an error of its own, with a replacement character each.
-/

namespace USwift

open EncodingForms Iteration Segmentation

namespace UTF8

/-- Results of the two configurations that carry the same bytes or length. -/
inductive SameResult :
    ParseResult (ValidUTF8Buffer .word16) → ParseResult (ValidUTF8Buffer .word32) → Prop
  | valid (biasedBits : BitVec 32) : SameResult (.valid ⟨biasedBits⟩) (.valid ⟨biasedBits⟩)
  | error (length : ℕ) : SameResult (.error length) (.error length)

/-- `transcode` returns an output, given enough iterations. -/
def Returns (word : WordSize) (target : Encoding) (stopOnError : Bool) (text : List (BitVec 8))
    (output : Bool × List (Value word target.codeUnit)) : Prop :=
  ∃ bound, ∀ fuel, bound < fuel →
    USwift.transcode .utf8 target stopOnError fuel text = some output

/-- The two configurations parse and transcode a text alike. -/
def BuildsAgree (text : List (BitVec 8)) : Prop :=
  (∃ results16 results32, (forwardParser .word16).Parses text results16 ∧
    (forwardParser .word32).Parses text results32 ∧
    List.Forall₂ SameResult results16 results32) ∧
  (∀ stopOnError, ∃ output : Bool × List (BitVec 16),
    Returns .word16 .utf16 stopOnError text output ∧
      Returns .word32 .utf16 stopOnError text output) ∧
  ∀ stopOnError, ∃ output : Bool × List (BitVec 32),
    Returns .word16 .utf32 stopOnError text output ∧
      Returns .word32 .utf32 stopOnError text output

/-- Every ill-formed segment of a text is one byte. -/
def SingleErrors (text : List (BitVec 8)) : Prop :=
  ∀ segments, Segments Utf8.WellFormed segments text →
    ∀ units, .error units ∈ segments → units.length = 1

section Segments

variable {word : WordSize} {text : List (BitVec 8)} {segments : List (Segment (BitVec 8))}

theorem length_split_cons (segment : Segment (BitVec 8)) (some : segment.units ≠ []) :
    1 ≤ (split .word32 segment).length ∧
      ((split .word32 segment).length = 1 ↔
        ∀ units, segment = .error units → units.length = 1) := by
  cases segment with
  | valid units => simp [split]
  | error units =>
      have positive := List.length_pos_of_ne_nil some
      rw [split, List.length_map]
      refine ⟨positive, ?_⟩
      constructor
      · rintro single _ same
        cases same
        exact single
      · intro single
        exact single units rfl

/-- The 32-bit configuration reports at least as many segments, and more where one is split. -/
theorem length_split (some : ∀ segment ∈ segments, segment.units ≠ []) :
    segments.length ≤ (segments.flatMap (split .word32)).length ∧
      (segments.length = (segments.flatMap (split .word32)).length →
        ∀ units, .error units ∈ segments → units.length = 1) := by
  induction segments with
  | nil => simp
  | cons segment segments rest =>
      rw [List.forall_mem_cons] at some
      rcases length_split_cons segment some.1 with ⟨first, single⟩
      rcases rest some.2 with ⟨tails, later⟩
      rw [List.flatMap_cons, List.length_append, List.length_cons]
      refine ⟨by omega, ?_⟩
      intro same units mem
      rcases List.mem_cons.mp mem with here | behind
      · exact single.mp (by omega) units here.symm
      · exact later (by omega) units behind

theorem split_of_single (single : ∀ units, .error units ∈ segments → units.length = 1) :
    segments.flatMap (split .word32) = segments := by
  have alone : ∀ segment ∈ segments, split .word32 segment = [segment] := by
    intro segment mem
    cases segment with
    | valid units => rfl
    | error units =>
        rcases List.length_eq_one_iff.mp (single units mem) with ⟨unit, rfl⟩
        rfl
  calc segments.flatMap (split .word32) = segments.flatMap fun segment => [segment] :=
        List.flatMap_congr alone
    _ = segments := List.flatMap_singleton' segments

theorem singleErrors_of_same {results16 : List (ParseResult (ValidUTF8Buffer .word16))}
    {results32 : List (ParseResult (ValidUTF8Buffer .word32))}
    (parses16 : (forwardParser .word16).Parses text results16)
    (parses32 : (forwardParser .word32).Parses text results32)
    (same : List.Forall₂ SameResult results16 results32) : SingleErrors text := by
  intro segments cuts
  rw [parses16.unique (parses_segments .word16 cuts),
    parses32.unique (parses_segments .word32 cuts)] at same
  have lengths := same.length_eq
  have whole : segments.flatMap (split .word16) = segments := List.flatMap_singleton' segments
  rw [List.length_map, List.length_map, whole] at lengths
  have some : ∀ segment ∈ segments, segment.units ≠ [] := by
    intro segment mem
    rcases cuts.leads_of_mem mem with ⟨rest, leads⟩
    exact leads.units_ne_nil Utf8.prefixFree
  exact (length_split some).2 lengths

theorem exists_items (cuts : Segments Utf8.WellFormed segments text) :
    ∃ items, ∀ word, List.Forall₂ (@Encoding.Parsed word .utf8)
      (segments.map (resultOf word)) items := by
  induction cuts with
  | nil => exact ⟨[], fun _ => .nil⟩
  | cons first _ rest =>
      rcases rest with ⟨items, later⟩
      cases first with
      | valid wellFormed _ =>
          rcases exists_utf8 wellFormed with ⟨scalar, rfl⟩
          exact ⟨some scalar :: items, fun word => .cons (.valid scalar) (later word)⟩
      | error subpart => exact ⟨none :: items, fun word => .cons (.error _) (later word)⟩

theorem returns_of_single (word : WordSize) (cuts : Segments Utf8.WellFormed segments text)
    (single : ∀ units, .error units ∈ segments → units.length = 1) {items : List (Option Scalar)}
    (parsed : List.Forall₂ (@Encoding.Parsed word .utf8) (segments.map (resultOf word)) items)
    (target : Encoding) (stopOnError : Bool) :
    Returns word target stopOnError text
      (items.any Option.isNone, converted target stopOnError items) := by
  have same : segments.flatMap (split word) = segments := by
    cases word with
    | word16 => exact List.flatMap_singleton' segments
    | word32 => exact split_of_single single
  rcases parses_segments word cuts with ⟨final, runs, ended⟩
  rw [same] at runs
  rw [← Encoding.next_utf8] at runs
  refine ⟨(segments.map (resultOf word)).length, ?_⟩
  intro fuel enough
  exact transcodeLoop_of_runs (Or.inr rfl) runs ended parsed enough false []

end Segments

/--
The configurations agree on a text if and only if each of its ill-formed segments is
one byte.
-/
theorem buildsAgree_iff (text : List (BitVec 8)) :
    BuildsAgree text ↔ SingleErrors text := by
  constructor
  · rintro ⟨⟨results16, results32, parses16, parses32, same⟩, _⟩
    exact singleErrors_of_same parses16 parses32 same
  · intro single
    rcases Utf8.exists_segments text with ⟨segments, cuts⟩
    rcases exists_items cuts with ⟨items, parsed⟩
    have errors := single segments cuts
    refine ⟨⟨_, _, parses_segments .word16 cuts, parses_segments .word32 cuts, ?_⟩, ?_, ?_⟩
    · have whole : segments.flatMap (split .word16) = segments :=
        List.flatMap_singleton' segments
      rw [whole, split_of_single errors, List.forall₂_map_left_iff, List.forall₂_map_right_iff,
        List.forall₂_same]
      intro segment _
      cases segment with
      | valid units => exact .valid _
      | error units => exact .error _
    · intro stopOnError
      exact ⟨_, returns_of_single .word16 cuts errors (parsed .word16) .utf16 stopOnError,
        returns_of_single .word32 cuts errors (parsed .word32) .utf16 stopOnError⟩
    · intro stopOnError
      exact ⟨_, returns_of_single .word16 cuts errors (parsed .word16) .utf32 stopOnError,
        returns_of_single .word32 cuts errors (parsed .word32) .utf32 stopOnError⟩

/-- The bytes E2 82 are one error for AVR and two for ARM. -/
theorem not_buildsAgree : ¬ BuildsAgree [0xE2, 0x82] := by
  rintro ⟨⟨results16, results32, parses16, parses32, same⟩, _⟩
  have found : Utf8.segment [0xE2, 0x82] = .error [0xE2, 0x82] := by decide
  have leads : Leads Utf8.WellFormed (Utf8.segment [0xE2, 0x82]) [0xE2, 0x82] :=
    Utf8.segment_leads (by decide)
  rw [found] at leads
  have single := singleErrors_of_same parses16 parses32 same _ (.cons leads .nil) _
    (List.mem_singleton_self _)
  exact absurd single (by decide)

end UTF8

end USwift
