import Mathlib.Data.List.Infix
import Mathlib.Tactic.Common

/-!
# Segmentation of texts

A text is a list of units, and some lists of units are well formed on their own.
A segmentation cuts a text from its front into well-formed segments and, where
none begins, into ill-formed segments that are as long as they can still be
continued to a well-formed one. The relation is stated for any units and any
notion of well-formedness in which no segment extends another.
-/

namespace Segmentation

universe u

variable {CodeUnit : Type u}

/-- A piece of a text with the verdict on it. -/
inductive Segment (CodeUnit : Type u) where
  | valid (units : List CodeUnit)
  | error (units : List CodeUnit)
  deriving DecidableEq

namespace Segment

def units : Segment CodeUnit → List CodeUnit
  | valid units => units
  | error units => units

end Segment

/-- The text that a list of segments covers. -/
def covered (segments : List (Segment CodeUnit)) : List CodeUnit :=
  segments.flatMap Segment.units

@[simp]
theorem covered_nil : covered ([] : List (Segment CodeUnit)) = [] := rfl

@[simp]
theorem covered_cons (segment : Segment CodeUnit) (segments : List (Segment CodeUnit)) :
    covered (segment :: segments) = segment.units ++ covered segments := rfl

@[simp]
theorem covered_append (front back : List (Segment CodeUnit)) :
    covered (front ++ back) = covered front ++ covered back := List.flatMap_append

section Relation

variable (WellFormed : List CodeUnit → Prop)

/-- A list of units that some well-formed segment begins with. -/
def Initial (front : List CodeUnit) : Prop :=
  ∃ back, WellFormed (front ++ back)

/-- No well-formed segment is empty or begins another one. -/
structure PrefixFree : Prop where
  ne_nil : ∀ {units}, WellFormed units → units ≠ []
  eq_of_prefix : ∀ {units others}, WellFormed units → WellFormed others →
    units <+: others → units = others

/-- The maximal subpart that begins an ill-formed text. -/
structure MaximalSubpart (front text : List CodeUnit) : Prop where
  begins : front <+: text
  ill_formed : ∀ {units}, units <+: text → ¬ WellFormed units
  single_or_initial : front.length = 1 ∨ front ≠ [] ∧ Initial WellFormed front
  maximal : ∀ {units}, units <+: text → Initial WellFormed units → units.length ≤ front.length

/-- The first segment of a text. -/
inductive Leads : Segment CodeUnit → List CodeUnit → Prop
  | valid {units text : List CodeUnit} (wellFormed : WellFormed units)
      (begins : units <+: text) : Leads (.valid units) text
  | error {units text : List CodeUnit} (subpart : MaximalSubpart WellFormed units text) :
      Leads (.error units) text

/-- The segments of a text from front to back. -/
inductive Segments : List (Segment CodeUnit) → List CodeUnit → Prop
  | nil : Segments [] []
  | cons {segment : Segment CodeUnit} {segments : List (Segment CodeUnit)}
      {rest : List CodeUnit} (first : Leads WellFormed segment (segment.units ++ rest))
      (later : Segments segments rest) : Segments (segment :: segments) (segment.units ++ rest)

end Relation

variable {WellFormed : List CodeUnit → Prop}

theorem MaximalSubpart.ne_nil {front text : List CodeUnit}
    (subpart : MaximalSubpart WellFormed front text) : front ≠ [] := by
  rcases subpart.single_or_initial with single | ⟨ne_nil, _⟩
  · intro empty
    simp [empty] at single
  · exact ne_nil

theorem MaximalSubpart.length_le {front others text : List CodeUnit}
    (subpart : MaximalSubpart WellFormed front text)
    (other : MaximalSubpart WellFormed others text) : front.length ≤ others.length := by
  rcases subpart.single_or_initial with single | ⟨_, initial⟩
  · have positive := List.length_pos_of_ne_nil other.ne_nil
    omega
  · exact other.maximal subpart.begins initial

namespace Leads

variable {segment other : Segment CodeUnit} {text : List CodeUnit}

theorem begins (leads : Leads WellFormed segment text) : segment.units <+: text := by
  cases leads with
  | valid _ begins => exact begins
  | error subpart => exact subpart.begins

theorem units_ne_nil (prefixFree : PrefixFree WellFormed)
    (leads : Leads WellFormed segment text) : segment.units ≠ [] := by
  cases leads with
  | valid wellFormed _ => exact prefixFree.ne_nil wellFormed
  | error subpart => exact subpart.ne_nil

theorem unique (prefixFree : PrefixFree WellFormed) (leads : Leads WellFormed segment text)
    (others : Leads WellFormed other text) : segment = other := by
  cases leads with
  | valid wellFormed begins =>
      cases others with
      | valid otherWellFormed otherPrefix =>
          rcases List.prefix_or_prefix_of_prefix begins otherPrefix with shorter | longer
          · rw [prefixFree.eq_of_prefix wellFormed otherWellFormed shorter]
          · rw [prefixFree.eq_of_prefix otherWellFormed wellFormed longer]
      | error subpart => exact absurd wellFormed (subpart.ill_formed begins)
  | error subpart =>
      cases others with
      | valid wellFormed begins => exact absurd wellFormed (subpart.ill_formed begins)
      | error otherSubpart =>
          have lengths := Nat.le_antisymm (subpart.length_le otherSubpart)
            (otherSubpart.length_le subpart)
          have same := List.prefix_of_prefix_length_le subpart.begins
            otherSubpart.begins lengths.le
          rw [same.eq_of_length lengths]

theorem cut (leads : Leads WellFormed segment text) {front : List CodeUnit}
    (shorter : front <+: text) (kept : segment.units <+: front) :
    Leads WellFormed segment front := by
  cases leads with
  | valid wellFormed _ => exact valid wellFormed kept
  | error subpart =>
      exact error ⟨kept, fun inside => subpart.ill_formed (inside.trans shorter),
        subpart.single_or_initial, fun inside => subpart.maximal (inside.trans shorter)⟩

end Leads

namespace Segments

variable {segments others : List (Segment CodeUnit)} {text : List CodeUnit}

theorem covered_eq (cuts : Segments WellFormed segments text) : covered segments = text := by
  induction cuts with
  | nil => rfl
  | cons _ _ rest => rw [covered_cons, rest]

theorem cons_inv {segment : Segment CodeUnit}
    (cuts : Segments WellFormed (segment :: segments) text) :
    Leads WellFormed segment text ∧
      text = segment.units ++ covered segments ∧
      Segments WellFormed segments (covered segments) := by
  cases cuts with
  | cons first later =>
      rw [later.covered_eq]
      exact ⟨first, rfl, later⟩

theorem unique (prefixFree : PrefixFree WellFormed) (cuts : Segments WellFormed segments text)
    (other : Segments WellFormed others text) : segments = others := by
  induction segments generalizing others text with
  | nil =>
      cases cuts
      cases others with
      | nil => rfl
      | cons segment others =>
          rcases other.cons_inv with ⟨first, whole, _⟩
          exact absurd (List.append_eq_nil_iff.mp whole.symm).1 (first.units_ne_nil prefixFree)
  | cons segment segments shorter =>
      rcases cuts.cons_inv with ⟨first, whole, later⟩
      cases others with
      | nil =>
          cases other
          exact absurd (List.append_eq_nil_iff.mp whole.symm).1 (first.units_ne_nil prefixFree)
      | cons otherSegment others =>
          rcases other.cons_inv with ⟨otherFirst, otherWhole, otherLater⟩
          rcases first.unique prefixFree otherFirst with rfl
          rw [whole] at otherWhole
          rw [← List.append_cancel_left otherWhole] at otherLater
          rw [shorter later otherLater]

theorem leads_of_mem {segment : Segment CodeUnit} (cuts : Segments WellFormed segments text)
    (mem : segment ∈ segments) : ∃ rest, Leads WellFormed segment rest := by
  induction segments generalizing text with
  | nil => cases mem
  | cons first segments later =>
      rcases cuts.cons_inv with ⟨leads, _, rest⟩
      rcases List.mem_cons.mp mem with rfl | behind
      · exact ⟨text, leads⟩
      · exact later rest behind

theorem of_append {front back : List (Segment CodeUnit)}
    (cuts : Segments WellFormed (front ++ back) text) :
    Segments WellFormed front (covered front) ∧ Segments WellFormed back (covered back) := by
  induction front generalizing text with
  | nil =>
      rw [List.nil_append] at cuts
      exact ⟨nil, by rwa [cuts.covered_eq]⟩
  | cons segment front shorter =>
      rw [List.cons_append] at cuts
      rcases cuts.cons_inv with ⟨first, whole, later⟩
      rcases shorter later with ⟨frontCuts, backCuts⟩
      refine ⟨cons (first.cut ?_ (List.prefix_append _ _)) frontCuts, backCuts⟩
      rw [whole, covered_append, ← List.append_assoc]
      exact List.prefix_append _ _

/--
Where all units of a segment behind its first one are of some kind, a unit of another
kind begins a segment.
-/
theorem split_at (Continues : CodeUnit → Prop)
    (continues : ∀ {segment : Segment CodeUnit} {text : List CodeUnit},
      Leads WellFormed segment text → ∀ unit ∈ segment.units.tail, Continues unit)
    {front rest : List CodeUnit} {unit : CodeUnit}
    (cuts : Segments WellFormed segments (front ++ unit :: rest)) (begins : ¬ Continues unit) :
    ∃ before after, segments = before ++ after ∧ covered before = front ∧
      Segments WellFormed after (unit :: rest) := by
  induction segments generalizing front with
  | nil => simpa using cuts.covered_eq
  | cons segment segments shorter =>
      rcases cuts.cons_inv with ⟨first, whole, later⟩
      cases front with
      | nil => exact ⟨[], _, rfl, rfl, cuts⟩
      | cons lead front =>
          rcases List.append_eq_append_iff.mp whole with
            ⟨inside, units, remaining⟩ | ⟨between, units, remaining⟩
          · cases inside with
            | nil =>
                rw [remaining] at cuts ⊢
                rw [List.append_nil] at units
                exact ⟨[segment], segments, rfl, by simp [units], later⟩
            | cons other inside =>
                rcases List.cons.inj remaining with ⟨rfl, _⟩
                apply absurd _ begins
                apply continues first
                simp [units]
          · rw [remaining] at later
            rcases shorter later with ⟨before, after, rfl, covers, cut⟩
            exact ⟨segment :: before, after, rfl, by rw [covered_cons, covers, units], cut⟩

end Segments

theorem exists_segments (prefixFree : PrefixFree WellFormed)
    (leads : ∀ text : List CodeUnit, text ≠ [] → ∃ segment, Leads WellFormed segment text)
    (text : List CodeUnit) : ∃ segments, Segments WellFormed segments text := by
  induction length : text.length using Nat.strong_induction_on generalizing text with
  | _ size shorter =>
      by_cases empty : text = []
      · exact ⟨[], by rw [empty]; exact .nil⟩
      · rcases leads text empty with ⟨segment, first⟩
        rcases first.begins with ⟨rest, rfl⟩
        have positive := List.length_pos_of_ne_nil (first.units_ne_nil prefixFree)
        rw [List.length_append] at length
        rcases shorter rest.length (by omega) rest rfl with ⟨segments, later⟩
        exact ⟨segment :: segments, .cons first later⟩

end Segmentation
