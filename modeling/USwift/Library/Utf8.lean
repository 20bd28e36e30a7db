import Mathlib.Data.List.Forall2
import USwift.Library.Segmentation

/-!
# Well-formed UTF-8

The table of well-formed UTF-8 byte sequences, one row for every range of lead
bytes with the ranges of the bytes that follow. Reading a row as far as a text
agrees with it finds the first segment of the text, which is a well-formed
sequence or the maximal subpart of an ill-formed one.
-/

namespace Utf8

open Segmentation

/-- An interval of bytes. -/
structure Range where
  low : ℕ
  high : ℕ
  deriving DecidableEq

def Range.Contains (range : Range) (unit : BitVec 8) : Prop :=
  range.low ≤ unit.toNat ∧ unit.toNat ≤ range.high

instance (range : Range) (unit : BitVec 8) : Decidable (range.Contains unit) :=
  inferInstanceAs (Decidable (_ ∧ _))

/-- The continuation bytes. -/
def continuation : Range := ⟨0x80, 0xBF⟩

/-- A row of the table. -/
structure Row where
  lead : Range
  trail : List Range
  deriving DecidableEq

/-- Table 3-7 of the Unicode Standard. -/
def table : List Row :=
  [⟨⟨0x00, 0x7F⟩, []⟩,
   ⟨⟨0xC2, 0xDF⟩, [continuation]⟩,
   ⟨⟨0xE0, 0xE0⟩, [⟨0xA0, 0xBF⟩, continuation]⟩,
   ⟨⟨0xE1, 0xEC⟩, [continuation, continuation]⟩,
   ⟨⟨0xED, 0xED⟩, [⟨0x80, 0x9F⟩, continuation]⟩,
   ⟨⟨0xEE, 0xEF⟩, [continuation, continuation]⟩,
   ⟨⟨0xF0, 0xF0⟩, [⟨0x90, 0xBF⟩, continuation, continuation]⟩,
   ⟨⟨0xF1, 0xF3⟩, [continuation, continuation, continuation]⟩,
   ⟨⟨0xF4, 0xF4⟩, [⟨0x80, 0x8F⟩, continuation, continuation]⟩]

/-- The sequences of bytes that encode a scalar. -/
def WellFormed : List (BitVec 8) → Prop
  | [] => False
  | lead :: trail =>
      ∃ row ∈ table, row.lead.Contains lead ∧ List.Forall₂ Range.Contains row.trail trail

/-- How far the units agree with the ranges. -/
def matched : List Range → List (BitVec 8) → ℕ
  | range :: ranges, unit :: units =>
      if range.Contains unit then matched ranges units + 1 else 0
  | _, _ => 0

/-- The row of a lead byte. -/
def rowOf (lead : BitVec 8) : Option Row :=
  table.find? fun row => row.lead.Contains lead

/-- The first segment of a text. -/
def segment : List (BitVec 8) → Segment (BitVec 8)
  | [] => .error []
  | lead :: rest =>
      match rowOf lead with
      | none => .error [lead]
      | some row =>
          let count := matched row.trail rest
          if count = row.trail.length then .valid (lead :: rest.take count)
          else .error (lead :: rest.take count)

theorem matched_le (ranges : List Range) (units : List (BitVec 8)) :
    matched ranges units ≤ ranges.length ∧ matched ranges units ≤ units.length := by
  fun_induction matched ranges units with
  | case1 range ranges unit units _ shorter =>
      simp only [List.length_cons]
      omega
  | case2 => simp
  | case3 => simp

theorem matched_agrees (ranges : List Range) (units : List (BitVec 8)) :
    List.Forall₂ Range.Contains (ranges.take (matched ranges units))
      (units.take (matched ranges units)) := by
  fun_induction matched ranges units with
  | case1 range ranges unit units contains shorter => exact List.Forall₂.cons contains shorter
  | case2 => exact List.Forall₂.nil
  | case3 => exact List.Forall₂.nil

theorem le_matched {ranges front : List Range} {units taken : List (BitVec 8)}
    (agrees : List.Forall₂ Range.Contains front taken) (frontPrefix : front <+: ranges)
    (takenPrefix : taken <+: units) : taken.length ≤ matched ranges units := by
  induction agrees generalizing ranges units with
  | nil => exact Nat.zero_le _
  | cons contains _ shorter =>
      rcases frontPrefix with ⟨ranges, rfl⟩
      rcases takenPrefix with ⟨units, rfl⟩
      rw [List.cons_append, List.cons_append, matched, if_pos contains]
      exact Nat.succ_le_succ (shorter (List.prefix_append _ _) (List.prefix_append _ _))

theorem leads_disjoint : ∀ row ∈ table, ∀ other ∈ table,
    row = other ∨ row.lead.high < other.lead.low ∨ other.lead.high < row.lead.low := by
  decide

theorem row_unique {lead : BitVec 8} {row other : Row} (rowMem : row ∈ table)
    (otherMem : other ∈ table) (contains : row.lead.Contains lead)
    (otherContains : other.lead.Contains lead) : row = other := by
  rcases leads_disjoint row rowMem other otherMem with same | below | above
  · exact same
  · have inside := contains.2.trans_lt (below.trans_le otherContains.1)
    exact absurd inside (lt_irrefl _)
  · have inside := otherContains.2.trans_lt (above.trans_le contains.1)
    exact absurd inside (lt_irrefl _)

theorem rowOf_eq_some_iff {lead : BitVec 8} {row : Row} :
    rowOf lead = some row ↔ row ∈ table ∧ row.lead.Contains lead := by
  constructor
  · intro found
    exact ⟨List.mem_of_find?_eq_some found, by simpa using List.find?_some found⟩
  · rintro ⟨mem, contains⟩
    cases found : rowOf lead with
    | none =>
        have missing := List.find?_eq_none.mp found row mem
        exact absurd contains (by simpa using missing)
    | some other =>
        have otherContains : other.lead.Contains lead := by simpa using List.find?_some found
        rw [row_unique mem (List.mem_of_find?_eq_some found) contains otherContains]

theorem rowOf_eq_none {lead : BitVec 8} (missing : rowOf lead = none) {row : Row}
    (mem : row ∈ table) : ¬ row.lead.Contains lead := by
  intro contains
  rw [rowOf_eq_some_iff.mpr ⟨mem, contains⟩] at missing
  cases missing

theorem low_contained : ∀ row ∈ table, ∀ range ∈ row.trail,
    range.Contains (BitVec.ofNat 8 range.low) := by
  decide

theorem exists_agreeing (ranges : List Range)
    (inhabited : ∀ range ∈ ranges, range.Contains (BitVec.ofNat 8 range.low)) :
    ∃ units, List.Forall₂ Range.Contains ranges units := by
  refine ⟨ranges.map fun range => BitVec.ofNat 8 range.low, ?_⟩
  rw [List.forall₂_map_right_iff, List.forall₂_same]
  exact inhabited

theorem initial_cons_iff {lead : BitVec 8} {front : List (BitVec 8)} :
    Initial WellFormed (lead :: front) ↔
      ∃ row ∈ table, row.lead.Contains lead ∧
        ∃ ranges, ranges <+: row.trail ∧ List.Forall₂ Range.Contains ranges front := by
  constructor
  · rintro ⟨back, row, mem, contains, agrees⟩
    rw [List.append_eq] at agrees
    refine ⟨row, mem, contains, row.trail.take front.length, List.take_prefix _ _, ?_⟩
    have taken := List.forall₂_take front.length agrees
    rwa [List.take_left] at taken
  · rintro ⟨row, mem, contains, ranges, ⟨remaining, whole⟩, agrees⟩
    rcases exists_agreeing remaining (by
      intro range rangeMem
      apply low_contained row mem range
      rw [← whole]
      exact List.mem_append_right _ rangeMem) with ⟨back, backAgrees⟩
    refine ⟨back, row, mem, contains, ?_⟩
    rw [← whole]
    exact List.rel_append agrees backAgrees

theorem prefixFree : PrefixFree WellFormed where
  ne_nil := by
    rintro units wellFormed rfl
    exact wellFormed
  eq_of_prefix := by
    intro units others wellFormed otherWellFormed shorter
    cases units with
    | nil => exact absurd wellFormed id
    | cons lead trail =>
        cases others with
        | nil => exact absurd otherWellFormed id
        | cons otherLead otherTrail =>
            rcases List.cons_prefix_cons.mp shorter with ⟨rfl, inside⟩
            rcases wellFormed with ⟨row, mem, contains, agrees⟩
            rcases otherWellFormed with ⟨other, otherMem, otherContains, otherAgrees⟩
            rcases row_unique mem otherMem contains otherContains with rfl
            rw [inside.eq_of_length (agrees.length_eq.symm.trans otherAgrees.length_eq)]

theorem segment_leads {text : List (BitVec 8)} (ne_nil : text ≠ []) :
    Leads WellFormed (segment text) text := by
  cases text with
  | nil => exact absurd rfl ne_nil
  | cons lead rest =>
      rw [segment]
      cases found : rowOf lead with
      | none =>
          have notInitial {front : List (BitVec 8)} :
              ¬ Initial WellFormed (lead :: front) := by
            intro initial
            rcases initial_cons_iff.mp initial with ⟨row, mem, contains, _⟩
            exact rowOf_eq_none found mem contains
          refine .error ⟨⟨rest, rfl⟩, ?_, Or.inl rfl, ?_⟩
          · intro units inside wellFormed
            cases units with
            | nil => exact wellFormed
            | cons unit units =>
                rcases List.cons_prefix_cons.mp inside with ⟨rfl, _⟩
                exact notInitial ⟨[], by simpa using wellFormed⟩
          · intro units inside initial
            cases units with
            | nil => exact Nat.zero_le _
            | cons unit units =>
                rcases List.cons_prefix_cons.mp inside with ⟨rfl, _⟩
                exact absurd initial notInitial
      | some row =>
          rcases rowOf_eq_some_iff.mp found with ⟨mem, contains⟩
          have bounds := matched_le row.trail rest
          have agrees := matched_agrees row.trail rest
          have taken : (rest.take (matched row.trail rest)).length = matched row.trail rest := by
            rw [List.length_take]
            omega
          have inside : lead :: rest.take (matched row.trail rest) <+: lead :: rest :=
            List.cons_prefix_cons.mpr ⟨rfl, List.take_prefix _ _⟩
          -- A prefix that still agrees with a row agrees with this one.
          have longest {units : List (BitVec 8)} (unitsInside : units <+: lead :: rest)
              (initial : Initial WellFormed units) :
              units.length ≤ matched row.trail rest + 1 := by
            cases units with
            | nil => exact Nat.zero_le _
            | cons unit units =>
                rcases List.cons_prefix_cons.mp unitsInside with ⟨rfl, within⟩
                rcases initial_cons_iff.mp initial with
                  ⟨other, otherMem, otherContains, ranges, rangesPrefix, unitsAgree⟩
                rcases row_unique mem otherMem contains otherContains with rfl
                exact Nat.succ_le_succ (le_matched unitsAgree rangesPrefix within)
          dsimp only
          split_ifs with complete
          · refine .valid ⟨row, mem, contains, ?_⟩ inside
            rwa [complete, List.take_length, ← complete] at agrees
          · refine .error ⟨inside, ?_, Or.inr ⟨by simp, ?_⟩, ?_⟩
            · intro units unitsInside wellFormed
              have short := longest unitsInside ⟨[], by simpa using wellFormed⟩
              cases units with
              | nil => exact wellFormed
              | cons unit units =>
                  rcases List.cons_prefix_cons.mp unitsInside with ⟨rfl, _⟩
                  rcases wellFormed with ⟨other, otherMem, otherContains, unitsAgree⟩
                  rcases row_unique mem otherMem contains otherContains with rfl
                  have whole := unitsAgree.length_eq
                  rw [List.length_cons] at short
                  omega
            · exact initial_cons_iff.mpr ⟨row, mem, contains, _, List.take_prefix _ _, agrees⟩
            · intro units unitsInside initial
              rw [List.length_cons, taken]
              exact longest unitsInside initial

/-- Whether a byte continues a sequence. -/
abbrev Continues (unit : ℕ) : Prop :=
  0x80 ≤ unit ∧ unit ≤ 0xBF

/-- The second bytes that may follow the lead byte of a sequence of three bytes. -/
abbrev Second3 (lead second : ℕ) : Prop :=
  Continues second ∧ ¬ (lead = 0xE0 ∧ second < 0xA0) ∧ ¬ (lead = 0xED ∧ 0xA0 ≤ second)

/-- The second bytes that may follow the lead byte of a sequence of four bytes. -/
abbrev Second4 (lead second : ℕ) : Prop :=
  Continues second ∧ ¬ (lead = 0xF0 ∧ second < 0x90) ∧
    (lead < 0xF4 ∨ lead = 0xF4 ∧ second < 0x90)

/-- Whether the segment that begins with four bytes is valid, and how long it is. -/
def outcome (x0 x1 x2 x3 : ℕ) : Bool × ℕ :=
  if x0 ≤ 0x7F then (true, 1)
  else if 0xC2 ≤ x0 ∧ x0 ≤ 0xDF then
    if Continues x1 then (true, 2) else (false, 1)
  else if 0xE0 ≤ x0 ∧ x0 ≤ 0xEF then
    if Second3 x0 x1 then
      if Continues x2 then (true, 3) else (false, 2)
    else (false, 1)
  else if 0xF0 ≤ x0 ∧ x0 ≤ 0xF7 then
    if Second4 x0 x1 then
      if Continues x2 then
        if Continues x3 then (true, 4) else (false, 3)
      else (false, 2)
    else (false, 1)
  else (false, 1)

section Outcome

variable {x0 : ℕ} (x1 x2 x3 : ℕ)

theorem outcome_ascii (range : x0 ≤ 0x7F) : outcome x0 x1 x2 x3 = (true, 1) :=
  if_pos range

theorem outcome_lead2 (range : 0xC2 ≤ x0 ∧ x0 ≤ 0xDF) :
    outcome x0 x1 x2 x3 = if Continues x1 then (true, 2) else (false, 1) := by
  rw [outcome, if_neg (by omega), if_pos range]

theorem outcome_lead3 (range : 0xE0 ≤ x0 ∧ x0 ≤ 0xEF) :
    outcome x0 x1 x2 x3 =
      if Second3 x0 x1 then if Continues x2 then (true, 3) else (false, 2) else (false, 1) := by
  rw [outcome, if_neg (by omega), if_neg (by omega), if_pos range]

theorem outcome_lead4 (range : 0xF0 ≤ x0 ∧ x0 ≤ 0xF7) :
    outcome x0 x1 x2 x3 =
      if Second4 x0 x1 then
        if Continues x2 then if Continues x3 then (true, 4) else (false, 3) else (false, 2)
      else (false, 1) := by
  rw [outcome, if_neg (by omega), if_neg (by omega), if_neg (by omega), if_pos range]

theorem outcome_of_no_lead (range : 0x80 ≤ x0 ∧ x0 ≤ 0xC1 ∨ 0xF5 ≤ x0) :
    outcome x0 x1 x2 x3 = (false, 1) := by
  have noSecond : ¬ (0xF5 ≤ x0 ∧ Second4 x0 x1) := by omega
  rw [outcome, if_neg (by omega), if_neg (by omega), if_neg (by omega)]
  split_ifs with lead second
  · exact absurd ⟨by omega, second⟩ noSecond
  · exact absurd ⟨by omega, second⟩ noSecond
  · exact absurd ⟨by omega, second⟩ noSecond
  · rfl
  · rfl

end Outcome

/-- The outcome for the first bytes of a text, with zeros behind its end. -/
def outcomeOf (lead : BitVec 8) (rest : List (BitVec 8)) : Bool × ℕ :=
  outcome lead.toNat (rest.headD 0).toNat (rest.tail.headD 0).toNat
    (rest.tail.tail.headD 0).toNat

theorem matched_cons {range : Range} (ranges : List Range) (units : List (BitVec 8))
    (excludesZero : 0 < range.low) :
    matched (range :: ranges) units =
      if range.Contains (units.headD 0) then matched ranges units.tail + 1 else 0 := by
  cases units with
  | nil =>
      have outside : ¬ range.Contains (0 : BitVec 8) := by
        intro contains
        exact absurd contains.1 (Nat.not_le_of_lt excludesZero)
      exact (if_neg outside).symm
  | cons unit units => rfl

@[simp]
theorem matched_nil (units : List (BitVec 8)) : matched [] units = 0 := by
  cases units <;> rfl

theorem outcomeOf_of_row {row : Row} (mem : row ∈ table) {lead : BitVec 8}
    (contains : row.lead.Contains lead) (rest : List (BitVec 8)) :
    outcomeOf lead rest =
      (decide (matched row.trail rest = row.trail.length), matched row.trail rest + 1) := by
  rcases contains with ⟨atLeast, atMost⟩
  simp only [table, List.mem_cons, List.not_mem_nil, or_false] at mem
  rw [outcomeOf]
  generalize lead.toNat = x0 at atLeast atMost ⊢
  rcases mem with rfl | rfl | rfl | rfl | rfl | rfl | rfl | rfl | rfl
  · rw [outcome_ascii _ _ _ atMost, matched_nil]
    rfl
  · rw [outcome_lead2 _ _ _ ⟨atLeast, atMost⟩, matched_cons _ _ (by decide), matched_nil]
    by_cases second : Continues (rest.headD 0).toNat
    · rw [if_pos second, if_pos (show continuation.Contains _ from second)]
      rfl
    · rw [if_neg second, if_neg (show ¬ continuation.Contains _ from second)]
      rfl
  all_goals
    simp only at atLeast atMost
    first
      | rw [outcome_lead3 _ _ _ (by omega)]
      | rw [outcome_lead4 _ _ _ (by omega)]
    simp only [continuation, matched_cons, matched_nil, Nat.zero_lt_succ, Range.Contains]
    split_ifs <;> first | rfl | omega

theorem outcomeOf_of_none {lead : BitVec 8} (missing : rowOf lead = none)
    (rest : List (BitVec 8)) : outcomeOf lead rest = (false, 1) := by
  have outside {row : Row} (mem : row ∈ table) := rowOf_eq_none missing mem
  simp only [table, List.mem_cons, List.not_mem_nil, or_false, forall_eq_or_imp, forall_eq,
    Range.Contains] at outside
  have range : 0x80 ≤ lead.toNat ∧ lead.toNat ≤ 0xC1 ∨ 0xF5 ≤ lead.toNat := by omega
  exact outcome_of_no_lead _ _ _ range

theorem segment_eq (lead : BitVec 8) (rest : List (BitVec 8)) :
    segment (lead :: rest) =
      if (outcomeOf lead rest).1 then .valid ((lead :: rest).take (outcomeOf lead rest).2)
      else .error ((lead :: rest).take (outcomeOf lead rest).2) := by
  rw [segment]
  cases found : rowOf lead with
  | none => rw [outcomeOf_of_none found]; rfl
  | some row =>
      rcases rowOf_eq_some_iff.mp found with ⟨mem, contains⟩
      rw [outcomeOf_of_row mem contains]
      simp only [decide_eq_true_eq, List.take_succ_cons]

theorem outcomeOf_le (lead : BitVec 8) (rest : List (BitVec 8)) :
    1 ≤ (outcomeOf lead rest).2 ∧ (outcomeOf lead rest).2 ≤ (lead :: rest).length := by
  cases found : rowOf lead with
  | none =>
      rw [outcomeOf_of_none found]
      exact ⟨le_rfl, Nat.succ_le_succ (Nat.zero_le _)⟩
  | some row =>
      rcases rowOf_eq_some_iff.mp found with ⟨mem, contains⟩
      rw [outcomeOf_of_row mem contains]
      exact ⟨Nat.succ_le_succ (Nat.zero_le _), Nat.succ_le_succ (matched_le row.trail rest).2⟩

theorem outcomeOf_le_four (lead : BitVec 8) (rest : List (BitVec 8)) :
    (outcomeOf lead rest).2 ≤ 4 := by
  rw [outcomeOf, outcome]
  split_ifs <;> decide

theorem table_bounded : ∀ row ∈ table, row.lead.high ≤ 0xF4 ∧ row.trail.length ≤ 3 ∧
    ∀ range ∈ row.trail, 0x80 ≤ range.low ∧ range.high ≤ 0xBF := by
  decide

theorem continues_of_agrees {row : Row} (mem : row ∈ table) {ranges : List Range}
    (inside : ranges <+: row.trail) {units : List (BitVec 8)}
    (agrees : List.Forall₂ Range.Contains ranges units) :
    units.length ≤ 3 ∧ ∀ unit ∈ units, Continues unit.toNat := by
  have bounded := table_bounded row mem
  refine ⟨?_, ?_⟩
  · rw [← agrees.length_eq]
    exact inside.length_le.trans bounded.2.1
  · intro unit unitMem
    rcases List.mem_iff_getElem.mp unitMem with ⟨index, index_lt, rfl⟩
    have rangeLt : index < ranges.length := by rwa [agrees.length_eq]
    have contains := agrees.get rangeLt index_lt
    have bounds := bounded.2.2 ranges[index] (inside.subset (List.getElem_mem rangeLt))
    exact ⟨bounds.1.trans contains.1, contains.2.trans bounds.2⟩

theorem continues_of_leads {segment : Segment (BitVec 8)} {text : List (BitVec 8)}
    (leads : Leads WellFormed segment text) :
    ∃ lead trail, segment.units = lead :: trail ∧ trail.length ≤ 3 ∧
      ∀ unit ∈ trail, Continues unit.toNat := by
  cases leads with
  | @valid units _ wellFormed _ =>
      cases units with
      | nil => exact absurd wellFormed id
      | cons lead trail =>
          rcases wellFormed with ⟨row, mem, _, agrees⟩
          exact ⟨lead, trail, rfl, continues_of_agrees mem (List.prefix_refl _) agrees⟩
  | @error units _ subpart =>
      cases units with
      | nil => exact absurd rfl subpart.ne_nil
      | cons lead trail =>
          refine ⟨lead, trail, rfl, ?_⟩
          rcases subpart.single_or_initial with single | ⟨_, initial⟩
          · have none : trail = [] := by
              rw [List.length_cons] at single
              exact List.length_eq_zero_iff.mp (by omega)
            rw [none]
            exact ⟨Nat.zero_le _, by simp⟩
          · rcases initial_cons_iff.mp initial with ⟨row, mem, _, ranges, inside, agrees⟩
            exact continues_of_agrees mem inside agrees

theorem length_of_error {units text : List (BitVec 8)}
    (leads : Leads WellFormed (.error units) text) : 1 ≤ units.length ∧ units.length ≤ 3 := by
  cases leads with
  | error subpart =>
      refine ⟨List.length_pos_of_ne_nil subpart.ne_nil, ?_⟩
      rcases subpart.single_or_initial with single | ⟨_, initial⟩
      · omega
      · cases units with
        | nil => exact Nat.zero_le _
        | cons lead trail =>
            rcases initial_cons_iff.mp initial with ⟨row, mem, contains, ranges, inside, agrees⟩
            have notWhole : ranges ≠ row.trail := by
              rintro rfl
              exact subpart.ill_formed subpart.begins ⟨row, mem, contains, agrees⟩
            have shorter : ranges.length < row.trail.length :=
              lt_of_le_of_ne inside.length_le fun same => notWhole (inside.eq_of_length same)
            have bounded := (table_bounded row mem).2.1
            have lengths := agrees.length_eq
            rw [List.length_cons]
            omega

theorem ne_full_of_wellFormed {units : List (BitVec 8)} (wellFormed : WellFormed units) :
    ∀ unit ∈ units, unit ≠ 0xFF := by
  cases units with
  | nil => simp
  | cons lead trail =>
      rcases wellFormed with ⟨row, mem, contains, agrees⟩
      have continues := (continues_of_agrees mem (List.prefix_refl _) agrees).2
      have bounded := (table_bounded row mem).1
      rw [List.forall_mem_cons]
      refine ⟨?_, ?_⟩
      · rintro rfl
        exact absurd (contains.2.trans bounded) (by decide)
      · rintro unit unitMem rfl
        exact absurd (continues _ unitMem).2 (by decide)

theorem wellFormed_of_outcome {lead : BitVec 8} {rest : List (BitVec 8)}
    (valid : (outcomeOf lead rest).1 = true) :
    WellFormed ((lead :: rest).take (outcomeOf lead rest).2) := by
  have leads := segment_leads (List.cons_ne_nil lead rest)
  rw [segment_eq, if_pos valid] at leads
  cases leads with
  | valid wellFormed _ => exact wellFormed

theorem exists_segments (text : List (BitVec 8)) :
    ∃ segments, Segments WellFormed segments text :=
  Segmentation.exists_segments prefixFree
    (fun _ ne_nil => ⟨_, segment_leads ne_nil⟩) text

end Utf8
