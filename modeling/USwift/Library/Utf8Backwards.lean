import USwift.Library.Utf8

/-!
# UTF-8 from the end

A sequence of several bytes that reaches the end of a text is the last segment of
the text, because only the lead byte of a segment is not a continuation byte.
-/

namespace Utf8

open Segmentation

/-- The bytes behind a lead byte when a segment has several bytes. -/
inductive Several (x0 x1 x2 x3 : ℕ) : Bool × ℕ → Prop
  | two (lead : 0xC2 ≤ x0 ∧ x0 ≤ 0xDF) (second : Continues x1) : Several x0 x1 x2 x3 (true, 2)
  | twoOfThree (lead : 0xE0 ≤ x0 ∧ x0 ≤ 0xEF) (second : Second3 x0 x1)
      (third : ¬ Continues x2) : Several x0 x1 x2 x3 (false, 2)
  | three (lead : 0xE0 ≤ x0 ∧ x0 ≤ 0xEF) (second : Second3 x0 x1) (third : Continues x2) :
      Several x0 x1 x2 x3 (true, 3)
  | twoOfFour (lead : 0xF0 ≤ x0 ∧ x0 ≤ 0xF7) (second : Second4 x0 x1)
      (third : ¬ Continues x2) : Several x0 x1 x2 x3 (false, 2)
  | threeOfFour (lead : 0xF0 ≤ x0 ∧ x0 ≤ 0xF7) (second : Second4 x0 x1) (third : Continues x2)
      (fourth : ¬ Continues x3) : Several x0 x1 x2 x3 (false, 3)
  | four (lead : 0xF0 ≤ x0 ∧ x0 ≤ 0xF7) (second : Second4 x0 x1) (third : Continues x2)
      (fourth : Continues x3) : Several x0 x1 x2 x3 (true, 4)

theorem several_of_outcome {x0 x1 x2 x3 : ℕ} (long : (outcome x0 x1 x2 x3).2 ≠ 1) :
    Several x0 x1 x2 x3 (outcome x0 x1 x2 x3) := by
  rw [outcome] at long ⊢
  split_ifs at long ⊢ with ascii lead2 second lead3 second third lead4 second third fourth
  · exact absurd rfl long
  · exact .two lead2 second
  · exact absurd rfl long
  · exact .three lead3 second third
  · exact .twoOfThree lead3 second third
  · exact absurd rfl long
  · exact .four lead4 second third fourth
  · exact .threeOfFour lead4 second third fourth
  · exact .twoOfFour lead4 second third
  · exact absurd rfl long
  · exact absurd rfl long

theorem outcome_of_several {x0 x1 x2 x3 : ℕ} {result : Bool × ℕ}
    (several : Several x0 x1 x2 x3 result) : outcome x0 x1 x2 x3 = result := by
  cases several with
  | two lead second => rw [outcome_lead2 _ _ _ lead, if_pos second]
  | twoOfThree lead second third =>
      rw [outcome_lead3 _ _ _ lead, if_pos second, if_neg third]
  | three lead second third => rw [outcome_lead3 _ _ _ lead, if_pos second, if_pos third]
  | twoOfFour lead second third =>
      rw [outcome_lead4 _ _ _ lead, if_pos second, if_neg third]
  | threeOfFour lead second third fourth =>
      rw [outcome_lead4 _ _ _ lead, if_pos second, if_pos third, if_neg fourth]
  | four lead second third fourth =>
      rw [outcome_lead4 _ _ _ lead, if_pos second, if_pos third, if_pos fourth]

theorem continues_tail {segment : Segment (BitVec 8)} {text : List (BitVec 8)}
    (leads : Leads WellFormed segment text) :
    ∀ unit ∈ segment.units.tail, Continues unit.toNat := by
  rcases continues_of_leads leads with ⟨lead, trail, units, _, continues⟩
  rwa [units, List.tail_cons]

theorem split_at {segments : List (Segment (BitVec 8))} {front rest : List (BitVec 8)}
    {lead : BitVec 8} (cuts : Segments WellFormed segments (front ++ lead :: rest))
    (begins : ¬ Continues lead.toNat) :
    ∃ before after, segments = before ++ after ∧ covered before = front ∧
      Segments WellFormed after (lead :: rest) :=
  Segments.split_at (fun unit : BitVec 8 => Continues unit.toNat) continues_tail cuts begins

theorem not_continues_of_several {x0 x1 x2 x3 : ℕ} {result : Bool × ℕ}
    (several : Several x0 x1 x2 x3 result) : ¬ Continues x0 := by
  cases several <;> omega

theorem several_of_outcomeOf {lead : BitVec 8} {trail : List (BitVec 8)}
    (long : (outcomeOf lead trail).2 ≠ 1) :
    Several lead.toNat (trail.headD 0).toNat (trail.tail.headD 0).toNat
      (trail.tail.tail.headD 0).toNat (outcomeOf lead trail) :=
  several_of_outcome long

theorem outcome_of_single {x0 x1 x2 x3 : ℕ} (single : (outcome x0 x1 x2 x3).2 = 1) :
    (outcome x0 x1 x2 x3).1 = true ↔ x0 ≤ 0x7F := by
  rw [outcome] at single ⊢
  split_ifs at single ⊢ <;> simp_all

theorem segment_of_reaches {lead : BitVec 8} {trail : List (BitVec 8)}
    (reaches : (outcomeOf lead trail).2 = trail.length + 1) :
    segment (lead :: trail) =
      if (outcomeOf lead trail).1 then .valid (lead :: trail) else .error (lead :: trail) := by
  have taken : (lead :: trail).take (outcomeOf lead trail).2 = lead :: trail :=
    List.take_of_length_le reaches.ge
  rw [segment_eq, taken]

section Last

variable {front : List (Segment (BitVec 8))} {last : Segment (BitVec 8)} {text : List (BitVec 8)}

theorem outcome_of_last (cuts : Segments WellFormed (front ++ [last]) text) :
    ∃ lead trail, text = covered front ++ lead :: trail ∧ last = segment (lead :: trail) ∧
      last.units = lead :: trail ∧ (outcomeOf lead trail).2 = trail.length + 1 := by
  have leads := cuts.of_append.2.cons_inv.1
  have whole := cuts.covered_eq
  rw [covered_cons, covered_nil, List.append_nil] at leads
  rw [covered_append, covered_cons, covered_nil, List.append_nil] at whole
  rcases continues_of_leads leads with ⟨lead, trail, units, _, _⟩
  rw [units] at leads whole
  have same := leads.unique prefixFree (segment_leads (List.cons_ne_nil lead trail))
  have inside := (outcomeOf_le lead trail).2
  refine ⟨lead, trail, whole.symm, same, units, ?_⟩
  have length := congrArg (fun segment => segment.units.length) same
  rw [units, segment_eq] at length
  split_ifs at length <;> simp only [Segment.units, List.length_take, List.length_cons] at * <;>
    omega

theorem last_of_outcome {before trail : List (BitVec 8)} {lead : BitVec 8}
    (cuts : Segments WellFormed (front ++ [last]) (before ++ lead :: trail))
    (some : trail ≠ []) (reaches : (outcomeOf lead trail).2 = trail.length + 1) :
    last.units = lead :: trail := by
  have positive := List.length_pos_of_ne_nil some
  have several := several_of_outcomeOf (show (outcomeOf lead trail).2 ≠ 1 by omega)
  rcases split_at cuts (not_continues_of_several several) with ⟨start, after, whole, _, rest⟩
  have first := segment_leads (List.cons_ne_nil lead trail)
  have units : (segment (lead :: trail)).units = lead :: trail := by
    rw [segment_of_reaches reaches]
    split_ifs <;> rfl
  have alone : Segments WellFormed [segment (lead :: trail)] (lead :: trail) := by
    have single : Segments WellFormed [segment (lead :: trail)]
        ((segment (lead :: trail)).units ++ []) :=
      .cons (by rwa [units, List.append_nil]) .nil
    rwa [List.append_nil, units] at single
  rw [rest.unique prefixFree alone] at whole
  have same := (List.append_inj' whole rfl).2
  rw [List.cons.injEq] at same
  rw [same.1, units]

end Last

theorem leads_synchronize : ∀ row ∈ table, row.lead.high ≤ 0x7F ∨ 0xC2 ≤ row.lead.low := by
  decide

theorem valid_of_occurs {segments : List (Segment (BitVec 8))} {front units back : List (BitVec 8)}
    (cuts : Segments WellFormed segments (front ++ units ++ back)) (wellFormed : WellFormed units) :
    ∃ before after, segments = before ++ .valid units :: after ∧ covered before = front := by
  cases units with
  | nil => exact absurd wellFormed id
  | cons lead trail =>
      have begins : ¬ Continues lead.toNat := by
        rcases wellFormed with ⟨row, mem, contains, _⟩
        have apart := leads_synchronize row mem
        rcases contains with ⟨atLeast, atMost⟩
        omega
      rw [List.append_assoc, List.cons_append] at cuts
      rcases split_at cuts begins with ⟨before, after, rfl, covers, rest⟩
      cases after with
      | nil => cases rest
      | cons first after =>
          have leads : Leads WellFormed (.valid (lead :: trail)) (lead :: (trail ++ back)) :=
            .valid wellFormed (List.prefix_append (lead :: trail) back)
          rcases rest.cons_inv.1.unique prefixFree leads with rfl
          exact ⟨before, after, rfl, covers⟩

end Utf8
