import USwift.Unicode.UTF8Forward

/-!
# Segments of UTF-8

Running the forward parser to exhaustion reports the segments of its input. The
32-bit configuration reports every byte of an ill-formed segment by itself.
-/

namespace USwift

open Packing Segmentation

namespace UTF8

variable {word : WordSize}

/-- The result that stands for a segment. -/
def resultOf (word : WordSize) : Segment (BitVec 8) → ParseResult (ValidUTF8Buffer word)
  | .valid units => .valid (.ofBytes units)
  | .error units => .error units.length

/-- The segments that a configuration reports in place of one. -/
def split : WordSize → Segment (BitVec 8) → List (Segment (BitVec 8))
  | .word16, segment => [segment]
  | .word32, .valid units => [.valid units]
  | .word32, .error units => units.map fun unit => .error [unit]

namespace ForwardParser

theorem isASCII_iff (x : Value word .uint8) : isASCII x = true ↔ x.toNat ≤ 0x7F := by
  have all : ∀ x : BitVec 8, (x &&& 0x80 == 0) = true ↔ x.toNat ≤ 0x7F := by decide
  exact all x

theorem ofUnits_take (lead : BitVec 8) (rest : List (BitVec 8)) :
    pack 32 ((lead :: rest).take 4) =
      quad lead (rest.headD 0) (rest.tail.headD 0) (rest.tail.tail.headD 0) := by
  rcases rest with _ | ⟨x1, _ | ⟨x2, _ | ⟨x3, more⟩⟩⟩
  · exact (pack_append_zeros 32 [lead] 3).symm
  · exact (pack_append_zeros 32 [lead, x1] 2).symm
  · exact (pack_append_zeros 32 [lead, x1, x2] 1).symm
  · rfl

theorem room_eq (word : WordSize) : (forwardParser word).room = 4 := by
  change 32 / IntegerType.uint8.bitWidth word = 4
  rw [IntegerType.bitWidth_uint8]

theorem parse_take (word : WordSize) {lead : BitVec 8} (rest : List (BitVec 8))
    (notASCII : 0x80 ≤ lead.toNat) :
    parseMultipleCodeUnits (UIntBuffer.ofUnits ((lead :: rest).take 4) :
        UIntBuffer word .uint8) =
      if (Utf8.outcomeOf lead rest).1 = true then
        (true, BitVec.ofNat 8 (8 * (Utf8.outcomeOf lead rest).2))
      else (false, BitVec.ofNat 8 (8 * reported word (Utf8.outcomeOf lead rest).2)) := by
  rw [UIntBuffer.ofUnits]
  have bits := ofUnits_take lead rest
  rw [show pack 32 ((lead :: rest).take 4) = _ from bits]
  exact parseMultipleCodeUnits_eq notASCII _

theorem reported_le (word : WordSize) {length bound : ℕ} (positive : 1 ≤ length)
    (inside : length ≤ bound) : 1 ≤ reported word length ∧ reported word length ≤ bound := by
  cases word with
  | word16 => exact ⟨positive, inside⟩
  | word32 => exact ⟨le_rfl, positive.trans inside⟩

theorem sound : (forwardParser word).Sound where
  buffered := .uint8
  regular := by simp
  consumes := by
    intro (lead : BitVec 8) (units : List (BitVec 8)) notScalar fits
    have notASCII : 0x80 ≤ lead.toNat := by
      have outside : ¬ @isASCII word lead = true := by
        rw [Bool.not_eq_true]
        exact notScalar
      rw [isASCII_iff] at outside
      omega
    have whole : (lead :: units).take 4 = lead :: units := by
      apply List.take_of_length_le
      rw [← room_eq word]
      exact (UTFParser.le_room_iff .uint8).mp fits
    have parsed := parse_take word units notASCII
    rw [whole] at parsed
    have inside := Utf8.outcomeOf_le lead units
    have reports := reported_le word inside.1 inside.2
    by_cases valid : (Utf8.outcomeOf lead units).1 = true
    · rw [if_pos valid] at parsed
      exact ⟨_, inside.1, inside.2, congrArg Prod.snd parsed⟩
    · rw [if_neg valid] at parsed
      exact ⟨_, reports.1, reports.2, congrArg Prod.snd parsed⟩

theorem bufferedScalar_eq (word : WordSize) {units : List (BitVec 8)} (length : ℕ)
    (fits : units.length ≤ 4)
    (inside : length ≤ units.length) (noFull : ∀ unit ∈ units.take length, unit ≠ 0xFF) :
    bufferedScalar (UIntBuffer.ofUnits units : UIntBuffer word .uint8)
      (BitVec.ofNat 8 (8 * length)) = .ofBytes (units.take length) := by
  have taken : (units.take length).length = length := by
    rw [List.length_take]
    omega
  have packed : (pack 32 units).toNat = number units := toNat_pack (by omega)
  have reduced : number units % 2 ^ (8 * length) = number (units.take length) :=
    (number_take units length).symm
  have ones : 0x01010101 % 2 ^ (8 * length) = number (List.replicate length (1#8)) := by
    have most : (List.replicate 4 (1#8)).take length = List.replicate length (1#8) := by
      rw [List.take_replicate, Nat.min_eq_left (by omega)]
    rw [← most, number_take]
    rfl
  have biased := number_map_add_one (by decide) noFull
  rw [taken] at biased
  have below := number_lt ((units.take length).map (· + 1))
  rw [List.length_map, taken] at below
  have sum : (number units + 0x01010101) % 2 ^ 32 % 2 ^ (8 * length) =
      number ((units.take length).map (· + 1)) := by
    rw [Nat.mod_mod_of_dvd _ (pow_dvd_pow 2 (by omega)), Nat.add_mod, reduced, ones, ← biased]
    exact Nat.mod_eq_of_lt below
  have value : ((pack 32 units).setWidth 32 + 0x01010101#32).toNat =
      (number units + 0x01010101) % 2 ^ 32 := by
    rw [BitVec.setWidth_eq, BitVec.toNat_add, packed]
    rfl
  have bits : BitVec.toNat (bufferedScalar (UIntBuffer.ofUnits units : UIntBuffer word .uint8)
      (BitVec.ofNat 8 (8 * length))).biasedBits =
      (pack 32 ((units.take length).map (· + 1))).toNat := by
    rw [bufferedScalar, UIntBuffer.truncatingIfNeeded_uint32,
      toNat_pack (by rw [List.length_map]; omega), ← sum, ← value]
    exact UIntBuffer.toNat_and_lowBits (Or.inr rfl) _ (by omega)
  exact congrArg ValidUTF8Buffer.mk (BitVec.eq_of_toNat_eq bits)

theorem verdict_eq (word : WordSize) {lead : BitVec 8} (rest : List (BitVec 8))
    (notASCII : 0x80 ≤ lead.toNat) :
    (forwardParser word).verdict (lead :: rest) =
      if (Utf8.outcomeOf lead rest).1 = true then
        (.valid (.ofBytes ((lead :: rest).take (Utf8.outcomeOf lead rest).2)),
          (Utf8.outcomeOf lead rest).2)
      else
        (.error (reported word (Utf8.outcomeOf lead rest).2),
          reported word (Utf8.outcomeOf lead rest).2) := by
  have parsed := parse_take word rest notASCII
  have inside := Utf8.outcomeOf_le lead rest
  have most := Utf8.outcomeOf_le_four lead rest
  have reports := reported_le word inside.1 most
  have count (length : ℕ) (few : length ≤ 4) :
      (forwardParser word).unitCount (BitVec.ofNat 8 (8 * length)) = length :=
    UTFParser.unitCount_eq .uint8 (by
      change IntegerType.uint8.bitWidth word * length ≤ 32
      rw [IntegerType.bitWidth_uint8]
      omega)
  have decided : (forwardParser word).verdict (lead :: rest) =
      (fun parsed : Bool × Value word .uint8 =>
        (if parsed.1 = true then
          .valid (bufferedScalar (UIntBuffer.ofUnits ((lead :: rest).take 4)) parsed.2)
        else .error ((forwardParser word).unitCount parsed.2),
          (forwardParser word).unitCount parsed.2))
        (parseMultipleCodeUnits (UIntBuffer.ofUnits ((lead :: rest).take 4))) := by
    rw [UTFParser.verdict, room_eq]
  rw [decided, parsed]
  split_ifs with valid
  · have taken : ((lead :: rest).take 4).take (Utf8.outcomeOf lead rest).2 =
        (lead :: rest).take (Utf8.outcomeOf lead rest).2 := by
      rw [List.take_take, Nat.min_eq_left most]
    have content := bufferedScalar_eq word (Utf8.outcomeOf lead rest).2
      (show ((lead :: rest).take 4).length ≤ 4 by rw [List.length_take]; omega)
      (by rw [List.length_take]; omega)
      (by
        rw [taken]
        exact Utf8.ne_full_of_wellFormed (Utf8.wellFormed_of_outcome valid))
    rw [taken] at content
    exact Prod.ext (congrArg ParseResult.valid content) (count _ most)
  · exact Prod.ext (congrArg ParseResult.error (count _ reports.2)) (count _ reports.2)

theorem scan_cons (word : WordSize) (lead : BitVec 8) (rest : List (BitVec 8)) :
    (forwardParser word).scan (lead :: rest) =
      if (Utf8.outcomeOf lead rest).1 = true then
        some (.valid (.ofBytes ((lead :: rest).take (Utf8.outcomeOf lead rest).2)),
          (lead :: rest).drop (Utf8.outcomeOf lead rest).2)
      else
        some (.error (reported word (Utf8.outcomeOf lead rest).2),
          (lead :: rest).drop (reported word (Utf8.outcomeOf lead rest).2)) := by
  by_cases ascii : @isASCII word lead = true
  · have outcome : Utf8.outcomeOf lead rest = (true, 1) :=
      Utf8.outcome_ascii _ _ _ ((isASCII_iff lead).mp ascii)
    rw [outcome]
    refine ((forwardParser word).scan_of_scalar rest ascii).trans (congrArg some (Prod.ext ?_ rfl))
    exact congrArg ParseResult.valid (ValidUTF8Buffer.append_empty lead)
  · have notASCII : 0x80 ≤ lead.toNat := by
      rw [isASCII_iff] at ascii
      omega
    refine ((forwardParser word).scan_of_not_scalar rest ascii).trans ?_
    rw [verdict_eq word rest notASCII]
    split_ifs
    · rfl
    · rfl

theorem scan_continuations (word : WordSize) {units : List (BitVec 8)} (back : List (BitVec 8))
    (continues : ∀ unit ∈ units, Utf8.Continues unit.toNat) (single : word = .word32) :
    Iteration.Runs (forwardParser word).scan (units ++ back)
      (units.map fun _ => .error 1) back := by
  induction units with
  | nil => exact .refl back
  | cons unit units rest =>
      rw [List.forall_mem_cons] at continues
      have outcome : Utf8.outcomeOf unit (units ++ back) = (false, 1) :=
        Utf8.outcome_of_no_lead _ _ _ (Or.inl ⟨continues.1.1, continues.1.2.trans (by decide)⟩)
      have scanned := scan_cons word unit (units ++ back)
      rw [outcome, if_neg Bool.false_ne_true] at scanned
      subst single
      exact .step scanned (rest continues.2)

theorem scan_segment (word : WordSize) {segment : Segment (BitVec 8)} {back : List (BitVec 8)}
    (leads : Leads Utf8.WellFormed segment (segment.units ++ back)) :
    Iteration.Runs (forwardParser word).scan (segment.units ++ back)
      ((split word segment).map (resultOf word)) back := by
  rcases Utf8.continues_of_leads leads with ⟨lead, trail, units, _, continues⟩
  rw [units, List.cons_append] at leads ⊢
  have first := Utf8.segment_leads (List.cons_ne_nil lead (trail ++ back))
  have same := leads.unique Utf8.prefixFree first
  have scanned := scan_cons word lead (trail ++ back)
  have inside := Utf8.outcomeOf_le lead (trail ++ back)
  rw [Utf8.segment_eq] at same
  generalize Utf8.outcomeOf lead (trail ++ back) = outcome at same scanned inside
  have taken : ((lead :: (trail ++ back)).take outcome.2).length = outcome.2 := by
    rw [List.length_take]
    omega
  have units' : (lead :: (trail ++ back)).take outcome.2 = lead :: trail := by
    rw [← units, same]
    split_ifs <;> rfl
  have dropped : (lead :: (trail ++ back)).drop outcome.2 = back := by
    have whole := List.take_append_drop outcome.2 (lead :: (trail ++ back))
    rw [units', List.cons_append] at whole
    exact List.append_cancel_left (List.cons.inj whole).2
  have length : (lead :: trail).length = outcome.2 := by rw [← units', taken]
  rw [units', dropped] at scanned
  rw [units'] at same
  by_cases valid : outcome.1 = true
  · rw [if_pos valid] at same scanned
    have reports : (split word segment).map (resultOf word) =
        [.valid (.ofBytes (lead :: trail))] := by
      rw [same]
      cases word <;> rfl
    rw [reports]
    exact .step scanned (.refl back)
  · rw [if_neg valid] at same scanned
    rw [same]
    cases word with
    | word16 =>
        rw [reported, dropped] at scanned
        rw [split, List.map_singleton, resultOf, length]
        exact .step scanned (.refl back)
    | word32 =>
        have reports : (split .word32 (.error (lead :: trail))).map (resultOf .word32) =
            .error 1 :: trail.map fun _ => .error 1 := by
          rw [split, List.map_map, List.map_cons]
          rfl
        rw [reports]
        exact .step scanned (scan_continuations .word32 back continues rfl)

theorem scan_segments (word : WordSize) {front back : List (Segment (BitVec 8))}
    {text : List (BitVec 8)} (cuts : Segments Utf8.WellFormed (front ++ back) text) :
    Iteration.Runs (forwardParser word).scan text
      ((front.flatMap (split word)).map (resultOf word)) (covered back) := by
  induction front generalizing text with
  | nil =>
      rw [List.nil_append] at cuts
      rw [cuts.covered_eq]
      exact .refl text
  | cons segment front rest =>
      rcases cuts.cons_inv with ⟨first, whole, later⟩
      rw [whole] at first ⊢
      rw [List.flatMap_cons, List.map_append]
      exact (scan_segment word first).trans (rest later)

end ForwardParser

theorem parses_segments (word : WordSize) {segments : List (Segment (BitVec 8))}
    {text : List (BitVec 8)} (cuts : Segments Utf8.WellFormed segments text) :
    (forwardParser word).Parses text ((segments.flatMap (split word)).map (resultOf word)) := by
  rw [← List.append_nil segments] at cuts
  exact UTFParser.parses_of_scan ForwardParser.sound (ForwardParser.scan_segments word cuts)

/-- A result carries exactly the bytes of a valid segment or the length of an ill-formed one. -/
inductive Reports : ParseResult (ValidUTF8Buffer word) → Segment (BitVec 8) → Prop
  | valid {content : ValidUTF8Buffer word} {units : List (BitVec 8)}
      (carried : Iteration.Yields ValidUTF8Buffer.next content units) :
      Reports (.valid content) (.valid units)
  | error {units : List (BitVec 8)} : Reports (.error units.length) (.error units)

/-- The bytes that a parser has not consumed are those of its buffer and those of its input. -/
def Unconsumed (state : (forwardParser word).State) (text : List (BitVec 8)) : Prop :=
  ∃ held, Iteration.Yields UIntBuffer.next state.buffer held ∧ held ++ state.input = text

theorem unconsumed_of_holds {state : (forwardParser word).State} {text : List (BitVec 8)}
    (holds : state.Holds text) : Unconsumed state text := by
  rcases holds.units_eq with ⟨held, buffer, whole, space⟩
  have fits : (forwardParser word).codeUnit.bitWidth word * held.length ≤ 32 :=
    (UTFParser.le_room_iff .uint8).mpr (by omega)
  refine ⟨held, ?_, whole.symm⟩
  rw [buffer]
  exact UIntBuffer.yields_ofUnits (show 8 ≤ 32 by decide) fits

theorem reports_resultOf {segments : List (Segment (BitVec 8))}
    (bounded : ∀ units, .valid units ∈ segments →
      units.length ≤ 4 ∧ ∀ unit ∈ units, unit ≠ 0xFF) :
    List.Forall₂ Reports (segments.map (resultOf word)) segments := by
  rw [List.forall₂_map_left_iff, List.forall₂_same]
  intro segment mem
  cases segment with
  | valid units =>
      rcases bounded units mem with ⟨fits, noFull⟩
      exact .valid (ValidUTF8Buffer.yields_ofBytes noFull fits)
  | error units => exact .error

/--
On AVR, repeated calls of `parseScalar` reach the end of every input. They report
its segments according to the table of well-formed sequences, consume them in
order, and never append to a buffer of four bytes.
-/
theorem forwardParser_segments (text : List (BitVec 8)) :
    ∃ results segments final,
      Iteration.Runs (forwardParser .word16).next ((forwardParser .word16).start text)
        results final ∧
      ((forwardParser .word16).parseScalar final).1 = .emptyInput ∧ Unconsumed final [] ∧
      Segments Utf8.WellFormed segments text ∧
      List.Forall₂ Reports results segments ∧
      (∀ units, .valid units ∈ segments → 1 ≤ units.length ∧ units.length ≤ 4) ∧
      (∀ units, .error units ∈ segments → 1 ≤ units.length ∧ units.length ≤ 3) ∧
      (∀ front back, segments = front ++ back → ∃ state,
        Iteration.Runs (forwardParser .word16).next ((forwardParser .word16).start text)
          (results.take front.length) state ∧ Unconsumed state (covered back)) ∧
      ∀ count ∈ final.appendCounts, toInt .word16 .int count < 4 := by
  rcases Utf8.exists_segments text with ⟨segments, cuts⟩
  have single (some : List (Segment (BitVec 8))) : some.flatMap (split .word16) = some :=
    List.flatMap_singleton' some
  have reached (front back : List (Segment (BitVec 8))) (whole : segments = front ++ back) :
      ∃ state, Iteration.Runs (forwardParser .word16).next ((forwardParser .word16).start text)
        (front.map (resultOf .word16)) state ∧ state.Holds (covered back) := by
    rw [whole] at cuts
    have scanned := ForwardParser.scan_segments .word16 cuts
    rw [single] at scanned
    exact UTFParser.runs_of_scan ForwardParser.sound scanned
  rcases reached segments [] (List.append_nil segments).symm with ⟨final, runs, holds⟩
  have bounds (units : List (BitVec 8)) (mem : .valid units ∈ segments) :
      1 ≤ units.length ∧ units.length ≤ 4 ∧ ∀ unit ∈ units, unit ≠ 0xFF := by
    rcases cuts.leads_of_mem mem with ⟨rest, leads⟩
    rcases Utf8.continues_of_leads leads with ⟨lead, trail, whole, short, _⟩
    cases leads with
    | valid wellFormed _ =>
        have length : units.length = trail.length + 1 := congrArg List.length whole
        exact ⟨by omega, by omega, Utf8.ne_full_of_wellFormed wellFormed⟩
  refine ⟨_, segments, final, runs, ?_, unconsumed_of_holds holds, cuts,
    reports_resultOf fun units mem => (bounds units mem).2, ?_, ?_, ?_, ?_⟩
  · rw [UTFParser.parseScalar_of_nil holds]
  · intro units mem
    exact ⟨(bounds units mem).1, (bounds units mem).2.1⟩
  · intro units mem
    rcases cuts.leads_of_mem mem with ⟨rest, leads⟩
    exact Utf8.length_of_error leads
  · intro front back whole
    rcases reached front back whole with ⟨state, some, held⟩
    refine ⟨state, ?_, unconsumed_of_holds held⟩
    rw [whole, List.map_append, ← List.length_map (resultOf .word16), List.take_left]
    exact some
  · intro count mem
    have less := holds.counts_less count mem
    rw [less_iff] at less
    exact less.trans_eq (by decide)

end UTF8

end USwift
