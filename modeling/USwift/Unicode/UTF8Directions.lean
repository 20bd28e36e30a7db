import USwift.Unicode.UTF8Reverse

/-!
# UTF-8 in both directions

Read from its end, a text is cut into the segments that it has from its front. The
reverse parser adds one to all four buffered bytes before it drops those in front of
the scalar. A byte 0xFF there overflows into the lead byte of the scalar.
-/

namespace USwift

open Packing Segmentation Utf8

namespace UTF8

variable {word : WordSize}

/-- Adding one to every byte in front of a scalar carries into its lead byte. -/
def Overflows (front units : List (BitVec 8)) : Prop :=
  units.length = 3 ∧ [0xFF] <:+ front ∨
    units.length = 2 ∧ ([0xFF] <:+ front ∨ [0xFF, 0xFE] <:+ front)

instance (front units : List (BitVec 8)) : Decidable (Overflows front units) :=
  inferInstanceAs (Decidable (_ ∨ _))

/-- The bytes of the scalar that the reverse parser finds behind others. -/
def reread (front units : List (BitVec 8)) : List (BitVec 8) :=
  if Overflows front units then units.modifyHead (· + 1) else units

/-- The result of the reverse parser that stands for a segment. -/
def reverseResult (word : WordSize) (front : List (BitVec 8)) :
    Segment (BitVec 8) → ParseResult (ValidUTF8Buffer word)
  | .valid units => .valid (.ofBytes (reread front units))
  | .error units => .error units.length

namespace ReverseParser

theorem suffix_full_iff (front : List (BitVec 8)) :
    [0xFF] <:+ front ↔ front.reverse.headD 0 = 0xFF := by
  rw [← List.reverse_prefix, List.reverse_singleton]
  cases front.reverse with
  | nil => simp
  | cons unit more => simp [List.cons_prefix_cons, eq_comm]

theorem suffix_full_next_iff (front : List (BitVec 8)) :
    [0xFF, 0xFE] <:+ front ↔
      front.reverse.headD 0 = 0xFE ∧ front.reverse.tail.headD 0 = 0xFF := by
  rw [← List.reverse_prefix]
  rcases front.reverse with _ | ⟨unit, _ | ⟨other, more⟩⟩
  · simp
  · simp
  · simp [List.cons_prefix_cons, eq_comm]

theorem toNat_quad (x0 x1 x2 x3 : BitVec 8) :
    (quad x0 x1 x2 x3).toNat =
      x0.toNat + 256 * x1.toNat + 65536 * x2.toNat + 16777216 * x3.toNat := by
  rw [quad, toNat_pack (by simp)]
  simp only [number_cons, number_nil]
  omega

theorem toNat_bufferedScalar (x0 x1 x2 x3 : BitVec 8) (bitCount : Value word .uint8) {amount : ℕ}
    (positive : 0 < amount) (fits : amount ≤ 32) :
    BitVec.toNat (bufferedScalar (⟨quad x0 x1 x2 x3, bitCount⟩ : UIntBuffer word .uint8)
      (BitVec.ofNat 8 amount)).biasedBits =
      (x3.toNat + 256 * x2.toNat + 65536 * x1.toNat + 16777216 * x0.toNat + 16843009) %
        4294967296 / 2 ^ (32 - amount) := by
  have rest : (32 - BitVec.ofNat 8 amount : BitVec 8).setWidth 32 =
      BitVec.ofNat 32 (32 - amount) := by
    apply BitVec.eq_of_toNat_eq
    rw [BitVec.toNat_setWidth, BitVec.toNat_sub, BitVec.toNat_ofNat, BitVec.toNat_ofNat]
    change (2 ^ 8 - amount % 2 ^ 8 + 32) % 2 ^ 8 % 2 ^ 32 = _
    omega
  have shift : truncatingIfNeeded word .uint32 .uint8 (32 - BitVec.ofNat 8 amount : BitVec 8) =
      BitVec.ofNat 32 (32 - amount) := by
    rw [UIntBuffer.truncatingIfNeeded_uint8]
    exact rest
  have swapped : byteSwapped word .uint32 (quad x0 x1 x2 x3) = quad x3 x2 x1 x0 :=
    byteSwapped_pack rfl
  have value : ((quad x3 x2 x1 x0).setWidth 32 + 0x01010101#32).toNat =
      (x3.toNat + 256 * x2.toNat + 65536 * x1.toNat + 16777216 * x0.toNat + 16843009) %
        4294967296 := by
    rw [BitVec.setWidth_eq, BitVec.toNat_add, toNat_quad]
    rfl
  have dropped : maskingShiftRight word .uint32
      ((quad x3 x2 x1 x0).setWidth 32 + 0x01010101#32 : BitVec 32)
        (BitVec.ofNat 32 (32 - amount)) =
      ((quad x3 x2 x1 x0).setWidth 32 + 0x01010101#32) >>> (32 - amount) :=
    maskingShiftRight_ofNat rfl _ (by rw [IntegerType.bitWidth_uint32]; omega)
  rw [bufferedScalar]
  dsimp only
  rw [shift, swapped, UIntBuffer.truncatingIfNeeded_uint32]
  refine (congrArg BitVec.toNat dropped).trans ?_
  rw [BitVec.toNat_ushiftRight, value, Nat.shiftRight_eq_div_pow]

theorem toNat_add_one {unit : BitVec 8} (below : unit.toNat ≤ 0xFE) :
    (unit + 1).toNat = unit.toNat + 1 := by
  rw [BitVec.toNat_add]
  apply Nat.mod_eq_of_lt
  change unit.toNat + 1 < 256
  omega

theorem toNat_reread {front trail : List (BitVec 8)} {lead : BitVec 8} (fits : trail.length ≤ 3)
    (below : lead.toNat ≤ 0xFD) :
    BitVec.toNat (ValidUTF8Buffer.ofBytes (reread front (lead :: trail)) :
        ValidUTF8Buffer word).biasedBits =
      lead.toNat + 1 + (if Overflows front (lead :: trail) then 1 else 0) +
        2 ^ 8 * number (trail.map (· + 1)) := by
  have packed {units : List (BitVec 8)} (fits : units.length ≤ 4) :
      BitVec.toNat (ValidUTF8Buffer.ofBytes units : ValidUTF8Buffer word).biasedBits =
        number (units.map (· + 1)) :=
    toNat_pack (show 8 * (units.map (· + 1)).length ≤ 32 by rw [List.length_map]; omega)
  have next := toNat_add_one (show lead.toNat ≤ 0xFE by omega)
  rw [reread]
  split_ifs
  · rw [List.modifyHead_cons, packed (by rw [List.length_cons]; omega), List.map_cons,
      number_cons, toNat_add_one (by omega), next]
  · rw [packed (by rw [List.length_cons]; omega), List.map_cons, number_cons, next, Nat.add_zero]

theorem overflows_two_iff (front : List (BitVec 8)) (lead second : BitVec 8) :
    Overflows front [lead, second] ↔
      (front.reverse.headD 0).toNat = 255 ∨
        (front.reverse.headD 0).toNat = 254 ∧ (front.reverse.tail.headD 0).toNat = 255 := by
  have bytes (x : BitVec 8) : (x = 0xFF ↔ x.toNat = 255) ∧ (x = 0xFE ↔ x.toNat = 254) := by
    rw [← BitVec.toNat_inj, ← BitVec.toNat_inj]
    exact ⟨Iff.rfl, Iff.rfl⟩
  rw [Overflows, suffix_full_iff, suffix_full_next_iff, (bytes _).1, (bytes _).1, (bytes _).2]
  simp

theorem overflows_three_iff (front : List (BitVec 8)) (lead second third : BitVec 8) :
    Overflows front [lead, second, third] ↔ (front.reverse.headD 0).toNat = 255 := by
  have full (x : BitVec 8) : x = 0xFF ↔ x.toNat = 255 := BitVec.toNat_inj.symm
  rw [Overflows, suffix_full_iff, full]
  simp

theorem not_overflows_four (front : List (BitVec 8)) (lead second third fourth : BitVec 8) :
    ¬ Overflows front [lead, second, third, fourth] := by
  simp [Overflows]

theorem bufferedScalar_eq {lead last : BitVec 8} {trail front before : List (BitVec 8)}
    (bitCount : Value word .uint8)
    (whole : last :: before = trail.reverse ++ lead :: front.reverse)
    (some : trail ≠ []) (valid : outcomeOf lead trail = (true, trail.length + 1)) :
    bufferedScalar (⟨pack 32 ((last :: before).take 4), bitCount⟩ : UIntBuffer word .uint8)
      (BitVec.ofNat 8 (8 * (trail.length + 1))) =
        .ofBytes (reread front (lead :: trail)) := by
  have positive := List.length_pos_of_ne_nil some
  have most := outcomeOf_le_four lead trail
  have several := several_of_outcomeOf (show (outcomeOf lead trail).2 ≠ 1 by rw [valid]; simpa)
  have stored : (pack 32 ((last :: before).take 4) : Value word .uint32) = _ :=
    ForwardParser.ofUnits_take last before
  rw [valid] at most several
  refine congrArg ValidUTF8Buffer.mk (BitVec.eq_of_toNat_eq ?_)
  rw [stored]
  have first := (front.reverse.headD 0).isLt
  have second := (front.reverse.tail.headD 0).isLt
  rcases trail with _ | ⟨y1, _ | ⟨y2, _ | ⟨y3, _ | ⟨y4, trail⟩⟩⟩⟩
  · exact absurd rfl some
  · rcases List.cons.inj whole with ⟨rfl, rfl⟩
    cases several with
    | two range tail =>
        refine (@toNat_bufferedScalar word last lead (front.reverse.headD 0)
          (front.reverse.tail.headD 0) bitCount 16 (by decide) (by decide)).trans ?_
        refine Eq.trans ?_ (toNat_reread (by simp) (by omega)).symm
        simp only [overflows_two_iff, List.headD_cons, List.map_cons, List.map_nil,
          number_cons, number_nil, Nat.reduceSub, Nat.reducePow] at tail ⊢
        rw [toNat_add_one (by omega)]
        split_ifs <;> omega
  · rcases List.cons.inj whole with ⟨rfl, rfl⟩
    cases several with
    | three range tail third =>
        refine (@toNat_bufferedScalar word last y1 lead (front.reverse.headD 0) bitCount 24
          (by decide) (by decide)).trans ?_
        refine Eq.trans ?_ (toNat_reread (by simp) (by omega)).symm
        simp only [overflows_three_iff, List.headD_cons, List.tail_cons, List.map_cons,
          List.map_nil, number_cons, number_nil, Nat.reduceSub, Nat.reducePow] at tail third ⊢
        rw [toNat_add_one (by omega), toNat_add_one (by omega)]
        split_ifs <;> omega
  · rcases List.cons.inj whole with ⟨rfl, rfl⟩
    cases several with
    | four range tail third fourth =>
        refine (@toNat_bufferedScalar word last y2 y1 lead bitCount 32
          (by decide) (by decide)).trans ?_
        refine Eq.trans ?_ (toNat_reread (by simp) (by omega)).symm
        simp only [not_overflows_four, if_false, List.headD_cons, List.tail_cons, List.map_cons,
          List.map_nil, number_cons, number_nil, Nat.reduceSub, Nat.reducePow]
          at tail third fourth ⊢
        rw [toNat_add_one (by omega), toNat_add_one (by omega), toNat_add_one (by omega)]
        omega
  · simp only [List.length_cons] at most
    omega

theorem decisionOf_le (last : BitVec 8) (before : List (BitVec 8)) :
    1 ≤ (decisionOf last before).2 ∧ (decisionOf last before).2 ≤ (last :: before).length ∧
      (decisionOf last before).2 ≤ 4 := by
  by_cases single : decisionOf last before = (false, 1)
  · rw [single, List.length_cons]
    exact ⟨le_rfl, Nat.succ_le_succ (Nat.zero_le _), by decide⟩
  · rcases reaches_of_decisionOf single with ⟨lead, trail, more, whole, _, same, reaches⟩
    have most := outcomeOf_le_four lead trail
    rw [same, whole, List.length_append, List.length_reverse, List.length_cons]
    omega

theorem parse_take (word : WordSize) (last : BitVec 8) (before : List (BitVec 8)) :
    parseMultipleCodeUnits (UIntBuffer.ofUnits ((last :: before).take 4) :
      UIntBuffer word .uint8) = measured (decisionOf last before) := by
  have bits : (pack 32 ((last :: before).take 4) : Value word .uint32) = _ :=
    ForwardParser.ofUnits_take last before
  rw [UIntBuffer.ofUnits, bits]
  exact parseMultipleCodeUnits_eq _

theorem room_eq (word : WordSize) : (reverseParser word).room = 4 := by
  change 32 / IntegerType.uint8.bitWidth word = 4
  rw [IntegerType.bitWidth_uint8]

theorem sound : (reverseParser word).Sound where
  buffered := .uint8
  regular := by simp
  consumes := by
    intro (last : BitVec 8) (before : List (BitVec 8)) _ fits
    have whole : (last :: before).take 4 = last :: before := by
      apply List.take_of_length_le
      rw [← room_eq word]
      exact (UTFParser.le_room_iff .uint8).mp fits
    have parsed := parse_take word last before
    rw [whole] at parsed
    rcases decisionOf_le last before with ⟨some, inside, _⟩
    exact ⟨_, some, inside, congrArg Prod.snd parsed⟩

theorem verdict_eq (word : WordSize) (last : BitVec 8) (before : List (BitVec 8)) :
    (reverseParser word).verdict (last :: before) =
      (if (decisionOf last before).1 = true then
        .valid (bufferedScalar (UIntBuffer.ofUnits ((last :: before).take 4))
          (BitVec.ofNat 8 (8 * (decisionOf last before).2)))
      else .error (decisionOf last before).2, (decisionOf last before).2) := by
  have most := (decisionOf_le last before).2.2
  have count : (reverseParser word).unitCount
      (BitVec.ofNat 8 (8 * (decisionOf last before).2)) = (decisionOf last before).2 :=
    UTFParser.unitCount_eq .uint8 (by
      change IntegerType.uint8.bitWidth word * _ ≤ 32
      rw [IntegerType.bitWidth_uint8]
      omega)
  have decided : (reverseParser word).verdict (last :: before) =
      (fun parsed : Bool × Value word .uint8 =>
        (if parsed.1 = true then
          .valid (bufferedScalar (UIntBuffer.ofUnits ((last :: before).take 4)) parsed.2)
        else .error ((reverseParser word).unitCount parsed.2),
          (reverseParser word).unitCount parsed.2))
        (parseMultipleCodeUnits (UIntBuffer.ofUnits ((last :: before).take 4))) := by
    rw [UTFParser.verdict, room_eq]
  rw [decided, parse_take]
  refine Prod.ext ?_ count
  exact if_congr Iff.rfl rfl (congrArg ParseResult.error count)

theorem decisionOf_last {front : List (Segment (BitVec 8))} {segment : Segment (BitVec 8)}
    {text trail before : List (BitVec 8)} {lead last : BitVec 8}
    (cuts : Segments WellFormed (front ++ [segment]) text)
    (units : segment.units = lead :: trail)
    (whole : last :: before = trail.reverse ++ lead :: (covered front).reverse)
    (reaches : (outcomeOf lead trail).2 = trail.length + 1) (notASCII : 0x80 ≤ last.toNat) :
    decisionOf last before = outcomeOf lead trail := by
  by_cases single : trail = []
  · subst single
    rcases List.cons.inj whole with ⟨rfl, rfl⟩
    have invalid : ¬ (outcomeOf last []).1 = true := by
      rw [outcomeOf, outcome_of_single reaches]
      omega
    rw [Bool.not_eq_true] at invalid
    have alone : outcomeOf last [] = (false, 1) := Prod.ext invalid reaches
    rw [alone]
    by_contra several
    -- Then several bytes at the end are the last segment, which is only one byte.
    rcases reaches_of_decisionOf several with ⟨lead, trail, more, found, some, _, long⟩
    rw [← cuts.covered_eq, covered_append, covered_cons, covered_nil, List.append_nil, units,
      ← List.reverse_reverse (covered front), ← List.reverse_cons, found, List.reverse_append,
      List.reverse_reverse, List.reverse_cons, List.append_assoc] at cuts
    have same := last_of_outcome cuts some long
    rw [units] at same
    exact some (List.cons.inj same).2.symm
  · exact decisionOf_eq whole single reaches

theorem not_overflows_single (front : List (BitVec 8)) (unit : BitVec 8) :
    ¬ Overflows front [unit] := by
  simp [Overflows]

theorem scan_last (word : WordSize) {front : List (Segment (BitVec 8))}
    {segment : Segment (BitVec 8)} {text : List (BitVec 8)}
    (cuts : Segments WellFormed (front ++ [segment]) text) :
    (reverseParser word).scan text.reverse =
      some (reverseResult word (covered front) segment, (covered front).reverse) := by
  rcases outcome_of_last cuts with ⟨lead, trail, covers, same, units, reaches⟩
  rcases cuts.leads_of_mem (List.mem_append_right _ (List.mem_singleton_self _)) with
    ⟨rest, leads⟩
  have continues := continues_tail leads
  rw [units, List.tail_cons] at continues
  rw [segment_of_reaches reaches] at same
  have reversed : text.reverse = trail.reverse ++ lead :: (covered front).reverse := by
    rw [covers, List.reverse_append, List.reverse_cons, List.append_assoc, List.singleton_append]
  cases found : text.reverse with
  | nil => simp [found] at reversed
  | cons last before =>
      rw [found] at reversed
      have dropped : (last :: before).drop (trail.length + 1) = (covered front).reverse := by
        rw [reversed, ← List.singleton_append, ← List.append_assoc]
        exact List.drop_left' (by simp)
      by_cases ascii : @isASCII word last = true
      · have low := (ForwardParser.isASCII_iff last).mp ascii
        -- A continuation byte is not in ASCII.
        have single : trail = [] := by
          rcases List.eq_nil_or_concat trail with none | ⟨start, final, rfl⟩
          · exact none
          · rw [List.concat_eq_append, List.reverse_append] at reversed
            rcases List.cons.inj reversed with ⟨rfl, _⟩
            have atLeast := (continues last (by simp)).1
            omega
        subst single
        rcases List.cons.inj reversed with ⟨rfl, rfl⟩
        have valid : (outcomeOf last []).1 = true := (outcome_of_single reaches).mpr low
        rw [if_pos valid] at same
        refine ((reverseParser word).scan_of_scalar _ ascii).trans ?_
        rw [same, reverseResult, reread, if_neg (not_overflows_single _ _)]
        exact congrArg some (Prod.ext
          (congrArg ParseResult.valid (ValidUTF8Buffer.append_empty last)) rfl)
      · have notASCII : 0x80 ≤ last.toNat := by
          rw [ForwardParser.isASCII_iff] at ascii
          omega
        have decided := decisionOf_last cuts units reversed reaches notASCII
        refine ((reverseParser word).scan_of_not_scalar before ascii).trans ?_
        rw [verdict_eq, decided, reaches, dropped]
        refine congrArg some (Prod.ext ?_ rfl)
        dsimp only
        by_cases valid : (outcomeOf lead trail).1 = true
        · have some : trail ≠ [] := by
            rintro rfl
            rcases List.cons.inj reversed with ⟨rfl, _⟩
            have low := (outcome_of_single reaches).mp valid
            omega
          rw [if_pos valid] at same ⊢
          rw [same, reverseResult]
          exact congrArg ParseResult.valid
            (bufferedScalar_eq _ reversed some (Prod.ext valid reaches))
        · rw [if_neg valid] at same ⊢
          rw [same, reverseResult, List.length_cons]

end ReverseParser

/-- The results of the reverse parser for segments behind a text, from front to back. -/
def reverseResults (word : WordSize) :
    List (BitVec 8) → List (Segment (BitVec 8)) → List (ParseResult (ValidUTF8Buffer word))
  | _, [] => []
  | front, first :: others =>
      reverseResult word front first :: reverseResults word (front ++ first.units) others

theorem reverseResults_append (word : WordSize) (front : List (BitVec 8))
    (segments : List (Segment (BitVec 8))) (last : Segment (BitVec 8)) :
    reverseResults word front (segments ++ [last]) =
      reverseResults word front segments ++
        [reverseResult word (front ++ covered segments) last] := by
  induction segments generalizing front with
  | nil => simp [reverseResults]
  | cons first others shorter => simp [reverseResults, shorter]

theorem ReverseParser.scan_segments (word : WordSize) {segments : List (Segment (BitVec 8))}
    {text : List (BitVec 8)} (cuts : Segments WellFormed segments text) :
    Iteration.Runs (reverseParser word).scan text.reverse
      (reverseResults word [] segments).reverse [] := by
  induction segments using List.reverseRecOn generalizing text with
  | nil =>
      cases cuts
      exact .refl []
  | append_singleton front last shorter =>
      rw [reverseResults_append, List.reverse_append, List.nil_append]
      exact .step (scan_last word cuts) (shorter cuts.of_append.1)

/-- Two results carry the same bytes, or the same length. -/
def SameSegment (first second : ParseResult (ValidUTF8Buffer word)) : Prop :=
  ∃ segment, Reports first segment ∧ Reports second segment

/-- Read backwards, what the reverse parser reports is what the forward parser reports. -/
def DirectionsAgree (text : List (BitVec 8)) : Prop :=
  ∃ results reversed, (forwardParser .word16).Parses text results ∧
    (reverseParser .word16).Parses text.reverse reversed ∧
    List.Forall₂ SameSegment reversed.reverse results

/-- No well-formed sequence of a text stands behind bytes that overflow into it. -/
def Undisturbed (text : List (BitVec 8)) : Prop :=
  ∀ front units back, text = front ++ units ++ back → WellFormed units → ¬ Overflows front units

section Agreement

variable {segments : List (Segment (BitVec 8))} {text : List (BitVec 8)}

theorem Reports.of_bytes {units : List (BitVec 8)} (noFull : ∀ unit ∈ units, unit ≠ 0xFF)
    (fits : units.length ≤ 4) :
    Reports (.valid (.ofBytes units) : ParseResult (ValidUTF8Buffer word)) (.valid units) :=
  .valid (ValidUTF8Buffer.yields_ofBytes noFull fits)

theorem Reports.bytes_unique {units : List (BitVec 8)}
    (noFull : ∀ unit ∈ units, unit ≠ 0xFF) (fits : units.length ≤ 4)
    {segment : Segment (BitVec 8)}
    (reports : Reports (.valid (.ofBytes units) : ParseResult (ValidUTF8Buffer word)) segment) :
    segment = .valid units := by
  cases reports with
  | valid carried =>
      rw [carried.unique (ValidUTF8Buffer.yields_ofBytes noFull fits)]

theorem reread_eq_iff {front units : List (BitVec 8)} (wellFormed : WellFormed units) :
    reread front units = units ↔ ¬ Overflows front units := by
  rw [reread]
  split_ifs with overflows
  · refine iff_of_false ?_ (not_not_intro overflows)
    cases units with
    | nil => exact absurd wellFormed id
    | cons lead trail =>
        intro same
        have next : lead + 1 = lead := (List.cons.inj same).1
        simp at next
  · exact iff_of_true rfl overflows

theorem reread_bounded (front : List (BitVec 8)) {units : List (BitVec 8)}
    (wellFormed : WellFormed units) :
    (∀ unit ∈ reread front units, unit ≠ 0xFF) ∧ (reread front units).length ≤ 4 := by
  have noFull := ne_full_of_wellFormed wellFormed
  cases units with
  | nil => exact absurd wellFormed id
  | cons lead trail =>
      rcases wellFormed with ⟨row, mem, contains, agrees⟩
      have bounded := table_bounded row mem
      have fits := (continues_of_agrees mem (List.prefix_refl _) agrees).1
      have notFull : lead + 1 ≠ 0xFF := by
        have below : lead.toNat ≤ 0xF4 := contains.2.trans bounded.1
        have next := ReverseParser.toNat_add_one (show lead.toNat ≤ 0xFE by omega)
        intro full
        rw [full] at next
        change 255 = lead.toNat + 1 at next
        omega
      rw [reread]
      split_ifs
      · rw [List.modifyHead_cons, List.forall_mem_cons]
        exact ⟨⟨notFull, fun unit mem => noFull unit (List.mem_cons_of_mem _ mem)⟩,
          Nat.succ_le_succ fits⟩
      · exact ⟨noFull, Nat.succ_le_succ fits⟩

/-- The parsers report a segment alike unless bytes in front overflow into it. -/
theorem sameSegment_iff (word : WordSize) (front : List (BitVec 8))
    {segment : Segment (BitVec 8)} {rest : List (BitVec 8)}
    (leads : Leads WellFormed segment rest) :
    SameSegment (reverseResult word front segment) (resultOf word segment) ↔
      ∀ units, segment = .valid units → ¬ Overflows front units := by
  cases leads with
  | error subpart =>
      refine iff_of_true ⟨_, .error, .error⟩ ?_
      intro units same
      cases same
  | @valid units _ wellFormed _ =>
      have bounded := reread_bounded front wellFormed
      have plain := reread_bounded [] wellFormed
      rw [(reread_eq_iff wellFormed).mpr (by simp [Overflows])] at plain
      constructor
      · rintro ⟨segment, backwards, forwards⟩ others alike
        cases alike
        have same := (backwards.bytes_unique bounded.1 bounded.2).symm.trans
          (forwards.bytes_unique plain.1 plain.2)
        rw [← reread_eq_iff wellFormed]
        exact Segment.valid.inj same
      · intro undisturbed
        have same := (reread_eq_iff wellFormed).mpr (undisturbed units rfl)
        rw [reverseResult, same]
        exact ⟨_, .of_bytes plain.1 plain.2, .of_bytes plain.1 plain.2⟩

theorem reverse_agrees_iff (word : WordSize) (front : List (BitVec 8))
    (cuts : Segments WellFormed segments text) :
    List.Forall₂ SameSegment (reverseResults word front segments)
        (segments.map (resultOf word)) ↔
      ∀ before units after, segments = before ++ .valid units :: after →
        ¬ Overflows (front ++ covered before) units := by
  induction cuts generalizing front with
  | nil => simp [reverseResults]
  | @cons segment segments rest first _ later =>
      rw [reverseResults, List.map_cons, List.forall₂_cons, sameSegment_iff word front first,
        later]
      constructor
      · rintro ⟨here, behind⟩ before units after whole
        cases before with
        | nil =>
            rw [covered_nil, List.append_nil]
            exact here units (List.cons.inj whole).1
        | cons other before =>
            rcases List.cons.inj whole with ⟨rfl, rest⟩
            rw [covered_cons, ← List.append_assoc]
            exact behind before units after rest
      · intro undisturbed
        refine ⟨?_, ?_⟩
        · rintro units rfl
          have here := undisturbed [] units segments rfl
          rwa [covered_nil, List.append_nil] at here
        · rintro before units after rfl
          have behind := undisturbed (segment :: before) units after rfl
          rwa [covered_cons, ← List.append_assoc] at behind

theorem undisturbed_iff (cuts : Segments WellFormed segments text) :
    Undisturbed text ↔ ∀ before units after, segments = before ++ .valid units :: after →
      ¬ Overflows (covered before) units := by
  constructor
  · rintro undisturbed before units after rfl
    refine undisturbed (covered before) units (covered after) ?_ ?_
    · rw [← cuts.covered_eq, covered_append, covered_cons, List.append_assoc]
      rfl
    · rcases cuts.leads_of_mem (List.mem_append_right _ List.mem_cons_self) with ⟨rest, leads⟩
      cases leads with
      | valid wellFormed _ => exact wellFormed
  · rintro undisturbed front units back rfl wellFormed
    rcases valid_of_occurs cuts wellFormed with ⟨before, after, whole, rfl⟩
    exact undisturbed before units after whole

theorem agrees_of_segments (cuts : Segments WellFormed segments text) :
    DirectionsAgree text ↔ List.Forall₂ SameSegment (reverseResults .word16 [] segments)
      (segments.map (resultOf .word16)) := by
  have forwards := parses_segments .word16 cuts
  have backwards := UTFParser.parses_of_scan ReverseParser.sound
    (ReverseParser.scan_segments .word16 cuts)
  have whole : segments.flatMap (split .word16) = segments := List.flatMap_singleton' segments
  rw [whole] at forwards
  constructor
  · rintro ⟨results, reversed, parsed, parsedReverse, same⟩
    rwa [parsed.unique forwards, parsedReverse.unique backwards, List.reverse_reverse] at same
  · intro same
    exact ⟨_, _, forwards, backwards, by rwa [List.reverse_reverse]⟩

end Agreement

/--
Both parsers report the same segments of a text if and only if none of its scalars
stands behind bytes that overflow into it.
-/
theorem directionsAgree_iff (text : List (BitVec 8)) :
    DirectionsAgree text ↔ Undisturbed text := by
  rcases Utf8.exists_segments text with ⟨segments, cuts⟩
  rw [agrees_of_segments cuts, undisturbed_iff cuts]
  exact reverse_agrees_iff .word16 [] cuts

/-- Behind 0xFF the bytes C2 80 are reported as C3 80. -/
theorem not_directionsAgree : ¬ DirectionsAgree [0xFF, 0xC2, 0x80] := by
  rcases Utf8.exists_segments [0xFF, 0xC2, 0x80] with ⟨segments, cuts⟩
  rw [agrees_of_segments cuts, reverse_agrees_iff .word16 [] cuts]
  intro undisturbed
  have wellFormed : WellFormed [0xC2, 0x80] := by
    have leads : Leads WellFormed (segment [0xC2, 0x80]) [0xC2, 0x80] := segment_leads (by decide)
    cases leads with
    | valid wellFormed _ => exact wellFormed
  have occurs : Segments WellFormed segments ([0xFF] ++ [0xC2, 0x80] ++ []) := cuts
  rcases valid_of_occurs occurs wellFormed with ⟨before, after, whole, covers⟩
  apply undisturbed before _ after whole
  rw [covers]
  decide

end UTF8

end USwift
