import USwift.Unicode.Transcode

/-!
# The length of a transcoded text

`UTF16.transcodedLength` counts the code units that transcoding to UTF-16 produces
without producing them. It passes over the ASCII bytes at the front of a UTF-8 text
on its own and hands the first other byte to a fresh parser.
-/

namespace USwift

open EncodingForms Iteration

variable {word : WordSize}

namespace UTF16

/--
The loop over the ASCII bytes at the front: their number, the last byte that was read,
and the input after it.
-/
def asciiLoop : List (Value word .uint8) → Value word .int → Value word .uint8 →
    Value word .int × Value word .uint8 × List (Value word .uint8)
  | [], utf16Count, peek => (utf16Count, peek, [])
  | u :: i, utf16Count, _ =>
      if less word .uint8 u 0x80 then asciiLoop i (utf16Count + 1) u else (utf16Count, u, i)

section Loop

variable (source : Encoding) (repairing : Bool)

/-- The loop over the scalars, with a bound on its iterations. -/
def transcodedLengthLoop : ℕ → source.ForwardParser word → Value word .int →
    Value word .uint16 → Option (Option (Value word .int × Bool))
  | 0, _, _, _ => none
  | fuel + 1, d, utf16Count, utf16BitUnion =>
      match source.parseScalar d with
      | (.valid scalarContent, d) =>
          (transcode source scalarContent).bind fun utf16 =>
            (Encoding.utf16.forEach utf16).bind fun units =>
              transcodedLengthLoop fuel d (utf16Count + utf16.count)
                (units.foldl (· ||| ·) utf16BitUnion)
      | (.error _, d) =>
          if repairing then
            transcodedLengthLoop fuel d (utf16Count + 1) (utf16BitUnion ||| 0xFFFD)
          else some none
      | (.emptyInput, _) => some (some (utf16Count, less word .uint16 utf16BitUnion 0x80))

end Loop

/--
`transcodedLength(of:decodedAs:repairingIllFormedSequences:)` with a bound on the
iterations of its second loop.
-/
def transcodedLength (repairing : Bool) (fuel : ℕ) :
    (source : Encoding) → List (Value word source.codeUnit) →
    Option (Option (Value word .int × Bool))
  | .utf8, input =>
      let (utf16Count, peek, i) := asciiLoop input 0 0
      if less word .uint8 peek 0x80 then some (some (utf16Count, true))
      else
        let d1 := ((UTF8.forwardParser word).start i).append
          (truncatingIfNeeded word .uint8 .uint8 peek)
        transcodedLengthLoop .utf8 repairing fuel d1 utf16Count 0
  | source, input => transcodedLengthLoop source repairing fuel (source.start input) 0 0

theorem count_encoded (scalar : Scalar) :
    (Encoding.utf16.encoded scalar : UIntBuffer word .uint16).count =
      BitVec.ofNat _ scalar.utf16.length := by
  have all : ∀ length : Fin 3, UIntBuffer.distance .uint16 0 (BitVec.ofNat 8 (16 * length)) =
      (BitVec.ofNat _ length : Value word .int) := by
    cases word <;> decide
  have short := length_utf16_le scalar
  exact all ⟨scalar.utf16.length, by omega⟩

theorem less_foldl_or (units : List (Value word .uint16)) (utf16BitUnion : Value word .uint16) :
    less word .uint16 (units.foldl (· ||| ·) utf16BitUnion) 0x80 =
      (less word .uint16 utf16BitUnion 0x80 &&
        units.all fun unit => less word .uint16 unit 0x80) := by
  have test (x : Value word .uint16) : less word .uint16 x 0x80 = true ↔ BitVec.toNat x < 2 ^ 7 :=
    less_unsigned_iff rfl
  induction units generalizing utf16BitUnion with
  | nil => simp
  | cons unit units rest =>
      have split : less word .uint16 (utf16BitUnion ||| unit) 0x80 =
          (less word .uint16 utf16BitUnion 0x80 && less word .uint16 unit 0x80) := by
        rw [Bool.eq_iff_iff, Bool.and_eq_true, test, test, test, BitVec.toNat_or]
        constructor
        · intro both
          exact ⟨Nat.left_le_or.trans_lt both, Nat.right_le_or.trans_lt both⟩
        · rintro ⟨first, second⟩
          exact Nat.or_lt_two_pow first second
      rw [List.foldl_cons, rest, split, List.all_cons, Bool.and_assoc]

/-- What is reported after the items of a text, unless an error stops the count. -/
def lengthOf (repairing : Bool) (utf16Count : Value word .int) (isASCII : Bool)
    (items : List (Option Scalar)) : Option (Value word .int × Bool) :=
  let units : List (Value word .uint16) := converted .utf16 false items
  if repairing || items.all Option.isSome then
    some (utf16Count + BitVec.ofNat _ units.length,
      isASCII && units.all fun unit => less word .uint16 unit 0x80)
  else none

theorem lengthOf_cons {repairing : Bool} {item : Option Scalar}
    (continues : (repairing || item.isSome) = true) (utf16Count : Value word .int)
    (isASCII : Bool) (items : List (Option Scalar)) :
    lengthOf repairing utf16Count isASCII (item :: items) =
      lengthOf repairing (utf16Count + BitVec.ofNat _ (item.getD .replacement).utf16.length)
        (isASCII && (item.getD .replacement).utf16.all fun unit =>
          less word .uint16 unit 0x80) items := by
  have units : (converted .utf16 false (item :: items) : List (Value word .uint16)) =
    (item.getD .replacement).utf16 ++ converted .utf16 false items := rfl
  have kept : (repairing || (item :: items).all Option.isSome) =
      (repairing || items.all Option.isSome) := by
    rw [List.all_cons]
    cases repairing with
    | true => rfl
    | false =>
        rw [Bool.false_or] at continues
        rw [continues, Bool.true_and]
  rw [lengthOf, lengthOf, kept, units]
  simp only [List.length_append, List.all_append, BitVec.ofNat_add, BitVec.add_assoc,
    Bool.and_assoc]

/-- The loop reports the length of what is left, unless an error stops it. -/
theorem transcodedLengthLoop_of_runs {source : Encoding} {repairing : Bool}
    (supported : word = .word16 ∨ source = .utf8) {d final : source.ForwardParser word}
    {results : List (ParseResult (source.EncodedScalar word))} {items : List (Option Scalar)}
    (runs : Runs source.next d results final) (ended : (source.parseScalar final).1 = .emptyInput)
    (parsed : List.Forall₂ source.Parsed results items) {fuel : ℕ} (enough : results.length < fuel)
    (utf16Count : Value word .int) (utf16BitUnion : Value word .uint16) :
    transcodedLengthLoop source repairing fuel d utf16Count utf16BitUnion =
      some (lengthOf repairing utf16Count (less word .uint16 utf16BitUnion 0x80) items) := by
  induction runs generalizing items fuel utf16Count utf16BitUnion with
  | refl d =>
      cases parsed
      rcases Nat.exists_eq_add_of_lt enough with ⟨more, rfl⟩
      rw [transcodedLengthLoop]
      generalize source.parseScalar d = parsed at ended
      rcases parsed with ⟨result, later⟩
      cases ended
      simp [lengthOf, converted]
  | step advanced _ rest =>
      rcases Nat.exists_eq_add_of_lt enough with ⟨more, rfl⟩
      have call := parseScalar_of_next advanced
      cases parsed with
      | cons first others =>
          cases first with
          | valid scalar =>
              have transcoded : transcode source (source.encoded scalar) =
                  some (Encoding.utf16.encoded scalar : UIntBuffer word .uint16) :=
                Encoding.utf16.transcode_encoded source supported scalar
              have units := @Encoding.forEach_encoded word .utf16 scalar
              rw [transcodedLengthLoop, call]
              dsimp only
              rw [transcoded, Option.bind_some, units, Option.bind_some, count_encoded,
                rest ended others (by simp; omega), less_foldl_or,
                lengthOf_cons (Bool.or_true repairing)]
              rfl
          | error length =>
              rw [transcodedLengthLoop, call]
              dsimp only
              cases repairing with
              | false =>
                  rw [if_neg Bool.false_ne_true]
                  rfl
              | true =>
                  have replaced := less_foldl_or [(0xFFFD : Value word .uint16)] utf16BitUnion
                  rw [List.foldl_cons, List.foldl_nil] at replaced
                  rw [if_pos rfl, rest ended others (by simp; omega), replaced, lengthOf_cons rfl]
                  rfl

theorem exists_ascii {unit : Value word .uint8} (ascii : less word .uint8 unit 0x80 = true) :
    ∃ scalar : Scalar, scalar.utf8 = [unit] ∧ scalar.utf16.length = 1 ∧
      (scalar.utf16.all fun unit => less word .uint16 unit 0x80) = true := by
  have small : BitVec.toNat unit < 0x80 := (less_unsigned_iff rfl).mp ascii
  refine ⟨⟨BitVec.toNat unit, by omega, by omega⟩, ?_, ?_, ?_⟩
  · rw [Scalar.utf8, if_pos small]
    exact congrArg (fun unit => [unit]) (ofNat_eq rfl)
  · rw [Scalar.utf16, if_pos (show BitVec.toNat unit < 0x10000 by omega)]
    rfl
  · rw [Scalar.utf16, if_pos (show BitVec.toNat unit < 0x10000 by omega), List.all_cons,
      List.all_nil, Bool.and_true, less_unsigned_iff rfl]
    have kept : (BitVec.ofNat 16 (BitVec.toNat unit)).toNat = BitVec.toNat unit :=
      toNat_ofNat_of_lt (by omega)
    exact kept.trans_lt small

theorem asciiLoop_spec (text : List (Value word .uint8)) (utf16Count : Value word .int)
    {peek : Value word .uint8} (ascii : less word .uint8 peek 0x80 = true) :
    ∃ scalars : List Scalar,
      (∀ repairing items, lengthOf repairing utf16Count true (scalars.map some ++ items) =
        lengthOf repairing (asciiLoop text utf16Count peek).1 true items) ∧
      text = scalars.flatMap Scalar.utf8 ++
        (if less word .uint8 (asciiLoop text utf16Count peek).2.1 0x80 then []
        else (asciiLoop text utf16Count peek).2.1 :: (asciiLoop text utf16Count peek).2.2) := by
  induction text generalizing utf16Count peek with
  | nil =>
      refine ⟨[], fun _ _ => rfl, ?_⟩
      rw [asciiLoop, if_pos ascii]
      rfl
  | cons u i rest =>
      by_cases below : less word .uint8 u 0x80 = true
      · rcases rest (utf16Count + 1) below with ⟨scalars, counted, split⟩
        rcases exists_ascii below with ⟨scalar, bytes, single, small⟩
        refine ⟨scalar :: scalars, ?_, ?_⟩
        · intro repairing items
          have first := @lengthOf_cons word repairing (some scalar) (Bool.or_true repairing)
            utf16Count true (scalars.map some ++ items)
          rw [Option.getD_some, single, small, Bool.and_true] at first
          rw [asciiLoop, if_pos below, List.map_cons, List.cons_append, first]
          exact counted repairing items
        · rw [asciiLoop, if_pos below, List.flatMap_cons, bytes, List.cons_append,
            List.cons_append, List.nil_append, ← split]
      · refine ⟨[], fun _ _ => ?_, ?_⟩
        · rw [asciiLoop, if_neg below]
          rfl
        · rw [asciiLoop, if_neg below, if_neg below]
          rfl

theorem transcodedLength_utf8 (repairing : Bool) (text : List (Value word .uint8)) :
    ∃ results items final,
      Runs Encoding.utf8.next (Encoding.utf8.start text) results final ∧
      (Encoding.utf8.parseScalar final).1 = .emptyInput ∧
      List.Forall₂ Encoding.utf8.Parsed results items ∧
      ∀ fuel, results.length < fuel →
        transcodedLength repairing fuel .utf8 text = some (lengthOf repairing 0 true items) := by
  have supported : word = .word16 ∨ Encoding.utf8 = .utf8 := Or.inr rfl
  have ascii : less word .uint8 0 0x80 = true := by cases word <;> decide
  rcases asciiLoop_spec text 0 ascii with ⟨scalars, counted, split⟩
  have front (back : List (Value word .uint8)) :
      Runs Encoding.utf8.scan (scalars.flatMap Scalar.utf8 ++ back)
        (scalars.map fun scalar => .valid (Encoding.utf8.encoded scalar)) back :=
    Runs.flatMap_append (Encoding.utf8.scan_units supported) scalars back
  have frontParsed : List.Forall₂ Encoding.utf8.Parsed
      (scalars.map fun scalar =>
        .valid (Encoding.utf8.encoded scalar : Encoding.utf8.EncodedScalar word))
      (scalars.map some) := by
    rw [List.forall₂_map_left_iff, List.forall₂_map_right_iff, List.forall₂_same]
    intro scalar _
    exact .valid scalar
  by_cases ended : less word .uint8 (asciiLoop text 0 0).2.1 0x80 = true
  · rw [if_pos ended] at split
    have scanned := front []
    rw [← split] at scanned
    rcases Encoding.utf8.runs_of_scan supported scanned with ⟨final, runs, emptied⟩
    refine ⟨_, scalars.map some, final, runs, emptied, frontParsed, ?_⟩
    intro fuel _
    have all := counted repairing []
    rw [List.append_nil] at all
    rw [transcodedLength, all]
    dsimp only
    rw [if_pos ended]
    simp [lengthOf, converted]
  · rw [if_neg ended] at split
    rcases Runs.exhaust (fun _ ne_nil => Encoding.utf8.scan_total supported ne_nil)
      ((asciiLoop text 0 0).2.1 :: (asciiLoop text 0 0).2.2) with
        ⟨results, items, scanned, parsed⟩
    have whole := (front _).trans scanned
    rw [← split] at whole
    rcases Encoding.utf8.runs_of_scan supported whole with ⟨final, runs, emptied⟩
    refine ⟨_, scalars.map some ++ items, final, runs, emptied,
      List.rel_append frontParsed parsed, ?_⟩
    intro fuel enough
    -- The first byte that is not ASCII waits in the buffer of the second parser.
    have same : truncatingIfNeeded word .uint8 .uint8 (asciiLoop text 0 0).2.1 =
        (asciiLoop text 0 0).2.1 := by
      rw [truncatingIfNeeded_unsigned rfl (by simp), BitVec.setWidth_eq]
    have held := UTFParser.append_start_holds (@UTF8.ForwardParser.sound word)
      (asciiLoop text 0 0).2.1 (asciiLoop text 0 0).2.2
    rcases UTFParser.runs_of_holds UTF8.ForwardParser.sound held scanned with
      ⟨last, laterRuns, empty⟩
    rw [← Encoding.next_utf8] at laterRuns
    have zero : less word .uint16 0 0x80 = true := by cases word <;> decide
    have loop := @transcodedLengthLoop_of_runs word .utf8 repairing supported _ last results items
      laterRuns (congrArg Prod.fst (UTFParser.parseScalar_of_nil empty)) parsed fuel
      (by rw [List.length_append] at enough; omega) (asciiLoop text 0 0).1 0
    rw [transcodedLength, counted repairing items]
    dsimp only
    rw [if_neg ended, same, loop, zero]

theorem exists_transcodedLength (source : Encoding) (supported : word = .word16 ∨ source = .utf8)
    (repairing : Bool) (text : List (Value word source.codeUnit)) :
    ∃ results items final,
      Runs source.next (source.start text) results final ∧
      (source.parseScalar final).1 = .emptyInput ∧
      List.Forall₂ source.Parsed results items ∧
      ∀ fuel, results.length < fuel →
        transcodedLength repairing fuel source text = some (lengthOf repairing 0 true items) := by
  have zero : less word .uint16 0 0x80 = true := by cases word <;> decide
  have direct (plain : ∀ fuel, transcodedLength repairing fuel source text =
      transcodedLengthLoop source repairing fuel (source.start text) 0 0) :
      ∃ results items final,
        Runs source.next (source.start text) results final ∧
        (source.parseScalar final).1 = .emptyInput ∧
        List.Forall₂ source.Parsed results items ∧
        ∀ fuel, results.length < fuel →
          transcodedLength repairing fuel source text =
            some (lengthOf repairing 0 true items) := by
    rcases source.exists_runs supported text with ⟨results, items, final, runs, ended, parsed⟩
    refine ⟨results, items, final, runs, ended, parsed, ?_⟩
    intro fuel enough
    rw [plain, transcodedLengthLoop_of_runs supported runs ended parsed enough, zero]
  cases source with
  | utf8 => exact transcodedLength_utf8 repairing text
  | utf16 => exact direct fun _ => rfl
  | utf32 => exact direct fun _ => rfl

theorem isNone_iff_error {source : Encoding}
    {results : List (ParseResult (source.EncodedScalar word))} {items : List (Option Scalar)}
    (parsed : List.Forall₂ source.Parsed results items) :
    items.any Option.isNone = true ↔ ∃ length, .error length ∈ results := by
  induction parsed with
  | nil => simp
  | cons first _ rest =>
      rw [List.any_cons, Bool.or_eq_true, rest]
      cases first with
      | valid scalar => simp
      | error length => simp

/--
On AVR, `transcodedLength` returns for every text. The result is `nil` if an error is
not repaired, and else the number of the units that `transcode` emits and whether all of
them are ASCII.
-/
theorem transcodedLength_correct (source : Encoding) (repairing : Bool)
    (text : List (Value .word16 source.codeUnit)) :
    ∃ results final hadError units,
      Runs source.next (source.start text) results final ∧
      (source.parseScalar final).1 = .emptyInput ∧
      (hadError = true ↔ ∃ length, .error length ∈ results) ∧
      (∀ fuel, results.length < fuel →
        USwift.transcode source .utf16 false fuel text = some (hadError, units) ∧
        transcodedLength repairing fuel source text =
          some (if !repairing && hadError then none
            else some (BitVec.ofNat 16 units.length,
              decide (∀ unit ∈ units, BitVec.toNat unit < 0x80)))) ∧
      (units.length < 2 ^ 15 →
        toInt .word16 .int (BitVec.ofNat 16 units.length) = units.length) := by
  have supported : WordSize.word16 = .word16 ∨ source = .utf8 := Or.inl rfl
  rcases exists_transcodedLength source supported repairing text with
    ⟨results, items, final, runs, ended, parsed, counted⟩
  refine ⟨results, final, items.any Option.isNone, converted .utf16 false items, runs, ended,
    isNone_iff_error parsed, ?_, fun small => toInt_ofNat small⟩
  intro fuel enough
  constructor
  · rw [USwift.transcode, transcodeLoop_of_runs supported runs ended parsed enough]
    rfl
  · have flipped : items.any Option.isNone = !items.all Option.isSome := by
      rw [List.any_eq_not_all_not]
      simp
    have ascii : ((converted .utf16 false items : List (Value .word16 .uint16)).all fun unit =>
        less .word16 .uint16 unit 0x80) =
          decide (∀ unit ∈ (converted .utf16 false items : List (Value .word16 .uint16)),
            BitVec.toNat unit < 0x80) := by
      rw [Bool.eq_iff_iff, List.all_eq_true, decide_eq_true_eq]
      exact forall₂_congr fun unit _ => less_unsigned_iff rfl
    have counts (n : Value .word16 .int) : 0 + n = n := BitVec.zero_add n
    rw [counted fuel enough, lengthOf, flipped, ← ascii, counts, Bool.true_and]
    cases repairing <;> cases items.all Option.isSome <;> rfl

end UTF16

end USwift
