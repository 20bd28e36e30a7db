import USwift.Unicode.Encodings
import USwift.Unicode.UTF8Segments
import USwift.Unicode.WideParsers

/-!
# Transcoding a text

The global `transcode` parses its input with the forward parser of the source
encoding and hands over the code units of every scalar in the target encoding,
with a replacement character for every error.
-/

namespace USwift

open EncodingForms Iteration

variable {word : WordSize}

namespace Encoding

/-- `ForwardParser`, with the input that it reads from. -/
abbrev ForwardParser (word : WordSize) : Encoding → Type
  | utf8 => (UTF8.forwardParser word).State
  | utf16 => (UTF16.forwardParser word).State
  | utf32 => List (Value word .uint32)

/-- A fresh parser before an input. -/
def start : (encoding : Encoding) → List (Value word encoding.codeUnit) →
    encoding.ForwardParser word
  | utf8 => (UTF8.forwardParser word).start
  | utf16 => (UTF16.forwardParser word).start
  | utf32 => id

/-- `parseScalar(from:)`. -/
def parseScalar : (encoding : Encoding) → encoding.ForwardParser word →
    ParseResult (encoding.EncodedScalar word) × encoding.ForwardParser word
  | utf8 => (UTF8.forwardParser word).parseScalar
  | utf16 => (UTF16.forwardParser word).parseScalar
  | utf32 => UTF32.parseScalar

/-- A call of `parseScalar(from:)` as a step of an iterator that ends with the input. -/
def next (encoding : Encoding) (p : encoding.ForwardParser word) :
    Option (ParseResult (encoding.EncodedScalar word) × encoding.ForwardParser word) :=
  match encoding.parseScalar p with
  | (.emptyInput, _) => none
  | (result, p) => some (result, p)

end Encoding

section Loop

variable (source target : Encoding) (stopOnError : Bool)

/-- The loop of `transcode(_:from:to:stoppingOnError:into:)`. -/
def transcodeLoop : ℕ → source.ForwardParser word → Bool → List (Value word target.codeUnit) →
    Option (Bool × List (Value word target.codeUnit))
  | 0, _, _, _ => none
  | fuel + 1, p, hadError, emitted =>
      let emit (s : target.EncodedScalar word) (p : source.ForwardParser word) (hadError : Bool) :=
        (target.forEach s).bind fun units => transcodeLoop fuel p hadError (emitted ++ units)
      match source.parseScalar p with
      | (.valid s, p) =>
          match target.transcode source s with
          | some s => emit s p hadError
          | none => emit target.encodedReplacementCharacter p hadError
      | (.emptyInput, _) => some (hadError, emitted)
      | (.error _, p) =>
          if stopOnError then some (true, emitted)
          else emit target.encodedReplacementCharacter p true

/--
`transcode(_:from:to:stoppingOnError:into:)` with a bound on the iterations of its
loop: the result together with the code units passed to the closure.
-/
def transcode (fuel : ℕ) (input : List (Value word source.codeUnit)) :
    Option (Bool × List (Value word target.codeUnit)) :=
  transcodeLoop source target stopOnError fuel (source.start input) false []

end Loop

/-- What a result of a parser stands for: a scalar, or nothing where it is an error. -/
inductive Encoding.Parsed (encoding : Encoding) :
    ParseResult (encoding.EncodedScalar word) → Option Scalar → Prop
  | valid (scalar : Scalar) : Parsed encoding (.valid (encoding.encoded scalar)) (some scalar)
  | error (length : ℕ) : Parsed encoding (.error length) none

/-- The units of scalars in a target encoding, up to the first error or with replacements. -/
def converted (target : Encoding) (stopOnError : Bool) (items : List (Option Scalar)) :
    List (Value word target.codeUnit) :=
  (if stopOnError then items.takeWhile Option.isSome else items).flatMap fun item =>
    target.units (item.getD .replacement)

section Runs

variable {source target : Encoding} {stopOnError : Bool}

theorem converted_cons_some (scalar : Scalar) (items : List (Option Scalar)) :
    (converted target stopOnError (some scalar :: items) : List (Value word target.codeUnit)) =
      target.units scalar ++ converted target stopOnError items := by
  cases stopOnError with
  | true => rfl
  | false => rfl

theorem parseScalar_of_next {p later : source.ForwardParser word}
    {result : ParseResult (source.EncodedScalar word)}
    (advanced : source.next p = some (result, later)) : source.parseScalar p = (result, later) := by
  rw [Encoding.next] at advanced
  generalize source.parseScalar p = parsed at advanced ⊢
  rcases parsed with ⟨other, after⟩
  cases other with
  | valid content =>
      cases advanced
      rfl
  | emptyInput => cases advanced
  | error length =>
      cases advanced
      rfl

theorem transcodeLoop_valid (supported : word = .word16 ∨ source = .utf8) {fuel : ℕ}
    {p later : source.ForwardParser word} {scalar : Scalar}
    (parsed : source.parseScalar p = (.valid (source.encoded scalar), later)) (hadError : Bool)
    (emitted : List (Value word target.codeUnit)) :
    transcodeLoop source target stopOnError (fuel + 1) p hadError emitted =
      transcodeLoop source target stopOnError fuel later hadError
        (emitted ++ target.units scalar) := by
  have units := @Encoding.forEach_encoded word target scalar
  rw [transcodeLoop, parsed]
  dsimp only
  rw [target.transcode_encoded source supported]
  dsimp only
  rw [units, Option.bind_some]

theorem transcodeLoop_error {fuel length : ℕ} {p later : source.ForwardParser word}
    (parsed : source.parseScalar p = (.error length, later)) (hadError : Bool)
    (emitted : List (Value word target.codeUnit)) :
    transcodeLoop source target false (fuel + 1) p hadError emitted =
      transcodeLoop source target false fuel later true
        (emitted ++ target.units .replacement) := by
  have units := @Encoding.forEach_encoded word target .replacement
  rw [transcodeLoop, parsed]
  dsimp only
  rw [if_neg Bool.false_ne_true, target.encodedReplacementCharacter_eq, units, Option.bind_some]

theorem transcodeLoop_of_runs (supported : word = .word16 ∨ source = .utf8)
    {p final : source.ForwardParser word} {results : List (ParseResult (source.EncodedScalar word))}
    {items : List (Option Scalar)} (runs : Runs source.next p results final)
    (ended : (source.parseScalar final).1 = .emptyInput)
    (parsed : List.Forall₂ source.Parsed results items) {fuel : ℕ} (enough : results.length < fuel)
    (hadError : Bool) (emitted : List (Value word target.codeUnit)) :
    transcodeLoop source target stopOnError fuel p hadError emitted =
      some (hadError || items.any Option.isNone,
        emitted ++ converted target stopOnError items) := by
  induction runs generalizing items fuel hadError emitted with
  | refl p =>
      cases parsed
      rcases Nat.exists_eq_add_of_lt enough with ⟨more, rfl⟩
      have nothing :
          (converted target stopOnError [] : List (Value word target.codeUnit)) = [] := by
        cases stopOnError <;> rfl
      rw [transcodeLoop, nothing, List.append_nil, List.any_nil, Bool.or_false]
      generalize source.parseScalar p = parsed at ended
      rcases parsed with ⟨result, later⟩
      cases ended
      rfl
  | step advanced _ rest =>
      rcases Nat.exists_eq_add_of_lt enough with ⟨more, rfl⟩
      have call := parseScalar_of_next advanced
      cases parsed with
      | cons first others =>
          cases first with
          | valid scalar =>
              refine (transcodeLoop_valid supported call hadError emitted).trans ?_
              rw [rest ended others (by simp; omega), converted_cons_some, List.append_assoc]
              rfl
          | error length =>
              cases stopOnError with
              | true =>
                  rw [transcodeLoop, call]
                  refine congrArg some (Prod.ext ?_ (List.append_nil emitted).symm)
                  exact (Bool.or_true hadError).symm
              | false =>
                  refine (transcodeLoop_error call hadError emitted).trans ?_
                  rw [rest ended others (by simp; omega), List.append_assoc]
                  exact congrArg some (Prod.ext (Bool.or_true hadError).symm rfl)

end Runs

namespace Encoding

/-- Parsing on the list of units that are left. -/
def scan : (encoding : Encoding) → List (Value word encoding.codeUnit) →
    Option (ParseResult (encoding.EncodedScalar word) × List (Value word encoding.codeUnit))
  | utf8 => (UTF8.forwardParser word).scan
  | utf16 => (UTF16.forwardParser word).scan
  | utf32 => next utf32

theorem scan_units (encoding : Encoding) (supported : word = .word16 ∨ encoding = .utf8)
    (scalar : Scalar) (rest : List (Value word encoding.codeUnit)) :
    encoding.scan (encoding.units scalar ++ rest) =
      some (.valid (encoding.encoded scalar), rest) := by
  cases encoding with
  | utf8 =>
      have leads : Segmentation.Leads Utf8.WellFormed (.valid scalar.utf8)
          (scalar.utf8 ++ rest) := .valid (utf8_wellFormed scalar) (List.prefix_append _ _)
      have runs := UTF8.ForwardParser.scan_segment word leads
      have reports : (UTF8.split word (.valid scalar.utf8)).map (UTF8.resultOf word) =
          [.valid (.ofBytes scalar.utf8)] := by
        cases word <;> rfl
      rw [reports] at runs
      cases runs with
      | step advanced last =>
          cases last
          exact advanced
  | utf16 =>
      rcases supported with rfl | other
      · exact UTF16.ForwardParser.scan_utf16 scalar rest
      · cases other
  | utf32 =>
      have parsed := @UTF32.parseScalar_utf32 word scalar rest
      have call : parseScalar utf32 (units utf32 scalar ++ rest) = _ := parsed
      rw [scan, next, call]
      rfl

theorem scan_total (encoding : Encoding) (supported : word = .word16 ∨ encoding = .utf8)
    {text : List (Value word encoding.codeUnit)} (ne_nil : text ≠ []) :
    ∃ result rest item, encoding.scan text = some (result, rest) ∧ rest.length < text.length ∧
      encoding.Parsed result item := by
  cases encoding with
  | utf8 =>
      rcases List.exists_cons_of_ne_nil ne_nil with ⟨lead, tail, rfl⟩
      have scanned := UTF8.ForwardParser.scan_cons word lead tail
      have inside := Utf8.outcomeOf_le lead tail
      have reports := UTF8.ForwardParser.reported_le word inside.1 inside.2
      split_ifs at scanned with valid
      · rcases exists_utf8 (Utf8.wellFormed_of_outcome valid) with ⟨scalar, bytes⟩
        rw [← bytes] at scanned
        exact ⟨_, _, _, scanned, by rw [List.length_drop]; omega, .valid scalar⟩
      · exact ⟨_, _, _, scanned, by rw [List.length_drop]; omega, .error _⟩
  | utf16 =>
      rcases supported with rfl | other
      · have positive := List.length_pos_of_ne_nil ne_nil
        rcases UTF16.ForwardParser.scan_total ne_nil with
          ⟨result, rest, scanned, ⟨scalar, whole, rfl⟩ | ⟨rfl, tail⟩⟩
        · have some : 0 < scalar.utf16.length := by
            rw [length_utf16]
            split_ifs <;> decide
          refine ⟨_, _, _, scanned, ?_, .valid scalar⟩
          rw [whole, List.length_append]
          omega
        · refine ⟨_, _, _, scanned, ?_, .error 1⟩
          rw [tail, List.length_tail]
          omega
      · cases other
  | utf32 =>
      rcases List.exists_cons_of_ne_nil ne_nil with ⟨x, input, rfl⟩
      rcases @UTF32.parseScalar_total word x input with
        ⟨result, parsed, ⟨scalar, _, rfl⟩ | rfl⟩
      · have scanned : next utf32 (x :: input) = some (.valid (utf32.encoded scalar), input) := by
          rw [next, parseScalar, parsed]
          rfl
        exact ⟨_, _, _, scanned, Nat.lt_succ_self _, .valid scalar⟩
      · have scanned : next utf32 (x :: input) = some (.error 1, input) := by
          rw [next, parseScalar, parsed]
        exact ⟨_, _, _, scanned, Nat.lt_succ_self _, .error 1⟩

theorem next_utf8 : next utf8 = (UTF8.forwardParser word).next := by
  funext state
  have same : parseScalar utf8 state = (UTF8.forwardParser word).parseScalar state := rfl
  rw [next, UTFParser.next, same]
  rcases (UTF8.forwardParser word).parseScalar state with ⟨_ | _ | _, later⟩ <;> rfl

theorem next_utf16 : next utf16 = (UTF16.forwardParser word).next := by
  funext state
  have same : parseScalar utf16 state = (UTF16.forwardParser word).parseScalar state := rfl
  rw [next, UTFParser.next, same]
  rcases (UTF16.forwardParser word).parseScalar state with ⟨_ | _ | _, later⟩ <;> rfl

theorem runs_of_scan (encoding : Encoding) (supported : word = .word16 ∨ encoding = .utf8)
    {text : List (Value word encoding.codeUnit)}
    {results : List (ParseResult (encoding.EncodedScalar word))}
    (scanned : Runs encoding.scan text results []) :
    ∃ final, Runs encoding.next (encoding.start text) results final ∧
      (encoding.parseScalar final).1 = .emptyInput := by
  cases encoding with
  | utf8 =>
      rcases UTFParser.runs_of_scan UTF8.ForwardParser.sound scanned with ⟨final, runs, holds⟩
      rw [← next_utf8] at runs
      exact ⟨final, runs, congrArg Prod.fst (UTFParser.parseScalar_of_nil holds)⟩
  | utf16 =>
      rcases supported with rfl | other
      · rcases UTFParser.runs_of_scan UTF16.ForwardParser.sound scanned with ⟨final, runs, holds⟩
        rw [← next_utf16] at runs
        exact ⟨final, runs, congrArg Prod.fst (UTFParser.parseScalar_of_nil holds)⟩
      · cases other
  | utf32 => exact ⟨[], scanned, rfl⟩

theorem exists_runs (encoding : Encoding) (supported : word = .word16 ∨ encoding = .utf8)
    (text : List (Value word encoding.codeUnit)) :
    ∃ results items final, Runs encoding.next (encoding.start text) results final ∧
      (encoding.parseScalar final).1 = .emptyInput ∧
      List.Forall₂ encoding.Parsed results items := by
  rcases Runs.exhaust (fun _ ne_nil => encoding.scan_total supported ne_nil) text with
    ⟨results, items, scanned, parsed⟩
  rcases encoding.runs_of_scan supported scanned with ⟨final, runs, ended⟩
  exact ⟨results, items, final, runs, ended, parsed⟩

theorem runs_units (encoding : Encoding) (supported : word = .word16 ∨ encoding = .utf8)
    (scalars : List Scalar) :
    ∃ final, Runs encoding.next (encoding.start (scalars.flatMap encoding.units))
        (scalars.map fun scalar => .valid (encoding.encoded scalar : encoding.EncodedScalar word))
        final ∧
      (encoding.parseScalar final).1 = .emptyInput :=
  encoding.runs_of_scan supported (Runs.flatMap (encoding.scan_units supported) scalars)

/-- What a result of a parser reads: the code units of a scalar, or nothing where it is an error. -/
inductive Reads (encoding : Encoding) :
    ParseResult (encoding.EncodedScalar word) → Option Scalar → Prop
  | valid {content : encoding.EncodedScalar word} {scalar : Scalar}
      (carried : encoding.forEach content = some (encoding.units scalar)) :
      Reads encoding (.valid content) (some scalar)
  | error (length : ℕ) : Reads encoding (.error length) none

theorem Parsed.reads {encoding : Encoding} {result : ParseResult (encoding.EncodedScalar word)}
    {item : Option Scalar} (parsed : encoding.Parsed result item) : encoding.Reads result item := by
  cases parsed with
  | valid scalar => exact .valid (encoding.forEach_encoded scalar)
  | error length => exact .error length

end Encoding

theorem converted_false (target : Encoding) (items : List (Option Scalar)) :
    (converted target false items : List (Value word target.codeUnit)) =
      items.flatMap fun item => target.units (item.getD .replacement) := rfl

theorem converted_scalars (target : Encoding) (stopOnError : Bool) (scalars : List Scalar) :
    (converted target stopOnError (scalars.map some) : List (Value word target.codeUnit)) =
      scalars.flatMap target.units := by
  induction scalars with
  | nil => cases stopOnError <;> rfl
  | cons scalar scalars rest =>
      rw [List.map_cons, converted_cons_some, rest, List.flatMap_cons]

/--
On AVR, transcoding the code units of scalars gives the units that the target encodes
them with and no error. Transcoding any text gives the units of its scalars with one
replacement character for every error, and reports whether there was an error.
-/
theorem transcode_correct (source target : Encoding) :
    (∀ encoding : Encoding, ∀ scalar : Scalar,
      ((encoding.encode (.ofScalar scalar : UnicodeScalar .word16)).bind encoding.forEach) =
          some (encoding.units scalar) ∧
        encoding.encodeInto (.ofScalar scalar : UnicodeScalar .word16) =
          some (encoding.units scalar)) ∧
    (∀ (scalars : List Scalar) (stopOnError : Bool) (fuel : ℕ), scalars.length < fuel →
      transcode source target stopOnError fuel (scalars.flatMap source.units) =
        some (false, (scalars.flatMap target.units : List (Value .word16 target.codeUnit)))) ∧
    ∀ text : List (Value .word16 source.codeUnit), ∃ results items final,
      Runs source.next (source.start text) results final ∧
      (source.parseScalar final).1 = .emptyInput ∧
      List.Forall₂ source.Reads results items ∧
      ∀ fuel, results.length < fuel →
        transcode source target false fuel text =
          some (items.any Option.isNone,
            items.flatMap fun item => target.units (item.getD .replacement)) := by
  have supported : WordSize.word16 = .word16 ∨ source = .utf8 := Or.inl rfl
  refine ⟨?_, ?_, ?_⟩
  · intro encoding scalar
    refine ⟨?_, encoding.encodeInto_ofScalar scalar⟩
    rw [encoding.encode_ofScalar, Option.bind_some, encoding.forEach_encoded]
  · intro scalars stopOnError fuel enough
    rcases source.runs_units supported scalars with ⟨final, runs, ended⟩
    have parsed : List.Forall₂ source.Parsed
        (scalars.map fun scalar => .valid (source.encoded scalar : source.EncodedScalar .word16))
        (scalars.map some) := by
      rw [List.forall₂_map_left_iff, List.forall₂_map_right_iff, List.forall₂_same]
      intro scalar _
      exact .valid scalar
    have noError : (scalars.map some).any Option.isNone = false := by
      simp
    rw [transcode, transcodeLoop_of_runs supported runs ended parsed (by simpa using enough),
      noError, converted_scalars]
    rfl
  · intro text
    rcases source.exists_runs supported text with ⟨results, items, final, runs, ended, parsed⟩
    refine ⟨results, items, final, runs, ended, parsed.imp fun _ _ => Encoding.Parsed.reads, ?_⟩
    intro fuel enough
    rw [transcode, transcodeLoop_of_runs supported runs ended parsed enough, converted_false]
    rfl

end USwift
