import USwift.Unicode.UIntBuffer

/-!
# The parser of buffered code units

`_UTFParser.parseScalar(from:)` is shared by the parsers of UTF-8 and UTF-16,
which supply the tests on the buffered bits. It keeps look-ahead units in a
buffer, so that the bytes still to be parsed are those of the buffer and those
of the input. Run after run, it parses that list without ever asking for room
that the buffer does not have.
-/

namespace USwift

/-- `Unicode.ParseResult`. -/
inductive ParseResult (EncodedScalar : Type) where
  | valid (content : EncodedScalar)
  | emptyInput
  | error (length : ℕ)
  deriving DecidableEq

/-- What an instance of `_UTFParser` supplies. -/
structure UTFParser (word : WordSize) where
  codeUnit : IntegerType
  EncodedScalar : Type
  isScalar : Value word codeUnit → Bool
  ofCodeUnit : Value word codeUnit → EncodedScalar
  parseMultipleCodeUnits : UIntBuffer word codeUnit → Bool × Value word .uint8
  bufferedScalar : UIntBuffer word codeUnit → Value word .uint8 → EncodedScalar

namespace UTFParser

variable {word : WordSize}

/-- The units of a parser. -/
abbrev Unit (parser : UTFParser word) : Type :=
  Value word parser.codeUnit

/--
A parser with the input it reads from, which keeps returning `nil` after its end.
The counts of the buffer at every call of `append` are recorded in addition.
-/
structure State (parser : UTFParser word) where
  buffer : UIntBuffer word parser.codeUnit
  input : List parser.Unit
  appendCounts : List (Value word .int)

variable (parser : UTFParser word)

namespace State

variable {parser}

def append (state : State parser) (codeUnit : parser.Unit) : State parser :=
  { state with
    buffer := state.buffer.append codeUnit
    appendCounts := state.appendCounts ++ [state.buffer.count] }

/-- The bits of a scalar leave the buffer. -/
def consume (state : State parser) (scalarBitCount : Value word .uint8) : State parser :=
  let widened := truncatingIfNeeded word .uint64 .uint32 state.buffer.storage
  let shifted := maskingShiftRight word .uint64 widened
    (truncatingIfNeeded word .uint64 .uint8 scalarBitCount)
  { state with
    buffer :=
      ⟨truncatingIfNeeded word .uint32 .uint64 shifted,
        state.buffer.bitCount - scalarBitCount⟩ }

end State

/-- The loop that fills the buffer from an input. It ends the call when nothing is buffered. -/
def refill (state : State parser) : List parser.Unit → Option (State parser)
  | [] => if state.buffer.isEmpty then none else some { state with input := [] }
  | codeUnit :: input =>
      let state := state.append codeUnit
      if less word .int state.buffer.count (UIntBuffer.capacity word parser.codeUnit) then
        refill state input
      else some { state with input := input }

/-- The length that an error reports. -/
def unitCount (scalarBitCount : Value word .uint8) : ℕ :=
  BitVec.toNat (scalarBitCount / UIntBuffer.elementWidth word parser.codeUnit)

/-- The part of `parseScalar(from:)` behind its fast paths. -/
def parseBuffered (state : State parser) : ParseResult parser.EncodedScalar × State parser :=
  match parser.refill state state.input with
  | none => (.emptyInput, state)
  | some state =>
      let (isValid, scalarBitCount) := parser.parseMultipleCodeUnits state.buffer
      let encodedScalar := parser.bufferedScalar state.buffer scalarBitCount
      let state := state.consume scalarBitCount
      if isValid then (.valid encodedScalar, state)
      else (.error (parser.unitCount scalarBitCount), state)

/-- `parseScalar(from:)`. -/
def parseScalar (state : State parser) : ParseResult parser.EncodedScalar × State parser :=
  if state.buffer.isEmpty then
    match state.input with
    | [] => (.emptyInput, state)
    | codeUnit :: input =>
        let state := { state with input := input }
        if parser.isScalar codeUnit then (.valid (parser.ofCodeUnit codeUnit), state)
        else parser.parseBuffered (state.append codeUnit)
  else
    let codeUnit := truncatingIfNeeded word parser.codeUnit .uint32 state.buffer.storage
    if parser.isScalar codeUnit then
      (.valid (parser.ofCodeUnit codeUnit), { state with buffer := state.buffer.remove 0 })
    else parser.parseBuffered state

/-- A call of `parseScalar(from:)` as a step of an iterator that ends with the input. -/
def next (state : State parser) :
    Option (ParseResult parser.EncodedScalar × State parser) :=
  match parser.parseScalar state with
  | (.emptyInput, _) => none
  | (result, state) => some (result, state)

/-- A fresh parser before an input. -/
def start (input : List parser.Unit) : State parser :=
  ⟨UIntBuffer.empty, input, []⟩

/-- How many units a buffer holds. -/
def room (parser : UTFParser word) : ℕ :=
  32 / parser.codeUnit.bitWidth word

/-- What the tests of a parser say about a text that fills the buffer as far as it goes. -/
def verdict (text : List parser.Unit) : ParseResult parser.EncodedScalar × ℕ :=
  let buffer := UIntBuffer.ofUnits (text.take parser.room)
  let (isValid, scalarBitCount) := parser.parseMultipleCodeUnits buffer
  let length := parser.unitCount scalarBitCount
  (if isValid then .valid (parser.bufferedScalar buffer scalarBitCount) else .error length, length)

/-- Parsing without a buffer, on the list of units that are left. -/
def scan : List parser.Unit →
    Option (ParseResult parser.EncodedScalar × List parser.Unit)
  | [] => none
  | codeUnit :: rest =>
      if parser.isScalar codeUnit then some (.valid (parser.ofCodeUnit codeUnit), rest)
      else
        let (result, length) := parser.verdict (codeUnit :: rest)
        some (result, (codeUnit :: rest).drop length)

theorem scan_of_scalar {codeUnit : parser.Unit} (rest : List parser.Unit)
    (scalar : parser.isScalar codeUnit = true) :
    parser.scan (codeUnit :: rest) = some (.valid (parser.ofCodeUnit codeUnit), rest) := by
  rw [scan, if_pos scalar]

theorem scan_of_not_scalar {codeUnit : parser.Unit} (rest : List parser.Unit)
    (notScalar : ¬ parser.isScalar codeUnit = true) :
    parser.scan (codeUnit :: rest) =
      some ((parser.verdict (codeUnit :: rest)).1,
        (codeUnit :: rest).drop (parser.verdict (codeUnit :: rest)).2) := by
  rw [scan, if_neg notScalar]

/-- The tests of a parser consume some of the units that are buffered. -/
structure Sound : Prop where
  buffered : UIntBuffer.Buffered word parser.codeUnit
  regular : ¬ (word = .word32 ∧ parser.codeUnit = .uint16)
  consumes : ∀ codeUnit units, parser.isScalar codeUnit = false →
    parser.codeUnit.bitWidth word * (codeUnit :: units).length ≤ 32 →
    ∃ length, 1 ≤ length ∧ length ≤ (codeUnit :: units).length ∧
      (parser.parseMultipleCodeUnits (UIntBuffer.ofUnits (codeUnit :: units))).2 =
        BitVec.ofNat 8 (parser.codeUnit.bitWidth word * length)

variable {parser}

/-- A state stands for the units of its buffer and its input. -/
structure State.Holds (state : State parser) (text : List parser.Unit) : Prop where
  counts_less : ∀ count ∈ state.appendCounts,
    less word .int count (UIntBuffer.capacity word parser.codeUnit) = true
  units_eq : ∃ held, state.buffer = UIntBuffer.ofUnits held ∧ text = held ++ state.input ∧
    held.length + 1 ≤ parser.room

theorem le_room_iff (buffered : UIntBuffer.Buffered word parser.codeUnit) {length : ℕ} :
    parser.codeUnit.bitWidth word * length ≤ 32 ↔ length ≤ parser.room := by
  have positive := buffered.eight_le_width
  rw [room, Nat.le_div_iff_mul_le (by omega), Nat.mul_comm]

theorem start_holds (buffered : UIntBuffer.Buffered word parser.codeUnit)
    (input : List parser.Unit) : (parser.start input).Holds input := by
  have narrow := buffered.width_lt
  refine ⟨by simp [start], [], rfl, rfl, ?_⟩
  rw [← le_room_iff buffered, List.length_nil, Nat.mul_one]
  exact narrow.le

namespace State

variable {state : State parser} {text : List parser.Unit}

theorem append_eq (buffered : UIntBuffer.Buffered word parser.codeUnit)
    (regular : ¬ (word = .word32 ∧ parser.codeUnit = .uint16))
    {held : List parser.Unit} (buffer : state.buffer = UIntBuffer.ofUnits held)
    (space : held.length + 1 ≤ parser.room) (codeUnit : parser.Unit) :
    (state.append codeUnit).buffer = UIntBuffer.ofUnits (held ++ [codeUnit]) ∧
      less word .int state.buffer.count (UIntBuffer.capacity word parser.codeUnit) = true := by
  have fits := (le_room_iff buffered).mpr space
  have before := (le_room_iff buffered).mpr (show held.length ≤ parser.room by omega)
  rw [append, buffer]
  exact ⟨UIntBuffer.append_ofUnits buffered regular codeUnit fits,
    (UIntBuffer.less_capacity_iff buffered before).mpr fits⟩

end State

theorem counts_less_append {counts : List (Value word .int)} {count capacity : Value word .int}
    (countsLess : ∀ other ∈ counts, less word .int other capacity = true)
    (countLess : less word .int count capacity = true) :
    ∀ other ∈ counts ++ [count], less word .int other capacity = true := by
  intro other mem
  rcases List.mem_append.mp mem with before | last
  · exact countsLess other before
  · rw [List.mem_singleton.mp last]
    exact countLess

theorem refill_eq (buffered : UIntBuffer.Buffered word parser.codeUnit)
    (regular : ¬ (word = .word32 ∧ parser.codeUnit = .uint16)) {state : State parser}
    {held : List parser.Unit} (input : List parser.Unit)
    (buffer : state.buffer = UIntBuffer.ofUnits held) (space : held.length + 1 ≤ parser.room)
    (countsLess : ∀ count ∈ state.appendCounts,
      less word .int count (UIntBuffer.capacity word parser.codeUnit) = true)
    (ne_nil : held ++ input ≠ []) :
    ∃ filled, parser.refill state input = some filled ∧
      filled.buffer = UIntBuffer.ofUnits ((held ++ input).take parser.room) ∧
      filled.input = (held ++ input).drop parser.room ∧
      ∀ count ∈ filled.appendCounts,
        less word .int count (UIntBuffer.capacity word parser.codeUnit) = true := by
  induction input generalizing state held with
  | nil =>
      rw [List.append_nil] at ne_nil ⊢
      have notEmpty : state.buffer.isEmpty = false := by
        rw [buffer, UIntBuffer.isEmpty_ofUnits ((le_room_iff buffered).mpr (by omega))]
        simpa using ne_nil
      rw [refill, notEmpty, if_neg Bool.false_ne_true, List.take_of_length_le (by omega),
        List.drop_eq_nil_of_le (by omega)]
      exact ⟨_, rfl, buffer, rfl, countsLess⟩
  | cons codeUnit input shorter =>
      rcases State.append_eq buffered regular buffer space codeUnit with ⟨appended, countLess⟩
      have counts := counts_less_append countsLess countLess
      have regrouped : held ++ codeUnit :: input = held ++ [codeUnit] ++ input := by simp
      have length : (held ++ [codeUnit]).length = held.length + 1 := by simp
      have fits := (le_room_iff buffered).mpr (length.le.trans space)
      rw [refill]
      split_ifs with more
      · rw [appended, UIntBuffer.less_capacity_iff buffered fits] at more
        have later := (le_room_iff buffered).mp more
        rw [regrouped] at ne_nil ⊢
        exact shorter appended later counts ne_nil
      · rw [appended, UIntBuffer.less_capacity_iff buffered fits] at more
        have full : (held ++ [codeUnit]).length = parser.room := by
          have beyond := (le_room_iff buffered).not.mp more
          omega
        rw [regrouped, ← full, List.take_left, List.drop_left]
        exact ⟨_, rfl, appended, rfl, counts⟩

theorem State.consume_eq {state : State parser} {units : List parser.Unit} {length : ℕ}
    (buffer : state.buffer = UIntBuffer.ofUnits units)
    (fits : parser.codeUnit.bitWidth word * units.length ≤ 32) (inside : length ≤ units.length) :
    (state.consume (BitVec.ofNat 8 (parser.codeUnit.bitWidth word * length))).buffer =
      UIntBuffer.ofUnits (units.drop length) := by
  have fewer := Nat.mul_le_mul_left (parser.codeUnit.bitWidth word) inside
  have amount : BitVec.toNat (truncatingIfNeeded word .uint64 .uint8
      (BitVec.ofNat 8 (parser.codeUnit.bitWidth word * length))) =
      parser.codeUnit.bitWidth word * length := by
    rw [UIntBuffer.truncatingIfNeeded_uint8, BitVec.toNat_setWidth, BitVec.toNat_ofNat,
      IntegerType.bitWidth_uint64, IntegerType.bitWidth_uint8, Nat.mod_eq_of_lt (by omega),
      Nat.mod_eq_of_lt (by omega)]
  have below : BitVec.toNat (truncatingIfNeeded word .uint64 .uint8
      (BitVec.ofNat 8 (parser.codeUnit.bitWidth word * length))) <
      IntegerType.uint64.bitWidth word := by
    rw [amount, IntegerType.bitWidth_uint64]
    omega
  -- The detour through 64 bits shifts as a shift of the storage by up to its width does.
  have narrowed (x : BitVec 32) (n : ℕ) : (x.setWidth 64 >>> n).setWidth 32 = x >>> n := by
    apply BitVec.eq_of_getLsbD_eq
    intro index index_lt
    by_cases high : n + index < 64
    · simp [index_lt, high]
    · simp [index_lt, high, show 32 ≤ n + index by omega]
  have rest := UIntBuffer.consume_ofUnits fits inside
  rw [consume, maskingShiftRight_of_lt rfl _ below, amount, buffer, ← rest]
  refine congrArg₂ UIntBuffer.mk ?_ rfl
  rw [truncatingIfNeeded_unsigned rfl (by simp), UIntBuffer.truncatingIfNeeded_uint32]
  exact narrowed _ _

theorem unitCount_eq (buffered : UIntBuffer.Buffered word parser.codeUnit) {length : ℕ}
    (fits : parser.codeUnit.bitWidth word * length ≤ 32) :
    parser.unitCount (BitVec.ofNat 8 (parser.codeUnit.bitWidth word * length)) = length := by
  have positive := buffered.eight_le_width
  rw [unitCount, BitVec.toNat_udiv, buffered.toNat_elementWidth, BitVec.toNat_ofNat,
    IntegerType.bitWidth_uint8, Nat.mod_eq_of_lt (by omega), Nat.mul_div_cancel_left _ (by omega)]

theorem parseBuffered_eq (sound : Sound parser) {state : State parser}
    {held text : List parser.Unit} (buffer : state.buffer = UIntBuffer.ofUnits held)
    (space : held.length + 1 ≤ parser.room)
    (countsLess : ∀ count ∈ state.appendCounts,
      less word .int count (UIntBuffer.capacity word parser.codeUnit) = true)
    {codeUnit : parser.Unit} {rest : List parser.Unit} (whole : text = codeUnit :: rest)
    (regrouped : text = held ++ state.input) (notScalar : parser.isScalar codeUnit = false) :
    ∃ later, parser.parseBuffered state = ((parser.verdict text).1, later) ∧
      later.Holds (text.drop (parser.verdict text).2) := by
  have positive : 1 ≤ parser.room := by omega
  rcases refill_eq sound.buffered sound.regular state.input buffer space countsLess
    (by rw [← regrouped, whole]; simp) with ⟨filled, refilled, window, remaining, counts⟩
  rw [← regrouped] at window remaining
  have opened : text.take parser.room = codeUnit :: rest.take (parser.room - 1) := by
    rw [whole, List.take_cons positive]
  have fits : parser.codeUnit.bitWidth word * (text.take parser.room).length ≤ 32 := by
    rw [le_room_iff sound.buffered, List.length_take]
    omega
  rcases sound.consumes codeUnit (rest.take (parser.room - 1)) notScalar
    (by rwa [← opened]) with ⟨length, some, inside, bits⟩
  rw [← opened] at inside bits
  have units := unitCount_eq sound.buffered
    ((Nat.mul_le_mul_left (parser.codeUnit.bitWidth word) inside).trans fits)
  have consumed := State.consume_eq window fits inside
  have split : text.drop length =
      (text.take parser.room).drop length ++ text.drop parser.room := by
    conv_lhs => rw [← List.take_append_drop parser.room text]
    exact List.drop_append_of_le_length inside
  have later : (filled.consume (BitVec.ofNat 8 (parser.codeUnit.bitWidth word * length))).Holds
      (text.drop length) := by
    refine ⟨counts, _, consumed, ?_, ?_⟩
    · rw [split, ← remaining]
      rfl
    · rw [List.length_drop, List.length_take] at *
      omega
  simp only [parseBuffered, verdict, refilled, window, bits, units]
  cases (parser.parseMultipleCodeUnits (UIntBuffer.ofUnits (text.take parser.room))).1 with
  | true => exact ⟨_, rfl, later⟩
  | false => exact ⟨_, rfl, later⟩

theorem verdict_ne_emptyInput (text : List parser.Unit) :
    (parser.verdict text).1 ≠ .emptyInput := by
  rw [verdict]
  generalize parser.parseMultipleCodeUnits (UIntBuffer.ofUnits (text.take parser.room)) = parsed
  rcases parsed with ⟨isValid, scalarBitCount⟩
  cases isValid with
  | true =>
      intro empty
      cases empty
  | false =>
      intro empty
      cases empty

theorem next_of_parseScalar {state later : State parser}
    {result : ParseResult parser.EncodedScalar}
    (parsed : parser.parseScalar state = (result, later)) (ne_empty : result ≠ .emptyInput) :
    parser.next state = some (result, later) := by
  rw [next, parsed]
  cases result with
  | valid => rfl
  | emptyInput => exact absurd rfl ne_empty
  | error => rfl

theorem head_ofUnits (buffered : UIntBuffer.Buffered word parser.codeUnit)
    (codeUnit : parser.Unit) (units : List parser.Unit) :
    truncatingIfNeeded word parser.codeUnit .uint32
      (UIntBuffer.ofUnits (codeUnit :: units)).storage = codeUnit := by
  rw [UIntBuffer.truncatingIfNeeded_uint32]
  exact Packing.setWidth_pack_cons codeUnit units buffered.width_lt.le

theorem two_le_room (buffered : UIntBuffer.Buffered word parser.codeUnit) : 2 ≤ parser.room := by
  have narrow := buffered.width_le
  rw [← le_room_iff buffered]
  omega

theorem parseScalar_of_empty (sound : Sound parser) {state : State parser}
    {codeUnit : parser.Unit} {tail : List parser.Unit}
    (countsLess : ∀ count ∈ state.appendCounts,
      less word .int count (UIntBuffer.capacity word parser.codeUnit) = true)
    (buffer : state.buffer = UIntBuffer.ofUnits []) (input : state.input = codeUnit :: tail) :
    (parser.isScalar codeUnit = true → ∃ later,
        parser.parseScalar state = (.valid (parser.ofCodeUnit codeUnit), later) ∧
          later.Holds tail) ∧
      (parser.isScalar codeUnit = false → ∃ later,
        parser.parseScalar state = ((parser.verdict (codeUnit :: tail)).1, later) ∧
          later.Holds ((codeUnit :: tail).drop (parser.verdict (codeUnit :: tail)).2)) := by
  have space := two_le_room sound.buffered
  have empty : state.buffer.isEmpty = true := by
    rw [buffer]
    rfl
  refine ⟨?_, ?_⟩
  · intro scalar
    refine ⟨{ state with input := tail }, ?_, countsLess, [], buffer, rfl, ?_⟩
    · simp only [parseScalar, empty, input, scalar, if_true]
    · exact (Nat.le_succ 1).trans space
  · intro notScalar
    have buffer' : ({ state with input := tail } : State parser).buffer =
        UIntBuffer.ofUnits [] := buffer
    rcases State.append_eq sound.buffered sound.regular buffer' ((Nat.le_succ 1).trans space)
      codeUnit with ⟨appended, countLess⟩
    have parsed : parser.parseScalar state = parser.parseBuffered
        (({ state with input := tail } : State parser).append codeUnit) := by
      simp [parseScalar, empty, input, notScalar]
    rw [parsed]
    exact parseBuffered_eq sound appended space
      (counts_less_append countsLess countLess) rfl rfl notScalar

theorem parseScalar_of_buffered (sound : Sound parser) {state : State parser}
    {codeUnit : parser.Unit} {held : List parser.Unit}
    (countsLess : ∀ count ∈ state.appendCounts,
      less word .int count (UIntBuffer.capacity word parser.codeUnit) = true)
    (buffer : state.buffer = UIntBuffer.ofUnits (codeUnit :: held))
    (space : (codeUnit :: held).length + 1 ≤ parser.room) :
    (parser.isScalar codeUnit = true → ∃ later,
        parser.parseScalar state = (.valid (parser.ofCodeUnit codeUnit), later) ∧
          later.Holds (held ++ state.input)) ∧
      (parser.isScalar codeUnit = false → ∃ later,
        parser.parseScalar state =
          ((parser.verdict (codeUnit :: held ++ state.input)).1, later) ∧
            later.Holds ((codeUnit :: held ++ state.input).drop
              (parser.verdict (codeUnit :: held ++ state.input)).2)) := by
  have fits := (le_room_iff sound.buffered).mpr
    (show (codeUnit :: held).length ≤ parser.room by omega)
  have notEmpty : state.buffer.isEmpty = false := by
    rw [buffer, UIntBuffer.isEmpty_ofUnits fits]
    rfl
  have head : truncatingIfNeeded word parser.codeUnit .uint32 state.buffer.storage = codeUnit := by
    rw [buffer]
    exact head_ofUnits sound.buffered codeUnit held
  refine ⟨?_, ?_⟩
  · intro scalar
    refine ⟨{ state with buffer := state.buffer.remove 0 }, ?_, countsLess, held, ?_, rfl, ?_⟩
    · simp only [parseScalar, notEmpty, Bool.false_eq_true, if_false, head, scalar, if_true]
    · rw [buffer]
      exact UIntBuffer.remove_ofUnits sound.buffered codeUnit fits
    · rw [List.length_cons] at space
      omega
  · intro notScalar
    have parsed : parser.parseScalar state = parser.parseBuffered state := by
      simp only [parseScalar, notEmpty, Bool.false_eq_true, if_false, head, notScalar]
    rw [parsed]
    exact parseBuffered_eq sound buffer space countsLess rfl rfl notScalar

theorem next_of_scan (sound : Sound parser) {state : State parser} {text rest : List parser.Unit}
    {result : ParseResult parser.EncodedScalar} (holds : state.Holds text)
    (scanned : parser.scan text = some (result, rest)) :
    ∃ later, parser.next state = some (result, later) ∧ later.Holds rest := by
  rcases holds with ⟨countsLess, held, buffer, regrouped, space⟩
  cases text with
  | nil => cases scanned
  | cons codeUnit tail =>
      have parsed : (parser.isScalar codeUnit = true → ∃ later,
            parser.parseScalar state = (.valid (parser.ofCodeUnit codeUnit), later) ∧
              later.Holds tail) ∧
          (parser.isScalar codeUnit = false → ∃ later,
            parser.parseScalar state = ((parser.verdict (codeUnit :: tail)).1, later) ∧
              later.Holds ((codeUnit :: tail).drop (parser.verdict (codeUnit :: tail)).2)) := by
        cases held with
        | nil => exact parseScalar_of_empty sound countsLess buffer regrouped.symm
        | cons first held =>
            rw [List.cons_append, List.cons.injEq] at regrouped
            rcases regrouped with ⟨rfl, rfl⟩
            exact parseScalar_of_buffered sound countsLess buffer space
      rw [scan] at scanned
      split_ifs at scanned with scalar
      · cases scanned
        rcases parsed.1 scalar with ⟨later, call, holds⟩
        exact ⟨later, next_of_parseScalar call (by simp), holds⟩
      · cases scanned
        rcases parsed.2 (by simpa using scalar) with ⟨later, call, holds⟩
        exact ⟨later, next_of_parseScalar call (verdict_ne_emptyInput _), holds⟩

theorem parseScalar_of_nil {state : State parser} (holds : state.Holds []) :
    parser.parseScalar state = (.emptyInput, state) := by
  rcases holds with ⟨_, held, buffer, regrouped, _⟩
  rcases List.append_eq_nil_iff.mp regrouped.symm with ⟨rfl, input⟩
  have empty : state.buffer.isEmpty = true := by
    rw [buffer]
    rfl
  simp only [parseScalar, empty, input, if_true]

theorem runs_of_holds (sound : Sound parser) {state : State parser} {text rest : List parser.Unit}
    {results : List (ParseResult parser.EncodedScalar)} (holds : state.Holds text)
    (scanned : Iteration.Runs parser.scan text results rest) :
    ∃ final, Iteration.Runs parser.next state results final ∧ final.Holds rest := by
  have steps (state : State parser) (text : List parser.Unit)
      (result : ParseResult parser.EncodedScalar) (later : List parser.Unit)
      (holds : state.Holds text) (step : parser.scan text = some (result, later)) :
      ∃ state', parser.next state = some (id result, state') ∧ state'.Holds later :=
    next_of_scan sound holds step
  have simulated := Iteration.Runs.simulate steps holds scanned
  rwa [List.map_id] at simulated

theorem runs_of_scan (sound : Sound parser) {text rest : List parser.Unit}
    {results : List (ParseResult parser.EncodedScalar)}
    (scanned : Iteration.Runs parser.scan text results rest) :
    ∃ final, Iteration.Runs parser.next (parser.start text) results final ∧ final.Holds rest :=
  runs_of_holds sound (start_holds sound.buffered text) scanned

theorem append_start_holds (sound : Sound parser) (codeUnit : parser.Unit)
    (input : List parser.Unit) :
    ((parser.start input).append codeUnit).Holds (codeUnit :: input) := by
  have two := two_le_room sound.buffered
  have appended := State.append_eq sound.buffered sound.regular
    (show (parser.start input).buffer = UIntBuffer.ofUnits [] from rfl)
    (show ([] : List parser.Unit).length + 1 ≤ parser.room by
      rw [List.length_nil]
      omega) codeUnit
  refine ⟨?_, [codeUnit], appended.1, rfl, two⟩
  intro count mem
  rw [List.mem_singleton.mp mem]
  exact appended.2

variable (parser) in
/-- Running a parser to exhaustion over an input. -/
def Parses (input : List parser.Unit)
    (results : List (ParseResult parser.EncodedScalar)) : Prop :=
  ∃ final, Iteration.Runs parser.next (parser.start input) results final ∧
    (parser.parseScalar final).1 = .emptyInput

theorem parses_of_scan (sound : Sound parser) {text : List parser.Unit}
    {results : List (ParseResult parser.EncodedScalar)}
    (scanned : Iteration.Runs parser.scan text results []) : parser.Parses text results := by
  rcases runs_of_scan sound scanned with ⟨final, runs, holds⟩
  exact ⟨final, runs, congrArg Prod.fst (parseScalar_of_nil holds)⟩

theorem Parses.unique {text : List parser.Unit}
    {results others : List (ParseResult parser.EncodedScalar)}
    (first : parser.Parses text results) (second : parser.Parses text others) :
    results = others := by
  have ends {final : parser.State} (ended : (parser.parseScalar final).1 = .emptyInput) :
      parser.next final = none := by
    rw [next]
    generalize parser.parseScalar final = parsed at ended
    rcases parsed with ⟨result, later⟩
    cases ended
    rfl
  rcases first with ⟨_, runs, ended⟩
  rcases second with ⟨_, otherRuns, otherEnded⟩
  exact Iteration.Yields.unique ⟨_, runs, ends ended⟩ ⟨_, otherRuns, ends otherEnded⟩

end UTFParser

end USwift
