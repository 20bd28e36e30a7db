import USwift.FloatingPoint.ToInteger

/-!
# Integers of single-precision values in the 16-bit configuration

The 16-bit configuration has initializers for a `Float` that take precedence over the generic
ones. They reject what is not finite and leave the rest to three functions of the runtime, which
cut off the fraction and cast the result to a signed type. What is returned is truncated to the
bits of the target without any check, so that the initializer without a label gives an integer
for every finite value, where the generic one gives zero for what the target does not hold.

The `trunc` of the C library and the cast are parameters. The C standard leaves the cast open
where its type does not hold the integer part.
-/

namespace USwift

open BinaryFormats BinaryFormats.Format FixedWidthInteger TwosComplement

namespace FloatingPoint

/-- `trunc`, whose `double` has the format of a `float` on AVR, and the cast to an integer type. -/
structure CMath where
  trunc : FloatingPoint .float → FloatingPoint .float
  cast : (type : IntegerType) → FloatingPoint .float → Value .word16 type

section Operations

variable (math : CMath)

/-- What `float_to_int16`, `float_to_int32` and `float_to_int64` do. -/
def floatToInt (type : IntegerType) (f : FloatingPoint .float) : Value .word16 type :=
  let ft := math.trunc f
  math.cast type ft

def floatToInt16 (f : FloatingPoint .float) : Value .word16 .int16 := floatToInt math .int16 f

def floatToInt32 (f : FloatingPoint .float) : Value .word16 .int32 := floatToInt math .int32 f

def floatToInt64 (f : FloatingPoint .float) : Value .word16 .int64 := floatToInt math .int64 f

/-- `Self(float_to_int16(source))`, with the functions for 32 and 64 bits in the extensions of
the types of these widths. -/
def castFloat (target : IntegerType) (source : FloatingPoint .float) : Value .word16 target :=
  match target with
  | .uint32 => truncatingIfNeeded .word16 .uint32 .int32 (floatToInt32 math source)
  | .int32 => truncatingIfNeeded .word16 .int32 .int32 (floatToInt32 math source)
  | .uint64 => truncatingIfNeeded .word16 .uint64 .int64 (floatToInt64 math source)
  | .int64 => truncatingIfNeeded .word16 .int64 .int64 (floatToInt64 math source)
  | target => truncatingIfNeeded .word16 target .int16 (floatToInt16 math source)

variable (target : IntegerType) (source : FloatingPoint .float)

/-- `init?(safe:)` of a `Float` -/
def ofFloatSafe : Option (Value .word16 target) :=
  if !(isFinite .word16 source && !isNaN .word16 source) then none
  else if !(target.isSigned || isLessThanOrEqualTo 0 source) then none
  else some (castFloat math target source)

/-- `init(_:)` of a `Float` -/
def ofFloat : Value .word16 target :=
  if !(isFinite .word16 source && !isNaN .word16 source) then 0
  else castFloat math target source

/-- The type of the function that an initializer calls. -/
def runtimeType : IntegerType → IntegerType
  | .uint32 | .int32 => .int32
  | .uint64 | .int64 => .int64
  | _ => .int16

end Operations

variable {math : CMath} {target : IntegerType} {source : FloatingPoint .float}

/-- The C standard's rules for a value: `trunc` rounds it towards zero, and a cast drops the
fraction of a finite value if the type holds the integer part. -/
structure CMath.Conforms (math : CMath) (type : IntegerType)
    (source : FloatingPoint .float) : Prop where
  trunc : Format.magnitude source < single.infinity →
    Format.magnitude (math.trunc source) < single.infinity ∧
      number (math.trunc source) = truncated source
  cast (x : FloatingPoint .float) : Format.magnitude x < single.infinity →
    InRange .word16 type (truncated x) → toInt .word16 type (math.cast type x) = truncated x

/-- The casts differ in the type of the function only. -/
theorem castFloat_eq (math : CMath) (target : IntegerType) (source : FloatingPoint .float) :
    castFloat math target source = truncatingIfNeeded .word16 target (runtimeType target)
      (floatToInt math (runtimeType target) source) := by
  cases target <;> rfl

theorem toInt_floatToInt {type : IntegerType} (conforms : math.Conforms type source)
    (finite : Format.magnitude source < single.infinity)
    (inside : InRange .word16 type (truncated source)) :
    toInt .word16 type (floatToInt math type source) = truncated source := by
  rcases conforms.trunc finite with ⟨kept, same⟩
  have part := truncated_of_number_eq same
  have cast := conforms.cast _ kept (by rwa [part])
  rw [floatToInt, cast, part]

/-- No function of the runtime checks the target, which gets its bits of the integer part. -/
theorem toInt_castFloat (conforms : math.Conforms (runtimeType target) source)
    (finite : Format.magnitude source < single.infinity)
    (inside : InRange .word16 (runtimeType target) (truncated source)) :
    toInt .word16 target (castFloat math target source) =
      wrap target.isSigned (target.bitWidth .word16) (truncated source) := by
  have faithful : extendsSign .word16 (runtimeType target) = (runtimeType target).isSigned :=
    (extendsSign_eq_iff .word16 _).mpr (by simp)
  have value := toInt_floatToInt conforms finite inside
  rw [castFloat_eq, truncatingIfNeeded_eq_extend faithful, toInt]
  apply value_eq_wrap (target.bitWidth_pos .word16)
  rw [← value]
  exact value_extend_modEq _ _ _ _

theorem zero_le_place_iff (source : FloatingPoint .float) :
    0 ≤ place source ↔ 0 ≤ number source := by
  have zero : Format.magnitude (0 : FloatingPoint .float) = 0 ∧
      place (0 : FloatingPoint .float) = 0 := by decide
  have nothing : number (0 : FloatingPoint .float) = 0 := by
    rw [number, zero.1, value_zero, neg_zero, ite_self]
  have below := @number_lt_iff .float source 0
  rw [nothing, zero.2] at below
  rw [← not_lt, ← not_lt, below]

theorem isFinite_and_not_isNaN (source : FloatingPoint .float) :
    (isFinite .word16 source && !isNaN .word16 source) = true ↔
      Format.magnitude source < single.infinity := by
  rw [Bool.and_eq_true, Bool.not_eq_true', ← Bool.not_eq_true, isFinite_iff, isNaN_iff]
  exact ⟨fun both => both.1, fun finite => ⟨finite, finite.le.not_gt⟩⟩

theorem ofFloat_of_finite (finite : Format.magnitude source < single.infinity) :
    ofFloat math target source = castFloat math target source := by
  rw [ofFloat, (isFinite_and_not_isNaN source).mpr finite, if_neg (by decide)]

theorem ofFloatSafe_of_finite (finite : Format.magnitude source < single.infinity) :
    ofFloatSafe math target source =
      if target.isSigned = true ∨ 0 ≤ number source then some (castFloat math target source)
      else none := by
  have zero : Format.magnitude (0 : FloatingPoint .float) ≤ single.infinity ∧
      place (0 : FloatingPoint .float) = 0 := by decide
  have least : isLessThanOrEqualTo 0 source = true ↔ 0 ≤ number source := by
    rw [← zero_le_place_iff, isLessThanOrEqualTo_iff, zero.2]
    exact ⟨fun ordered => ordered.2, fun above => ⟨⟨zero.1, finite.le⟩, above⟩⟩
  rw [ofFloatSafe, (isFinite_and_not_isNaN source).mpr finite, if_neg (by decide)]
  by_cases accepted : target.isSigned = true ∨ 0 ≤ number source
  · rw [if_pos accepted, if_neg]
    rw [Bool.not_eq_true', Bool.not_eq_false, Bool.or_eq_true, least]
    exact accepted
  · rw [if_neg accepted, if_pos]
    rw [Bool.not_eq_true', ← Bool.not_eq_true, Bool.or_eq_true, least]
    exact accepted

/--
The initializers of the 16-bit configuration for a `Float`. What is not finite gives zero and no
value. Where the function of the runtime holds the integer part of a finite value, `init(_:)`
gives the bits of it that the target has, `init(safe:)` rejects only what is below zero for an
unsigned target, and `init(_:)` gives what the generic initializer gives if and only if the target
holds the integer part or those bits are zero.
-/
theorem ofFloat_wraps (math : CMath) (target : IntegerType) (source : FloatingPoint .float)
    (conforms : math.Conforms (runtimeType target) source) :
    (¬ Format.magnitude source < single.infinity →
      ofFloat math target source = 0 ∧ ofFloatSafe math target source = none) ∧
    (Format.magnitude source < single.infinity →
      InRange .word16 (runtimeType target) (truncated source) →
        toInt .word16 target (ofFloat math target source) =
          wrap target.isSigned (target.bitWidth .word16) (truncated source) ∧
        ofFloatSafe math target source =
          (if target.isSigned = true ∨ 0 ≤ number source then some (ofFloat math target source)
          else none) ∧
        (ofFloat math target source = ofFloatingPoint .word16 target source ↔
          InRange .word16 target (truncated source) ∨
            wrap target.isSigned (target.bitWidth .word16) (truncated source) = 0)) := by
  have accepted := isFinite_and_not_isNaN source
  constructor
  · intro infinite
    rw [← accepted, Bool.not_eq_true] at infinite
    rw [ofFloat, ofFloatSafe, infinite]
    exact ⟨rfl, rfl⟩
  · intro finite inside
    have value := toInt_castFloat conforms finite inside
    have generic := toInt_ofFloatingPoint .word16 target source
    rw [ofFloat_of_finite finite, ofFloatSafe_of_finite finite]
    refine ⟨value, rfl, ?_⟩
    have same : castFloat math target source = ofFloatingPoint .word16 target source ↔
        toInt .word16 target (castFloat math target source) =
          toInt .word16 target (ofFloatingPoint .word16 target source) :=
      ⟨congrArg _, toInt_injective⟩
    rw [same, value, generic]
    by_cases held : InRange .word16 target (truncated source)
    · rw [if_pos ⟨finite, held⟩, wrap_of_bounds (target.bitWidth_pos .word16) held.1 held.2]
      exact iff_of_true rfl (Or.inl held)
    · rw [if_neg (fun both => held both.2)]
      exact ⟨Or.inr, fun either => either.resolve_left held⟩

/-- A cast that drops the fraction, and a `trunc` that does so at 300.5. -/
def CMath.dropping : CMath where
  trunc f :=
    if f = (0x43964000 : FloatingPoint .float) then (0x43960000 : FloatingPoint .float) else f
  cast type f := BitVec.ofInt (type.bitWidth .word16) (truncated f)

theorem CMath.conforms_dropping :
    CMath.dropping.Conforms .int16 (0x43964000 : FloatingPoint .float) where
  trunc _ := ⟨by decide, by decide +kernel⟩
  cast f _ inside :=
    (value_eq_wrap (by decide) (value_ofInt_modEq _ _ _)).trans
      (wrap_of_bounds (by decide) inside.1 inside.2)

/-- `Int8(300.5)` is 44, where the generic initializer gives zero. -/
theorem ofFloat_wraps_300 :
    toInt .word16 .int8 (ofFloat CMath.dropping .int8 (0x43964000 : FloatingPoint .float)) = 44 ∧
      ofFloat CMath.dropping .int8 (0x43964000 : FloatingPoint .float) ≠
        ofFloatingPoint .word16 .int8 (0x43964000 : FloatingPoint .float) := by
  have part : truncated (0x43964000 : FloatingPoint .float) = 300 := by decide +kernel
  have wraps := (ofFloat_wraps CMath.dropping .int8 (0x43964000 : FloatingPoint .float)
    CMath.conforms_dropping).2 (by decide) (by rw [part]; decide)
  rw [part] at wraps
  exact ⟨wraps.1.trans (by decide), fun same => absurd (wraps.2.2.mp same) (by decide)⟩

end FloatingPoint

end USwift
