import USwift.Library.BitSets
import USwift.Integer.Types

/-!
# Option sets

`OptionSet` takes its operations from three layers of defaults: `SetAlgebra`,
`OptionSet`, and the bitwise operations for raw values of fixed width. An element is
itself a set of options, with any number of bits.
-/

namespace USwift

open BitSets

/-- A conforming type, whose `init(rawValue:)` and `rawValue` are inverse to each other. -/
structure OptionSet (Self : Type) (width : ℕ) where
  rawValue : Self → BitVec width
  ofRawValue : BitVec width → Self
  rawValue_ofRawValue : ∀ bits, rawValue (ofRawValue bits) = bits
  ofRawValue_rawValue : ∀ self, ofRawValue (rawValue self) = self

namespace OptionSet

section Operations

variable {Self : Type} {width : ℕ} (options : OptionSet Self width)

/-- `==`, which compares the raw values. -/
def equal (lhs rhs : Self) : Bool :=
  options.rawValue lhs == options.rawValue rhs

/-- `init()`. -/
def empty : Self :=
  options.ofRawValue 0

def formUnion (self other : Self) : Self :=
  options.ofRawValue (options.rawValue self ||| options.rawValue other)

def formIntersection (self other : Self) : Self :=
  options.ofRawValue (options.rawValue self &&& options.rawValue other)

def formSymmetricDifference (self other : Self) : Self :=
  options.ofRawValue (options.rawValue self ^^^ options.rawValue other)

def union (self other : Self) : Self :=
  options.formUnion (options.ofRawValue (options.rawValue self)) other

def intersection (self other : Self) : Self :=
  options.formIntersection (options.ofRawValue (options.rawValue self)) other

def symmetricDifference (self other : Self) : Self :=
  options.formSymmetricDifference (options.ofRawValue (options.rawValue self)) other

def isEmpty (self : Self) : Bool :=
  options.equal self options.empty

def subtract (self other : Self) : Self :=
  options.formIntersection self (options.symmetricDifference self other)

def subtracting (self other : Self) : Self :=
  options.intersection self (options.symmetricDifference self other)

def isSubset (self other : Self) : Bool :=
  options.equal (options.intersection self other) self

def isSuperset (self other : Self) : Bool :=
  options.isSubset other self

def isDisjoint (self other : Self) : Bool :=
  options.isEmpty (options.intersection self other)

def isStrictSuperset (self other : Self) : Bool :=
  options.isSuperset self other && !options.equal self other

def isStrictSubset (self other : Self) : Bool :=
  options.isStrictSuperset other self

def contains (self member : Self) : Bool :=
  options.isSuperset self member

/-- `insert(_:)`, with the set that it leaves behind. -/
def insert (self newMember : Self) : (Bool × Self) × Self :=
  let oldMember := options.intersection self newMember
  let shouldInsert := !options.equal oldMember newMember
  let result := (shouldInsert, if shouldInsert then newMember else oldMember)
  (result, if shouldInsert then options.formUnion self newMember else self)

/-- `remove(_:)`, with the set that it leaves behind. -/
def remove (self member : Self) : Option Self × Self :=
  let intersectionElements := options.intersection self member
  if options.isEmpty intersectionElements then (none, self)
  else (some intersectionElements, options.subtract self member)

/-- `update(with:)`, with the set that it leaves behind. -/
def update (self newMember : Self) : Option Self × Self :=
  let r := options.intersection self newMember
  (if options.isEmpty r then none else some r, options.formUnion self newMember)

/-- `init(_:)` on a sequence, and on an array literal. -/
def ofSequence (sequence : List Self) : Self :=
  sequence.foldl (fun set e => (options.insert set e).2) options.empty

/-- The set of the options of a value. -/
def members (self : Self) : Finset (Fin width) :=
  bits (options.rawValue self)

end Operations

variable {Self : Type} {width : ℕ} {options : OptionSet Self width}

theorem members_injective {x y : Self} (same : options.members x = options.members y) : x = y := by
  rw [← options.ofRawValue_rawValue x, ← options.ofRawValue_rawValue y, bits_injective same]

theorem equal_iff {x y : Self} : options.equal x y = true ↔ x = y := by
  rw [equal, beq_iff_eq]
  constructor
  · intro same
    exact members_injective (congrArg bits same)
  · intro same
    rw [same]

theorem equal_comm (x y : Self) : options.equal x y = options.equal y x :=
  BEq.comm

@[simp]
theorem members_ofRawValue (x : BitVec width) :
    options.members (options.ofRawValue x) = bits x := by
  rw [members, options.rawValue_ofRawValue]

@[simp]
theorem members_empty : options.members options.empty = ∅ := by
  rw [empty, members_ofRawValue, bits_zero]

@[simp]
theorem members_formUnion (x y : Self) :
    options.members (options.formUnion x y) = options.members x ∪ options.members y := by
  rw [formUnion, members_ofRawValue, bits_or]
  rfl

@[simp]
theorem members_union (x y : Self) :
    options.members (options.union x y) = options.members x ∪ options.members y := by
  rw [union, members_formUnion, options.ofRawValue_rawValue]

@[simp]
theorem members_formIntersection (x y : Self) :
    options.members (options.formIntersection x y) = options.members x ∩ options.members y := by
  rw [formIntersection, members_ofRawValue, bits_and]
  rfl

@[simp]
theorem members_intersection (x y : Self) :
    options.members (options.intersection x y) = options.members x ∩ options.members y := by
  rw [intersection, members_formIntersection, options.ofRawValue_rawValue]

@[simp]
theorem members_formSymmetricDifference (x y : Self) :
    options.members (options.formSymmetricDifference x y) =
      symmDiff (options.members x) (options.members y) := by
  rw [formSymmetricDifference, members_ofRawValue, bits_xor]
  rfl

@[simp]
theorem members_symmetricDifference (x y : Self) :
    options.members (options.symmetricDifference x y) =
      symmDiff (options.members x) (options.members y) := by
  rw [symmetricDifference, members_formSymmetricDifference, options.ofRawValue_rawValue]

theorem inter_symmDiff {Index : Type} [DecidableEq Index] (s t : Finset Index) :
    s ∩ symmDiff s t = s \ t := by
  ext i
  simp only [Finset.mem_inter, Finset.mem_symmDiff, Finset.mem_sdiff]
  tauto

@[simp]
theorem members_subtract (x y : Self) :
    options.members (options.subtract x y) = options.members x \ options.members y := by
  rw [subtract, members_formIntersection, members_symmetricDifference, inter_symmDiff]

@[simp]
theorem members_subtracting (x y : Self) :
    options.members (options.subtracting x y) = options.members x \ options.members y := by
  rw [subtracting, members_intersection, members_symmetricDifference, inter_symmDiff]

theorem isEmpty_iff {x : Self} : options.isEmpty x = true ↔ options.members x = ∅ := by
  rw [isEmpty, equal_iff]
  constructor
  · intro same
    rw [same, members_empty]
  · intro none
    exact members_injective (none.trans members_empty.symm)

theorem isSubset_iff {x y : Self} :
    options.isSubset x y = true ↔ options.members x ⊆ options.members y := by
  rw [isSubset, equal_iff, ← Finset.inter_eq_left, ← members_intersection]
  exact ⟨congrArg options.members, members_injective⟩

theorem isSuperset_iff {x y : Self} :
    options.isSuperset x y = true ↔ options.members y ⊆ options.members x :=
  isSubset_iff

theorem isDisjoint_iff {x y : Self} :
    options.isDisjoint x y = true ↔ Disjoint (options.members x) (options.members y) := by
  rw [isDisjoint, isEmpty_iff, members_intersection, Finset.disjoint_iff_inter_eq_empty]

theorem isStrictSuperset_iff {x y : Self} :
    options.isStrictSuperset x y = true ↔ options.members y ⊂ options.members x := by
  rw [isStrictSuperset, Bool.and_eq_true, isSuperset_iff, Bool.not_eq_true', Bool.eq_false_iff,
    ne_eq, equal_iff, Finset.ssubset_iff_subset_ne]
  refine and_congr_right fun _ => not_congr ?_
  exact ⟨fun same => congrArg options.members same.symm, fun same => (members_injective same).symm⟩

theorem isStrictSubset_iff {x y : Self} :
    options.isStrictSubset x y = true ↔ options.members x ⊂ options.members y :=
  isStrictSuperset_iff

theorem contains_iff {x e : Self} :
    options.contains x e = true ↔ options.members e ⊆ options.members x :=
  isSuperset_iff

theorem insert_result (x e : Self) : (options.insert x e).1 = (!options.contains x e, e) := by
  have contained : options.equal (options.intersection x e) e = options.contains x e := by
    rw [Bool.eq_iff_iff, contains_iff, equal_iff, ← Finset.inter_eq_right, ← members_intersection]
    exact ⟨congrArg options.members, members_injective⟩
  simp only [insert, contained]
  cases member : options.contains x e with
  | false => simp
  | true =>
    rw [← contained, equal_iff] at member
    simp [member]

/-- An element that is there already changes nothing by being inserted, as its union would. -/
@[simp]
theorem members_insert (x e : Self) :
    options.members (options.insert x e).2 = options.members x ∪ options.members e := by
  simp only [insert]
  split
  · exact members_formUnion x e
  · next same =>
    rw [Bool.not_eq_true', Bool.not_eq_false, equal_iff] at same
    have all : options.members e ⊆ options.members x := by
      rw [← Finset.inter_eq_right, ← members_intersection, same]
    rw [Finset.union_eq_left.mpr all]

theorem isEmpty_intersection_iff {x e : Self} :
    options.isEmpty (options.intersection x e) = true ↔
      options.members x ∩ options.members e = ∅ := by
  rw [isEmpty_iff, members_intersection]

theorem shared_result (x e : Self) :
    (if options.isEmpty (options.intersection x e) then none
      else some (options.intersection x e)).map options.members =
      if options.members x ∩ options.members e = ∅ then none
      else some (options.members x ∩ options.members e) := by
  simp only [isEmpty_intersection_iff]
  split
  · rfl
  · simp

theorem remove_result (x e : Self) :
    (options.remove x e).1.map options.members =
      if options.members x ∩ options.members e = ∅ then none
      else some (options.members x ∩ options.members e) := by
  rw [← shared_result]
  simp only [remove]
  split <;> rfl

@[simp]
theorem members_remove (x e : Self) :
    options.members (options.remove x e).2 = options.members x \ options.members e := by
  simp only [remove, isEmpty_intersection_iff]
  split
  · next apart =>
    rw [← Finset.disjoint_iff_inter_eq_empty] at apart
    exact (Finset.sdiff_eq_self_of_disjoint apart).symm
  · exact members_subtract x e

@[simp]
theorem members_update (x e : Self) :
    options.members (options.update x e).2 = options.members x ∪ options.members e :=
  members_formUnion x e

theorem mem_members_inserted (sequence : List Self) (x : Self) (i : Fin width) :
    i ∈ options.members (sequence.foldl (fun set e => (options.insert set e).2) x) ↔
      i ∈ options.members x ∨ ∃ e ∈ sequence, i ∈ options.members e := by
  induction sequence generalizing x with
  | nil => simp
  | cons e rest ih => simp [ih, or_assoc]

theorem mem_members_ofSequence (sequence : List Self) (i : Fin width) :
    i ∈ options.members (options.ofSequence sequence) ↔ ∃ e ∈ sequence, i ∈ options.members e := by
  simp [ofSequence, mem_members_inserted]

/-- The operations are those on the sets of bits. -/
structure ActsOnBits (options : OptionSet Self width) : Prop where
  empty : options.members options.empty = ∅
  equal : ∀ x y, options.equal x y = true ↔ options.members x = options.members y
  isEmpty : ∀ x, options.isEmpty x = true ↔ options.members x = ∅
  union : ∀ x y, options.members (options.union x y) = options.members x ∪ options.members y
  intersection : ∀ x y,
    options.members (options.intersection x y) = options.members x ∩ options.members y
  symmetricDifference : ∀ x y,
    options.members (options.symmetricDifference x y) =
      symmDiff (options.members x) (options.members y)
  subtract : ∀ x y, options.members (options.subtract x y) = options.members x \ options.members y
  subtracting : ∀ x y,
    options.members (options.subtracting x y) = options.members x \ options.members y
  isSubset : ∀ x y, options.isSubset x y = true ↔ options.members x ⊆ options.members y
  isSuperset : ∀ x y, options.isSuperset x y = true ↔ options.members y ⊆ options.members x
  isDisjoint : ∀ x y,
    options.isDisjoint x y = true ↔ Disjoint (options.members x) (options.members y)
  isStrictSubset : ∀ x y, options.isStrictSubset x y = true ↔ options.members x ⊂ options.members y
  isStrictSuperset : ∀ x y,
    options.isStrictSuperset x y = true ↔ options.members y ⊂ options.members x
  contains : ∀ x e, options.contains x e = true ↔ options.members e ⊆ options.members x
  insert : ∀ x e,
    options.members (options.insert x e).2 = options.members x ∪ options.members e ∧
      (options.insert x e).1 =
        if options.members e ⊆ options.members x then (false, e) else (true, e)
  remove : ∀ x e,
    options.members (options.remove x e).2 = options.members x \ options.members e ∧
      (options.remove x e).1.map options.members =
        if options.members x ∩ options.members e = ∅ then none
        else some (options.members x ∩ options.members e)
  update : ∀ x e,
    options.members (options.update x e).2 = options.members x ∪ options.members e ∧
      (options.update x e).1.map options.members =
        if options.members x ∩ options.members e = ∅ then none
        else some (options.members x ∩ options.members e)
  ofSequence : ∀ sequence i,
    i ∈ options.members (options.ofSequence sequence) ↔ ∃ e ∈ sequence, i ∈ options.members e

/-- The axioms in the documentation of `SetAlgebra`, for elements of one bit. -/
structure SetAlgebraAxioms (options : OptionSet Self width) : Prop where
  empty_literal : options.equal options.empty (options.ofSequence []) = true
  intersection_self : ∀ x, options.equal (options.intersection x x) x = true
  intersection_empty : ∀ x,
    options.equal (options.intersection x (options.ofSequence [])) (options.ofSequence []) = true
  union_self : ∀ x, options.equal (options.union x x) x = true
  union_empty : ∀ x, options.equal (options.union x (options.ofSequence [])) x = true
  contains_union : ∀ x y e i, options.members e = {i} →
    options.contains x e = true → options.contains (options.union x y) e = true
  contains_of_union : ∀ x y e i, options.members e = {i} →
    options.contains (options.union x y) e = true →
      (options.contains x e || options.contains y e) = true
  contains_intersection : ∀ x y e i, options.members e = {i} →
    ((options.contains x e && options.contains y e) = true ↔
      options.contains (options.intersection x y) e = true)
  union_of_isSubset : ∀ x y,
    options.isSubset x y = true → options.equal (options.union x y) y = true
  union_of_isSuperset : ∀ x y,
    options.isSuperset x y = true → options.equal (options.union x y) x = true
  isSubset_isSuperset : ∀ x y, options.isSubset x y = true ↔ options.isSuperset y x = true
  isStrictSuperset_isSuperset : ∀ x y,
    options.isStrictSuperset x y = true ↔
      (options.isSuperset x y && !options.equal x y) = true
  isStrictSubset_isSubset : ∀ x y,
    options.isStrictSubset x y = true ↔
      (options.isSubset x y && !options.equal x y) = true

theorem equal_iff_members {x y : Self} :
    options.equal x y = true ↔ options.members x = options.members y := by
  rw [equal_iff]
  exact ⟨congrArg options.members, members_injective⟩

theorem acts_on_bits (options : OptionSet Self width) : ActsOnBits options where
  empty := members_empty
  equal _ _ := equal_iff_members
  isEmpty _ := isEmpty_iff
  union := members_union
  intersection := members_intersection
  symmetricDifference := members_symmetricDifference
  subtract := members_subtract
  subtracting := members_subtracting
  isSubset _ _ := isSubset_iff
  isSuperset _ _ := isSuperset_iff
  isDisjoint _ _ := isDisjoint_iff
  isStrictSubset _ _ := isStrictSubset_iff
  isStrictSuperset _ _ := isStrictSuperset_iff
  contains _ _ := contains_iff
  insert x e := by
    refine ⟨members_insert x e, ?_⟩
    simp only [insert_result, ← contains_iff]
    cases options.contains x e <;> rfl
  remove x e := ⟨members_remove x e, remove_result x e⟩
  update x e := ⟨members_update x e, shared_result x e⟩
  ofSequence := mem_members_ofSequence

theorem setAlgebraAxioms (options : OptionSet Self width) : SetAlgebraAxioms options where
  empty_literal := equal_iff.mpr rfl
  intersection_self x := by simp [equal_iff_members]
  intersection_empty x := by simp [equal_iff_members, ofSequence]
  union_self x := by simp [equal_iff_members]
  union_empty x := by simp [equal_iff_members, ofSequence]
  contains_union x y e i _ := by
    simp only [contains_iff, members_union]
    intro inside
    exact inside.trans Finset.subset_union_left
  contains_of_union x y e i single := by
    simp [contains_iff, single]
  contains_intersection x y e i _ := by
    simp [contains_iff, Finset.subset_inter_iff]
  union_of_isSubset x y := by
    simp [isSubset_iff, equal_iff_members]
  union_of_isSuperset x y := by
    simp [isSuperset_iff, equal_iff_members]
  isSubset_isSuperset x y := Iff.rfl
  isStrictSuperset_isSuperset x y := Iff.rfl
  isStrictSubset_isSubset x y := by
    rw [isStrictSubset, isStrictSuperset, isSuperset, equal_comm]

/-- Every operation acts on the bits of the raw value, and the documented axioms hold. -/
theorem algebra_of_bits (options : OptionSet Self width) :
    ActsOnBits options ∧ SetAlgebraAxioms options :=
  ⟨acts_on_bits options, setAlgebraAxioms options⟩

/-- The conforming type in the documentation of `OptionSet`. -/
structure ShippingOptions (word : WordSize) where
  rawValue : Value word .int

namespace ShippingOptions

def conformance (word : WordSize) :
    OptionSet (ShippingOptions word) (IntegerType.int.bitWidth word) where
  rawValue := rawValue
  ofRawValue := mk
  rawValue_ofRawValue _ := rfl
  ofRawValue_rawValue _ := rfl

variable (word : WordSize)

def nextDay : ShippingOptions word := ⟨BitVec.ofNat _ (1 <<< 0)⟩

def secondDay : ShippingOptions word := ⟨BitVec.ofNat _ (1 <<< 1)⟩

def priority : ShippingOptions word := ⟨BitVec.ofNat _ (1 <<< 2)⟩

def standard : ShippingOptions word := ⟨BitVec.ofNat _ (1 <<< 3)⟩

def express : ShippingOptions word := (conformance word).ofSequence [nextDay word, secondDay word]

def all : ShippingOptions word :=
  (conformance word).ofSequence [express word, priority word, standard word]

end ShippingOptions

/-- The options of the documentation act on bits, and all of them are more than the express ones. -/
theorem algebra_of_bits_shipping :
    (ActsOnBits (ShippingOptions.conformance .word16) ∧
      SetAlgebraAxioms (ShippingOptions.conformance .word16)) ∧
    (ShippingOptions.conformance .word16).isStrictSubset (.express _) (.all _) = true :=
  ⟨algebra_of_bits (ShippingOptions.conformance .word16), by decide⟩

end OptionSet

end USwift
