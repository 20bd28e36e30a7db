import USwift.Integer.Types
import USwift.Library.Copying

/-!
# Copying through pointers

`moveInitialize(from:count:)` and `update(from:count:)` compare two pointers to find the
order in which the elements of regions that may overlap are copied. An address is a word,
an element fills its stride, and a byte is either initialized or not.
-/

namespace USwift

open Copying

section Operations

variable {word : WordSize} {Byte : Type}

/-- The address of a byte. -/
abbrev Address (word : WordSize) : Type :=
  BitVec word.bits

/-- The bytes of the memory, with those that hold no initialized element. -/
abbrev Bytes (word : WordSize) (Byte : Type) : Type :=
  Address word → Option Byte

namespace Address

/-- `<`, an unsigned comparison. -/
def less (lhs rhs : Address word) : Bool :=
  lhs.ult rhs

/-- `advanced(by:)`, which stays where it is instead of arriving at a null pointer. -/
def advanced (stride : ℕ) (pointer : Address word) (n : Value word .int) : Address word :=
  let moved := pointer + n * BitVec.ofNat word.bits stride
  if moved == 0 then pointer else moved

/-- The address of an element, as the builtins compute it. -/
def element (stride : ℕ) (pointer : Address word) (i : ℕ) : Address word :=
  pointer + BitVec.ofNat word.bits (i * stride)

end Address

namespace Bytes

variable (stride : ℕ) (memory : Bytes word Byte)

/-- The bytes of an element, by their offset in it. -/
def load (pointer : Address word) : ℕ → Option Byte :=
  fun k => memory (pointer + BitVec.ofNat word.bits k)

/-- Leave an element uninitialized. -/
def vacate (pointer : Address word) : Bytes word Byte :=
  fun a => if (a - pointer).toNat < stride then none else memory a

/-- Write the bytes of an element. -/
def store (pointer : Address word) (value : ℕ → Option Byte) : Bytes word Byte :=
  fun a => if (a - pointer).toNat < stride then value (a - pointer).toNat else memory a

/-- `target.initialize(to: source.move())`. -/
def moveElement (target source : Address word) : Bytes word Byte :=
  (memory.vacate stride source).store stride target (memory.load source)

/-- `target.pointee = source.pointee`. -/
def assignElement (target source : Address word) : Bytes word Byte :=
  memory.store stride target (memory.load source)

/-- `Builtin.takeArrayFrontToBack`. -/
def takeFrontToBack (self source : Address word) (count : ℕ) : Bytes word Byte :=
  (List.range count).foldl
    (fun memory i => memory.moveElement stride (self.element stride i) (source.element stride i))
    memory

/-- The loop of `Builtin.takeArrayBackToFront`, for at most a number of rounds. -/
def takeBackToFront (self : Address word) :
    ℕ → Address word → Address word → Bytes word Byte → Option (Bytes word Byte)
  | 0, _, _, _ => none
  | fuel + 1, src, dst, memory =>
      if dst != self then
        let dst := dst - BitVec.ofNat word.bits stride
        let src := src - BitVec.ofNat word.bits stride
        takeBackToFront self fuel src dst (memory.moveElement stride dst src)
      else some memory

/-- `moveInitialize(from:count:)`, whose check of the count has no effect. -/
def moveInitialize (fuel : ℕ) (self source : Address word) (count : Value word .int) :
    Option (Bytes word Byte) :=
  let elements := (toInt word .int count).toNat
  if self.less source || !self.less (source.advanced stride count) then
    some (memory.takeFrontToBack stride self source elements)
  else
    takeBackToFront stride self fuel (source.element stride elements)
      (self.element stride elements) memory

/-- `Builtin.assignCopyArrayFrontToBack`. -/
def assignFrontToBack (self source : Address word) (count : ℕ) : Bytes word Byte :=
  (List.range count).foldl
    (fun memory i =>
      memory.assignElement stride (self.element stride i) (source.element stride i))
    memory

/-- `Builtin.assignCopyArrayBackToFront`, from the index below `i` down to zero. -/
def assignBackToFront (self source : Address word) : ℕ → Bytes word Byte → Bytes word Byte
  | 0, memory => memory
  | i + 1, memory =>
      assignBackToFront self source i
        (memory.assignElement stride (self.element stride i) (source.element stride i))

/-- `update(from:count:)`, whose check of the count has no effect. -/
def update (self source : Address word) (count : Value word .int) : Bytes word Byte :=
  let elements := (toInt word .int count).toNat
  if self.less source || !self.less (source.advanced stride count) then
    memory.assignFrontToBack stride self source elements
  else if self != source then assignBackToFront stride self source elements memory
  else memory

end Bytes

end Operations

section Specification

variable {word : WordSize} {Byte : Type}

/-- An address is inside a number of bytes from another one. -/
def Address.Within (start : Address word) (bytes : ℕ) (a : Address word) : Prop :=
  start.toNat ≤ a.toNat ∧ a.toNat < start.toNat + bytes

instance (start : Address word) (bytes : ℕ) (a : Address word) :
    Decidable (start.Within bytes a) :=
  inferInstanceAs (Decidable (_ ∧ _))

/-- The memory with the bytes of one region at another one, and what is left of the former. -/
def Bytes.copied (left : Option Byte → Option Byte) (self source : Address word) (bytes : ℕ)
    (memory : Bytes word Byte) : Bytes word Byte := fun a =>
  if self.Within bytes a then memory (a - self + source)
  else if source.Within bytes a then left (memory a)
  else memory a

/-- A memory by the numbers of its addresses. -/
def Bytes.numbered (memory : Bytes word Byte) (n : ℕ) : Option (Option Byte) :=
  if n < 2 ^ word.bits then some (memory (BitVec.ofNat word.bits n)) else none

end Specification

section Results

variable {word : WordSize} {Byte : Type} {stride bytes count fuel : ℕ}
  {self source pointer a : Address word} {memory : Bytes word Byte}
  {left : Option Byte → Option Byte}

theorem Address.toNat_sub (below : pointer.toNat ≤ a.toNat) :
    (a - pointer).toNat = a.toNat - pointer.toNat := by
  have low := pointer.isLt
  have high := a.isLt
  have wrapped : 2 ^ word.bits - pointer.toNat + a.toNat =
      a.toNat - pointer.toNat + 2 ^ word.bits := by omega
  rw [BitVec.toNat_sub, wrapped, Nat.add_mod_right, Nat.mod_eq_of_lt (by omega)]

theorem Address.sub_lt_iff (fits : pointer.toNat + bytes ≤ 2 ^ word.bits) :
    (a - pointer).toNat < bytes ↔ pointer.Within bytes a := by
  have low := pointer.isLt
  have high := a.isLt
  rw [Within]
  by_cases below : pointer.toNat ≤ a.toNat
  · rw [toNat_sub below]
    omega
  · rw [BitVec.toNat_sub, Nat.mod_eq_of_lt (by omega)]
    omega

theorem Address.toNat_add (inside : pointer.toNat + bytes < 2 ^ word.bits) :
    (pointer + BitVec.ofNat word.bits bytes).toNat = pointer.toNat + bytes := by
  rw [BitVec.toNat_add, BitVec.toNat_ofNat, Nat.add_mod_mod, Nat.mod_eq_of_lt inside]

namespace Bytes

theorem numbered_injective : Function.Injective (@numbered word Byte) := by
  intro memory other same
  funext a
  have here := congrFun same a.toNat
  rw [numbered, numbered, if_pos a.isLt, if_pos a.isLt, Option.some_inj, BitVec.ofNat_toNat,
    BitVec.setWidth_eq] at here
  exact here

/-- Copying between regions that do not wrap around is a transfer between numbered places. -/
theorem numbered_copied (fits : self.toNat + bytes ≤ 2 ^ word.bits)
    (fits' : source.toNat + bytes ≤ 2 ^ word.bits) :
    (memory.copied left self source bytes).numbered =
      transferred (Option.map left) self.toNat source.toNat bytes memory.numbered := by
  funext n
  rw [transferred, numbered]
  by_cases inside : n < 2 ^ word.bits
  · have place : (BitVec.ofNat word.bits n).toNat = n := by
      rw [BitVec.toNat_ofNat, Nat.mod_eq_of_lt inside]
    rw [if_pos inside]
    simp only [copied, Address.Within, place]
    split_ifs with written read
    · have there : (BitVec.ofNat word.bits n - self + source).toNat =
          n - self.toNat + source.toNat := by
        rw [BitVec.toNat_add, Address.toNat_sub (by omega), place, Nat.mod_eq_of_lt (by omega)]
      rw [numbered, if_pos (by omega), ← there, BitVec.ofNat_toNat, BitVec.setWidth_eq]
    · rw [numbered, if_pos inside, Option.map_some]
    · rw [numbered, if_pos inside]
  · rw [if_neg inside, if_neg (by omega), if_neg (by omega), numbered, if_neg inside]

theorem copied_zero : memory.copied left self source 0 = memory := by
  funext a
  rw [copied, if_neg (by rintro ⟨_, _⟩; omega), if_neg (by rintro ⟨_, _⟩; omega)]

section Parts

variable {size more : ℕ}

theorem copied_forward (fits : self.toNat + (size + more) ≤ 2 ^ word.bits)
    (fits' : source.toNat + (size + more) ≤ 2 ^ word.bits)
    (order : self.toNat ≤ source.toNat ∨ source.toNat + (size + more) ≤ self.toNat) :
    (memory.copied left self source size).copied left (self + BitVec.ofNat word.bits size)
        (source + BitVec.ofNat word.bits size) more =
      memory.copied left self source (size + more) := by
  by_cases none : more = 0
  · rw [none, copied_zero, Nat.add_zero]
  · apply numbered_injective
    rw [numbered_copied (by rw [Address.toNat_add (by omega)]; omega)
      (by rw [Address.toNat_add (by omega)]; omega), numbered_copied (by omega) (by omega),
      numbered_copied fits fits', Address.toNat_add (by omega), Address.toNat_add (by omega),
      transferred_forward order]

theorem copied_backward (fits : self.toNat + (size + more) ≤ 2 ^ word.bits)
    (fits' : source.toNat + (size + more) ≤ 2 ^ word.bits)
    (order : source.toNat ≤ self.toNat) :
    (memory.copied left (self + BitVec.ofNat word.bits size)
        (source + BitVec.ofNat word.bits size) more).copied left self source size =
      memory.copied left self source (size + more) := by
  by_cases none : more = 0
  · rw [none, copied_zero, Nat.add_zero]
  · apply numbered_injective
    rw [numbered_copied (by omega) (by omega),
      numbered_copied (by rw [Address.toNat_add (by omega)]; omega)
        (by rw [Address.toNat_add (by omega)]; omega),
      numbered_copied fits fits', Address.toNat_add (by omega), Address.toNat_add (by omega),
      transferred_backward (.inl order)]

end Parts

section Elements

theorem load_sub : memory.load source (a - self).toNat = memory (a - self + source) := by
  rw [load, BitVec.ofNat_toNat, BitVec.setWidth_eq, BitVec.add_comm]

theorem assignElement_eq (fits : self.toNat + stride ≤ 2 ^ word.bits) :
    memory.assignElement stride self source = memory.copied id self source stride := by
  funext a
  simp only [assignElement, store, copied, Address.sub_lt_iff fits, load_sub, id_eq, ite_self]

theorem moveElement_eq (fits : self.toNat + stride ≤ 2 ^ word.bits)
    (fits' : source.toNat + stride ≤ 2 ^ word.bits) :
    memory.moveElement stride self source =
      memory.copied (fun _ => none) self source stride := by
  funext a
  simp only [moveElement, store, vacate, copied, Address.sub_lt_iff fits,
    Address.sub_lt_iff fits', load_sub]

end Elements

section Loops

theorem element_fits {i : ℕ} (fits : self.toNat + (i * stride + stride) ≤ 2 ^ word.bits) :
    (self.element stride i).toNat + stride ≤ 2 ^ word.bits := by
  by_cases none : stride = 0
  · have low := (self.element stride i).isLt
    omega
  · rw [Address.element, Address.toNat_add (by omega)]
    omega

variable {step : Bytes word Byte → Address word → Address word → Bytes word Byte}
  (steps : ∀ memory self source, self.toNat + stride ≤ 2 ^ word.bits →
    source.toNat + stride ≤ 2 ^ word.bits →
      step memory self source = memory.copied left self source stride)

include steps

/-- Copying the elements from the front copies the region. -/
theorem foldl_element (fits : self.toNat + count * stride ≤ 2 ^ word.bits)
    (fits' : source.toNat + count * stride ≤ 2 ^ word.bits)
    (order : self.toNat ≤ source.toNat ∨ source.toNat + count * stride ≤ self.toNat) :
    (List.range count).foldl
        (fun memory i => step memory (self.element stride i) (source.element stride i)) memory =
      memory.copied left self source (count * stride) := by
  induction count with
  | zero => rw [Nat.zero_mul, copied_zero, List.range_zero, List.foldl_nil]
  | succ count earlier =>
      rw [Nat.succ_mul] at fits fits' order
      rw [List.range_succ, List.foldl_append, List.foldl_cons, List.foldl_nil,
        earlier (by omega) (by omega) (by omega), steps _ _ _ (element_fits fits)
          (element_fits fits'), Address.element, Address.element,
        copied_forward fits fits' order, Nat.succ_mul]

/-- Copying the last element, and then the elements before it. -/
theorem copied_last (fits : self.toNat + (count * stride + stride) ≤ 2 ^ word.bits)
    (fits' : source.toNat + (count * stride + stride) ≤ 2 ^ word.bits)
    (order : source.toNat ≤ self.toNat) :
    (step memory (self.element stride count) (source.element stride count)).copied left self
        source (count * stride) =
      memory.copied left self source (count * stride + stride) := by
  rw [steps _ _ _ (element_fits fits) (element_fits fits'), Address.element, Address.element,
    copied_backward fits fits' order]

end Loops

theorem assignBackToFront_eq (fits : self.toNat + count * stride ≤ 2 ^ word.bits)
    (fits' : source.toNat + count * stride ≤ 2 ^ word.bits)
    (order : source.toNat ≤ self.toNat) :
    assignBackToFront stride self source count memory =
      memory.copied id self source (count * stride) := by
  induction count generalizing memory with
  | zero => rw [Nat.zero_mul, copied_zero, assignBackToFront]
  | succ count earlier =>
      rw [Nat.succ_mul] at fits fits'
      rw [assignBackToFront, earlier (by omega) (by omega), Nat.succ_mul]
      exact copied_last (fun _ _ _ fits _ => assignElement_eq fits) fits fits' order

theorem takeBackToFront_eq (enough : count < fuel)
    (fits : self.toNat + count * stride ≤ 2 ^ word.bits)
    (fits' : source.toNat + count * stride ≤ 2 ^ word.bits)
    (order : source.toNat ≤ self.toNat) (proper : count * stride < 2 ^ word.bits) :
    takeBackToFront stride self fuel (source.element stride count) (self.element stride count)
        memory =
      some (memory.copied (fun _ => none) self source (count * stride)) := by
  induction fuel generalizing count memory with
  | zero => omega
  | succ fuel further =>
      rw [takeBackToFront]
      by_cases none : count * stride = 0
      · have back : self.element stride count = self := by
          rw [Address.element, none]
          simp
        rw [if_neg (by rw [back]; simp), none, copied_zero]
      · rcases Nat.exists_eq_succ_of_ne_zero (show count ≠ 0 by rintro rfl; simp at none) with
          ⟨earlier, rfl⟩
        have away : self.element stride (earlier + 1) ≠ self := by
          intro back
          have zero : BitVec.ofNat word.bits ((earlier + 1) * stride) = 0 := by
            simpa [Address.element] using back
          have size := congrArg BitVec.toNat zero
          rw [BitVec.toNat_ofNat, Nat.mod_eq_of_lt proper] at size
          exact none size
        have stepped (pointer : Address word) :
            pointer.element stride (earlier + 1) - BitVec.ofNat word.bits stride =
              pointer.element stride earlier := by
          rw [Address.element, Address.element, Nat.succ_mul, BitVec.ofNat_add, ← BitVec.add_assoc,
            BitVec.add_sub_cancel]
        rw [Nat.succ_mul] at fits fits' proper
        rw [if_pos (by simpa using away)]
        dsimp only
        rw [stepped, stepped, further (by omega) (by omega) (by omega) (by omega), Nat.succ_mul,
          copied_last (fun _ _ _ => moveElement_eq) fits fits' order]

end Bytes

theorem Address.less_iff : self.less source = true ↔ self.toNat < source.toNat := by
  rw [less, BitVec.ult_iff_lt, BitVec.lt_def]

section Direction

variable {n : Value word .int} (counted : toInt word .int n = count)
  (fits : source.toNat + count * stride ≤ 2 ^ word.bits)

include counted fits

/-- The end of a region that does not wrap around, unless it is the end of the memory. -/
theorem Address.advanced_toNat :
    (source.advanced stride n).toNat = source.toNat + count * stride ∨
      source.toNat + count * stride = 2 ^ word.bits ∧ source.advanced stride n = source := by
  have number : n.toNat = count := by
    rw [toInt_eq_toNat (by omega)] at counted
    omega
  have moved : (source + n * BitVec.ofNat word.bits stride).toNat =
      (source.toNat + count * stride) % 2 ^ word.bits := by
    rw [BitVec.toNat_add, BitVec.toNat_mul, BitVec.toNat_ofNat, Nat.mul_mod_mod, Nat.add_mod_mod,
      number]
  have low := source.isLt
  by_cases atEnd : source.toNat + count * stride = 2 ^ word.bits
  · right
    rw [atEnd, Nat.mod_self] at moved
    have null : source + n * BitVec.ofNat word.bits stride = 0 := BitVec.eq_of_toNat_eq moved
    exact ⟨atEnd, by simp [advanced, null]⟩
  · left
    rw [Nat.mod_eq_of_lt (by omega)] at moved
    rw [advanced]
    split
    · rename_i null
      have zero : source + n * BitVec.ofNat word.bits stride = 0 := by simpa using null
      have none : (source + n * BitVec.ofNat word.bits stride).toNat = 0 := by
        rw [zero]
        simp
      omega
    · exact moved

theorem forwards_of_test (fits' : self.toNat + count * stride ≤ 2 ^ word.bits)
    (test : (self.less source || !self.less (source.advanced stride n)) = true) :
    self.toNat ≤ source.toNat ∨ source.toNat + count * stride ≤ self.toNat := by
  rw [Bool.or_eq_true, Bool.not_eq_true', ← Bool.not_eq_true, Address.less_iff,
    Address.less_iff] at test
  rcases Address.advanced_toNat counted fits with inside | ⟨atEnd, _⟩
  · rw [inside] at test
    omega
  · omega

theorem backwards_of_test
    (test : ¬ (self.less source || !self.less (source.advanced stride n)) = true) :
    source.toNat ≤ self.toNat ∧ count * stride < 2 ^ word.bits := by
  have high := (source.advanced stride n).isLt
  rw [Bool.or_eq_true, Bool.not_eq_true', ← Bool.not_eq_true, Address.less_iff,
    Address.less_iff] at test
  rcases Address.advanced_toNat counted fits with inside | ⟨_, same⟩
  · omega
  · rw [same] at test
    omega

end Direction

section Bulk

variable {n : Value word .int} (counted : toInt word .int n = count)
  (fits : self.toNat + count * stride ≤ 2 ^ word.bits)
  (fits' : source.toNat + count * stride ≤ 2 ^ word.bits)

include counted fits fits'

theorem Bytes.update_eq :
    memory.update stride self source n = memory.copied id self source (count * stride) := by
  have elements : (toInt word .int n).toNat = count := by omega
  simp only [Bytes.update, elements]
  split
  · rename_i test
    rw [Bytes.assignFrontToBack, Bytes.foldl_element
      (fun _ _ _ fits _ => Bytes.assignElement_eq fits) fits fits'
      (forwards_of_test counted fits' fits test)]
  · rename_i test
    split
    · exact Bytes.assignBackToFront_eq fits fits' (backwards_of_test counted fits' test).1
    · rename_i same
      have equal : self = source := by simpa using same
      rw [equal]
      funext a
      simp only [Bytes.copied, BitVec.sub_add_cancel, id_eq, ite_self]

theorem Bytes.moveInitialize_eq (enough : count < fuel) :
    memory.moveInitialize stride fuel self source n =
      some (memory.copied (fun _ => none) self source (count * stride)) := by
  have elements : (toInt word .int n).toNat = count := by omega
  simp only [Bytes.moveInitialize, elements]
  split
  · rename_i test
    rw [Bytes.takeFrontToBack, Bytes.foldl_element (fun _ _ _ => Bytes.moveElement_eq) fits fits'
      (forwards_of_test counted fits' fits test)]
  · rename_i test
    rcases backwards_of_test counted fits' test with ⟨order, proper⟩
    exact Bytes.takeBackToFront_eq enough fits fits' order proper

end Bulk

/--
Both operations copy the values that the source held, in whatever way the regions overlap,
and change nothing else; a move leaves the rest of the source uninitialized.
-/
theorem copies_region {n : Value word .int} (counted : toInt word .int n = count)
    (fits : self.toNat + count * stride ≤ 2 ^ word.bits)
    (fits' : source.toNat + count * stride ≤ 2 ^ word.bits) :
    (∀ fuel, count < fuel →
      memory.moveInitialize stride fuel self source n = some fun a =>
        if self.Within (count * stride) a then memory (a - self + source)
        else if source.Within (count * stride) a then none
        else memory a) ∧
    memory.update stride self source n = fun a =>
      if self.Within (count * stride) a then memory (a - self + source) else memory a := by
  constructor
  · intro fuel enough
    exact Bytes.moveInitialize_eq counted fits fits' enough
  · rw [Bytes.update_eq counted fits fits']
    funext a
    rw [Bytes.copied, id_eq, ite_self]

/-- Three elements of two bytes, moved by three bytes towards the end of the memory. -/
theorem copies_region_overlap :
    ∃ memory', Bytes.moveInitialize 2 (fun a : Address .word16 => some a.toNat) 4 0xFFFA 0xFFF7 3 =
        some memory' ∧
      (memory' 0xFFFF, memory' 0xFFFA, memory' 0xFFF9, memory' 0xFFF6) =
        (some 0xFFFC, some 0xFFF7, none, some 0xFFF6) := by
  have moved := (@copies_region .word16 ℕ 2 3 0xFFFA 0xFFF7 (fun a => some a.toNat) 3 (by decide)
    (by decide) (by decide)).1 4 (by decide)
  refine ⟨_, moved, ?_⟩
  decide

end Results

end USwift
