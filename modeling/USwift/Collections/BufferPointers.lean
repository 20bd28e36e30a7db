import USwift.Collections.Pointers
import USwift.Collections.RandomAccess

/-!
# Elements in memory

A buffer pointer and a span are a base address and a number of elements, which lie in memory
at distances of the stride of their type. Storing the elements of a list one after the other
makes a region hold the list, and so does copying a region that holds it.
-/

namespace USwift

section Operations

variable {word : WordSize} {Element Byte : Type}

/-- How the elements of a type lie in memory. -/
structure Layout (Element Byte : Type) where
  stride : ℕ
  bytes : Element → ℕ → Byte
  value : (ℕ → Option Byte) → Element
  stride_pos : 0 < stride
  value_eq : ∀ {element : Element} {stored : ℕ → Option Byte},
    (∀ k < stride, stored k = some (bytes element k)) → value stored = element

/-- A pair of bytes, the first of which lies first. -/
def Layout.pair [Inhabited Byte] : Layout (Byte × Byte) Byte where
  stride := 2
  bytes pair k := if k = 0 then pair.1 else pair.2
  value stored := ((stored 0).getD default, (stored 1).getD default)
  stride_pos := by decide
  value_eq := by
    intro pair stored known
    rw [known 0 (by decide), known 1 (by decide)]
    rfl

/-- A base address and a number of elements. -/
structure BufferPointer (word : WordSize) where
  baseAddress : Option (Address word)
  count : ℤ

namespace Bytes

variable (memory : Bytes word Byte) (self source : Address word)

/-- `initialize(to:)` and the assignment of `pointee`. -/
def put (layout : Layout Element Byte) (element : Element) : Bytes word Byte :=
  memory.store layout.stride self fun k => some (layout.bytes element k)

/-- `initialize(from:count:)`, which is the loop of `Builtin.copyArray`. -/
def initializeFrom (stride : ℕ) (count : Value word .int) : Bytes word Byte :=
  memory.assignFrontToBack stride self source (toInt word .int count).toNat

/-- `copyMemory(from:byteCount:)`, which is `memmove`. -/
def copyMemory (byteCount : Value word .int) : Bytes word Byte := fun a =>
  if (a - self).toNat < BitVec.toNat byteCount then memory (a - self + source) else memory a

end Bytes

end Operations

section Specification

variable {word : WordSize} {Element Byte : Type} (layout : Layout Element Byte)

/-- A memory with the elements of a list from an address on. -/
def Bytes.holding (base : Address word) (list : List Element) (memory : Bytes word Byte) :
    Bytes word Byte := fun a =>
  match list[(a - base).toNat / layout.stride]? with
  | some element => some (layout.bytes element ((a - base).toNat % layout.stride))
  | none => memory a

/-- The elements of a list lie in memory from an address on. -/
def Bytes.Holds (memory : Bytes word Byte) (base : Address word) (list : List Element) : Prop :=
  ∀ (i : ℕ) (inside : i < list.length), ∀ k < layout.stride,
    memory (base + BitVec.ofNat word.bits (i * layout.stride + k)) = some (layout.bytes list[i] k)

instance [DecidableEq Byte] (memory : Bytes word Byte) (base : Address word)
    (list : List Element) : Decidable (memory.Holds layout base list) :=
  inferInstanceAs (Decidable (∀ (i : ℕ) (_ : i < list.length), ∀ k < layout.stride, _ = _))

/-- A buffer whose region does not wrap around, and which is empty without a base address. -/
structure BufferPointer.Valid (buffer : BufferPointer word) : Prop where
  nonnegative : 0 ≤ buffer.count
  representable : buffer.count < 2 ^ (word.bits - 1)
  empty : buffer.baseAddress = none → buffer.count = 0
  nonzero : ∀ base ∈ buffer.baseAddress, base ≠ 0
  fits : ∀ base ∈ buffer.baseAddress,
    base.toNat + buffer.count.toNat * layout.stride ≤ 2 ^ word.bits

end Specification

section Results

variable {word : WordSize} {Element Byte : Type} {layout : Layout Element Byte}
  {memory : Bytes word Byte} {base source a : Address word} {list : List Element}
  {element : Element}

/-- An address behind another one, by its distance from the address before both. -/
theorem Address.toNat_sub_add {size : ℕ} (small : size < 2 ^ word.bits) :
    (a - (base + BitVec.ofNat word.bits size)).toNat =
      if size ≤ (a - base).toNat then (a - base).toNat - size
      else (a - base).toNat + 2 ^ word.bits - size := by
  have low := (a - base).isLt
  rw [← BitVec.sub_sub, BitVec.toNat_sub, BitVec.toNat_ofNat, Nat.mod_eq_of_lt small]
  split
  · have wrapped : 2 ^ word.bits - size + (a - base).toNat =
        (a - base).toNat - size + 2 ^ word.bits := by omega
    rw [wrapped, Nat.add_mod_right, Nat.mod_eq_of_lt (by omega)]
  · rw [Nat.mod_eq_of_lt (by omega)]
    omega

/-- The distance of an element, as the operators of pointers compute it. -/
theorem Address.distance_eq (stride i : ℕ) :
    BitVec.ofInt (IntegerType.int.bitWidth word) i * BitVec.ofNat word.bits stride =
      BitVec.ofNat word.bits (i * stride) := by
  apply BitVec.eq_of_toNat_eq
  rw [BitVec.ofInt_natCast, BitVec.toNat_mul, BitVec.toNat_ofNat, BitVec.toNat_ofNat,
    BitVec.toNat_ofNat, ← Nat.mul_mod]

/-- No element of a region that does not wrap around lies at the null pointer. -/
theorem Address.element_ne_zero {stride i : ℕ} (nonzero : base ≠ 0)
    (inside : base.toNat + i * stride < 2 ^ word.bits) : base.element stride i ≠ 0 := by
  intro null
  have place : (base.element stride i).toNat = base.toNat + i * stride := toNat_add inside
  rw [null] at place
  change 0 = _ at place
  exact nonzero (BitVec.eq_of_toNat_eq (show base.toNat = 0 by omega))

/-- The address of an element, which is not null if the region does not wrap around. -/
theorem Address.advanced_element {stride i : ℕ} (nonzero : base ≠ 0)
    (inside : base.toNat + i * stride < 2 ^ word.bits) :
    base.advanced stride (BitVec.ofInt _ i) = base.element stride i := by
  have away := element_ne_zero nonzero inside
  have offset := @distance_eq word stride i
  rw [element] at away
  simp only [advanced, offset]
  rw [if_neg (by simpa using away), element]

@[simp] theorem Address.element_zero (stride : ℕ) : base.element stride 0 = base := by
  rw [element, Nat.zero_mul]
  exact BitVec.add_zero base

theorem BufferPointer.Valid.exists_baseAddress {buffer : BufferPointer word}
    (valid : buffer.Valid layout) (some_ : 0 < buffer.count) :
    ∃ base, buffer.baseAddress = some base := by
  apply Option.ne_none_iff_exists'.mp
  intro nowhere
  have none_ := valid.empty nowhere
  omega

namespace Bytes

theorem holding_nil : memory.holding layout base [] = memory := by
  funext a
  simp [holding]

/-- Storing the element behind a list. -/
theorem put_holding (fits : (list.length + 1) * layout.stride ≤ 2 ^ word.bits) :
    (memory.holding layout base list).put (base.element layout.stride list.length) layout
        element =
      memory.holding layout base (list ++ [element]) := by
  have positive := layout.stride_pos
  rw [Nat.succ_mul] at fits
  have few : list.length * layout.stride < 2 ^ word.bits := by omega
  funext a
  have low := (a - base).isLt
  have split := Nat.div_add_mod' (a - base).toNat layout.stride
  have offset := Nat.mod_lt (a - base).toNat positive
  have place := @Address.toNat_sub_add word base a _ few
  rw [put, store, Address.element, holding, holding]
  rcases Nat.lt_trichotomy ((a - base).toNat / layout.stride) list.length with
    before | last | behind
  · have room := Nat.mul_le_mul_right layout.stride (Nat.succ_le_of_lt before)
    rw [Nat.succ_mul] at room
    rw [if_neg (by omega)] at place
    rw [if_neg (by omega), List.getElem?_append_left before]
  · rw [last] at split
    rw [if_pos (by omega)] at place
    have remainder : (a - base).toNat - list.length * layout.stride =
        (a - base).toNat % layout.stride := by omega
    rw [place, remainder, if_pos offset, last, List.getElem?_append_right le_rfl, Nat.sub_self]
    rfl
  · have room := Nat.mul_le_mul_right layout.stride (Nat.succ_le_of_lt behind)
    rw [Nat.succ_mul] at room
    rw [if_pos (by omega)] at place
    rw [if_neg (by omega), List.getElem?_eq_none behind.le,
      List.getElem?_eq_none (by rw [List.length_append]; exact behind)]

theorem holding_outside (outside : ¬ (a - base).toNat < list.length * layout.stride) :
    memory.holding layout base list a = memory a := by
  have beyond : list.length ≤ (a - base).toNat / layout.stride :=
    (Nat.le_div_iff_mul_le layout.stride_pos).mpr (by omega)
  rw [holding, List.getElem?_eq_none beyond]

/-- Reading the region of a list at another place. -/
theorem holding_of_holds (holds : memory.Holds layout source list) :
    (fun a => if (a - base).toNat < list.length * layout.stride then memory (a - base + source)
      else memory a) = memory.holding layout base list := by
  funext a
  have split := Nat.div_add_mod' (a - base).toNat layout.stride
  have offset := Nat.mod_lt (a - base).toNat layout.stride_pos
  split
  · rename_i inside
    have inside' : (a - base).toNat / layout.stride < list.length :=
      (Nat.div_lt_iff_lt_mul layout.stride_pos).mpr inside
    have stored := holds _ inside' _ offset
    rw [split, BitVec.ofNat_toNat, BitVec.setWidth_eq, BitVec.add_comm] at stored
    rw [stored, holding, List.getElem?_eq_getElem inside']
  · rename_i outside
    exact (holding_outside outside).symm

section Bulk

variable {count : Value word .int} (counted : toInt word .int count = list.length)
  (holds : memory.Holds layout source list)
  (fits : base.toNat + list.length * layout.stride ≤ 2 ^ word.bits)
  (fits' : source.toNat + list.length * layout.stride ≤ 2 ^ word.bits)

include counted holds fits fits'

/-- Copying a region that holds a list, whether or not it overlaps the other one. -/
theorem update_holding :
    memory.update layout.stride base source count = memory.holding layout base list := by
  rw [update_eq counted fits fits', ← holding_of_holds holds]
  funext a
  simp only [copied, id_eq, ite_self, Address.sub_lt_iff fits]

theorem initializeFrom_holding
    (apart : base.toNat + list.length * layout.stride ≤ source.toNat ∨
      source.toNat + list.length * layout.stride ≤ base.toNat) :
    memory.initializeFrom base source layout.stride count = memory.holding layout base list := by
  have elements : (toInt word .int count).toNat = list.length := by omega
  rw [initializeFrom, elements, assignFrontToBack,
    foldl_element (fun _ _ _ fits _ => assignElement_eq fits) fits fits' (by omega),
    ← holding_of_holds holds]
  funext a
  simp only [copied, id_eq, ite_self, Address.sub_lt_iff fits]

end Bulk

theorem copyMemory_holding {byteCount : Value word .int}
    (counted : BitVec.toNat byteCount = list.length * layout.stride)
    (holds : memory.Holds layout source list) :
    memory.copyMemory base source byteCount = memory.holding layout base list := by
  rw [← holding_of_holds holds]
  funext a
  rw [copyMemory, counted]

end Bytes

end Results

end USwift
