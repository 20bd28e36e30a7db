import USwift.Collections.BufferUpdates
import USwift.Library.Loops

/-!
# Updating buffers from collections

`update(fromContentsOf:)` copies the storage of a collection at once if the collection offers
it, and pulls its elements one by one otherwise. Only the loop looks at the size of the
buffer when the preconditions are compiled to nothing, so that the two ways part when the
collection is larger.
-/

namespace USwift

open Iteration

section Operations

variable {word : WordSize} {Element Byte Iterator : Type} (layout : Layout Element Byte)
  (next : Iterator → Option (Element × Iterator))

/-- A collection, with what `withContiguousStorageIfAvailable` passes to its body. -/
structure ContentsSource (word : WordSize) (Iterator : Type) where
  iterator : Iterator
  storage : Option (BufferPointer word)

/-- The loop of `update(fromContentsOf:)`, which pulls an element before it looks for a slot. -/
def contentsLoop (address : ℤ → Except Failure (Address word)) (count index : ℤ)
    (iterator : Iterator) (memory : Bytes word Byte) : Except Failure (Bytes word Byte × ℤ) :=
  match next iterator with
  | none => .ok (memory, index)
  | some (value, iterator) =>
      if index < count then do
        let pointer ← address index
        contentsLoop address count (index + 1) iterator (memory.put pointer layout value)
      else .ok (memory, index)
termination_by (count - index).toNat

/-- `update(fromContentsOf:)` of `UnsafeMutableBufferPointer`. -/
def UnsafeMutableBufferPointer.updateContents (self : BufferPointer word)
    (source : ContentsSource word Iterator) (memory : Bytes word Byte) :
    Except Failure (Bytes word Byte × ℤ) := do
  let updated ← match source.storage with
    | none => pure none
    | some contents =>
        match contents.baseAddress with
        | none => pure (some (memory, 0))
        | some sourceAddress => do
            let base ← self.start
            pure (some (memory.update layout.stride base sourceAddress
              (BitVec.ofInt _ contents.count), contents.count))
  match updated with
  | some (memory, count) => return (memory, 0 + count)
  | none =>
      if self.count == 0 then return (memory, 0)
      else
        contentsLoop layout next (self.elementAddress layout.stride) self.count 0 source.iterator
          memory

/-- `withUnsafeBufferPointer(_:)` of `Span`. -/
def BufferPointer.withUnsafeBufferPointer (self : BufferPointer word) : BufferPointer word :=
  match self.baseAddress with
  | some pointer => if self.count > 0 then ⟨some pointer, self.count⟩ else ⟨none, 0⟩
  | none => ⟨none, 0⟩

/-- `update(fromContentsOf:)` of `MutableSpan` for a span, with the way in which it copies. -/
def MutableSpan.updateSpan (copy : Address word → Address word → ℤ → Bytes word Byte)
    (self source : BufferPointer word) (memory : Bytes word Byte) :
    Except Failure (Bytes word Byte × ℤ) :=
  if source.count == 0 then .ok (memory, 0)
  else do
    let base ← self.start
    let contents := source.withUnsafeBufferPointer
    let sourceAddress ← contents.start
    return (copy base sourceAddress contents.count, source.count)

/-- `update(fromContentsOf:)` of `MutableSpan` for a collection. -/
def MutableSpan.updateContentsBy (copy : Address word → Address word → ℤ → Bytes word Byte)
    (self : BufferPointer word) (source : ContentsSource word Iterator)
    (memory : Bytes word Byte) : Except Failure (Bytes word Byte × ℤ) :=
  match source.storage with
  | some contents => MutableSpan.updateSpan copy self contents memory
  | none => do
      let updated ← MutableSpan.update layout next self source.iterator memory
      return (updated.memory, updated.index)

/-- `update(fromContentsOf:)` of `MutableSpan`. -/
def MutableSpan.updateContents (self : BufferPointer word)
    (source : ContentsSource word Iterator) (memory : Bytes word Byte) :
    Except Failure (Bytes word Byte × ℤ) :=
  MutableSpan.updateContentsBy layout next
    (fun base sourceAddress count =>
      memory.update layout.stride base sourceAddress (BitVec.ofInt _ count))
    self source memory

/-- `update(fromContentsOf:)` of a `MutableSpan` of bitwise copyable elements. -/
def MutableSpan.updateBitwiseContents (self : BufferPointer word)
    (source : ContentsSource word Iterator) (memory : Bytes word Byte) :
    Except Failure (Bytes word Byte × ℤ) :=
  MutableSpan.updateContentsBy layout next
    (fun base sourceAddress count =>
      memory.copyMemory base sourceAddress
        (BitVec.ofInt _ count * BitVec.ofNat word.bits layout.stride))
    self source memory

end Operations

section Specification

variable {word : WordSize} {Element Byte Iterator : Type} (layout : Layout Element Byte)
  (next : Iterator → Option (Element × Iterator))

/-- A collection has the elements of a list, in its storage as well if it offers some. -/
structure ContentsSource.Provides (source : ContentsSource word Iterator) (list : List Element)
    (memory : Bytes word Byte) : Prop where
  yields : Yields next source.iterator list
  valid : ∀ contents ∈ source.storage, contents.Valid layout
  count : ∀ contents ∈ source.storage, contents.count = list.length
  holds : ∀ contents ∈ source.storage, ∀ base ∈ contents.baseAddress,
    memory.Holds layout base list

/-- An address is in none of the first slots of a buffer. -/
def BufferPointer.Outside (buffer : BufferPointer word) (slots : ℕ) (a : Address word) : Prop :=
  ∀ base ∈ buffer.baseAddress, slots * layout.stride ≤ (a - base).toNat

/--
An update does the same for a collection and for one with the same elements that offers no
storage, and it writes to no more slots than there are elements.
-/
def UpdatesLikeLoop
    (update : ContentsSource word Iterator → Bytes word Byte →
      Except Failure (Bytes word Byte × ℤ))
    (buffer : BufferPointer word) (source : ContentsSource word Iterator) (list : List Element)
    (memory : Bytes word Byte) : Prop :=
  ∃ memory' index, update source memory = .ok (memory', index) ∧
    update { source with storage := none } memory = .ok (memory', index) ∧
    ∀ a, buffer.Outside layout (min buffer.count.toNat list.length) a → memory' a = memory a

end Specification

section Results

variable {word : WordSize} {Element Byte Iterator : Type} {layout : Layout Element Byte}
  {next : Iterator → Option (Element × Iterator)} {list : List Element}
  {memory : Bytes word Byte} {buffer : BufferPointer word} {source : ContentsSource word Iterator}

section Loop

variable {address : ℤ → Except Failure (Address word)} {count : ℤ}

/-- Pulling the element first makes no difference to the memory and to the index. -/
theorem contentsLoop_eq (index : ℤ) (iterator : Iterator) (memory : Bytes word Byte) :
    contentsLoop layout next address count index iterator memory =
      (updateLoop layout next address count index iterator memory).map
        fun updated => (updated.memory, updated.index) := by
  induction remaining : (count - index).toNat generalizing index iterator memory with
  | zero =>
      have full : ¬ index < count := by omega
      rw [updateLoop, if_neg full, contentsLoop]
      cases next iterator with
      | none => rfl
      | some pulled =>
          rcases pulled with ⟨value, later⟩
          simp only
          rw [if_neg full]
          rfl
  | succ remaining fewer =>
      have room : index < count := by omega
      rw [updateLoop, if_pos room, contentsLoop]
      cases next iterator with
      | none => rfl
      | some pulled =>
          rcases pulled with ⟨value, later⟩
          simp only
          rw [if_pos room]
          cases address index with
          | error failure => rfl
          | ok pointer => exact fewer (index + 1) later _ (by omega)

end Loop

/-- The loops write to no other slots than the first ones. -/
theorem filled_outside {a : Address word}
    (outside : buffer.Outside layout (min buffer.count.toNat list.length) a) :
    buffer.filled layout list memory a = memory a := by
  cases located : buffer.baseAddress with
  | none => simp only [BufferPointer.filled, located]
  | some base =>
      have apart := outside base located
      simp only [BufferPointer.filled, located]
      apply Bytes.holding_outside
      rw [List.length_take]
      omega

section Paths

variable (valid : buffer.Valid layout) (yields : Yields next source.iterator list)

include valid yields

/-- What both loops leave. -/
theorem UnsafeMutableBufferPointer.updateContents_loop :
    UnsafeMutableBufferPointer.updateContents layout next buffer { source with storage := none }
        memory =
      .ok (buffer.filled layout list memory, min buffer.count list.length) := by
  rcases @updateLoop_fills _ _ _ _ _ next list memory _ _ valid yields _
    (fun base located k inside => elementAddress_eq valid located inside) with
    ⟨updated, loops, fills⟩
  rw [← fills.memory, ← fills.index]
  change (if buffer.count == 0 then Except.ok (memory, 0) else contentsLoop layout next
    (buffer.elementAddress layout.stride) buffer.count 0 source.iterator memory) = _
  split
  · rename_i none_
    have none_ : buffer.count = 0 := by simpa using none_
    rw [updateLoop, none_, if_neg (lt_irrefl _)] at loops
    cases loops
    rfl
  · rw [contentsLoop_eq, loops]
    rfl

theorem MutableSpan.updateContentsBy_loop
    (copy : Address word → Address word → ℤ → Bytes word Byte) :
    MutableSpan.updateContentsBy layout next copy buffer { source with storage := none } memory =
      .ok (buffer.filled layout list memory, min buffer.count list.length) := by
  rcases @MutableSpan.update_fills _ _ _ _ _ _ list memory _ _ valid yields with
    ⟨updated, loops, fills⟩
  rw [MutableSpan.updateContentsBy]
  simp only
  rw [loops, ← fills.memory, ← fills.index]
  rfl

end Paths

/-- An update that copies the storage does what the loop does, if and only if it fits. -/
theorem updatesLikeLoop_iff
    {update : ContentsSource word Iterator → Bytes word Byte →
      Except Failure (Bytes word Byte × ℤ)} (fitting : BufferPointer word → Prop)
    (loops : update { source with storage := none } memory =
      .ok (buffer.filled layout list memory, min buffer.count list.length))
    (copies : ∀ contents ∈ source.storage, fitting contents →
      update source memory = .ok (buffer.filled layout list memory, min buffer.count list.length))
    (differs : ∀ contents ∈ source.storage, ¬ fitting contents → ∀ memory',
      update source memory ≠ .ok (memory', min buffer.count list.length)) :
    UpdatesLikeLoop layout update buffer source list memory ↔
      ∀ contents ∈ source.storage, fitting contents := by
  constructor
  · rintro ⟨memory', index, updated, looped, _⟩ contents offered
    rw [loops] at looped
    cases looped
    by_contra large
    exact differs contents offered large _ updated
  · intro fits
    refine ⟨_, _, ?_, loops, fun a outside => filled_outside outside⟩
    cases offered : source.storage with
    | none =>
        have same : source = { source with storage := none } := by rw [← offered]
        rw [same]
        exact loops
    | some contents => exact copies contents offered (fits contents offered)

theorem ContentsSource.Provides.nil {contents : BufferPointer word}
    (provides : source.Provides layout next list memory) (offered : contents ∈ source.storage)
    (nowhere : contents.baseAddress = none) : list = [] := by
  have none_ := (provides.valid contents offered).empty nowhere
  have counted := provides.count contents offered
  apply List.length_eq_zero_iff.mp
  omega

/-- The slots take the whole collection. -/
theorem filled_whole {base : Address word} (located : base ∈ buffer.baseAddress)
    (fits : list.length ≤ buffer.count) :
    buffer.filled layout list memory = memory.holding layout base list := by
  rw [BufferPointer.filled, located]
  simp only
  rw [List.take_of_length_le (by omega)]

theorem filled_nil : buffer.filled layout [] memory = memory := by
  funext a
  apply filled_outside
  intro base _
  simp

section Copies

variable {contents : BufferPointer word} {base sourceAddress : Address word}
  (valid : buffer.Valid layout) (provides : source.Provides layout next list memory)
  (offered : contents ∈ source.storage) (located : base ∈ buffer.baseAddress)
  (located' : sourceAddress ∈ contents.baseAddress) (fits : list.length ≤ buffer.count)

include valid provides offered located located' fits

theorem update_filled :
    memory.update layout.stride base sourceAddress (BitVec.ofInt _ contents.count) =
      buffer.filled layout list memory := by
  have counted := provides.count contents offered
  have valid' := provides.valid contents offered
  have region := valid.fits base located
  have region' := valid'.fits sourceAddress located'
  have representable := valid'.representable
  rw [counted] at region' representable
  have number : toInt word .int (BitVec.ofInt _ (list.length : ℤ)) = list.length := by
    rw [BitVec.ofInt_natCast]
    exact toInt_ofNat (by exact_mod_cast representable)
  have fewer := Nat.mul_le_mul_right layout.stride (show list.length ≤ buffer.count.toNat by omega)
  rw [counted, filled_whole located fits]
  exact Bytes.update_holding number (provides.holds contents offered _ located') (by omega)
    (by simpa using region')

theorem copyMemory_filled :
    memory.copyMemory base sourceAddress
        (BitVec.ofInt _ contents.count * BitVec.ofNat word.bits layout.stride) =
      buffer.filled layout list memory := by
  have counted := provides.count contents offered
  have region := valid.fits base located
  have nonzero : 0 < base.toNat := by
    rw [Nat.pos_iff_ne_zero]
    intro zero
    exact valid.nonzero base located (BitVec.eq_of_toNat_eq zero)
  have fewer := Nat.mul_le_mul_right layout.stride (show list.length ≤ buffer.count.toNat by omega)
  have bytes : BitVec.toNat (BitVec.ofInt (IntegerType.int.bitWidth word) (list.length : ℤ) *
      BitVec.ofNat word.bits layout.stride) = list.length * layout.stride := by
    rw [BitVec.ofInt_natCast, BitVec.toNat_mul, BitVec.toNat_ofNat, BitVec.toNat_ofNat,
      ← Nat.mul_mod, Nat.mod_eq_of_lt (show _ < 2 ^ word.bits by omega)]
  rw [counted, filled_whole located fits]
  exact Bytes.copyMemory_holding bytes (provides.holds contents offered _ located')

end Copies

section Storage

variable {contents : BufferPointer word} {base sourceAddress : Address word}

theorem UnsafeMutableBufferPointer.updateContents_storage (offered : contents ∈ source.storage)
    (located : base ∈ buffer.baseAddress) (located' : sourceAddress ∈ contents.baseAddress) :
    UnsafeMutableBufferPointer.updateContents layout next buffer source memory =
      .ok (memory.update layout.stride base sourceAddress (BitVec.ofInt _ contents.count),
        contents.count) := by
  simp only [UnsafeMutableBufferPointer.updateContents, Option.mem_def.mp offered,
    Option.mem_def.mp located', BufferPointer.start_eq located]
  change Except.ok (_, 0 + contents.count) = _
  rw [zero_add]

theorem MutableSpan.updateSpan_storage
    {copy : Address word → Address word → ℤ → Bytes word Byte} (some_ : 0 < contents.count)
    (located : base ∈ buffer.baseAddress) (located' : sourceAddress ∈ contents.baseAddress) :
    MutableSpan.updateSpan copy buffer contents memory =
      .ok (copy base sourceAddress contents.count, contents.count) := by
  have more : ¬ (contents.count == 0) = true := by
    rw [beq_iff_eq]
    omega
  rw [MutableSpan.updateSpan, if_neg more, BufferPointer.start_eq located,
    BufferPointer.withUnsafeBufferPointer,
    Option.mem_def.mp located']
  simp only [if_pos some_]
  rfl

end Storage

section Claims

variable (valid : buffer.Valid layout) (provides : source.Provides layout next list memory)

include valid provides

theorem UnsafeMutableBufferPointer.updatesLikeLoop_iff :
    UpdatesLikeLoop layout (UnsafeMutableBufferPointer.updateContents layout next buffer) buffer
        source list memory ↔
      ∀ contents ∈ source.storage, contents.baseAddress = none ∨
        list.length ≤ buffer.count ∧ buffer.baseAddress ≠ none := by
  apply USwift.updatesLikeLoop_iff fun contents => contents.baseAddress = none ∨
    list.length ≤ buffer.count ∧ buffer.baseAddress ≠ none
  · exact UnsafeMutableBufferPointer.updateContents_loop valid provides.yields
  · intro contents offered fits
    cases located' : contents.baseAddress with
    | none =>
        have ended := provides.nil offered located'
        subst ended
        simp only [UnsafeMutableBufferPointer.updateContents, Option.mem_def.mp offered, located']
        rw [filled_nil, List.length_nil, Nat.cast_zero, min_eq_right valid.nonnegative]
        rfl
    | some sourceAddress =>
        rcases fits with nowhere | ⟨fits, somewhere⟩
        · simp [located'] at nowhere
        · rcases Option.ne_none_iff_exists'.mp somewhere with ⟨base, located⟩
          rw [UnsafeMutableBufferPointer.updateContents_storage offered located located',
            update_filled valid provides offered located located' fits, min_eq_right fits,
            provides.count contents offered]
  · intro contents offered large memory' updated
    rcases not_or.mp large with ⟨somewhere, large⟩
    rcases Option.ne_none_iff_exists'.mp somewhere with ⟨sourceAddress, located'⟩
    cases located : buffer.baseAddress with
    | none =>
        simp only [UnsafeMutableBufferPointer.updateContents, Option.mem_def.mp offered, located',
          BufferPointer.start, located] at updated
        cases updated
    | some base =>
        have counted := provides.count contents offered
        have more : ¬ list.length ≤ buffer.count := fun fits => large ⟨fits, by simp [located]⟩
        rw [UnsafeMutableBufferPointer.updateContents_storage offered located located'] at updated
        injection updated with updated
        injection updated with _ index
        omega

/-- A span that copies in a way that works if it fits. -/
theorem MutableSpan.updatesLikeLoop_iff
    {copy : Bytes word Byte → Address word → Address word → ℤ → Bytes word Byte}
    (copied : ∀ contents ∈ source.storage, ∀ base ∈ buffer.baseAddress,
      ∀ sourceAddress ∈ contents.baseAddress, list.length ≤ buffer.count →
        copy memory base sourceAddress contents.count = buffer.filled layout list memory) :
    UpdatesLikeLoop layout
        (fun source memory =>
          MutableSpan.updateContentsBy layout next (copy memory) buffer source memory)
        buffer source list memory ↔
      ∀ contents ∈ source.storage, list.length ≤ buffer.count := by
  apply USwift.updatesLikeLoop_iff fun _ => list.length ≤ buffer.count
  · exact MutableSpan.updateContentsBy_loop valid provides.yields (copy memory)
  · intro contents offered fits
    have counted := provides.count contents offered
    have nonnegative := valid.nonnegative
    simp only [MutableSpan.updateContentsBy, Option.mem_def.mp offered]
    rcases Nat.eq_zero_or_pos list.length with ended | some_
    · have ended' : list = [] := List.length_eq_zero_iff.mp ended
      have none_ : (contents.count == 0) = true := by
        rw [beq_iff_eq]
        omega
      subst ended'
      rw [MutableSpan.updateSpan, if_pos none_, filled_nil, List.length_nil, Nat.cast_zero,
        min_eq_right nonnegative]
    · have some_' : 0 < contents.count := by omega
      rcases valid.exists_baseAddress (by omega) with ⟨base, located⟩
      rcases (provides.valid contents offered).exists_baseAddress some_' with
        ⟨sourceAddress, located'⟩
      rw [MutableSpan.updateSpan_storage some_' located located',
        copied contents offered base located sourceAddress located' fits, min_eq_right fits,
        counted]
  · intro contents offered large memory' updated
    have counted := provides.count contents offered
    have nonnegative := valid.nonnegative
    have some_ : 0 < contents.count := by omega
    rcases (provides.valid contents offered).exists_baseAddress some_ with
      ⟨sourceAddress, located'⟩
    simp only [MutableSpan.updateContentsBy, Option.mem_def.mp offered] at updated
    cases located : buffer.baseAddress with
    | none =>
        have more : ¬ (contents.count == 0) = true := by
          rw [beq_iff_eq]
          omega
        rw [MutableSpan.updateSpan, if_neg more, BufferPointer.start, located] at updated
        cases updated
    | some base =>
        rw [MutableSpan.updateSpan_storage some_ located located'] at updated
        injection updated with updated
        injection updated with _ index
        omega

/--
The storage of a collection that does not fit is copied over the bytes behind the buffer, and
a buffer without a base address is not looked for before an empty storage is copied to it.
-/
theorem updateContents_likeLoop_iff :
    (UpdatesLikeLoop layout (UnsafeMutableBufferPointer.updateContents layout next buffer) buffer
        source list memory ↔
      ∀ contents ∈ source.storage, contents.baseAddress = none ∨
        list.length ≤ buffer.count ∧ buffer.baseAddress ≠ none) ∧
    (UpdatesLikeLoop layout (MutableSpan.updateContents layout next buffer) buffer source list
        memory ↔
      ∀ contents ∈ source.storage, list.length ≤ buffer.count) ∧
    (UpdatesLikeLoop layout (MutableSpan.updateBitwiseContents layout next buffer) buffer source
        list memory ↔
      ∀ contents ∈ source.storage, list.length ≤ buffer.count) := by
  refine ⟨UnsafeMutableBufferPointer.updatesLikeLoop_iff valid provides, ?_, ?_⟩
  · apply MutableSpan.updatesLikeLoop_iff valid provides
    intro contents offered base located sourceAddress located' fits
    exact update_filled valid provides offered located located' fits
  · apply MutableSpan.updatesLikeLoop_iff valid provides
    intro contents offered base located sourceAddress located' fits
    exact copyMemory_filled valid provides offered located located' fits

end Claims

/-- A memory with two pairs that a collection offers as its storage. -/
theorem provides_pairs :
    ContentsSource.Provides .pair (IndexingIterator.next offsetCollection)
      (⟨.init offsetCollection [(1, 2), (3, 4)], some ⟨some 0x200, 2⟩⟩ :
        ContentsSource .word16 (IndexingIterator (List (ℕ × ℕ)) ℤ))
      [(1, 2), (3, 4)]
      (Bytes.holding .pair 0x200 [(1, 2), (3, 4)] fun _ => some 0) := by
  refine ⟨(listed_offsets _).yields, ?_, ?_, ?_⟩
  · rintro contents ⟨⟩
    exact ⟨by decide, by decide, by simp, by rintro _ ⟨⟩; decide, by rintro _ ⟨⟩; decide⟩
  · rintro contents ⟨⟩
    rfl
  · rintro contents ⟨⟩ base ⟨⟩
    decide

/-- Two pairs for three slots. -/
theorem updateContents_likeLoop_pairs :
    UpdatesLikeLoop .pair
      (UnsafeMutableBufferPointer.updateContents .pair (IndexingIterator.next offsetCollection)
        ⟨some 0x100, 3⟩)
      (⟨some 0x100, 3⟩ : BufferPointer .word16)
      ⟨.init offsetCollection [(1, 2), (3, 4)], some ⟨some 0x200, 2⟩⟩ [(1, 2), (3, 4)]
      (Bytes.holding .pair 0x200 [(1, 2), (3, 4)] fun _ => some 0) := by
  have valid : BufferPointer.Valid (.pair : Layout (ℕ × ℕ) ℕ)
      (⟨some 0x100, 3⟩ : BufferPointer .word16) :=
    ⟨by decide, by decide, by simp, by rintro _ ⟨⟩; decide, by rintro _ ⟨⟩; decide⟩
  refine (updateContents_likeLoop_iff valid provides_pairs).1.mpr ?_
  rintro contents ⟨⟩
  exact Or.inr ⟨by decide, by simp⟩

/-- A byte behind the slots that an update changes. -/
theorem not_updatesLikeLoop_of_byte
    {update : ContentsSource word Iterator → Bytes word Byte →
      Except Failure (Bytes word Byte × ℤ)} {a : Address word} {byte : Option Byte} {index : ℤ}
    (outside : buffer.Outside layout (min buffer.count.toNat list.length) a)
    (changed : byte ≠ memory a)
    (stored : (update source memory).map (fun updated => (updated.1 a, updated.2)) =
      .ok (byte, index)) :
    ¬ UpdatesLikeLoop layout update buffer source list memory := by
  rintro ⟨memory', index', updated, _, unchanged⟩
  rw [updated] at stored
  injection stored with stored
  injection stored with same
  exact changed (same.symm.trans (unchanged a outside))

/-- Two pairs for one slot: the second one is stored behind the buffer. -/
theorem not_updateContents_likeLoop :
    let buffer : BufferPointer .word16 := ⟨some 0x100, 1⟩
    let source : ContentsSource .word16 (IndexingIterator (List (ℕ × ℕ)) ℤ) :=
      ⟨.init offsetCollection [(1, 2), (3, 4)], some ⟨some 0x200, 2⟩⟩
    let memory := Bytes.holding .pair 0x200 [(1, 2), (3, 4)] fun _ => some 0
    BufferPointer.Valid (.pair : Layout (ℕ × ℕ) ℕ) buffer ∧
      ContentsSource.Provides .pair (IndexingIterator.next offsetCollection) source
        [(1, 2), (3, 4)] memory ∧
      ¬ UpdatesLikeLoop .pair
        (UnsafeMutableBufferPointer.updateContents .pair (IndexingIterator.next offsetCollection)
          buffer) buffer source [(1, 2), (3, 4)] memory ∧
      ¬ UpdatesLikeLoop .pair
        (MutableSpan.updateContents .pair (IndexingIterator.next offsetCollection) buffer) buffer
        source [(1, 2), (3, 4)] memory ∧
      ¬ UpdatesLikeLoop .pair
        (MutableSpan.updateBitwiseContents .pair (IndexingIterator.next offsetCollection) buffer)
        buffer source [(1, 2), (3, 4)] memory := by
  intro buffer source memory
  have outside : buffer.Outside (.pair : Layout (ℕ × ℕ) ℕ) (min buffer.count.toNat 2) 0x102 := by
    rintro _ ⟨⟩
    decide
  have changed : some 3 ≠ memory 0x102 := by decide
  refine ⟨⟨by decide, by decide, by simp [buffer], ?_, ?_⟩, provides_pairs, ?_, ?_, ?_⟩
  · rintro _ ⟨⟩
    decide
  · rintro _ ⟨⟩
    decide
  · exact not_updatesLikeLoop_of_byte outside changed rfl
  · exact not_updatesLikeLoop_of_byte outside changed rfl
  · exact not_updatesLikeLoop_of_byte outside changed rfl

end Results

end USwift
