import USwift.Collections.Listed

/-!
# Shuffling a collection

`shuffle(using:)` swaps the current element with one that is drawn from the elements from
there on, as many times as the collection is long, less one. The draws and the orders of
the elements correspond to each other.
-/

namespace USwift

open Swaps

section Operations

variable {Elements Index Element Generator : Type}

/-- The variables of the loop of `shuffle(using:)`. -/
structure ShuffleState (Elements Index Generator : Type) where
  elements : Elements
  amount : ℤ
  currentIndex : Index
  generator : Generator

variable (collection : MutableCollection Elements Index Element) (count : Elements → ℤ)
  (indexOffsetBy : Elements → Index → ℤ → Index) (random : ℤ → Generator → ℤ × Generator)

/-- The indices that a round of the loop swaps, where `random` is `Int.random(in:using:)`. -/
def ShuffleState.swapped (state : ShuffleState Elements Index Generator) : Index × Index :=
  (state.currentIndex, indexOffsetBy state.elements state.currentIndex
    (random state.amount state.generator).1)

/-- A round of the loop of `shuffle(using:)`. -/
def shuffleRound (state : ShuffleState Elements Index Generator) :
    ShuffleState Elements Index Generator :=
  let (i, j) := state.swapped indexOffsetBy random
  let elements := collection.swapAt state.elements i j
  { elements
    amount := state.amount - 1
    currentIndex := collection.indexAfter elements state.currentIndex
    generator := (random state.amount state.generator).2 }

/-- The loop of `shuffle(using:)`. -/
def shuffleLoop : ℕ → ShuffleState Elements Index Generator →
    Option (ShuffleState Elements Index Generator)
  | 0, _ => none
  | fuel + 1, state =>
      if state.amount > 1 then
        shuffleLoop fuel (shuffleRound collection indexOffsetBy random state)
      else some state

/-- The state in front of the loop. -/
def shuffleStart (elements : Elements) (generator : Generator) :
    ShuffleState Elements Index Generator :=
  ⟨elements, count elements, collection.startIndex elements, generator⟩

/-- `shuffle(using:)`. -/
def shuffle (fuel : ℕ) (elements : Elements) (generator : Generator) :
    Option (Elements × Generator) :=
  if count elements > 1 then do
    let state ← shuffleLoop collection indexOffsetBy random fuel
      (shuffleStart collection count elements generator)
    return (state.elements, state.generator)
  else return (elements, generator)

end Operations

section Specification

variable {Elements Index Element Generator : Type}

/-- The number of elements of a collection, and its indices at an offset from others. -/
structure RandomAccessed (count : Elements → ℤ) (indexOffsetBy : Elements → Index → ℤ → Index)
    (list : Elements → List Element) (index : Elements → ℕ → Index) : Prop where
  count : ∀ elements, count elements = (list elements).length
  indexOffsetBy : ∀ elements {i k : ℕ}, i + k ≤ (list elements).length →
    indexOffsetBy elements (index elements i) k = index elements (i + k)

/-- The values that a generator returns for the ranges from `amount` down to two. -/
def drawnValues (random : ℤ → Generator → ℤ × Generator) : ℕ → Generator → List ℤ
  | 0, _ => []
  | 1, _ => []
  | amount + 2, generator =>
      let drawn := random (amount + 2 : ℕ) generator
      drawn.1 :: drawnValues random (amount + 1) drawn.2

/-- The values that a generator returns are those of a product of ranges. -/
def Draws (random : ℤ → Generator → ℤ × Generator) (amount : ℕ) (generator : Generator)
    (draws : (i : Fin (amount - 1)) → Fin (amount - i)) : Prop :=
  drawnValues random amount generator = (positions draws).map Nat.cast

/-- A generator that returns the values of a list. -/
def listRandom (_amount : ℤ) (values : List ℤ) : ℤ × List ℤ :=
  (values.headD 0, values.tail)

/-- Where the loop is: what it has arranged, what is left, and the draws to come. -/
structure Shuffling (random : ℤ → Generator → ℤ × Generator) (list : Elements → List Element)
    (index : Elements → ℕ → Index) (places : ℕ → Index)
    (state : ShuffleState Elements Index Generator) (front rest : List Element)
    (draws : List ℕ) : Prop where
  shape : list state.elements = front ++ rest
  kept : index state.elements = places
  amount : state.amount = rest.length
  current : state.currentIndex = places front.length
  values : drawnValues random rest.length state.generator = draws.map Nat.cast
  drawn : Drawn rest.length draws

end Specification

section Results

variable {Elements Index Element Generator : Type}
  {collection : MutableCollection Elements Index Element} {count : Elements → ℤ}
  {indexOffsetBy : Elements → Index → ℤ → Index} {random : ℤ → Generator → ℤ × Generator}
  {list : Elements → List Element} {index : Elements → ℕ → Index} {places : ℕ → Index}
  {state : ShuffleState Elements Index Generator} {front rest : List Element} {draw : ℕ}
  {draws : List ℕ} {fuel : ℕ}

variable (assignable : Assignable collection list index)
  (accessed : RandomAccessed count indexOffsetBy list index)

include assignable accessed

/-- A round swaps two elements of what is left, and moves the first of them to the front. -/
theorem Shuffling.round (shuffling : Shuffling random list index places state front rest
      (draw :: draws)) :
    ∃ first later, rest.length = later.length + 1 ∧ 1 < rest.length ∧ draw < rest.length ∧
      arrange rest (draw :: draws) = first :: arrange later draws ∧
      state.swapped indexOffsetBy random =
        (places front.length, places (front.length + draw)) ∧
      Shuffling random list index places (shuffleRound collection indexOffsetBy random state)
        (front ++ [first]) later draws := by
  rcases shuffling with ⟨shape, kept, amount, current, values, drawn⟩
  have several : 1 < rest.length := by
    have length := drawn.1
    rw [List.length_cons] at length
    omega
  rcases Nat.exists_eq_add_of_lt several with ⟨more, length⟩
  have length' : rest.length = more + 1 + 1 := by omega
  rw [length'] at drawn values
  rcases drawn_cons_iff.mp drawn with ⟨_, low, drawn'⟩
  rw [drawnValues, List.map_cons, List.cons.injEq] at values
  rcases values with ⟨value, values'⟩
  have amount' : state.amount = (more + 2 : ℕ) := by
    rw [amount, length']
  have draw_lt : draw < rest.length := by omega
  have total : (list state.elements).length = front.length + rest.length := by simp [shape]
  have offset : indexOffsetBy state.elements (places front.length) draw =
      places (front.length + draw) := by
    rw [← kept]
    exact accessed.indexOffsetBy state.elements (by omega)
  have swapped : state.swapped indexOffsetBy random =
      (places front.length, places (front.length + draw)) := by
    rw [ShuffleState.swapped, current, amount', value, offset]
  rcases exists_swap_front draw_lt with ⟨later, moved, perm⟩
  have later_length : rest.length = later.length + 1 := by simpa using perm.length_eq.symm
  have arranged := assignable.swapAt
    (show front.length < (list state.elements).length by omega)
    (show front.length + draw < (list state.elements).length by omega)
  have appended := swap_append front rest 0 draw
  rw [Nat.add_zero] at appended
  rw [shape, appended, moved, kept] at arranged
  refine ⟨rest[draw], later, later_length, several, draw_lt, arrange_cons draw_lt moved, swapped,
    ?_⟩
  have listed := assignable.listed
    (collection.swapAt state.elements (places front.length) (places (front.length + draw)))
  rw [arranged.1, arranged.2] at listed
  have same : later.length = more + 1 := by omega
  constructor
  · simp only [shuffleRound, swapped]
    rw [arranged.1]
    simp
  · simp only [shuffleRound, swapped]
    exact arranged.2
  · simp only [shuffleRound, swapped]
    omega
  · simp only [shuffleRound, swapped]
    rw [current, listed.indexAfter (by simp)]
    simp
  · simp only [shuffleRound, swapped]
    rw [same, amount']
    exact values'
  · rw [same]
    exact drawn'

theorem shuffleLoop_eq
    (shuffling : Shuffling random list index places state front rest draws)
    (enough : draws.length < fuel) :
    ∃ final, shuffleLoop collection indexOffsetBy random fuel state = some final ∧
      list final.elements = front ++ arrange rest draws := by
  induction draws generalizing state front rest fuel with
  | nil =>
      rcases Nat.exists_eq_add_of_lt enough with ⟨more, rfl⟩
      have short := drawn_nil_iff.mp shuffling.drawn
      have ended : ¬ state.amount > 1 := by
        rw [shuffling.amount]
        omega
      rw [shuffleLoop, if_neg ended]
      exact ⟨state, rfl, shuffling.shape⟩
  | cons draw draws further =>
      rcases Nat.exists_eq_add_of_lt enough with ⟨more, rfl⟩
      rcases shuffling.round assignable accessed with
        ⟨first, later, _, several, _, arranged, _, shuffling'⟩
      have going : state.amount > 1 := by
        rw [shuffling.amount]
        omega
      rcases @further _ _ _ ((draw :: draws).length + more) shuffling' (by simp; omega) with
        ⟨final, ran, shape⟩
      rw [shuffleLoop, if_pos going]
      refine ⟨final, ran, ?_⟩
      rw [shape, arranged, List.append_assoc, List.singleton_append]

/-- Every round that the loop makes swaps two elements of the collection. -/
theorem swapped_valid (shuffling : Shuffling random list index places state front rest draws)
    {round : ℕ} (round_lt : round < draws.length) :
    ∃ j, front.length + round ≤ j ∧ j < front.length + rest.length ∧
      ((shuffleRound collection indexOffsetBy random)^[round] state).swapped indexOffsetBy
        random = (places (front.length + round), places j) := by
  induction round generalizing state front rest draws with
  | zero =>
      cases draws with
      | nil => simp at round_lt
      | cons draw draws =>
          rcases shuffling.round assignable accessed with
            ⟨first, later, _, _, draw_lt, _, swapped, _⟩
          exact ⟨front.length + draw, by omega, by omega, swapped⟩
  | succ round further =>
      cases draws with
      | nil => simp at round_lt
      | cons draw draws =>
          rcases shuffling.round assignable accessed with
            ⟨first, later, length, _, _, _, _, shuffling'⟩
          rcases further shuffling' (by simpa using round_lt) with ⟨j, low, high, swapped⟩
          rw [List.length_append, List.length_singleton] at low high swapped
          refine ⟨j, by omega, by omega, ?_⟩
          rw [Function.iterate_succ_apply, swapped, Nat.add_assoc, Nat.add_comm 1]

theorem shuffling_start (elements : Elements) {generator : Generator}
    (values : drawnValues random (list elements).length generator = draws.map Nat.cast)
    (drawn : Drawn (list elements).length draws) :
    Shuffling random list index (index elements)
      (shuffleStart collection count elements generator) [] (list elements) draws where
  shape := rfl
  kept := rfl
  amount := accessed.count elements
  current := (assignable.listed elements).startIndex
  values := values
  drawn := drawn

theorem shuffle_eq {elements : Elements} {generator : Generator}
    (values : drawnValues random (list elements).length generator = draws.map Nat.cast)
    (drawn : Drawn (list elements).length draws) (enough : (list elements).length < fuel) :
    ∃ result, shuffle collection count indexOffsetBy random fuel elements generator =
        some result ∧ list result.1 = arrange (list elements) draws := by
  rw [shuffle, accessed.count]
  split
  · have start := shuffling_start assignable accessed elements values drawn
    have short : draws.length < fuel := by
      rw [drawn.1]
      omega
    rcases shuffleLoop_eq assignable accessed start short with ⟨final, ran, shape⟩
    refine ⟨(final.elements, final.generator), ?_, shape⟩
    rw [ran]
    rfl
  · rename_i short
    have none : draws = [] := by
      apply List.eq_nil_of_length_eq_zero
      rw [drawn.1]
      omega
    subst none
    exact ⟨(elements, generator), rfl, rfl⟩

omit assignable accessed

theorem drawn_of_below (below : ∀ amount generator, 0 < amount →
      0 ≤ (random amount generator).1 ∧ (random amount generator).1 < amount)
    (amount : ℕ) (generator : Generator) :
    ∃ draws, Drawn amount draws ∧ drawnValues random amount generator = draws.map Nat.cast := by
  induction amount generalizing generator with
  | zero => exact ⟨[], drawn_nil_iff.mpr (by omega), rfl⟩
  | succ amount further =>
      cases amount with
      | zero => exact ⟨[], drawn_nil_iff.mpr (by omega), rfl⟩
      | succ amount =>
          rcases below (amount + 2 : ℕ) generator (by omega) with ⟨low, high⟩
          rcases Int.eq_ofNat_of_zero_le low with ⟨draw, value⟩
          rcases further (random (amount + 2 : ℕ) generator).2 with ⟨draws, drawn, values⟩
          refine ⟨draw :: draws, drawn_cons_iff.mpr ⟨by omega, by omega, drawn⟩, ?_⟩
          simp only [drawnValues, values, value, List.map_cons]

theorem drawnValues_list {amount : ℕ} (drawn : Drawn amount draws) :
    drawnValues listRandom amount (draws.map Nat.cast) = draws.map Nat.cast := by
  induction draws generalizing amount with
  | nil =>
      have short := drawn_nil_iff.mp drawn
      rcases Nat.le_one_iff_eq_zero_or_eq_one.mp short with rfl | rfl <;> rfl
  | cons draw draws further =>
      have length := drawn.1
      rw [List.length_cons] at length
      rcases Nat.exists_eq_add_of_le (show 2 ≤ amount by omega) with ⟨more, rfl⟩
      rw [Nat.add_comm] at drawn ⊢
      rcases drawn_cons_iff.mp drawn with ⟨_, _, drawn'⟩
      rw [drawnValues]
      simp only [listRandom, List.map_cons, List.headD_cons, List.tail_cons]
      rw [further drawn']

/--
The draws and the orders of different elements correspond to each other, whatever the
generator is, and the loop swaps elements of the collection only.
-/
theorem shuffle_bijective (assignable : Assignable collection list index)
    (accessed : RandomAccessed count indexOffsetBy list index) {elements : Elements}
    (distinct : (list elements).Nodup) :
    ∃ order : ((i : Fin ((list elements).length - 1)) → Fin ((list elements).length - i)) →
        {order : List Element // order.Perm (list elements)},
      Function.Bijective order ∧
      (∀ {Generator : Type} (random : ℤ → Generator → ℤ × Generator) generator draws,
        Draws random (list elements).length generator draws →
          (∀ fuel, (list elements).length < fuel → ∃ result,
            shuffle collection count indexOffsetBy random fuel elements generator =
              some result ∧ list result.1 = order draws) ∧
          ∀ round, round + 1 < (list elements).length →
            ∃ j, round ≤ j ∧ j < (list elements).length ∧
              ((shuffleRound collection indexOffsetBy random)^[round]
                (shuffleStart collection count elements generator)).swapped indexOffsetBy random =
                  (index elements round, index elements j)) ∧
      (∀ draws, Draws listRandom (list elements).length ((positions draws).map Nat.cast) draws) ∧
      ∀ {Generator : Type} (random : ℤ → Generator → ℤ × Generator),
        (∀ amount generator, 0 < amount →
          0 ≤ (random amount generator).1 ∧ (random amount generator).1 < amount) →
        ∀ generator, ∃ draws, Draws random (list elements).length generator draws := by
  refine ⟨_, arrange_bijective distinct, ?_, ?_, ?_⟩
  · intro Generator random generator draws values
    have drawn := drawn_positions draws
    constructor
    · intro fuel enough
      exact shuffle_eq assignable accessed values drawn enough
    · intro round before
      have start := shuffling_start assignable accessed elements values drawn
      have valid := swapped_valid assignable accessed start
        (show round < (positions draws).length by rw [drawn.1]; omega)
      simpa using valid
  · intro draws
    exact drawnValues_list (drawn_positions draws)
  · intro Generator random below generator
    rcases drawn_of_below below (list elements).length generator with ⟨draws, drawn, values⟩
    rcases exists_positions drawn with ⟨products, rfl⟩
    exact ⟨products, values⟩

/-- The list `[1, 2, 3]`. -/
theorem shuffle_bijective_numbers :
    ∃ order : ((i : Fin (3 - 1)) → Fin (3 - i)) → {order : List ℕ // order.Perm [1, 2, 3]},
      Function.Bijective order ∧
      ∀ draws : (i : Fin (3 - 1)) → Fin (3 - i), ∃ result,
        shuffle offsetMutableCollection (fun list : List ℕ => list.length) (fun _ i n => i + n)
          listRandom 4 [1, 2, 3] ((positions draws).map Nat.cast) = some result ∧
        result.1 = order draws := by
  have accessed : RandomAccessed (fun list : List ℕ => (list.length : ℤ)) (fun _ i n => i + n) id
      fun _ i => (i : ℤ) := by
    constructor <;> simp
  rcases shuffle_bijective (@offsets_assignable ℕ _) accessed
    (show (id [1, 2, 3]).Nodup by decide) with ⟨order, bijective, shuffles, lists, _⟩
  refine ⟨order, bijective, ?_⟩
  intro draws
  exact (shuffles listRandom _ draws (lists draws)).1 4 (by decide)

end Results

end USwift
