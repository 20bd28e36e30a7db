import Mathlib.Data.List.Forall2
import Mathlib.Order.Defs.Unbundled
import Mathlib.Tactic.Common

/-!
# Lists in lexicographic order

The order of lists by their first elements that are not tied, where the shorter list comes
first if there are none. It is a strict weak order if that of the elements is, and two lists
are incomparable if they have the same length and tied elements.
-/

namespace Lexicographic

universe u

variable {Element : Type u}

/-- Neither of two elements comes before the other. -/
def Tied (before : Element → Element → Prop) (x y : Element) : Prop :=
  ¬ before x y ∧ ¬ before y x

/-- A list comes before another one. -/
inductive Precedes (before : Element → Element → Prop) : List Element → List Element → Prop
  | ended (y : Element) (ys : List Element) : Precedes before [] (y :: ys)
  | less {x y : Element} (xs ys : List Element) (lower : before x y) :
      Precedes before (x :: xs) (y :: ys)
  | tied {x y : Element} {xs ys : List Element} (tie : Tied before x y)
      (rest : Precedes before xs ys) : Precedes before (x :: xs) (y :: ys)

variable {before : Element → Element → Prop} {x y z : Element} {xs ys zs : List Element}

theorem Tied.symm (tie : Tied before x y) : Tied before y x :=
  ⟨tie.2, tie.1⟩

theorem precedes_nil : ¬ Precedes before xs [] := by
  rintro ⟨⟩

theorem precedes_cons :
    Precedes before (x :: xs) (y :: ys) ↔
      before x y ∨ Tied before x y ∧ Precedes before xs ys := by
  constructor
  · intro precedes
    cases precedes with
    | less _ _ lower => exact .inl lower
    | tied tie rest => exact .inr ⟨tie, rest⟩
  · rintro (lower | ⟨tie, rest⟩)
    · exact .less xs ys lower
    · exact .tied tie rest

/-- Lists of which neither comes before the other are tied element by element. -/
theorem incomparable_iff :
    ¬ Precedes before xs ys ∧ ¬ Precedes before ys xs ↔ List.Forall₂ (Tied before) xs ys := by
  induction xs generalizing ys with
  | nil =>
      cases ys with
      | nil => exact ⟨fun _ => .nil, fun _ => ⟨precedes_nil, precedes_nil⟩⟩
      | cons y ys =>
          constructor
          · intro incomparable
            exact absurd (.ended y ys) incomparable.1
          · rintro ⟨⟩
  | cons x xs rest =>
      cases ys with
      | nil =>
          constructor
          · intro incomparable
            exact absurd (.ended x xs) incomparable.2
          · rintro ⟨⟩
      | cons y ys =>
          rw [precedes_cons, precedes_cons, List.forall₂_cons, ← rest]
          constructor
          · rintro ⟨notBefore, notBehind⟩
            rw [not_or, not_and] at notBefore notBehind
            have tie : Tied before x y := ⟨notBefore.1, notBehind.1⟩
            exact ⟨tie, notBefore.2 tie, notBehind.2 tie.symm⟩
          · rintro ⟨tie, notBefore, notBehind⟩
            rw [not_or, not_and, not_or, not_and]
            exact ⟨⟨tie.1, fun _ => notBefore⟩, tie.2, fun _ => notBehind⟩

section Order

variable [order : IsStrictWeakOrder Element before]

theorem Tied.trans (first : Tied before x y) (second : Tied before y z) : Tied before x z :=
  order.incomp_trans x y z first second

theorem Tied.before_trans (tie : Tied before x y) (lower : before y z) : before x z := by
  by_contra notLower
  have notHigher : ¬ before z x := by
    intro higher
    exact tie.2 (order.trans y z x lower higher)
  have tied : Tied before y z := tie.symm.trans ⟨notLower, notHigher⟩
  exact tied.1 lower

theorem before_trans_tied (lower : before x y) (tie : Tied before y z) : before x z := by
  by_contra notLower
  have notHigher : ¬ before z x := by
    intro higher
    exact tie.2 (order.trans z x y higher lower)
  have tied : Tied before x y := Tied.trans ⟨notLower, notHigher⟩ tie.symm
  exact tied.1 lower

theorem Precedes.irrefl (xs : List Element) : ¬ Precedes before xs xs := by
  induction xs with
  | nil => exact precedes_nil
  | cons x xs rest =>
      rw [precedes_cons]
      rintro (lower | ⟨_, shorter⟩)
      · exact order.irrefl x lower
      · exact rest shorter

theorem Precedes.trans (first : Precedes before xs ys) (second : Precedes before ys zs) :
    Precedes before xs zs := by
  induction first generalizing zs with
  | ended y ys =>
      cases second with
      | less _ zs _ => exact .ended _ _
      | tied _ _ => exact .ended _ _
  | less xs ys lower =>
      cases second with
      | less _ zs lower' => exact .less xs zs (order.trans _ _ _ lower lower')
      | tied tie _ => exact .less xs _ (before_trans_tied lower tie)
  | tied tie _ shorter =>
      cases second with
      | less _ zs lower => exact .less _ zs (tie.before_trans lower)
      | tied tie' rest => exact .tied (tie.trans tie') (shorter rest)

theorem forall₂_tied_trans (first : List.Forall₂ (Tied before) xs ys)
    (second : List.Forall₂ (Tied before) ys zs) : List.Forall₂ (Tied before) xs zs := by
  induction first generalizing zs with
  | nil => exact second
  | cons tie _ shorter =>
      cases second with
      | cons tie' rest => exact .cons (tie.trans tie') (shorter rest)

theorem isStrictWeakOrder : IsStrictWeakOrder (List Element) (Precedes before) where
  irrefl := Precedes.irrefl
  trans _ _ _ := Precedes.trans
  incomp_trans _ _ _ first second := by
    rw [incomparable_iff] at first second ⊢
    exact forall₂_tied_trans first second

end Order

end Lexicographic
