import Mathlib.Data.Set.Basic
import Mathlib.Order.Lattice

/-!
# The first point clockwise

Points lie on a circle that is cut open into a line, and one looks for the first of them clockwise
from some place: the least point at or after it, or else, past the cut, the least point of all.

There is at most one such point. It is still the first if other points are taken away, so a change
of the points only matters where it is itself a new point, or one that is gone.

## Main definitions

* `Clockwise.IsFirst`
* `Clockwise.first`: found in a sorted list

## Main results

* `IsFirst.unique`
* `IsFirst.of_subset`: fewer points
* `isFirst_first`: what is found in a sorted list
-/

namespace Relay

namespace Clockwise

variable {α : Type*} [LinearOrder α]

/-- The point `p` is the first one of `S` clockwise from `h`. -/
def IsFirst (S : Set α) (h p : α) : Prop :=
  p ∈ S ∧ ((h ≤ p ∧ ∀ q ∈ S, h ≤ q → p ≤ q) ∨ ((∀ q ∈ S, q < h) ∧ ∀ q ∈ S, p ≤ q))

/-- The first point of a sorted list clockwise from `h`. -/
def first (points : List α) (h : α) : Option α :=
  (points.find? fun p => h ≤ p).or points.head?

variable {S T : Set α} {h p q : α}

theorem IsFirst.unique (hp : IsFirst S h p) (hq : IsFirst S h q) : p = q := by
  obtain ⟨hpS, ⟨hhp, hpmin⟩ | ⟨hplast, hpmin⟩⟩ := hp
  · obtain ⟨hqS, ⟨hhq, hqmin⟩ | ⟨hqlast, -⟩⟩ := hq
    · exact le_antisymm (hpmin q hqS hhq) (hqmin p hpS hhp)
    · exact absurd hhp (hqlast p hpS).not_ge
  · obtain ⟨hqS, ⟨hhq, -⟩ | ⟨-, hqmin⟩⟩ := hq
    · exact absurd hhq (hplast q hqS).not_ge
    · exact le_antisymm (hpmin q hqS) (hqmin p hpS)

/-- Among fewer points, the first one is still the first. -/
theorem IsFirst.of_subset (hp : IsFirst T h p) (hpS : p ∈ S) (hST : S ⊆ T) : IsFirst S h p := by
  obtain ⟨-, ⟨hhp, hpmin⟩ | ⟨hplast, hpmin⟩⟩ := hp
  · exact ⟨hpS, Or.inl ⟨hhp, fun q hq => hpmin q (hST hq)⟩⟩
  · exact ⟨hpS, Or.inr ⟨fun q hq => hplast q (hST hq), fun q hq => hpmin q (hST hq)⟩⟩

theorem exists_first {points : List α} (hne : points ≠ []) (h : α) :
    ∃ p, first points h = some p := by
  rw [first]
  cases points.find? fun p => h ≤ p with
  | some p => exact ⟨p, rfl⟩
  | none => exact ⟨points.head hne, List.head?_eq_some_head hne⟩

/-- **What is found.** In a sorted list the search finds the first point clockwise. -/
theorem isFirst_first {points : List α} (hsorted : points.Pairwise (· < ·))
    (hp : first points h = some p) : IsFirst {q | q ∈ points} h p := by
  rw [first] at hp
  cases hfound : points.find? fun p => h ≤ p with
  | some found =>
    rw [hfound] at hp
    obtain rfl := Option.some.inj hp
    obtain ⟨hhp, before, after, rfl, hbefore⟩ := List.find?_eq_some_iff_append.mp hfound
    refine ⟨by simp, Or.inl ⟨of_decide_eq_true hhp, fun q hq hhq => ?_⟩⟩
    rcases List.mem_append.mp hq with hq | hq
    · -- a point before it does not come after `h`
      exact absurd hhq (by simpa using hbefore q hq)
    · rcases List.mem_cons.mp hq with rfl | hq
      · exact le_rfl
      · exact ((List.pairwise_cons.mp (List.pairwise_append.mp hsorted).2.1).1 q hq).le
  | none =>
    rw [hfound] at hp
    obtain ⟨rest, rfl⟩ := List.head?_eq_some_iff.mp hp
    have hlast := List.find?_eq_none.mp hfound
    refine ⟨List.mem_cons_self, Or.inr ⟨fun q hq => ?_, fun q hq => ?_⟩⟩
    · simpa using hlast q hq
    · rcases List.mem_cons.mp hq with rfl | hq
      · exact le_rfl
      · exact ((List.pairwise_cons.mp hsorted).1 q hq).le

end Clockwise

end Relay
