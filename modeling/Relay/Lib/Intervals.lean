import Mathlib.Data.List.Basic
import Mathlib.Data.List.Perm.Subperm
import Mathlib.Order.Lattice

/-!
# Intervals that are kept apart

Intervals on a line, each given by where it starts and where it ends. Two are apart when one ends
where the other starts or before. The question is how many of a list of intervals can be kept apart
from each other, and the answer rests on an exchange: whatever intervals are chosen, the one that
ends first may be chosen in place of those that it is not apart from, since there is at most one of
them (`exists_later`).

A choice is a list that is a subpermutation of the candidates, so two candidates with the same ends
count as two.

## Main results

* `length_filter_start_lt_le_one`: at most one of the chosen intervals reaches across a point which
  all of them end after
* `exists_later`: the exchange
-/

namespace Relay

namespace Intervals

variable {τ : Type*} [LinearOrder τ]

/-- One of two intervals ends where the other starts or before. -/
def Apart (i j : τ × τ) : Prop :=
  i.2 ≤ j.1 ∨ j.2 ≤ i.1

instance (i j : τ × τ) : Decidable (Apart i j) :=
  inferInstanceAs (Decidable (_ ∨ _))

variable {l rest other : List (τ × τ)} {x : τ × τ} {t : τ}

/-- Of intervals that are apart and end at `t` or after, at most one starts before `t`. -/
theorem length_filter_start_lt_le_one (hapart : l.Pairwise Apart) (hends : ∀ i ∈ l, t ≤ i.2) :
    (l.filter fun i => i.1 < t).length ≤ 1 := by
  have hcross : (l.filter fun i => i.1 < t).Pairwise fun _ _ => False := by
    refine (hapart.filter _).imp_of_mem fun {i j} hi hj hij => ?_
    obtain ⟨hmemi, hi⟩ := List.mem_filter.mp hi
    obtain ⟨hmemj, hj⟩ := List.mem_filter.mp hj
    rcases hij with hij | hji
    · exact absurd (of_decide_eq_true hj) (not_lt.mpr ((hends i hmemi).trans hij))
    · exact absurd (of_decide_eq_true hi) (not_lt.mpr ((hends j hmemj).trans hji))
  generalize l.filter (fun i => i.1 < t) = crossing at hcross ⊢
  rcases crossing with _ | ⟨i, _ | ⟨j, crossing⟩⟩
  · exact Nat.zero_le 1
  · exact le_refl 1
  · exact absurd ((List.pairwise_cons.mp hcross).1 j List.mem_cons_self) not_false

/-- A candidate that starts before `t` is not among chosen ones that start at `t` or after. -/
theorem subperm_of_start_lt (hx : x.1 < t) (hsub : other.Subperm (x :: rest))
    (hstarts : ∀ i ∈ other, t ≤ i.1) : other.Subperm rest := by
  have hother : other.filter (fun i => t ≤ i.1) = other :=
    List.filter_eq_self.mpr fun i hi => decide_eq_true (hstarts i hi)
  have hrest : (x :: rest).filter (fun i => t ≤ i.1) = rest.filter fun i => t ≤ i.1 :=
    List.filter_cons_of_neg (by simpa using hx)
  have hfilter := hsub.filter fun i => t ≤ i.1
  rw [hother, hrest] at hfilter
  exact hfilter.trans List.filter_sublist.subperm

/-- **The exchange.** When `x` ends before the other candidates end, every choice of intervals that
are apart has at most one more than a choice among those that start when `x` ends or later. -/
theorem exists_later (hx : x.1 < x.2) (hfirst : ∀ i ∈ rest, x.2 ≤ i.2)
    (hsub : other.Subperm (x :: rest)) (hapart : other.Pairwise Apart) :
    ∃ later : List (τ × τ), later.Subperm rest ∧ later.Pairwise Apart ∧
      (∀ i ∈ later, x.2 ≤ i.1) ∧ other.length ≤ later.length + 1 := by
  have hends : ∀ i ∈ other, x.2 ≤ i.2 := by
    intro i hi
    rcases List.mem_cons.mp (hsub.subset hi) with rfl | hi
    · exact le_refl _
    · exact hfirst i hi
  have hstarts : ∀ i ∈ other.filter (fun i => ¬ i.1 < x.2), x.2 ≤ i.1 := by
    intro i hi
    exact not_lt.mp (of_decide_eq_true (List.mem_filter.mp hi).2)
  refine ⟨other.filter fun i => ¬ i.1 < x.2, ?_, hapart.filter _, hstarts, ?_⟩
  · exact subperm_of_start_lt hx (List.filter_sublist.subperm.trans hsub) hstarts
  · have hcross := length_filter_start_lt_le_one hapart hends
    have hsplit := List.length_eq_length_filter_add (l := other) fun i => decide (i.1 < x.2)
    simp only [← decide_not] at hsplit
    omega

end Intervals

end Relay
