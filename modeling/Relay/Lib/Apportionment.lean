import Mathlib.Algebra.BigOperators.Group.Finset.Piecewise
import Mathlib.Algebra.BigOperators.Ring.Finset
import Mathlib.Algebra.Order.BigOperators.Group.Finset
import Mathlib.Algebra.Order.Floor.Ring
import Mathlib.Data.Int.ConditionallyCompleteOrder
import Mathlib.Tactic.Linarith
import Mathlib.Tactic.Ring

/-!
# Apportionment by largest remainders

A whole number of things is to be shared out in proportion, and the proportional shares, the
quotas, are not whole. Every member first gets its quota rounded down. What is left is less than
one thing for each member, and it goes, one thing each, to as many members as there are things,
those with the largest fractional parts first.

The members rounded up are a set here. Which of several members with equal fractional parts are in
it does not matter for what follows: the total is met, no share leaves its quota's floor and
ceiling, and a larger quota never has the smaller share.

## Main definitions

* `Apportionment.LargestRemainder`: the members rounded up are the right number of members with
  the largest fractional parts
* `Apportionment.share`: what a member gets

## Main results

* `sum_fract`: what the floors leave, as the sum of the fractional parts
* `LargestRemainder.sum_share`: everything is shared out, and no more
* `LargestRemainder.fract_pos`: only quotas that are not whole are rounded up
* `LargestRemainder.share_eq_floor_or_ceil`: the quota rule
* `LargestRemainder.share_le_share`: larger quotas have no smaller shares
* `largestRemainder_take`: rounding up from the front of a sorted list
-/

namespace Relay

namespace Apportionment

variable {α K : Type*} [Field K] [LinearOrder K] [FloorRing K] {members up : Finset α}
  {quota : α → K} {n : ℤ}

/-- The members of `up` get one thing more than their quota rounded down. They are as many as the
floors leave things, and no other member has a larger fractional part. -/
structure LargestRemainder (members : Finset α) (quota : α → K) (n : ℤ) (up : Finset α) : Prop where
  subset : up ⊆ members
  card_eq : (up.card : ℤ) = n - ∑ a ∈ members, ⌊quota a⌋
  largest : ∀ a ∈ up, ∀ b ∈ members, b ∉ up → Int.fract (quota b) ≤ Int.fract (quota a)

/-! ### What the floors leave -/

/-- The floors leave as many things as the fractional parts add up to. -/
theorem sum_fract (hsum : ∑ a ∈ members, quota a = n) :
    ∑ a ∈ members, Int.fract (quota a) = ((n - ∑ a ∈ members, ⌊quota a⌋ : ℤ) : K) := by
  rw [Int.cast_sub, Int.cast_sum, ← hsum, ← Finset.sum_sub_distrib]
  exact Finset.sum_congr rfl fun a _ => (Int.self_sub_floor (quota a)).symm

variable [IsStrictOrderedRing K]

/-- The floors together are not more than there is. -/
theorem leftover_nonneg (hsum : ∑ a ∈ members, quota a = n) :
    0 ≤ n - ∑ a ∈ members, ⌊quota a⌋ := by
  have h : (0 : K) ≤ ((n - ∑ a ∈ members, ⌊quota a⌋ : ℤ) : K) := by
    rw [← sum_fract hsum]
    exact Finset.sum_nonneg fun a _ => Int.fract_nonneg (quota a)
  exact_mod_cast h

/-- Not more than one thing for each member is left. -/
theorem leftover_le_card (hsum : ∑ a ∈ members, quota a = n) :
    n - ∑ a ∈ members, ⌊quota a⌋ ≤ members.card := by
  have h : ((n - ∑ a ∈ members, ⌊quota a⌋ : ℤ) : K) ≤ (members.card : K) := by
    rw [← sum_fract hsum, ← nsmul_one members.card, ← Finset.sum_const]
    exact Finset.sum_le_sum fun a _ => (Int.fract_lt_one (quota a)).le
  exact_mod_cast h

/-- Only a quota that is not whole is rounded up: were a whole one among those with the largest
fractional parts, the others rounded up would make up the whole rest, and they are too few. -/
theorem LargestRemainder.fract_pos (h : LargestRemainder members quota n up)
    (hsum : ∑ a ∈ members, quota a = n) {a : α} (ha : a ∈ up) : 0 < Int.fract (quota a) := by
  by_contra hnot
  have hzero : Int.fract (quota a) = 0 := le_antisymm (not_lt.mp hnot) (Int.fract_nonneg _)
  have hothers : ∀ b ∈ members, b ∉ up → Int.fract (quota b) = 0 := fun b hb hbup =>
    le_antisymm (hzero ▸ h.largest a ha b hb hbup) (Int.fract_nonneg _)
  have hcard : ∑ b ∈ up, Int.fract (quota b) = (up.card : K) := by
    rw [Finset.sum_subset h.subset hothers, sum_fract hsum, ← h.card_eq]
    exact Int.cast_natCast up.card
  have hless : ∑ b ∈ up, Int.fract (quota b) < ∑ _b ∈ up, (1 : K) :=
    Finset.sum_lt_sum (fun b _ => (Int.fract_lt_one (quota b)).le)
      ⟨a, ha, Int.fract_lt_one (quota a)⟩
  rw [hcard, Finset.sum_const, nsmul_one] at hless
  exact lt_irrefl _ hless

/-! ### The shares -/

variable [DecidableEq α]

/-- What a member gets: its quota rounded down, and one more if it is rounded up. -/
def share (quota : α → K) (up : Finset α) (a : α) : ℤ := ⌊quota a⌋ + if a ∈ up then 1 else 0

omit [IsStrictOrderedRing K] in
/-- **Everything is shared out.** The shares add up to what there is. -/
theorem LargestRemainder.sum_share (h : LargestRemainder members quota n up) :
    ∑ a ∈ members, share quota up a = n := by
  have hup : ∑ a ∈ members, (if a ∈ up then (1 : ℤ) else 0) = up.card := by
    rw [Finset.sum_ite_mem, Finset.inter_eq_right.mpr h.subset, Finset.sum_const, nsmul_one]
  simp only [share]
  rw [Finset.sum_add_distrib, hup, h.card_eq]
  ring

/-- **The quota rule.** Every share is its quota rounded down or up. -/
theorem LargestRemainder.share_eq_floor_or_ceil (h : LargestRemainder members quota n up)
    (hsum : ∑ a ∈ members, quota a = n) (a : α) :
    share quota up a = ⌊quota a⌋ ∨ share quota up a = ⌈quota a⌉ := by
  rw [share]
  split
  · next ha =>
    right
    symm
    rw [Int.ceil_eq_iff, Int.cast_add, Int.cast_one]
    have hpos := h.fract_pos hsum ha
    have hone := Int.fract_lt_one (quota a)
    have hparts := Int.floor_add_fract (quota a)
    constructor <;> linarith
  · exact Or.inl (add_zero _)

/-- **Weight order.** A larger quota does not have the smaller share. -/
theorem LargestRemainder.share_le_share (h : LargestRemainder members quota n up) {a b : α}
    (hb : b ∈ members) (hlt : quota a < quota b) : share quota up a ≤ share quota up b := by
  have hfloor : ⌊quota a⌋ ≤ ⌊quota b⌋ := Int.floor_le_floor hlt.le
  rcases hfloor.lt_or_eq with hfloor | hfloor
  · rw [share, share]
    split <;> split <;> omega
  · -- between equal floors the fractional parts decide
    have hfract : Int.fract (quota a) < Int.fract (quota b) := by
      rw [Int.fract, Int.fract, hfloor]
      exact sub_lt_sub_right hlt _
    rw [share, share, hfloor]
    by_cases ha : a ∈ up
    · have hbup : b ∈ up := by
        by_contra hbup
        exact (h.largest a ha b hb hbup).not_gt hfract
      rw [if_pos ha, if_pos hbup]
    · rw [if_neg ha]
      split <;> omega

/-! ### Rounding up by a sorted list -/

/-- **The method.** Sort the members by their fractional parts, largest first, and round up as many
of them from the front as the floors leave things. -/
theorem largestRemainder_take {order : List α} (hnodup : order.Nodup)
    (hmem : ∀ a, a ∈ members ↔ a ∈ order)
    (hsorted : order.Pairwise fun a b => Int.fract (quota b) ≤ Int.fract (quota a))
    (hsum : ∑ a ∈ members, quota a = n) :
    LargestRemainder members quota n
      (order.take (n - ∑ a ∈ members, ⌊quota a⌋).toNat).toFinset := by
  have hmembers : members = order.toFinset := by
    ext a
    rw [hmem, List.mem_toFinset]
  refine ⟨fun a ha => ?_, ?_, fun a ha b hb hbup => ?_⟩
  · exact (hmem a).mpr (List.mem_of_mem_take (List.mem_toFinset.mp ha))
  · have hlength : members.card = order.length := by
      rw [hmembers, List.toFinset_card_of_nodup hnodup]
    have hnonneg := leftover_nonneg hsum
    have hle := leftover_le_card hsum
    rw [List.toFinset_card_of_nodup (hnodup.sublist (List.take_sublist _ _)), List.length_take]
    omega
  · -- what is not in the front is in the back, and so no larger
    rw [List.mem_toFinset] at ha hbup
    rw [hmem, ← List.take_append_drop (n - ∑ a ∈ members, ⌊quota a⌋).toNat order,
      List.mem_append, or_iff_right hbup] at hb
    rw [← List.take_append_drop (n - ∑ a ∈ members, ⌊quota a⌋).toNat order] at hsorted
    exact (List.pairwise_append.mp hsorted).2.2 a ha b hb

end Apportionment

end Relay
