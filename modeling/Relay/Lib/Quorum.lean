import Mathlib.Data.Finset.Card
import Mathlib.Data.Finset.SymmDiff

/-!
# Majorities of finite sets

A quorum of a set of voters is a subset of it that holds more than half of them. Two quorums of
one set share a voter, and so do quorums of two sets that differ in a single voter. The count is
the same in all cases: twice the size of the union is the sum of the two sizes and of the size of
the difference, which leaves two disjoint quorums no room.

## Main definitions

* `IsQuorum`

## Main results

* `IsQuorum.inter_nonempty`: quorums meet across a change of one voter
* `isQuorum_sdiff_iff`: how many voters may be missing from a quorum
-/

namespace Relay

open scoped symmDiff

variable {α : Type*} {V W P Q F : Finset α}

/-- More than half of the voters. -/
structure IsQuorum (V Q : Finset α) : Prop where
  subset : Q ⊆ V
  card_le : V.card / 2 + 1 ≤ Q.card

variable [DecidableEq α]

theorem two_mul_card_union (V W : Finset α) :
    2 * (V ∪ W).card = V.card + W.card + (V ∆ W).card := by
  have hinter := Finset.card_union_add_card_inter V W
  have hdiff : (V ∆ W).card = (V \ W).card + (W \ V).card := by
    rw [Finset.symmDiff_def, Finset.card_union_of_disjoint]
    exact disjoint_sdiff_sdiff
  have hleft := Finset.card_sdiff_add_card_inter V W
  have hright := Finset.card_sdiff_add_card_inter W V
  rw [Finset.inter_comm] at hright
  omega

/-- **Quorums meet.** If two sets of voters differ in at most one voter, a quorum of the one and a
quorum of the other have a voter in common. -/
theorem IsQuorum.inter_nonempty (hdiff : (V ∆ W).card ≤ 1) (hP : IsQuorum V P)
    (hQ : IsQuorum W Q) : (P ∩ Q).Nonempty := by
  refine Finset.inter_nonempty_of_card_lt_card_add_card
    (hP.subset.trans Finset.subset_union_left) (hQ.subset.trans Finset.subset_union_right) ?_
  have hunion := two_mul_card_union V W
  have hPcard := hP.card_le
  have hQcard := hQ.card_le
  omega

/-- Two quorums of one set meet. -/
theorem IsQuorum.exists_mem (hP : IsQuorum V P) (hQ : IsQuorum V Q) : ∃ v ∈ P, v ∈ Q := by
  have hdiff : (V ∆ V).card ≤ 1 := by
    rw [symmDiff_self]
    exact Nat.zero_le 1
  obtain ⟨v, hv⟩ := IsQuorum.inter_nonempty hdiff hP hQ
  exact ⟨v, Finset.mem_inter.mp hv⟩

/-- Without the voters in `F` the rest still is a quorum exactly when `F` has no more voters than
the majority leaves over. -/
theorem isQuorum_sdiff_iff (hF : F ⊆ V) :
    IsQuorum V (V \ F) ↔ F.card + (V.card / 2 + 1) ≤ V.card := by
  have hcard := Finset.card_sdiff_add_card_eq_card hF
  constructor
  · intro hQ
    have hle := hQ.card_le
    omega
  · intro hle
    exact ⟨Finset.sdiff_subset, by omega⟩

end Relay
