import Mathlib.Algebra.Order.Ring.Int
import Mathlib.Data.Int.ConditionallyCompleteOrder
import Mathlib.Order.Bounds.Basic
import Relay.Lib.Counters
import Relay.Lib.Largest
import Relay.Lib.Ranks

/-!
# Rack spread

The replicas of a partition are spread over racks, and the question is how many racks may fail,
whichever they are, before fewer than the in-sync minimum are left. The analyzer takes the racks
away one after another, the fullest first, and stops before there would be too few.

No other racks take more replicas with them than as many of the fullest. So what the analyzer
counts is the worst case, and if one rack more would be too many in its order, then there are so
many racks that may not fail together.

## Scope

The report is left out, which states what is here in words.

## Main definitions

* `RackDistribution`, with `survivableRackFailures`

## Main results

* `removeLargest_spec`: where the loop stops
* `survivableRackFailures_isGreatest`: it is the largest number of failures that is survived
  whichever racks fail
-/

namespace Relay

/-- How many replicas of a partition each rack holds. -/
structure RackDistribution where
  replicasPerRack : Dict String ℤ
  minInSync : ℤ
  racks_nonempty : replicasPerRack.entries ≠ []
  min_pos : 1 ≤ minInSync

namespace RackDistribution

/-- `total_replicas`. -/
def totalReplicas (racks : RackDistribution) : ℤ := racks.replicasPerRack.values.sum

/-- The loop of `survivable_rack_failures`: racks are removed as long as enough replicas remain. -/
def removeLargest (minInSync : ℤ) : List ℤ → ℤ → ℕ → ℕ
  | [], _, failures => failures
  | size :: sizes, remaining, failures =>
    if remaining - size < minInSync then failures
    else removeLargest minInSync sizes (remaining - size) (failures + 1)

/-- The numbers of replicas, the largest first. -/
def sizes (racks : RackDistribution) : List ℤ :=
  racks.replicasPerRack.values.mergeSort fun a b => b ≤ a

/-- `survivable_rack_failures`. -/
def survivableRackFailures (racks : RackDistribution) : ℕ :=
  removeLargest racks.minInSync racks.sizes racks.totalReplicas 0

/-- What remains when some racks fail. -/
def remaining (racks : RackDistribution) (failed : Finset String) : ℤ :=
  racks.totalReplicas - ∑ rack ∈ failed, racks.replicasPerRack.count rack

/-- So many racks may fail, whichever they are. -/
def Survives (racks : RackDistribution) (k : ℕ) : Prop :=
  k ≤ racks.replicasPerRack.keys.length ∧
    ∀ failed ⊆ racks.replicasPerRack.keys.toFinset, failed.card = k →
      racks.minInSync ≤ racks.remaining failed

/-! ### Where the loop stops -/

/-- **Where the loop stops.** The racks it counts leave enough replicas, and with one more there
would be too few, unless there is none. -/
theorem removeLargest_spec {minInSync remaining : ℤ} (sizes : List ℤ) (failures : ℕ)
    (henough : minInSync ≤ remaining) :
    ∃ k ≤ sizes.length, removeLargest minInSync sizes remaining failures = failures + k ∧
      minInSync ≤ remaining - (sizes.take k).sum ∧
      (k = sizes.length ∨ remaining - (sizes.take (k + 1)).sum < minInSync) := by
  induction sizes generalizing remaining failures with
  | nil => exact ⟨0, le_rfl, rfl, by simpa using henough, Or.inl rfl⟩
  | cons size sizes ih =>
    rw [removeLargest]
    split
    · next hfew =>
      exact ⟨0, Nat.zero_le _, rfl, by simpa using henough, Or.inr (by simpa using hfew)⟩
    · next hmore =>
      obtain ⟨k, hk, hcount, hleft, hstop⟩ := ih (failures + 1) (not_lt.mp hmore)
      refine ⟨k + 1, Nat.succ_le_succ hk, by rw [hcount, Nat.add_right_comm, Nat.add_assoc], ?_, ?_⟩
      · rw [List.take_succ_cons, List.sum_cons]
        omega
      · rcases hstop with rfl | hstop
        · exact Or.inl rfl
        · refine Or.inr ?_
          rw [List.take_succ_cons, List.sum_cons]
          omega

/-! ### The fullest racks -/

/-- The racks, the fullest first. -/
def fullest (racks : RackDistribution) : List String :=
  racks.replicasPerRack.keys.mergeSort fun a b =>
    racks.replicasPerRack.count b ≤ racks.replicasPerRack.count a

theorem fullest_perm (racks : RackDistribution) :
    racks.fullest.Perm racks.replicasPerRack.keys :=
  List.mergeSort_perm _ _

theorem fullest_nodup (racks : RackDistribution) : racks.fullest.Nodup :=
  racks.fullest_perm.nodup_iff.mpr racks.replicasPerRack.nodup

theorem fullest_sorted (racks : RackDistribution) : racks.fullest.Pairwise fun a b =>
    racks.replicasPerRack.count b ≤ racks.replicasPerRack.count a :=
  Ranks.pairwise_mergeSort_key (fun a => OrderDual.toDual (racks.replicasPerRack.count a)) _

/-- The loop goes through their numbers of replicas. -/
theorem map_count_fullest (racks : RackDistribution) :
    racks.fullest.map racks.replicasPerRack.count = racks.sizes := by
  have hvalues : racks.replicasPerRack.values =
      racks.replicasPerRack.keys.map racks.replicasPerRack.count :=
    racks.replicasPerRack.values_eq_map_keys 0
  refine List.Perm.eq_of_pairwise (fun a b _ _ hab hba => le_antisymm hba hab)
    (List.pairwise_map.mpr racks.fullest_sorted)
    (Ranks.pairwise_mergeSort_key (fun a : ℤ => OrderDual.toDual a) _) ?_
  rw [sizes, hvalues]
  exact (racks.fullest_perm.map _).trans (List.mergeSort_perm _ _).symm

theorem length_fullest (racks : RackDistribution) :
    racks.fullest.length = racks.replicasPerRack.keys.length :=
  racks.fullest_perm.length_eq

/-- What remains when the fullest racks fail. -/
theorem remaining_take_fullest (racks : RackDistribution) (k : ℕ) :
    racks.remaining (racks.fullest.take k).toFinset =
      racks.totalReplicas - (racks.sizes.take k).sum := by
  rw [remaining, Largest.sum_take_toFinset racks.fullest_nodup, map_count_fullest]

/-- The fullest racks are racks, as many as are taken. -/
theorem take_fullest_subset (racks : RackDistribution) (k : ℕ) :
    (racks.fullest.take k).toFinset ⊆ racks.replicasPerRack.keys.toFinset := by
  intro rack hrack
  rw [List.mem_toFinset] at hrack ⊢
  exact racks.fullest_perm.mem_iff.mp (List.mem_of_mem_take hrack)

theorem card_take_fullest (racks : RackDistribution) {k : ℕ}
    (hk : k ≤ racks.replicasPerRack.keys.length) :
    (racks.fullest.take k).toFinset.card = k := by
  rw [List.toFinset_card_of_nodup (racks.fullest_nodup.sublist (List.take_sublist _ _)),
    List.length_take, length_fullest, min_eq_left hk]

/-- No racks take more with them than as many of the fullest. -/
theorem remaining_fullest_le (racks : RackDistribution) {failed : Finset String}
    (hfailed : failed ⊆ racks.replicasPerRack.keys.toFinset) :
    racks.remaining (racks.fullest.take failed.card).toFinset ≤ racks.remaining failed := by
  have hmem : ∀ rack ∈ failed, rack ∈ racks.fullest := fun rack hrack =>
    racks.fullest_perm.mem_iff.mpr (List.mem_toFinset.mp (hfailed hrack))
  have hworst := Largest.sum_le_sum_take_map racks.fullest_sorted hmem
  rw [remaining, remaining, Largest.sum_take_toFinset racks.fullest_nodup]
  omega

/-- Whether so many failures are survived is decided by the fullest racks. -/
theorem survives_iff (racks : RackDistribution) (k : ℕ) :
    racks.Survives k ↔ k ≤ racks.replicasPerRack.keys.length ∧
      racks.minInSync ≤ racks.remaining (racks.fullest.take k).toFinset := by
  refine and_congr_right fun hk => ⟨fun h => ?_, fun h failed hfailed hcard => ?_⟩
  · exact h _ (racks.take_fullest_subset k) (racks.card_take_fullest hk)
  · subst hcard
    exact h.trans (racks.remaining_fullest_le hfailed)

/-! ### The worst case -/

/-- **The largest number of failures that is survived.** The analyzer's number is the largest for
which enough replicas remain, whichever so many racks fail. -/
theorem survivableRackFailures_isGreatest (racks : RackDistribution)
    (hnonneg : ∀ n ∈ racks.replicasPerRack.values, 0 ≤ n)
    (henough : racks.minInSync ≤ racks.totalReplicas) :
    IsGreatest {k | racks.Survives k} racks.survivableRackFailures := by
  obtain ⟨k, hk, hcount, hleft, hstop⟩ := removeLargest_spec racks.sizes 0 henough
  have hlength : racks.sizes.length = racks.replicasPerRack.keys.length := by
    rw [← map_count_fullest, List.length_map, length_fullest]
  have hsurvivable : racks.survivableRackFailures = k := hcount.trans (Nat.zero_add k)
  rw [hsurvivable]
  constructor
  · refine (racks.survives_iff k).mpr ⟨hlength ▸ hk, ?_⟩
    rwa [remaining_take_fullest]
  · intro k' hk'
    obtain ⟨hk'length, hk'left⟩ := (racks.survives_iff k').mp hk'
    by_contra hlt
    rcases hstop with rfl | hstop
    · exact hlt (hlength ▸ hk'length)
    · -- one rack more already leaves too few, and the others that fail too bring nothing back
      have hsizes : ∀ n ∈ racks.sizes, 0 ≤ n := fun n hn => hnonneg n (List.mem_mergeSort.mp hn)
      have hmono := Largest.sum_take_mono hsizes (show k + 1 ≤ k' by omega)
      rw [remaining_take_fullest] at hk'left
      omega

/-- Eight replicas, half of them in one rack, with four to stay in sync. -/
def halfInOneRack : RackDistribution where
  replicasPerRack := Dict.ofList [("a", 4), ("b", 2), ("c", 2)]
  minInSync := 4
  racks_nonempty := List.cons_ne_nil _ _
  min_pos := by decide

/-- **The theorem at eight replicas in three racks.** -/
theorem halfInOneRack_isGreatest :
    IsGreatest {k | halfInOneRack.Survives k} halfInOneRack.survivableRackFailures :=
  halfInOneRack.survivableRackFailures_isGreatest (by decide) (by decide)

end RackDistribution

end Relay
