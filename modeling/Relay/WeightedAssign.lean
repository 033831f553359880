import Mathlib.Algebra.BigOperators.Field
import Mathlib.Data.Rat.Floor
import Relay.Errors
import Relay.Lib.Apportionment
import Relay.Lib.Counters
import Relay.Lib.Ranks

/-!
# Weighted assignment

The partitions of a topic go to the consumers of a group in proportion to their weights, by largest
remainders. The last thing the assigner does is to check its own sum, and the check never fails:
what the floors leave is never negative and never more than there are consumers, so the front of
the sorted list that is rounded up has just the right length. Weights and shares are rational
numbers here, and divisions exact.

## Scope

The spread of the loads is left out. It would need floats and makes a text.

## Main definitions

* `assign`

## Main results

* `assign_apportions`: the check passes, the shares add up, each is its quota rounded down or up,
  and a larger weight has no smaller share
-/

namespace Relay

namespace WeightedAssign

/-- `int`, of a number: towards zero. -/
def int (v : ℚ) : ℤ := if 0 ≤ v then ⌊v⌋ else ⌈v⌉

/-- The names before position `stop`, which counts from the end if it is negative. -/
def upTo (names : List String) (stop : ℤ) : List String :=
  names.take (if 0 ≤ stop then stop else names.length + stop).toNat

/-- What each consumer would have if partitions could be divided. -/
def ideal (partitions : ℤ) (weights : Dict String ℚ) : Dict String ℚ :=
  weights.mapValues fun _ w => partitions * w / weights.values.sum

/-- The ideal shares, cut off. -/
def base (partitions : ℤ) (weights : Dict String ℚ) : Dict String ℤ :=
  (ideal partitions weights).mapValues fun _ v => int v

/-- The consumers, those with the largest part cut off first. Consumers with equal parts stay in
the order of the dictionary. -/
def remainders (partitions : ℤ) (weights : Dict String ℚ) : List String :=
  weights.keys.mergeSort fun c d =>
    (ideal partitions weights).getD d 0 - (base partitions weights).getD d 0 ≤
      (ideal partitions weights).getD c 0 - (base partitions weights).getD c 0

/-- `assign`. -/
def assign (partitions : ℤ) (weights : Dict String ℚ) : Except RelayError (Dict String ℤ) :=
  if partitions < 0 then
    .error (.invalid "partition count cannot be negative")
  else if weights.entries = [] ∨ ∃ w ∈ weights.values, w ≤ 0 then
    .error (.invalid ("every consumer needs a positive weight; a zero-weight "
      ++ "member would sit idle while counting against the group"))
  else
    let base := base partitions weights
    let leftover := partitions - base.total
    let shares := (upTo (remainders partitions weights) leftover).foldl
      (fun shares c => shares.set c (shares.count c + 1)) base
    if shares.total ≠ partitions then
      .error (.invalid "assignment did not cover every partition exactly once")
    else .ok shares

/-! ### Quotas -/

variable {partitions : ℤ} {weights : Dict String ℚ}

/-- The quota of a consumer, and zero for everybody else. -/
def quota (partitions : ℤ) (weights : Dict String ℚ) (c : String) : ℚ :=
  partitions * weights.getD c 0 / weights.values.sum

theorem getD_ideal (c : String) :
    (ideal partitions weights).getD c 0 = quota partitions weights c := by
  rw [quota, ← weights.getD_mapValues fun _ w => partitions * w / weights.values.sum, ideal]
  simp

theorem getD_nonneg (hpos : ∀ w ∈ weights.values, 0 < w) (c : String) : 0 ≤ weights.getD c 0 := by
  rw [Dict.getD]
  cases hc : weights.get? c with
  | none => exact le_rfl
  | some w => exact (hpos w (weights.mem_values_iff.mpr ⟨c, hc⟩)).le

theorem sum_weights_pos (hne : weights.entries ≠ []) (hpos : ∀ w ∈ weights.values, 0 < w) :
    0 < weights.values.sum :=
  List.sum_pos _ hpos fun h => hne (List.map_eq_nil_iff.mp h)

/-- No quota is negative. -/
theorem quota_nonneg (hpartitions : 0 ≤ partitions) (hne : weights.entries ≠ [])
    (hpos : ∀ w ∈ weights.values, 0 < w) (c : String) : 0 ≤ quota partitions weights c :=
  div_nonneg (mul_nonneg (Int.cast_nonneg hpartitions) (getD_nonneg hpos c))
    (sum_weights_pos hne hpos).le

/-- Nothing is lost as long as partitions can be divided. -/
theorem sum_quota (partitions : ℤ) (hne : weights.entries ≠ [])
    (hpos : ∀ w ∈ weights.values, 0 < w) :
    ∑ c ∈ weights.keys.toFinset, quota partitions weights c = partitions := by
  have hsum : weights.values.sum = ∑ c ∈ weights.keys.toFinset, weights.getD c 0 :=
    weights.sum_values_eq fun c hc => List.mem_toFinset.mpr hc
  simp only [quota]
  rw [← Finset.sum_div, ← Finset.mul_sum, ← hsum]
  exact mul_div_cancel_right₀ _ (sum_weights_pos hne hpos).ne'

/-! ### The steps of the method -/

section Steps

variable (hpartitions : 0 ≤ partitions) (hne : weights.entries ≠ [])
  (hpos : ∀ w ∈ weights.values, 0 < w)
include hpartitions hne hpos

/-- No quota is negative, so cutting it off is rounding it down. -/
theorem count_base (c : String) :
    (base partitions weights).count c = ⌊quota partitions weights c⌋ := by
  have hzero : int 0 = 0 := by decide +kernel
  rw [Dict.count, base, ← hzero, Dict.getD_mapValues, getD_ideal, int,
    if_pos (quota_nonneg hpartitions hne hpos c)]

theorem total_base : (base partitions weights).total =
    ∑ c ∈ weights.keys.toFinset, ⌊quota partitions weights c⌋ := by
  rw [Dict.total_eq_sum (s := weights.keys.toFinset)]
  · exact Finset.sum_congr rfl fun c _ => count_base hpartitions hne hpos c
  · intro c hc
    rw [List.mem_toFinset]
    simpa [base, ideal, Dict.mapValues, Dict.keys] using hc

theorem remainders_sorted : (remainders partitions weights).Pairwise fun c d =>
    Int.fract (quota partitions weights d) ≤ Int.fract (quota partitions weights c) := by
  have hkey (c : String) : (ideal partitions weights).getD c 0 -
      (base partitions weights).getD c 0 = Int.fract (quota partitions weights c) := by
    rw [getD_ideal, show (base partitions weights).getD c 0 = _ from
      count_base hpartitions hne hpos c, Int.self_sub_floor]
  simp only [remainders, hkey]
  exact Ranks.pairwise_mergeSort_key
    (fun c => OrderDual.toDual (Int.fract (quota partitions weights c))) weights.keys

/-- The consumers rounded up. -/
theorem largestRemainder : Apportionment.LargestRemainder weights.keys.toFinset
    (quota partitions weights) partitions
    (upTo (remainders partitions weights)
      (partitions - (base partitions weights).total)).toFinset := by
  have hperm := List.mergeSort_perm weights.keys fun c d =>
    decide ((ideal partitions weights).getD d 0 - (base partitions weights).getD d 0 ≤
      (ideal partitions weights).getD c 0 - (base partitions weights).getD c 0)
  have hsum := sum_quota partitions hne hpos
  have hnonneg := Apportionment.leftover_nonneg hsum
  rw [total_base hpartitions hne hpos, upTo, if_pos hnonneg]
  refine Apportionment.largestRemainder_take ?_ (fun c => ?_)
    (remainders_sorted hpartitions hne hpos) hsum
  · exact hperm.nodup_iff.mpr weights.nodup
  · rw [List.mem_toFinset]
    exact hperm.mem_iff.symm

/-- What the consumers get before the last check. -/
theorem count_shares (c : String) :
    ((upTo (remainders partitions weights) (partitions - (base partitions weights).total)).foldl
      (fun shares c => shares.set c (shares.count c + 1)) (base partitions weights)).count c =
      Apportionment.share (quota partitions weights)
        (upTo (remainders partitions weights)
          (partitions - (base partitions weights).total)).toFinset c := by
  have hnodup : (remainders partitions weights).Nodup :=
    (List.mergeSort_perm weights.keys _).nodup_iff.mpr weights.nodup
  rw [Dict.count_foldl_increment, count_base hpartitions hne hpos, Apportionment.share]
  · simp only [List.mem_toFinset]
  · exact hnodup.sublist (List.take_sublist _ _)

end Steps

/-! ### The assignment -/

theorem mem_keys_base (partitions : ℤ) {c : String} :
    c ∈ (base partitions weights).keys ↔ c ∈ weights.keys := by
  simp [base, ideal, Dict.mapValues, Dict.keys]

/-- **Weighted assignment.** For every partition count and every group of consumers with positive
weights the assigner gets past its own check. Every consumer has a share, the shares add up to the
partitions, each share is the consumer's proportional part rounded down or up, and no consumer has
fewer partitions than one of smaller weight. -/
theorem assign_apportions (partitions : ℤ) (weights : Dict String ℚ)
    (hpartitions : 0 ≤ partitions) (hne : weights.entries ≠ [])
    (hpos : ∀ w ∈ weights.values, 0 < w) :
    ∃ shares, assign partitions weights = .ok shares ∧
      (∀ c, c ∈ shares.keys ↔ c ∈ weights.keys) ∧
      shares.values.sum = partitions ∧
      (∀ c w, weights.get? c = some w →
        shares.count c = ⌊partitions * w / weights.values.sum⌋ ∨
          shares.count c = ⌈partitions * w / weights.values.sum⌉) ∧
      ∀ c d v w, weights.get? c = some v → weights.get? d = some w → v < w →
        shares.count c ≤ shares.count d := by
  have hup := largestRemainder hpartitions hne hpos
  have hcount := count_shares hpartitions hne hpos
  have hnotbad : ¬ (weights.entries = [] ∨ ∃ w ∈ weights.values, w ≤ 0) :=
    not_or.mpr ⟨hne, fun ⟨w, hw, hle⟩ => (hpos w hw).not_ge hle⟩
  rw [assign, if_neg (not_lt.mpr hpartitions), if_neg hnotbad]
  set up := upTo (remainders partitions weights) (partitions - (base partitions weights).total)
  set shares := up.foldl (fun shares c => shares.set c (shares.count c + 1))
    (base partitions weights)
  have hkeys (c : String) : c ∈ shares.keys ↔ c ∈ weights.keys := by
    rw [← mem_keys_base partitions]
    refine Dict.mem_keys_foldl_increment fun a ha => (mem_keys_base partitions).mpr ?_
    exact List.mem_toFinset.mp (hup.subset (List.mem_toFinset.mpr ha))
  have htotal : shares.total = partitions := by
    rw [shares.total_eq_sum fun c hc => List.mem_toFinset.mpr ((hkeys c).mp hc)]
    exact (Finset.sum_congr rfl fun c _ => hcount c).trans hup.sum_share
  have hquota {c : String} {w : ℚ} (hc : weights.get? c = some w) :
      quota partitions weights c = partitions * w / weights.values.sum := by
    rw [quota, Dict.getD, hc, Option.getD_some]
  refine ⟨shares, if_neg (not_not.mpr htotal), hkeys, htotal, fun c w hc => ?_,
    fun c d v w hc hd hlt => ?_⟩
  · rw [hcount, ← hquota hc]
    exact hup.share_eq_floor_or_ceil (sum_quota _ hne hpos) c
  · rw [hcount, hcount]
    rcases hpartitions.eq_or_lt with rfl | hpartitions
    · -- without partitions the quotas are equal, and nobody has a share
      have hnone (c : String) : Apportionment.share (quota 0 weights) up.toFinset c = 0 := by
        simpa [quota] using hup.share_eq_floor_or_ceil (sum_quota _ hne hpos) c
      rw [hnone, hnone]
    · refine hup.share_le_share (List.mem_toFinset.mpr (weights.mem_keys_iff.mpr ⟨w, hd⟩)) ?_
      rw [hquota hc, hquota hd]
      have hlt := mul_lt_mul_of_pos_left hlt (Int.cast_pos (R := ℚ).mpr hpartitions)
      exact div_lt_div_of_pos_right hlt (sum_weights_pos hne hpos)

/-- A large and a small consumer. -/
def mixedGroup : Dict String ℚ := Dict.ofList [("big", 2), ("small", 1)]

theorem mixedGroup_apportioned : ∃ shares, assign 10 mixedGroup = .ok shares ∧
    shares.values.sum = 10 ∧ shares.count "small" ≤ shares.count "big" := by
  obtain ⟨shares, hok, -, hsum, -, horder⟩ := assign_apportions 10 mixedGroup (by decide)
    (by decide +kernel) (by decide +kernel)
  exact ⟨shares, hok, hsum, horder "small" "big" 1 2 (by decide +kernel) (by decide +kernel)
    (by decide +kernel)⟩

end WeightedAssign

end Relay
