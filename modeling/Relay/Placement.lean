import Mathlib.Data.Int.ConditionallyCompleteOrder
import Mathlib.Data.List.Dedup
import Mathlib.Data.List.Range
import Mathlib.Data.List.Rotate
import Mathlib.Data.Set.Function
import Mathlib.Order.Lattice
import Mathlib.Tactic.IntervalCases
import Relay.Lib.Dict

/-!
# Placement

The replicas of a new topic's partitions are placed on brokers: each partition takes as many
consecutive brokers as it has replicas, the first partition from the first broker on, the next one
from the second, around the list of the brokers. The audit then names the partitions with two
replicas in one rack.

The racks play no part in the placing. So it is the order in which the brokers happen to stand that
decides: the partitions are free of shared racks exactly when brokers that stand closer together
than the replication factor are in different racks, as far as the partitions reach. However many
racks there are, two brokers of one rack next to each other are enough to break that.

## Scope

The spread of the replicas over the brokers is left out, and so is the report that states it.

## Main definitions

* `Placer`, with `place` and `rackViolations`
* `Placer.RacksApart`: brokers that stand close together are in different racks

## Main results

* `Placer.replicas_eq_take_rotate`, `Placer.nodup_replicas`: a partition's replicas are on
  consecutive brokers, and no two on the same
* `Placer.rackViolations_place_eq_nil_iff`: when the audit of a placement finds nothing
-/

namespace Relay

/-! ### Windows of a sequence -/

/-- The windows of one width that start among the first places are free of repetitions when places
closer together than that width differ, as far as the windows reach. -/
theorem forall_nodup_window_iff {α : Type*} {f : ℕ → α} {starts width : ℕ} (hstarts : 0 < starts) :
    (∀ s < starts, ((List.range width).map fun i => f (s + i)).Nodup) ↔
      ∀ x y, x < y → y < x + width → y + 1 < starts + width → f x ≠ f y := by
  constructor
  · intro h x y hxy hnear hreach heq
    -- the last window with `y` in it has `x` in it, too
    obtain ⟨s, hs, hsx, hsy⟩ : ∃ s < starts, s ≤ x ∧ y < s + width :=
      ⟨y + 1 - width, by omega, by omega, by omega⟩
    have hinj := List.inj_on_of_nodup_map (h s hs) (x := x - s) (y := y - s)
      (List.mem_range.mpr (by omega)) (List.mem_range.mpr (by omega))
    rw [Nat.add_sub_cancel' hsx, Nat.add_sub_cancel' (hsx.trans hxy.le)] at hinj
    have := hinj heq
    omega
  · intro h s hs
    refine List.Nodup.map_on (fun i hi j hj heq => ?_) List.nodup_range
    rw [List.mem_range] at hi hj
    rcases lt_trichotomy i j with hij | hij | hij
    · exact absurd heq (h _ _ (by omega) (by omega) (by omega))
    · exact hij
    · exact absurd heq.symm (h _ _ (by omega) (by omega) (by omega))

/-- A placer of replicas on brokers. -/
structure Placer where
  brokers : List String
  rackOf : Dict String String
  replicationFactor : ℤ
  factor_pos : 1 ≤ replicationFactor
  factor_le : replicationFactor ≤ brokers.length

namespace Placer

theorem length_brokers_pos (placer : Placer) : 0 < placer.brokers.length := by
  have hpos := placer.factor_pos
  have hle := placer.factor_le
  omega

/-- The broker at a place of the list, around its end. -/
def brokerAt (placer : Placer) (i : ℕ) : String :=
  placer.brokers.get ⟨i % placer.brokers.length, Nat.mod_lt i placer.length_brokers_pos⟩

/-- The replicas of a partition, by the place of the first of them. -/
def replicas (placer : Placer) (start : ℕ) : List String :=
  (List.range placer.replicationFactor.toNat).map fun (step : ℕ) => placer.brokerAt (start + step)

/-- `place`. -/
def place (placer : Placer) (partitions : ℤ) : Dict ℕ (List String) :=
  Dict.ofList ((List.range partitions.toNat).map fun (partition : ℕ) =>
    (partition, placer.replicas (partition % placer.brokers.length)))

/-- The loop of `rack_violations`. It fails on a broker that is in no rack. -/
def violated (placer : Placer) : List (ℕ × List String) → Option (List ℕ)
  | [] => some []
  | (partition, replicas) :: assignment => do
    let racks ← replicas.mapM placer.rackOf.get?
    let rest ← placer.violated assignment
    if racks.dedup.length < racks.length then some (partition :: rest) else some rest

/-- `rack_violations`. -/
def rackViolations (placer : Placer) (assignment : Dict ℕ (List String)) : Option (List ℕ) := do
  let violated ← placer.violated assignment.entries
  some (violated.mergeSort fun p q => p ≤ q)

/-- The rack of the broker at a place of the list, around its end. -/
def rackAt (placer : Placer) (i : ℕ) : Option String := placer.rackOf.get? (placer.brokerAt i)

/-- Brokers that stand closer together than the replication factor are in different racks, as far
as the partitions reach. -/
def RacksApart (placer : Placer) (partitions : ℤ) : Prop :=
  0 < partitions → ∀ x y : ℕ, x < y → y < x + placer.replicationFactor →
    y + 1 < min partitions placer.brokers.length + placer.replicationFactor →
      placer.rackAt x ≠ placer.rackAt y

/-- Every broker is in a rack. -/
def Covered (placer : Placer) : Prop := ∀ broker ∈ placer.brokers, broker ∈ placer.rackOf.keys

/-! ### The replicas of a partition -/

variable (placer : Placer)

theorem brokerAt_mem (i : ℕ) : placer.brokerAt i ∈ placer.brokers := List.get_mem _ _

/-- **Consecutive brokers.** The replicas of a partition are on the brokers from the first of them
on, around the end of the list. -/
theorem replicas_eq_take_rotate (start : ℕ) :
    placer.replicas start = (placer.brokers.rotate start).take placer.replicationFactor.toNat := by
  have hle := placer.factor_le
  refine List.ext_getElem ?_ fun i hi hi' => ?_
  · rw [replicas, List.length_map, List.length_range, List.length_take, List.length_rotate]
    omega
  · rw [List.getElem_take, List.getElem_rotate]
    simp only [replicas, brokerAt, List.getElem_map, List.getElem_range, List.get_eq_getElem,
      Nat.add_comm start i]

/-- Different brokers, if the placer's are. -/
theorem nodup_replicas (hnodup : placer.brokers.Nodup) (start : ℕ) :
    (placer.replicas start).Nodup := by
  rw [replicas_eq_take_rotate]
  exact (List.nodup_rotate.mpr hnodup).sublist (List.take_sublist _ _)

theorem brokerAt_add_mod (start step : ℕ) :
    placer.brokerAt (start % placer.brokers.length + step) = placer.brokerAt (start + step) := by
  simp only [brokerAt, Nat.mod_add_mod]

/-- Only the place of the first one in the list matters. -/
theorem replicas_mod (start : ℕ) :
    placer.replicas (start % placer.brokers.length) = placer.replicas start := by
  simp only [replicas, brokerAt_add_mod]

/-! ### The audit -/

variable {placer}

/-- Fewer different racks than replicas, if one of them is shared. -/
theorem length_dedup_lt_iff (racks : List String) :
    racks.dedup.length < racks.length ↔ ¬ racks.Nodup := by
  have hsublist := List.dedup_sublist racks
  rw [hsublist.length_le.lt_iff_ne, ← List.dedup_eq_self]
  exact not_congr ⟨hsublist.eq_of_length, congrArg List.length⟩

/-- The racks of brokers that are all in one. -/
theorem mapM_rackOf {replicas : List String}
    (h : ∀ broker ∈ replicas, broker ∈ placer.rackOf.keys) :
    ∃ racks, replicas.mapM placer.rackOf.get? = some racks ∧
      racks.map some = replicas.map placer.rackOf.get? := by
  induction replicas with
  | nil => exact ⟨[], rfl, rfl⟩
  | cons broker replicas ih =>
    obtain ⟨hbroker, hreplicas⟩ := List.forall_mem_cons.mp h
    obtain ⟨rack, hrack⟩ := placer.rackOf.mem_keys_iff.mp hbroker
    obtain ⟨racks, hracks, hsome⟩ := ih hreplicas
    refine ⟨rack :: racks, ?_, ?_⟩
    · rw [List.mapM_cons, hrack, hracks]
      rfl
    · rw [List.map_cons, List.map_cons, hsome, hrack]

/-- **What the audit finds.** It names the partitions with two replicas in one rack. -/
theorem violated_eq {assignment : List (ℕ × List String)}
    (h : ∀ entry ∈ assignment, ∀ broker ∈ entry.2, broker ∈ placer.rackOf.keys) :
    placer.violated assignment =
      some ((assignment.filter fun entry => ¬ (entry.2.map placer.rackOf.get?).Nodup).map
        Prod.fst) := by
  induction assignment with
  | nil => rfl
  | cons entry assignment ih =>
    obtain ⟨partition, replicas⟩ := entry
    obtain ⟨hentry, hrest⟩ := List.forall_mem_cons.mp h
    obtain ⟨racks, hracks, hsome⟩ := mapM_rackOf hentry
    have hshared : racks.dedup.length < racks.length ↔
        ¬ (replicas.map placer.rackOf.get?).Nodup := by
      rw [← hsome, List.nodup_map_iff (Option.some_injective _), length_dedup_lt_iff]
    simp only [violated, hracks, ih hrest, Option.bind_eq_bind, Option.bind_some]
    split
    · next hlt => rw [List.filter_cons_of_pos (by simpa using hshared.mp hlt), List.map_cons]
    · next hlt =>
      rw [List.filter_cons_of_neg (by simpa using (not_iff_not.mpr hshared).mp hlt)]

/-- **When the audit finds nothing.** No partition has two replicas in one rack. -/
theorem rackViolations_eq_nil_iff {assignment : Dict ℕ (List String)}
    (h : ∀ entry ∈ assignment.entries, ∀ broker ∈ entry.2, broker ∈ placer.rackOf.keys) :
    placer.rackViolations assignment = some [] ↔
      ∀ entry ∈ assignment.entries, (entry.2.map placer.rackOf.get?).Nodup := by
  rw [rackViolations, violated_eq h, Option.bind_eq_bind, Option.bind_some, Option.some_inj,
    ← List.length_eq_zero_iff, List.length_mergeSort, List.length_eq_zero_iff, List.map_eq_nil_iff,
    List.filter_eq_nil_iff]
  simp only [decide_eq_true_eq, not_not]

/-- The partitions that are placed, each with its replicas. -/
theorem mem_entries_place {partitions : ℤ} {entry : ℕ × List String} :
    entry ∈ (placer.place partitions).entries ↔
      entry.1 < partitions ∧ entry.2 = placer.replicas entry.1 := by
  obtain ⟨partition, replicas⟩ := entry
  rw [Dict.mem_entries_iff, place, Dict.get?_ofList_eq_some_iff, List.mem_map]
  · simp only [replicas_mod, List.mem_range, Prod.mk.injEq]
    constructor
    · rintro ⟨_, hlt, rfl, rfl⟩
      exact ⟨by omega, rfl⟩
    · rintro ⟨hlt, rfl⟩
      exact ⟨partition, by omega, rfl, rfl⟩
  · rw [List.map_map]
    exact List.nodup_range.map fun _ _ h => h

/-- Partitions that are a round of the brokers apart stand on the same ones. -/
theorem forall_mem_place_iff {partitions : ℤ} {P : List String → Prop} :
    (∀ entry ∈ (placer.place partitions).entries, P entry.2) ↔
      ∀ start < min partitions.toNat placer.brokers.length, P (placer.replicas start) := by
  constructor
  · intro h start hstart
    exact h (start, _) (mem_entries_place.mpr ⟨by simp only; omega, rfl⟩)
  · intro h entry hentry
    obtain ⟨hlt, hreplicas⟩ := mem_entries_place.mp hentry
    rw [hreplicas, ← replicas_mod]
    refine h _ (lt_min ?_ (Nat.mod_lt _ placer.length_brokers_pos))
    exact (Nat.mod_le _ _).trans_lt (by omega)

theorem map_rackOf_replicas (start : ℕ) :
    (placer.replicas start).map placer.rackOf.get? =
      (List.range placer.replicationFactor.toNat).map fun (step : ℕ) =>
        placer.rackAt (start + step) := by
  rw [replicas, List.map_map]
  rfl

/-- **When a placement isolates the racks.** The audit of a placement finds nothing exactly when
brokers that stand closer together than the replication factor are in different racks, as far as
the partitions reach. -/
theorem rackViolations_place_eq_nil_iff (placer : Placer) (partitions : ℤ)
    (hcovered : placer.Covered) :
    placer.rackViolations (placer.place partitions) = some [] ↔ placer.RacksApart partitions := by
  have hbrokers : ∀ entry ∈ (placer.place partitions).entries, ∀ broker ∈ entry.2,
      broker ∈ placer.rackOf.keys := by
    rw [forall_mem_place_iff
      (P := fun replicas => ∀ broker ∈ replicas, broker ∈ placer.rackOf.keys)]
    intro start _ broker hbroker
    obtain ⟨step, -, rfl⟩ := List.mem_map.mp hbroker
    exact hcovered _ (placer.brokerAt_mem _)
  rw [rackViolations_eq_nil_iff hbrokers,
    forall_mem_place_iff (P := fun replicas => (replicas.map placer.rackOf.get?).Nodup)]
  simp only [map_rackOf_replicas]
  have hfactor := placer.factor_pos
  rcases lt_or_ge 0 partitions with hpos | hnone
  · have hlength := placer.length_brokers_pos
    rw [forall_nodup_window_iff (by omega), RacksApart, imp_iff_right hpos]
    refine forall₃_congr fun x y _ => imp_congr (by omega) (imp_congr (by omega) Iff.rfl)
  · refine iff_of_true (fun start hstart => ?_) fun hpos => absurd hpos hnone.not_gt
    omega

/-- Two brokers in each of two racks, one rack after the other. -/
def rackByRack : Placer where
  brokers := ["a1", "a2", "b1", "b2"]
  rackOf := Dict.ofList [("a1", "a"), ("a2", "a"), ("b1", "b"), ("b2", "b")]
  replicationFactor := 2
  factor_pos := by decide
  factor_le := by decide

/-- The same brokers, the racks in turn. -/
def rackInTurn : Placer where
  brokers := ["a1", "b1", "a2", "b2"]
  rackOf := Dict.ofList [("a1", "a"), ("a2", "a"), ("b1", "b"), ("b2", "b")]
  replicationFactor := 2
  factor_pos := by decide
  factor_le := by decide

theorem rackInTurn_racksApart : rackInTurn.RacksApart 4 := by
  intro _ x y hxy hnear hreach
  have hfactor : rackInTurn.replicationFactor = 2 := rfl
  have hlength : rackInTurn.brokers.length = 4 := rfl
  rw [hfactor] at hnear hreach
  rw [hlength] at hreach
  have hx : x < 4 := by omega
  obtain rfl : y = x + 1 := by omega
  interval_cases x <;> decide

/-- **The theorem at the racks in turn.** -/
theorem rackInTurn_isolated : rackInTurn.rackViolations (rackInTurn.place 4) = some [] :=
  (rackInTurn.rackViolations_place_eq_nil_iff 4 (by unfold Covered; decide)).mpr
    rackInTurn_racksApart

/-- **Two racks for two replicas, and yet a shared one.** The first partition has both replicas in
the first rack. -/
theorem rackByRack_shares :
    rackByRack.brokers.Nodup ∧ rackByRack.Covered ∧
      rackByRack.replicationFactor ≤
        (rackByRack.brokers.map rackByRack.rackOf.get?).dedup.length ∧
      rackByRack.rackViolations (rackByRack.place 1) = some [0] := by
  refine ⟨by decide, by unfold Covered; decide, by decide, ?_⟩
  have hviolated : rackByRack.violated (rackByRack.place 1).entries = some [0] := by decide
  rw [rackViolations, hviolated, Option.bind_eq_bind, Option.bind_some, List.mergeSort_singleton]

end Placer

end Relay
