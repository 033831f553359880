import Relay.Errors
import Relay.Lib.Causal
import Relay.Lib.Counters

/-!
# Grow-only counters

Each replica counts its own increments in an entry of its own, and merging takes the larger count
of each entry. No count is lost or counted twice because of what an entry is at all times: the
entry for a node is the sum of those increments of the node that the replica has heard of
(`CountsKnown`). Of one node's increments a replica has heard of the first ones, so of two such
sums the larger is the one that knows more.

## Scope

The report of the value is left out.

## Main definitions

* `GCounter`, with `increment`, `merge` and `value`
* `gcounter`: the counter at every node, as a replicated object
* `increments`: what an event has added

## Main results

* `gcounter_exact`
-/

namespace Relay

/-- A replica of the counter. -/
structure GCounter where
  nodeId : String
  entries : Dict String ℤ := ∅
  deriving DecidableEq

namespace GCounter

/-- `value`. -/
def value (counter : GCounter) : ℤ := counter.entries.total

/-- `increment`. -/
def increment (counter : GCounter) (amount : ℤ) : Except RelayError ℤ × GCounter :=
  if amount < 1 then
    (.error (.invalid "a grow-only counter increments by a positive amount"), counter)
  else
    let own := counter.entries.count counter.nodeId
    let grown := { counter with entries := counter.entries.set counter.nodeId (own + amount) }
    (.ok grown.value, grown)

/-- `merge`. -/
def merge (counter : GCounter) (other : Dict String ℤ) : ℤ × GCounter :=
  let merged := { counter with entries := counter.entries.mergeMax other }
  (merged.value, merged)

end GCounter

/-- A counter at every node. A merge takes the entries of a snapshot. -/
def gcounter : Replicated String GCounter ℤ (Except RelayError ℤ) where
  init nodeId := { nodeId }
  update _ counter amount := counter.increment amount
  merge _ counter other :=
    let result := counter.merge other.entries
    (.ok result.1, result.2)

/-- What an event of a run has to add: the amount of an increment, if it is positive. An increment
of any other amount is to be refused. -/
def increments (acts : List (Action String ℤ)) (a : ℕ) : ℤ :=
  match acts[a]? with
  | some (.update _ amount) => if amount < 1 then 0 else amount
  | _ => 0

section Increments

variable {acts : List (Action String ℤ)}

theorem increments_append_of_lt (x : Action String ℤ) {a : ℕ} (ha : a < acts.length) :
    increments (acts ++ [x]) a = increments acts a := by
  rw [increments, List.getElem?_append_left ha]
  rfl

theorem increments_update (i : String) (amount : ℤ) :
    increments (acts ++ [.update i amount]) acts.length = if amount < 1 then 0 else amount := by
  rw [increments, List.getElem?_concat_length]

theorem increments_merge (i : String) (source : ℕ) :
    increments (acts ++ [.merge i source]) acts.length = 0 := by
  rw [increments, List.getElem?_concat_length]

/-- No event takes anything away. -/
theorem increments_nonneg (acts : List (Action String ℤ)) (a : ℕ) : 0 ≤ increments acts a := by
  induction acts using List.reverseRecOn with
  | nil => exact le_rfl
  | append_singleton acts x ih =>
    rcases lt_trichotomy a acts.length with ha | rfl | ha
    · rw [increments_append_of_lt x ha]
      exact ih
    · cases x with
      | update i amount =>
        rw [increments_update]
        split <;> omega
      | merge i source => rw [increments_merge]
    · rw [increments, List.getElem?_eq_none]
      rw [List.length_append]
      exact ha

end Increments

/-- The entries are the sums of the increments among the events `H`. -/
structure CountsKnown (acts : List (Action String ℤ)) (node : String) (H : Finset ℕ)
    (counter : GCounter) : Prop where
  nodeId : counter.nodeId = node
  tallies : Tallies acts (increments acts) H counter.entries

/-- An increment counts itself, unless it is refused. -/
theorem CountsKnown.increment {acts : List (Action String ℤ)} {node : String} {H : Finset ℕ}
    {counter : GCounter} (h : CountsKnown acts node H counter) (hH : ∀ a ∈ H, a < acts.length)
    (amount : ℤ) : CountsKnown (acts ++ [.update node amount]) node (insert acts.length H)
      (counter.increment amount).2 := by
  have hold : ∀ a < acts.length,
      increments (acts ++ [.update node amount]) a = increments acts a := fun a =>
    increments_append_of_lt _
  rw [GCounter.increment]
  split_ifs with hamount
  · refine ⟨h.nodeId, h.tallies.keep hH _ hold ?_⟩
    rw [increments_update, if_pos hamount]
  · have hgrow := h.tallies.grow hH (.update node amount) hold
    rw [increments_update, if_neg hamount] at hgrow
    exact ⟨h.nodeId, h.nodeId ▸ hgrow⟩

/-- Every replica counts what it has heard of. -/
theorem countsKnown_run (acts : List (Action String ℤ)) (i : String) :
    CountsKnown acts i (causalHistory acts i) ((gcounter.run acts).replica i) := by
  refine (Replicated.run_induction (O := gcounter) (P := CountsKnown) ?_ ?_ ?_ ?_ acts).1 i
  · intro acts i
    exact ⟨rfl, Tallies.empty acts _⟩
  · intro acts x i H counter hH h
    exact ⟨h.nodeId, h.tallies.extend hH x fun a => increments_append_of_lt x⟩
  · intro acts i amount h
    exact h.increment (isPast_causalHistory acts i).lt amount
  · intro acts i source j other _ h hother
    have hH := isPast_causalHistory acts i
    have hH' := isPast_causalPast acts source
    have hmerged := h.tallies.merge hother.tallies hH hH' (increments_nonneg acts)
    exact ⟨h.nodeId, hmerged.keep (hH.union hH').lt _ (fun a => increments_append_of_lt _)
      (increments_merge i source)⟩

/-- The value of a replica is the sum of all increments it has heard of. -/
theorem value_run (acts : List (Action String ℤ)) (i : String) :
    ((gcounter.run acts).replica i).value = ∑ a ∈ causalHistory acts i, increments acts a :=
  (countsKnown_run acts i).tallies.total_eq (isPast_causalHistory acts i)

/-- No entry decreases. -/
theorem count_le_append (acts more : List (Action String ℤ)) (i n : String) :
    ((gcounter.run acts).replica i).entries.count n ≤
      ((gcounter.run (acts ++ more)).replica i).entries.count n := by
  induction more using List.reverseRecOn with
  | nil => rw [List.append_nil]
  | append_singleton more x ih =>
    refine ih.trans ?_
    rw [← List.append_assoc, (countsKnown_run _ i).tallies, (countsKnown_run _ i).tallies,
      ← tally_append_singleton (isPast_causalHistory _ i).lt x fun a => increments_append_of_lt x]
    exact tally_mono (increments_nonneg _) (causalHistory_subset_append _ [x] i)

/-- **The counter is exact.** After every run, whatever snapshots were merged in whatever order:
each replica's entry for a node is what the node had incremented up to some point, where the
replica has heard of the node's events up to that point and of no later ones; no entry ever
decreases; no value exceeds the total of all increments; and the value of a replica that has heard
of all increments is their total. -/
theorem gcounter_exact (acts : List (Action String ℤ)) :
    (∀ i n, ∃ point ≤ acts.length,
        (∀ a x, acts[a]? = some x → x.site = n → (a ∈ causalHistory acts i ↔ a < point)) ∧
        ((gcounter.run acts).replica i).entries.count n =
          tally acts (increments acts) (Finset.range point) n) ∧
      (∀ more i n, ((gcounter.run acts).replica i).entries.count n ≤
        ((gcounter.run (acts ++ more)).replica i).entries.count n) ∧
      (∀ i, ((gcounter.run acts).replica i).value ≤
        ∑ a ∈ Finset.range acts.length, increments acts a) ∧
      ∀ i, (∀ a, 0 < increments acts a → a ∈ causalHistory acts i) →
        ((gcounter.run acts).replica i).value =
          ∑ a ∈ Finset.range acts.length, increments acts a := by
  have hsubset : ∀ i, causalHistory acts i ⊆ Finset.range acts.length := fun i a ha =>
    Finset.mem_range.mpr ((isPast_causalHistory acts i).lt a ha)
  refine ⟨fun i n => ?_, fun more i n => ?_, fun i => ?_, fun i hall => ?_⟩
  · obtain ⟨point, hpoint, hknows⟩ := (isPast_causalHistory acts i).exists_point n
    refine ⟨point, hpoint, hknows, ?_⟩
    rw [(countsKnown_run acts i).tallies]
    refine tally_congr fun a x hx hsite => ?_
    rw [hknows a x hx hsite, Finset.mem_range]
  · exact count_le_append acts more i n
  · rw [value_run]
    exact Finset.sum_le_sum_of_subset_of_nonneg (hsubset i) fun a _ _ => increments_nonneg acts a
  · rw [value_run]
    refine Finset.sum_subset (hsubset i) fun a _ ha => ?_
    exact le_antisymm (not_lt.mp fun hpos => ha (hall a hpos)) (increments_nonneg acts a)

end Relay
