import Mathlib.Algebra.Order.Ring.Int
import Mathlib.Data.List.Perm.Basic
import Relay.Lib.Machine

/-!
# Stream joins

Two streams are joined on their keys, within a window of time: a record of the one meets the records
of the other whose times are no further from its own than the window. So neither side has to be kept
for longer. An arriving record drops from the other side what is too old for it, emits a pair for
every match it finds there, and is kept on its own side.

Times do not decrease. What is too old for one record is then too old for all that come after, and
as far as these can see, each side still holds everything that has arrived (`HoldsAll`). So of any
two records that match, the one that comes later finds the other, and the earlier one does not.

## Scope

The note on the size of the state is left out.

## Main definitions

* `StreamJoin`, with `arriveLeft` and `arriveRight`
* `pairs`: all matching pairs, by nested loops

## Main results

* `emitted_perm_pairs`: a run emits each pair once
-/

namespace Relay

/-- Two streams with as many partitions each, and what is kept of them. -/
structure StreamJoin where
  window : ℤ
  leftPartitions : ℤ
  rightPartitions : ℤ
  leftState : List (String × ℤ) := []
  rightState : List (String × ℤ) := []
  copartitioned : leftPartitions = rightPartitions
  window_nonneg : 0 ≤ window

namespace StreamJoin

/-- `_expire`. -/
def expire (window now : ℤ) (state : List (String × ℤ)) : List (String × ℤ) :=
  state.filter fun e => now - e.2 ≤ window

/-- `arrive_left`. -/
def arriveLeft (join : StreamJoin) (key : String) (time : ℤ) :
    List (String × ℤ × ℤ) × StreamJoin :=
  let rightState := expire join.window time join.rightState
  ((rightState.filter fun e => e.1 = key ∧ (time - e.2).natAbs ≤ join.window).map
      fun e => (key, time, e.2),
    { join with
      leftState := join.leftState ++ [(key, time)]
      rightState := rightState })

/-- `arrive_right`. -/
def arriveRight (join : StreamJoin) (key : String) (time : ℤ) :
    List (String × ℤ × ℤ) × StreamJoin :=
  let leftState := expire join.window time join.leftState
  ((leftState.filter fun e => e.1 = key ∧ (time - e.2).natAbs ≤ join.window).map
      fun e => (key, e.2, time),
    { join with
      leftState := leftState
      rightState := join.rightState ++ [(key, time)] })

end StreamJoin

/-! ## Runs -/

/-- A record arrives on one side. -/
inductive StreamJoinCall where
  | arriveLeft (key : String) (time : ℤ)
  | arriveRight (key : String) (time : ℤ)
  deriving DecidableEq

namespace StreamJoinCall

/-- When the record arrives. -/
def time : StreamJoinCall → ℤ
  | .arriveLeft _ time => time
  | .arriveRight _ time => time

/-- The record, if it arrives on the left. -/
def left? : StreamJoinCall → Option (String × ℤ)
  | .arriveLeft key time => some (key, time)
  | .arriveRight _ _ => none

/-- The record, if it arrives on the right. -/
def right? : StreamJoinCall → Option (String × ℤ)
  | .arriveLeft _ _ => none
  | .arriveRight key time => some (key, time)

end StreamJoinCall

/-- The join as a component. -/
def streamJoin : Machine StreamJoin StreamJoinCall (List (String × ℤ × ℤ)) where
  step join
    | .arriveLeft key time => join.arriveLeft key time
    | .arriveRight key time => join.arriveRight key time

namespace StreamJoin

/-- The records that arrived on the left. -/
def lefts (calls : List StreamJoinCall) : List (String × ℤ) :=
  calls.filterMap StreamJoinCall.left?

/-- The records that arrived on the right. -/
def rights (calls : List StreamJoinCall) : List (String × ℤ) :=
  calls.filterMap StreamJoinCall.right?

/-- The triple of each left record with each right record that has its key and a time no further
from its own than the window. -/
def pairs (window : ℤ) (lefts rights : List (String × ℤ)) : List (String × ℤ × ℤ) :=
  lefts.flatMap fun l =>
    (rights.filter fun r => r.1 = l.1 ∧ (l.2 - r.2).natAbs ≤ window).map fun r => (l.1, l.2, r.2)

/-- The triples that a run emits. -/
def emitted (join : StreamJoin) (calls : List StreamJoinCall) : List (String × ℤ × ℤ) :=
  (streamJoin.trace join calls).flatMap Prod.snd

/-- Nothing has arrived. -/
structure Fresh (join : StreamJoin) : Prop where
  leftState : join.leftState = []
  rightState : join.rightState = []

/-- To a record that arrives at `now`, the state looks as if it held everything. -/
def Holds (window now : ℤ) (state arrived : List (String × ℤ)) : Prop :=
  expire window now state = expire window now arrived

variable {window now later time : ℤ} {key : String} {state arrived : List (String × ℤ)}

theorem expire_expire (hle : now ≤ later) (state : List (String × ℤ)) :
    expire window later (expire window now state) = expire window later state := by
  rw [expire, expire, List.filter_filter]
  refine List.filter_congr fun e _ => ?_
  have hold : later - e.2 ≤ window → now - e.2 ≤ window := by omega
  simpa using hold

/-- What was dropped is not missed later. -/
theorem Holds.expire (h : Holds window later state arrived) (hle : now ≤ later) :
    Holds window later (StreamJoin.expire window now state) arrived :=
  (expire_expire hle state).trans h

theorem Holds.append (h : Holds window now state arrived) (e : String × ℤ) :
    Holds window now (state ++ [e]) (arrived ++ [e]) := by
  have heq : StreamJoin.expire window now state = StreamJoin.expire window now arrived := h
  rw [Holds, StreamJoin.expire, StreamJoin.expire, List.filter_append, List.filter_append]
  exact congrArg (· ++ _) heq

/-- The matches among what is left are the matches among everything: none of them is too old. -/
theorem filter_expire (h : Holds window time state arrived) (key : String) :
    (StreamJoin.expire window time state).filter
        (fun e => e.1 = key ∧ (time - e.2).natAbs ≤ window) =
      arrived.filter fun e => e.1 = key ∧ (time - e.2).natAbs ≤ window := by
  have heq : StreamJoin.expire window time state = StreamJoin.expire window time arrived := h
  rw [heq, StreamJoin.expire, List.filter_filter]
  refine List.filter_congr fun e _ => ?_
  have hrecent : ((time - e.2).natAbs : ℤ) ≤ window → time - e.2 ≤ window := by omega
  simpa [and_assoc] using fun _ => hrecent

/-- What has arrived on the left is joined with one more record on the right. -/
theorem pairs_append_right (window : ℤ) (lefts rights : List (String × ℤ)) (key : String)
    (time : ℤ) :
    (pairs window lefts (rights ++ [(key, time)])).Perm
      (pairs window lefts rights ++
        (lefts.filter fun l => l.1 = key ∧ (time - l.2).natAbs ≤ window).map
          fun l => (key, l.2, time)) := by
  have hone : (lefts.flatMap fun l =>
      ([(key, time)].filter fun r => r.1 = l.1 ∧ (l.2 - r.2).natAbs ≤ window).map
        fun r => (l.1, l.2, r.2)) =
      (lefts.filter fun l => l.1 = key ∧ (time - l.2).natAbs ≤ window).map
        fun l => (key, l.2, time) := by
    induction lefts with
    | nil => rfl
    | cons l lefts ih =>
      have hcomm : (l.2 - time).natAbs = (time - l.2).natAbs := by omega
      rw [List.flatMap_cons, ih]
      by_cases hl : l.1 = key ∧ (time - l.2).natAbs ≤ window
      · have hr : key = l.1 ∧ (l.2 - time).natAbs ≤ window := ⟨hl.1.symm, hcomm ▸ hl.2⟩
        rw [List.filter_cons_of_pos (by simpa using hr),
          List.filter_cons_of_pos (by simpa using hl), List.map_cons, List.filter_nil,
          List.map_cons, ← hl.1]
        rfl
      · have hr : ¬ (key = l.1 ∧ (l.2 - time).natAbs ≤ window) := fun hr =>
          hl ⟨hr.1.symm, hcomm ▸ hr.2⟩
        rw [List.filter_cons_of_neg (by simpa using hr),
          List.filter_cons_of_neg (by simpa using hl)]
        rfl
  rw [← hone]
  refine List.Perm.trans (List.Perm.of_eq ?_) (List.flatMap_append_perm lefts _ _).symm
  simp only [pairs, List.filter_append, List.map_append]

/-- One more record on the left is joined with what has arrived on the right. -/
theorem pairs_append_left (window : ℤ) (lefts rights : List (String × ℤ)) (key : String)
    (time : ℤ) :
    pairs window (lefts ++ [(key, time)]) rights =
      pairs window lefts rights ++
        (rights.filter fun r => r.1 = key ∧ (time - r.2).natAbs ≤ window).map
          fun r => (key, time, r.2) := by
  rw [pairs, List.flatMap_append, List.flatMap_singleton]
  rfl

/-- What holds after a run: every pair of what has arrived was emitted, and to any record that is
not earlier, both sides look as if they held everything. -/
structure HoldsAll (join : StreamJoin) (calls : List StreamJoinCall) : Prop where
  window : (streamJoin.final join calls).window = join.window
  emitted : (join.emitted calls).Perm (pairs join.window (lefts calls) (rights calls))
  left : ∀ now, (∀ call ∈ calls, call.time ≤ now) →
    Holds join.window now (streamJoin.final join calls).leftState (lefts calls)
  right : ∀ now, (∀ call ∈ calls, call.time ≤ now) →
    Holds join.window now (streamJoin.final join calls).rightState (rights calls)

variable {join : StreamJoin} {calls : List StreamJoinCall}

theorem emitted_append_singleton (join : StreamJoin) (calls : List StreamJoinCall)
    (call : StreamJoinCall) : join.emitted (calls ++ [call]) =
      join.emitted calls ++ (streamJoin.step (streamJoin.final join calls) call).1 :=
  streamJoin.flatMap_trace_append_singleton Prod.snd join calls call

/-- **One record on the left.** -/
theorem HoldsAll.arriveLeft (h : HoldsAll join calls) (key : String)
    (htime : ∀ c ∈ calls, c.time ≤ time) : HoldsAll join (calls ++ [.arriveLeft key time]) := by
  have hfinal : streamJoin.final join (calls ++ [.arriveLeft key time]) =
      ((streamJoin.final join calls).arriveLeft key time).2 :=
    streamJoin.final_append_singleton join calls (.arriveLeft key time)
  have hlefts : lefts (calls ++ [.arriveLeft key time]) = lefts calls ++ [(key, time)] :=
    List.filterMap_append
  have hrights : rights (calls ++ [.arriveLeft key time]) = rights calls :=
    List.filterMap_append.trans (List.append_nil _)
  constructor
  · rw [hfinal, ← h.window]
    rfl
  · have hmatches : ((streamJoin.final join calls).arriveLeft key time).1 =
        ((rights calls).filter fun r => r.1 = key ∧ (time - r.2).natAbs ≤ join.window).map
          fun r => (key, time, r.2) := by
      have hright := h.right time htime
      rw [← h.window] at hright ⊢
      exact congrArg _ (filter_expire hright key)
    rw [emitted_append_singleton, hlefts, hrights, pairs_append_left, ← hmatches]
    exact h.emitted.append_right _
  · intro now hnow
    obtain ⟨hpast, -⟩ := forall_mem_append_singleton.mp hnow
    rw [hfinal, hlefts]
    exact (h.left now hpast).append (key, time)
  · intro now hnow
    obtain ⟨hpast, hle⟩ := forall_mem_append_singleton.mp hnow
    rw [hfinal, hrights]
    show Holds _ _ (StreamJoin.expire (streamJoin.final join calls).window time _) _
    rw [h.window]
    exact (h.right now hpast).expire hle

/-- **One record on the right.** -/
theorem HoldsAll.arriveRight (h : HoldsAll join calls) (key : String)
    (htime : ∀ c ∈ calls, c.time ≤ time) : HoldsAll join (calls ++ [.arriveRight key time]) := by
  have hfinal : streamJoin.final join (calls ++ [.arriveRight key time]) =
      ((streamJoin.final join calls).arriveRight key time).2 :=
    streamJoin.final_append_singleton join calls (.arriveRight key time)
  have hlefts : lefts (calls ++ [.arriveRight key time]) = lefts calls :=
    List.filterMap_append.trans (List.append_nil _)
  have hrights : rights (calls ++ [.arriveRight key time]) = rights calls ++ [(key, time)] :=
    List.filterMap_append
  constructor
  · rw [hfinal, ← h.window]
    rfl
  · have hmatches : ((streamJoin.final join calls).arriveRight key time).1 =
        ((lefts calls).filter fun l => l.1 = key ∧ (time - l.2).natAbs ≤ join.window).map
          fun l => (key, l.2, time) := by
      have hleft := h.left time htime
      rw [← h.window] at hleft ⊢
      exact congrArg _ (filter_expire hleft key)
    rw [emitted_append_singleton, hlefts, hrights]
    refine List.Perm.trans ?_ (pairs_append_right _ _ _ key time).symm
    rw [← hmatches]
    exact h.emitted.append_right _
  · intro now hnow
    obtain ⟨hpast, hle⟩ := forall_mem_append_singleton.mp hnow
    rw [hfinal, hlefts]
    show Holds _ _ (StreamJoin.expire (streamJoin.final join calls).window time _) _
    rw [h.window]
    exact (h.left now hpast).expire hle
  · intro now hnow
    obtain ⟨hpast, -⟩ := forall_mem_append_singleton.mp hnow
    rw [hfinal, hrights]
    exact (h.right now hpast).append (key, time)

theorem Fresh.holdsAll (h : join.Fresh)
    (htimes : (calls.map StreamJoinCall.time).Pairwise (· ≤ ·)) : HoldsAll join calls := by
  induction calls using List.reverseRecOn with
  | nil =>
    refine ⟨rfl, List.Perm.nil, fun now _ => ?_, fun now _ => ?_⟩
    · rw [Machine.final_nil, h.leftState]
      rfl
    · rw [Machine.final_nil, h.rightState]
      rfl
  | append_singleton calls call ih =>
    rw [List.map_append, List.map_singleton, pairwise_append_singleton, List.forall_mem_map]
      at htimes
    cases call with
    | arriveLeft key time => exact (ih htimes.1).arriveLeft key htimes.2
    | arriveRight key time => exact (ih htimes.1).arriveRight key htimes.2

/-- **A join is complete.** In every run of a new join in which the times do not decrease, the
triples that are emitted are those of all pairs of a left and a right record with the same key and
times no further apart than the window, one for each pair. -/
theorem emitted_perm_pairs (h : join.Fresh) (calls : List StreamJoinCall)
    (htimes : (calls.map StreamJoinCall.time).Pairwise (· ≤ ·)) :
    (join.emitted calls).Perm (pairs join.window (lefts calls) (rights calls)) :=
  (h.holdsAll htimes).emitted

/-- Two records at the same time, and a third that only one of them is recent enough for. -/
theorem emitted_perm_pairs_ties :
    (emitted
      { window := 100, leftPartitions := 4, rightPartitions := 4, copartitioned := rfl,
        window_nonneg := by decide }
      [.arriveLeft "k" 1000, .arriveRight "k" 1100, .arriveLeft "k" 1100,
        .arriveRight "k" 1150]).Perm
    (pairs 100 (lefts [.arriveLeft "k" 1000, .arriveRight "k" 1100, .arriveLeft "k" 1100,
        .arriveRight "k" 1150])
      (rights [.arriveLeft "k" 1000, .arriveRight "k" 1100, .arriveLeft "k" 1100,
        .arriveRight "k" 1150])) :=
  emitted_perm_pairs ⟨rfl, rfl⟩ _ (by decide)

end StreamJoin

end Relay
