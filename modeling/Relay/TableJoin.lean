import Mathlib.Algebra.Order.Ring.Int
import Relay.Lib.Machine
import Relay.Lib.Updates

/-!
# Table joins

A table holds the current value of each key, and the join of two tables holds the sum of the two
values for each key that both have. Either table is updated by a value or a tombstone, and each time
the result for the key is sent out again: the new sum, or a tombstone to withdraw a sum that no
longer holds, or nothing, if there was none to withdraw.

Whoever applies what is sent out has the join of the two tables, and is never told to withdraw what
it does not hold.

## Scope

The report on how many keys both tables have is left out.

## Main definitions

* `TableJoin`, with `updateLeft` and `updateRight`
* `TableJoin.downstream`: the table of whoever applies what was sent out

## Main results

* `TableJoin.tracksJoin`: it is the join of the inputs, in every run
-/

namespace Relay

/-- The two tables of a join, partitioned alike. -/
structure TableJoin where
  leftPartitions : ℤ
  rightPartitions : ℤ
  left : Dict String ℤ := ∅
  right : Dict String ℤ := ∅
  copartitioned : leftPartitions = rightPartitions

/-- What a join sends out for a key. -/
inductive JoinEmission where
  | joined (key : String) (value : ℤ)
  | tombstone (key : String)
  | noResult (key : String)
  deriving DecidableEq

/-- The text of an emission. -/
def JoinEmission.text : JoinEmission → String
  | .joined key value => s!"{key}: joined = {value}"
  | .tombstone key => s!"{key}: tombstone, withdrawing the previous join"
  | .noResult key => s!"{key}: no result, one side absent, nothing to withdraw"

/-- What an emission tells whoever keeps a copy of the join. -/
def JoinEmission.update : JoinEmission → Option (String × Option ℤ)
  | .joined key value => some (key, some value)
  | .tombstone key => some (key, none)
  | .noResult _ => none

/-- The sum of two values, if both are there. -/
def joinValues : Option ℤ → Option ℤ → Option ℤ
  | some l, some r => some (l + r)
  | _, _ => none

namespace TableJoin

/-- `_joined`. -/
def joined (join : TableJoin) (key : String) : Option ℤ :=
  joinValues (join.left.get? key) (join.right.get? key)

/-- `_emit`. -/
def emit (key : String) (had now : Option ℤ) : JoinEmission :=
  match now with
  | some value => .joined key value
  | none =>
    match had with
    | some _ => .tombstone key
    | none => .noResult key

/-- `update_left`. -/
def updateLeft (join : TableJoin) (key : String) (value : Option ℤ) : JoinEmission × TableJoin :=
  let next := { join with left := join.left.apply (key, value) }
  (emit key (join.joined key) (next.joined key), next)

/-- `update_right`. -/
def updateRight (join : TableJoin) (key : String) (value : Option ℤ) : JoinEmission × TableJoin :=
  let next := { join with right := join.right.apply (key, value) }
  (emit key (join.joined key) (next.joined key), next)

/-- What is sent out is applied as the change of the key's sum. -/
theorem get?_apply_emit (d : Dict String ℤ) (key : String) {had now : Option ℤ}
    (hhad : d.get? key = had) (k : String) :
    ((emit key had now).update.elim d d.apply).get? k =
      if k = key then now else d.get? k := by
  cases now with
  | some value => exact d.get?_apply (key, some value) k
  | none =>
    cases had with
    | some value => exact d.get?_apply (key, none) k
    | none =>
      show d.get? k = _
      split
      · next hk => rw [hk, hhad]
      · rfl

/-- A tombstone is only sent out for a sum. -/
theorem exists_of_emit_eq_tombstone {key k : String} {had now : Option ℤ}
    (h : emit key had now = .tombstone k) : k = key ∧ ∃ value, had = some value := by
  cases now with
  | some value => cases h
  | none =>
    cases had with
    | some value => exact ⟨(JoinEmission.tombstone.inj h).symm, value, rfl⟩
    | none => cases h

end TableJoin

/-! ## Runs -/

/-- An update of one of the tables. -/
inductive TableJoinCall where
  | updateLeft (key : String) (value : Option ℤ)
  | updateRight (key : String) (value : Option ℤ)
  deriving DecidableEq

/-- The update, if it is one of the left table. -/
def TableJoinCall.left : TableJoinCall → Option (String × Option ℤ)
  | .updateLeft key value => some (key, value)
  | .updateRight _ _ => none

/-- The update, if it is one of the right table. -/
def TableJoinCall.right : TableJoinCall → Option (String × Option ℤ)
  | .updateLeft _ _ => none
  | .updateRight key value => some (key, value)

/-- The key of an update. -/
def TableJoinCall.key : TableJoinCall → String
  | .updateLeft key _ => key
  | .updateRight key _ => key

/-- The join as a component. -/
def tableJoin : Machine TableJoin TableJoinCall JoinEmission where
  step join
    | .updateLeft key value => join.updateLeft key value
    | .updateRight key value => join.updateRight key value

namespace TableJoin

/-- The table of whoever began with an empty one and applied what was sent out. -/
def downstream (join : TableJoin) (calls : List TableJoinCall) : Dict String ℤ :=
  Dict.replay ∅ ((tableJoin.trace join calls).filterMap fun e => e.2.update)

/-- The table downstream is the join of what the inputs say last of each key, and a tombstone is
sent out only for a key it holds. -/
structure TracksJoin (join : TableJoin) (calls : List TableJoinCall) : Prop where
  table : ∀ key, (join.downstream calls).get? key =
    joinValues (latest (calls.filterMap TableJoinCall.left) key)
      (latest (calls.filterMap TableJoinCall.right) key)
  withdraws : ∀ past call future, calls = past ++ call :: future → ∀ key,
    (tableJoin.step (tableJoin.final join past) call).1 = .tombstone key →
    ∃ value, (join.downstream past).get? key = some value

/-- A join of empty tables. -/
structure Fresh (join : TableJoin) : Prop where
  left : join.left = ∅
  right : join.right = ∅

variable {join : TableJoin} {calls : List TableJoinCall}

/-- A call sends out the change of the sum of its key, and changes no other. -/
theorem step_spec (join : TableJoin) (call : TableJoinCall) :
    (tableJoin.step join call).1 =
        emit call.key (join.joined call.key) ((tableJoin.step join call).2.joined call.key) ∧
      ∀ k, k ≠ call.key → (tableJoin.step join call).2.joined k = join.joined k := by
  cases call with
  | updateLeft key value =>
    refine ⟨rfl, fun k hk => ?_⟩
    have hleft : (join.left.apply (key, value)).get? k = join.left.get? k :=
      (join.left.get?_apply (key, value) k).trans (if_neg hk)
    exact congrArg (joinValues · (join.right.get? k)) hleft
  | updateRight key value =>
    refine ⟨rfl, fun k hk => ?_⟩
    have hright : (join.right.apply (key, value)).get? k = join.right.get? k :=
      (join.right.get?_apply (key, value) k).trans (if_neg hk)
    exact congrArg (joinValues (join.left.get? k)) hright

/-- The tables are what their updates make of them. -/
theorem Fresh.tables (h : join.Fresh) (calls : List TableJoinCall) :
    (tableJoin.final join calls).left = Dict.replay ∅ (calls.filterMap TableJoinCall.left) ∧
      (tableJoin.final join calls).right =
        Dict.replay ∅ (calls.filterMap TableJoinCall.right) := by
  induction calls using List.reverseRecOn with
  | nil => exact ⟨h.left, h.right⟩
  | append_singleton calls call ih =>
    rw [Machine.final_append_singleton, List.filterMap_append, List.filterMap_append,
      Dict.replay_append, Dict.replay_append, ← ih.1, ← ih.2]
    cases call <;> exact ⟨rfl, rfl⟩

theorem downstream_append_singleton (join : TableJoin) (calls : List TableJoinCall)
    (call : TableJoinCall) :
    join.downstream (calls ++ [call]) =
      (tableJoin.step (tableJoin.final join calls) call).1.update.elim (join.downstream calls)
        (join.downstream calls).apply := by
  rw [downstream, Machine.filterMap_trace_append_singleton, Dict.replay_append]
  cases (tableJoin.step (tableJoin.final join calls) call).1.update <;> rfl

/-- The table downstream is the join that the component computes. -/
theorem Fresh.get?_downstream (h : join.Fresh) (calls : List TableJoinCall) (k : String) :
    (join.downstream calls).get? k = (tableJoin.final join calls).joined k := by
  induction calls using List.reverseRecOn generalizing k with
  | nil =>
    rw [Machine.final_nil, joined, h.left]
    rfl
  | append_singleton calls call ih =>
    obtain ⟨hemits, hothers⟩ := (tableJoin.final join calls).step_spec call
    rw [downstream_append_singleton, hemits, get?_apply_emit _ _ (ih call.key),
      Machine.final_append_singleton]
    split
    · next hk => rw [hk]
    · next hk => rw [ih k, hothers k hk]

/-- **What a table join sends out is the join of its inputs.** In every run of a join of empty
tables, whoever applies what is sent out holds the sum for each key to which both inputs have given
a value, and nothing else; and it is told to withdraw only what it holds. -/
theorem tracksJoin (h : join.Fresh) (calls : List TableJoinCall) : join.TracksJoin calls := by
  constructor
  · intro key
    obtain ⟨hleft, hright⟩ := h.tables calls
    rw [h.get?_downstream, joined, hleft, hright, Dict.get?_replay_empty, Dict.get?_replay_empty]
  · rintro past call future - key htombstone
    rw [((tableJoin.final join past).step_spec call).1] at htombstone
    obtain ⟨rfl, value, hvalue⟩ := exists_of_emit_eq_tombstone htombstone
    exact ⟨value, (h.get?_downstream past _).trans hvalue⟩

/-- A sum that is sent out, changed and withdrawn. -/
theorem tracksJoin_withdrawn :
    TracksJoin { leftPartitions := 4, rightPartitions := 4, copartitioned := rfl }
      [.updateLeft "k" (some 10), .updateRight "k" (some 20), .updateLeft "k" (some 5),
        .updateRight "k" none] :=
  tracksJoin ⟨rfl, rfl⟩ _

end TableJoin

end Relay
