import Relay.Lib.Dict
import Relay.Partition

/-!
# Consumer groups

A group owns one committed offset per partition number. Commits move forward and never past the
partition's watermark; a commit that jumps over records is accepted and logged as a skip.

## Scope

The registry of groups is left out: it keeps groups by name, and nothing here looks one up. So is
the line that says what a contract means after a crash.

## Main definitions

* `ConsumerGroup`, with `create`, `position`, `commit` and `lag`

## Main results

* `position_le_commit`: a commit takes no position back
* `exists_lag_eq_ok`: the lag of a group is known, and not negative
-/

namespace Relay

/-- `CONTRACTS`: the delivery contract a group signs. -/
inductive Contract where
  | atLeastOnce
  | atMostOnce
  deriving DecidableEq, Repr

/-- The contract a text names, if it names one. -/
def Contract.ofString? : String → Option Contract
  | "at-least-once" => some .atLeastOnce
  | "at-most-once" => some .atMostOnce
  | _ => none

/-- A group's committed offsets, by partition number. -/
structure ConsumerGroup where
  name : String
  contract : Contract
  committed : Dict ℤ ℤ := ∅
  skipsLogged : List String := []
  deriving DecidableEq

namespace ConsumerGroup

/-- `ConsumerGroup(name, contract)`. -/
def create (name contract : String) : Except RelayError ConsumerGroup :=
  match Contract.ofString? contract with
  | some contract => .ok { name, contract }
  | none =>
    .error (.invalid (s!"{name} must sign a delivery contract: "
      ++ "one of ('at-least-once', 'at-most-once'); the teams that get "
      ++ "burned never knew they had chosen"))

/-- `position`: the committed offset, `0` before the first commit. -/
def position (group : ConsumerGroup) (partitionNumber : ℤ) : ℤ :=
  (group.committed.get? partitionNumber).getD 0

/-- `commit`. -/
def commit (group : ConsumerGroup) (partition : Partition) (offset : ℤ) :
    Except RelayError String × ConsumerGroup :=
  let held := group.position partition.number
  if offset < held then
    (.error (.invalid (s!"{group.name} committed {held} already; "
      ++ "commits move forward")), group)
  else if offset > partition.highWatermark then
    (.error (.invalid ("cannot commit past the watermark; that is "
      ++ "claiming credit for records not yet promised")), group)
  else
    let jumped := offset - held
    let skipsLogged :=
      if jumped > 1 then
        group.skipsLogged ++ [s!"partition {partition.number}: skipped "
          ++ s!"{jumped - 1} record(s) between {held} and {offset - 1}"]
      else group.skipsLogged
    let note :=
      if jumped > 1 then s!"; {jumped - 1} skip(s) logged, not disguised as progress" else ""
    (.ok (s!"{group.name} committed partition {partition.number} to {offset}" ++ note),
      { group with skipsLogged, committed := group.committed.set partition.number offset })

/-- `lag`. -/
def lag (group : ConsumerGroup) (partition : Partition) : Except RelayError ℤ :=
  partition.lagOf (min (group.position partition.number) partition.highWatermark)

theorem position_of_committed_empty {group : ConsumerGroup} (h : group.committed = ∅) (n : ℤ) :
    group.position n = 0 := by
  rw [position, h, Dict.get?_empty, Option.getD_none]

/-- **Commits move forward.** No commit, accepted or refused, on this partition or another,
lowers a group's position. -/
theorem position_le_commit (group : ConsumerGroup) (partition : Partition) (offset n : ℤ) :
    group.position n ≤ (group.commit partition offset).2.position n := by
  simp only [commit]
  split
  · exact Int.le_refl _
  next hforward =>
  split
  · exact Int.le_refl _
  · simp only [position, Dict.get?_set]
    split
    · next hn =>
      subst hn
      exact Int.not_lt.mp hforward
    · exact Int.le_refl _

/-- A lag is never refused: the position is cut at the watermark first. -/
theorem exists_lag_eq_ok (group : ConsumerGroup) (partition : Partition) :
    ∃ lag, 0 ≤ lag ∧ group.lag partition = .ok lag := by
  refine ⟨_, ?_, by rw [lag, Partition.lagOf, if_neg (by omega)]⟩
  omega

end ConsumerGroup

end Relay
