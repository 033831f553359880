import Mathlib.Algebra.Order.Ring.Int
import Relay.Errors
import Relay.Lib.Machine

/-!
# Write-ahead logs

An intent is appended to a log, the log is made durable up to it, and only then is it applied. A
checkpoint records how far intents have been applied, and recovery replays from there.

`apply` and `take_checkpoint` keep to that order in every run. But `mark_durable` takes any offset,
also one that nothing has been appended at yet, and then intents are applied that do not exist. The
log is ahead of what is applied exactly in the runs that mark only offsets of the log as durable
(`MarksEntry`).

## Scope

`truncate` is left out. It changes nothing and returns a text.

## Main definitions

* `WriteAheadLog`, with `append`, `markDurable`, `apply`, `takeCheckpoint` and `replayLength`
* `WriteAheadLog.Ahead`: the order of the four counters, and what it is for

## Main results

* `guarded_marksEntry_iff_ahead`: exactly which runs keep the log ahead
-/

namespace Relay

/-- A log of intents, and how far they are durable, applied and part of a checkpoint. -/
structure WriteAheadLog where
  entries : List String := []
  durableTo : ℤ := 0
  appliedTo : ℤ := 0
  checkpoint : ℤ := 0

namespace WriteAheadLog

/-- `append`. -/
def append (log : WriteAheadLog) (intent : String) : ℤ × WriteAheadLog :=
  let next := { log with entries := log.entries ++ [intent] }
  (next.entries.length - 1, next)

/-- `mark_durable`. -/
def markDurable (log : WriteAheadLog) (offset : ℤ) : WriteAheadLog :=
  { log with durableTo := max log.durableTo (offset + 1) }

/-- `apply`. -/
def apply (log : WriteAheadLog) (offset : ℤ) : Except RelayError String × WriteAheadLog :=
  if log.durableTo ≤ offset then
    (.error (.invalid (s!"entry {offset} is not durable yet (durable to "
      ++ s!"{log.durableTo}); applying before the log is durable loses "
      ++ "it on a crash, the ordering the WAL exists to enforce")), log)
  else if offset ≠ log.appliedTo then
    (.error (.invalid s!"entries apply in order; expected {log.appliedTo}, got {offset}"), log)
  else (.ok s!"applied entry {offset}", { log with appliedTo := offset + 1 })

/-- `take_checkpoint`. -/
def takeCheckpoint (log : WriteAheadLog) : String × WriteAheadLog :=
  let next := { log with checkpoint := log.appliedTo }
  (s!"checkpoint at {next.checkpoint}; state durable up to there", next)

/-- The number that `replay_length` reports. -/
def replayLength (log : WriteAheadLog) : ℤ :=
  log.entries.length - log.checkpoint

/-- `replay_length`. -/
def replayReport (log : WriteAheadLog) : String :=
  s!"{log.replayLength} entry(ies) to replay after the checkpoint; a WAL far "
    ++ "longer than its checkpoint interval checkpoints too rarely and "
    ++ "recovers more than it needs"

end WriteAheadLog

/-! ## Runs -/

/-- A call that changes a log. -/
inductive WalCall where
  | append (intent : String)
  | markDurable (offset : ℤ)
  | apply (offset : ℤ)
  | takeCheckpoint
  deriving DecidableEq

/-- What a call answers. -/
inductive WalAnswer where
  | appended (offset : ℤ)
  | marked
  | applied (answer : Except RelayError String)
  | checkpointed (report : String)

/-- The log as a component. -/
def writeAheadLog : Machine WriteAheadLog WalCall WalAnswer where
  step log
    | .append intent => (log.append intent).map .appended id
    | .markDurable offset => (.marked, log.markDurable offset)
    | .apply offset => (log.apply offset).map .applied id
    | .takeCheckpoint => log.takeCheckpoint.map .checkpointed id

namespace WriteAheadLog

/-- The log is ahead of what is applied: an intent that is applied stands in the log and is durable,
and what is left to replay is a part of the log. -/
structure Ahead (log : WriteAheadLog) : Prop where
  checkpoint_le : log.checkpoint ≤ log.appliedTo
  appliedTo_le : log.appliedTo ≤ log.durableTo
  durableTo_le : log.durableTo ≤ log.entries.length
  applies : ∀ offset report, (log.apply offset).1 = .ok report →
    offset < log.durableTo ∧ ∃ k : ℕ, offset = k ∧ k < log.entries.length
  replayLength_nonneg : 0 ≤ log.replayLength

/-- Only an offset of the log is marked as durable. -/
def MarksEntry (log : WriteAheadLog) (call : WalCall) : Prop :=
  ∀ offset, call = .markDurable offset → offset < log.entries.length

variable {log : WriteAheadLog}

/-! ## One call -/

theorem of_apply_eq_ok {offset : ℤ} {report : String} (h : (log.apply offset).1 = .ok report) :
    offset < log.durableTo ∧ offset = log.appliedTo := by
  rw [apply] at h
  split at h
  · cases h
  · next hdurable =>
    split at h
    · cases h
    · next horder => exact ⟨not_le.mp hdurable, not_not.mp horder⟩

/-- What holds of a log after any calls. -/
structure Ordered (log : WriteAheadLog) : Prop where
  checkpoint_nonneg : 0 ≤ log.checkpoint
  checkpoint_le : log.checkpoint ≤ log.appliedTo
  appliedTo_le : log.appliedTo ≤ log.durableTo

theorem Ordered.step (h : Ordered log) (call : WalCall) :
    Ordered (writeAheadLog.step log call).2 := by
  cases call with
  | append intent => exact ⟨h.checkpoint_nonneg, h.checkpoint_le, h.appliedTo_le⟩
  | markDurable offset =>
    exact ⟨h.checkpoint_nonneg, h.checkpoint_le, h.appliedTo_le.trans (le_max_left _ _)⟩
  | apply offset =>
    show Ordered (log.apply offset).2
    rw [apply]
    split
    · exact h
    · next hdurable =>
      split
      · exact h
      · next horder =>
        obtain rfl := not_not.mp horder
        refine ⟨h.checkpoint_nonneg, h.checkpoint_le.trans (Int.le_add_one le_rfl), ?_⟩
        exact Int.add_one_le_of_lt (not_le.mp hdurable)
  | takeCheckpoint =>
    exact ⟨h.checkpoint_nonneg.trans h.checkpoint_le, le_rfl, h.appliedTo_le⟩

/-- All that an ordered log lacks to be ahead is that no more of it is durable than there is. -/
theorem Ordered.ahead_iff (h : Ordered log) : Ahead log ↔ log.durableTo ≤ log.entries.length := by
  refine ⟨Ahead.durableTo_le, fun hdurable => ?_⟩
  refine ⟨h.checkpoint_le, h.appliedTo_le, hdurable, ?_, ?_⟩
  · intro offset report happly
    obtain ⟨hlt, rfl⟩ := of_apply_eq_ok happly
    have hnonneg := h.checkpoint_nonneg.trans h.checkpoint_le
    exact ⟨hlt, log.appliedTo.toNat, (Int.toNat_of_nonneg hnonneg).symm, by omega⟩
  · exact Int.sub_nonneg_of_le ((h.checkpoint_le.trans h.appliedTo_le).trans hdurable)

/-- One call leaves no more of the log durable than there is, if it marks an offset of it. -/
theorem marksEntry_iff_step (h : log.durableTo ≤ log.entries.length) (call : WalCall) :
    log.MarksEntry call ↔ (writeAheadLog.step log call).2.durableTo ≤
      (writeAheadLog.step log call).2.entries.length := by
  cases call with
  | append intent =>
    refine iff_of_true (fun offset heq => by cases heq) ?_
    show log.durableTo ≤ ((log.entries ++ [intent]).length : ℕ)
    rw [List.length_append]
    exact h.trans (Int.ofNat_le.mpr (Nat.le_add_right _ _))
  | markDurable offset =>
    show _ ↔ max log.durableTo (offset + 1) ≤ log.entries.length
    rw [max_le_iff]
    constructor
    · exact fun hmarks => ⟨h, hmarks offset rfl⟩
    · rintro ⟨-, hlt⟩ _ heq
      obtain rfl := WalCall.markDurable.inj heq
      exact hlt
  | apply offset =>
    refine iff_of_true (fun offset heq => by cases heq) ?_
    show (log.apply offset).2.durableTo ≤ (log.apply offset).2.entries.length
    rw [apply]
    split
    · exact h
    · split
      · exact h
      · exact h
  | takeCheckpoint => exact iff_of_true (fun offset heq => by cases heq) h

/-! ## Runs -/

/-- In every run, also one that marks as durable what is not there, the checkpoint is not ahead of
what is applied, nor that of what is durable. -/
theorem ordered_final (calls : List WalCall) : Ordered (writeAheadLog.final {} calls) :=
  Machine.always (P := Ordered) ⟨le_rfl, le_rfl, le_rfl⟩ (fun _ call h => h.step call) calls

/-- **When the log stays ahead.** Exactly in the runs that mark only offsets of the log as
durable. -/
theorem guarded_marksEntry_iff_ahead (calls : List WalCall) :
    (∀ past, past <+: calls → Ahead (writeAheadLog.final {} past)) ↔
      writeAheadLog.Guarded MarksEntry {} calls := by
  rw [writeAheadLog.guarded_iff_justified]
  refine (justified_iff_forall_past ?_ ?_).symm
  · exact (ordered_final []).ahead_iff.mpr le_rfl
  · intro past call _ hpast
    rw [(ordered_final (past ++ [call])).ahead_iff, writeAheadLog.final_append_singleton]
    exact marksEntry_iff_step hpast.durableTo_le call

/-- **An intent that does not exist is applied**, once its offset was marked as durable, and a
checkpoint then leaves a negative number of intents to replay. -/
theorem applied_before_appended :
    ¬ ∀ calls, Ahead (writeAheadLog.final {} calls) := by
  intro h
  have hnonneg := (h [.markDurable 0, .apply 0, .takeCheckpoint]).replayLength_nonneg
  exact absurd hnonneg (by decide)

end WriteAheadLog

end Relay
