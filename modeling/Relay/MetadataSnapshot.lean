import Mathlib.Algebra.Order.Ring.Int
import Mathlib.Tactic.Linarith
import Relay.Errors
import Relay.Lib.Machine

/-!
# Metadata snapshots

The metadata log would take ever longer to replay if it were not folded into snapshots. A snapshot
at an offset holds the effect of the log up to it, so that part of the log can be discarded, once
the snapshot is durable, and only the tail is replayed.

There is one slot for the snapshot. Taking a new one puts it in the place of one that may have been
durable, and it is not durable itself until it is marked so. So an offset that the log has lost need
not be in a durable snapshot now, but it was in one when it was lost, and what has taken that
snapshot's place covers it too (`SafelyGone`).

Offsets are not counted in the same way everywhere. A snapshot at `s` lets the log start at `s + 1`,
while the tail after it is counted from `s`, so the record at `s` may be counted twice when the
first snapshot is taken, and a snapshot at the log end lets the log start one past it.

## Main definitions

* `SnapshotManager`, with `take`, `markDurable`, `discardBelow`, `replayTail` and `load`
* `PreservesHistory`: what a run has kept of the log

## Main results

* `preservesHistory`: every run does
* `load_final`: a log that began at zero can always be loaded
-/

namespace Relay

/-- The metadata log, from its start to its end, and its snapshot. -/
structure SnapshotManager where
  logStart : ℤ := 0
  logEnd : ℤ := 0
  snapshotOffset : ℤ := -1
  snapshotDurable : Bool := false
  deriving DecidableEq

namespace SnapshotManager

/-- `take`. -/
def take (manager : SnapshotManager) (atOffset : ℤ) :
    Except RelayError String × SnapshotManager :=
  if manager.logEnd < atOffset then
    (.error (.invalid (s!"cannot snapshot at {atOffset}; the log only "
      ++ s!"reaches {manager.logEnd}")), manager)
  else if atOffset ≤ manager.snapshotOffset then
    (.error (.invalid ("a snapshot must advance; one that never refreshes "
      ++ "lets the replay tail grow until startup is slow again")), manager)
  else
    (.ok s!"snapshot taken at {atOffset}, not yet durable",
      { manager with
        snapshotOffset := atOffset
        snapshotDurable := false })

/-- `mark_durable`. -/
def markDurable (manager : SnapshotManager) : SnapshotManager :=
  { manager with snapshotDurable := true }

/-- `discard_below`. -/
def discardBelow (manager : SnapshotManager) : Except RelayError String × SnapshotManager :=
  if manager.snapshotDurable = false then
    (.error (.invalid ("refusing to discard log below a snapshot not yet "
      ++ "durably written; that is the only copy of records "
      ++ "not folded into a persisted snapshot")), manager)
  else
    (.ok s!"log below {manager.snapshotOffset + 1} discarded; folded into the snapshot",
      { manager with logStart := manager.snapshotOffset + 1 })

/-- `replay_tail`. -/
def replayTail (manager : SnapshotManager) : ℤ :=
  if manager.snapshotOffset < 0 then manager.logEnd - manager.logStart
  else manager.logEnd - manager.snapshotOffset

/-- `load`. -/
def load (manager : SnapshotManager) : Except RelayError String :=
  if 0 ≤ manager.snapshotOffset ∧ manager.snapshotOffset + 1 < manager.logStart then
    .error (.invalid ("the log start is past the snapshot offset; records "
      ++ "the snapshot expected to replay are gone and the "
      ++ "state would have a hole"))
  else .ok (s!"loaded snapshot at {manager.snapshotOffset}, replaying a "
    ++ s!"tail of {manager.replayTail} record(s); a short tail is a fast "
    ++ "failover, a long one a slow one")

/-- A log that has no snapshot yet. -/
structure Unfolded (manager : SnapshotManager) : Prop where
  logStart_nonneg : 0 ≤ manager.logStart
  logStart_le : manager.logStart ≤ manager.logEnd
  snapshotOffset : manager.snapshotOffset = -1

end SnapshotManager

/-! ## Runs -/

/-- A call to a snapshot manager. -/
inductive MetadataSnapshotCall where
  | take (atOffset : ℤ)
  | markDurable
  | discardBelow
  deriving DecidableEq

/-- What a call answers. -/
inductive MetadataSnapshotAnswer where
  | returned (answer : Except RelayError String)
  | done

/-- The manager as a component. -/
def snapshotManager : Machine SnapshotManager MetadataSnapshotCall MetadataSnapshotAnswer where
  step manager
    | .take atOffset => (manager.take atOffset).map .returned id
    | .markDurable => (.done, manager.markDurable)
    | .discardBelow => manager.discardBelow.map .returned id

namespace SnapshotManager

/-- Some durable snapshot of the run held the offset, and it is still in the slot and durable, or a
later one has taken its place. -/
def SafelyGone (start : SnapshotManager) (calls : List MetadataSnapshotCall) (offset : ℤ) : Prop :=
  ∃ past, past <+: calls ∧ (snapshotManager.final start past).snapshotDurable = true ∧
    offset ≤ (snapshotManager.final start past).snapshotOffset ∧
    (((snapshotManager.final start calls).snapshotOffset =
        (snapshotManager.final start past).snapshotOffset ∧
      (snapshotManager.final start calls).snapshotDurable = true) ∨
      (snapshotManager.final start past).snapshotOffset <
        (snapshotManager.final start calls).snapshotOffset)

/-- What a run has kept of the log. -/
structure PreservesHistory (start : SnapshotManager) (calls : List MetadataSnapshotCall) :
    Prop where
  /-- The log starts no later than it ends, unless a snapshot of all of it was asked for. -/
  logStart_le : MetadataSnapshotCall.take start.logEnd ∉ calls →
    (snapshotManager.final start calls).logStart ≤ (snapshotManager.final start calls).logEnd
  /-- What the log has lost in the run is held by snapshots. -/
  covered : (snapshotManager.final start calls).logStart = start.logStart ∨
    ∀ offset < (snapshotManager.final start calls).logStart, SafelyGone start calls offset
  /-- Between snapshots, the tail shrinks by what is folded. -/
  refold : ∀ past s report, past ++ [.take s] <+: calls →
    ((snapshotManager.final start past).take s).1 = .ok report →
    0 ≤ (snapshotManager.final start past).snapshotOffset →
    (snapshotManager.final start (past ++ [.take s])).replayTail +
        (s - (snapshotManager.final start past).snapshotOffset) =
      (snapshotManager.final start past).replayTail
  /-- The first snapshot and the tail after it leave out nothing, and at most one record is counted
  in both. -/
  firstFold : ∀ past s report, past ++ [.take s] <+: calls →
    ((snapshotManager.final start past).take s).1 = .ok report →
    (snapshotManager.final start past).snapshotOffset < 0 →
    (snapshotManager.final start past).replayTail ≤
        (snapshotManager.final start (past ++ [.take s])).replayTail +
          (s - (snapshotManager.final start past).logStart + 1) ∧
      (snapshotManager.final start (past ++ [.take s])).replayTail +
          (s - (snapshotManager.final start past).logStart + 1) ≤
        (snapshotManager.final start past).replayTail + 1

variable {start : SnapshotManager} {calls : List MetadataSnapshotCall}

/-! ## One call -/

/-- What a call does: it leaves everything as it is, it takes a later snapshot that is not durable,
it marks the snapshot, or it discards the log up to a durable one. -/
theorem step_cases (manager : SnapshotManager) (call : MetadataSnapshotCall) :
    (snapshotManager.step manager call).2 = manager ∨
      (∃ s, call = .take s ∧ s ≤ manager.logEnd ∧ manager.snapshotOffset < s ∧
        (snapshotManager.step manager call).2 =
          { manager with snapshotOffset := s, snapshotDurable := false }) ∨
      (snapshotManager.step manager call).2 = { manager with snapshotDurable := true } ∨
      manager.snapshotDurable = true ∧
        (snapshotManager.step manager call).2 =
          { manager with logStart := manager.snapshotOffset + 1 } := by
  cases call with
  | take s =>
    have hstep : (snapshotManager.step manager (.take s)).2 = (manager.take s).2 := rfl
    rw [hstep, take]
    split
    · exact .inl rfl
    · next hend =>
      split
      · exact .inl rfl
      · next hnew => exact .inr (.inl ⟨s, rfl, not_lt.mp hend, not_le.mp hnew, rfl⟩)
  | markDurable => exact .inr (.inr (.inl rfl))
  | discardBelow =>
    have hstep : (snapshotManager.step manager .discardBelow).2 = manager.discardBelow.2 := rfl
    rw [hstep, discardBelow]
    split
    · exact .inl rfl
    · next hdurable => exact .inr (.inr (.inr ⟨by simpa using hdurable, rfl⟩))

/-- A snapshot that is accepted is as far from the log end as the tail says. -/
theorem replayTail_take {manager : SnapshotManager} {s : ℤ} {report : String}
    (hpos : -1 ≤ manager.snapshotOffset) (h : (manager.take s).1 = .ok report) :
    (manager.take s).2.replayTail = manager.logEnd - s := by
  rw [take] at h ⊢
  split at h
  · cases h
  · next hend =>
    split at h
    · cases h
    · next hnew =>
      rw [if_neg hend, if_neg hnew, replayTail]
      exact if_neg (by linarith)

/-! ## Runs -/

theorem final_logEnd (start : SnapshotManager) (calls : List MetadataSnapshotCall) :
    (snapshotManager.final start calls).logEnd = start.logEnd := by
  refine Machine.final_eq_of_step logEnd (fun manager call => ?_) start calls
  rcases step_cases manager call with hsame | ⟨s, -, -, -, hnext⟩ | hnext | ⟨-, hnext⟩
  · rw [hsame]
  · rw [hnext]
  · rw [hnext]
  · rw [hnext]

theorem Unfolded.le_snapshotOffset (h : start.Unfolded) (calls : List MetadataSnapshotCall) :
    -1 ≤ (snapshotManager.final start calls).snapshotOffset := by
  refine Machine.always (P := fun s : SnapshotManager => -1 ≤ s.snapshotOffset)
    h.snapshotOffset.ge ?_ calls
  intro manager call h
  rcases step_cases manager call with hsame | ⟨s, -, -, hnew, hnext⟩ | hnext | ⟨-, hnext⟩
  · rwa [hsame]
  · rw [hnext]
    exact h.trans hnew.le
  · rwa [hnext]
  · rwa [hnext]

/-- The log starts no later than one past the last offset a snapshot may be taken at. -/
theorem Unfolded.logStart_le_of (h : start.Unfolded) {bound : ℤ}
    (hstart : start.logStart ≤ bound + 1)
    (hbound : ∀ s, .take s ∈ calls → s ≤ start.logEnd → s ≤ bound) :
    (snapshotManager.final start calls).snapshotOffset ≤ bound ∧
      (snapshotManager.final start calls).logStart ≤ bound + 1 := by
  induction calls using List.reverseRecOn with
  | nil =>
    refine ⟨?_, hstart⟩
    rw [Machine.final_nil, h.snapshotOffset]
    linarith [h.logStart_nonneg]
  | append_singleton calls call ih =>
    obtain ⟨hsnapshot, hlog⟩ := ih fun s hs => hbound s (List.mem_append_left _ hs)
    rw [Machine.final_append_singleton]
    rcases step_cases (snapshotManager.final start calls) call with
      hsame | ⟨s, rfl, hend, -, hnext⟩ | hnext | ⟨-, hnext⟩
    · rw [hsame]
      exact ⟨hsnapshot, hlog⟩
    · rw [hnext]
      rw [final_logEnd] at hend
      exact ⟨hbound s (List.mem_append_right _ List.mem_cons_self) hend, hlog⟩
    · rw [hnext]
      exact ⟨hsnapshot, hlog⟩
    · rw [hnext]
      exact ⟨hsnapshot, add_le_add_left hsnapshot 1⟩

/-- An offset that is safely gone stays so. -/
theorem SafelyGone.step {offset : ℤ} (h : SafelyGone start calls offset)
    (call : MetadataSnapshotCall) : SafelyGone start (calls ++ [call]) offset := by
  obtain ⟨past, hpast, hdurable, hoffset, hslot⟩ := h
  refine ⟨past, hpast.trans (List.prefix_append calls [call]), hdurable, hoffset, ?_⟩
  rw [Machine.final_append_singleton]
  rcases step_cases (snapshotManager.final start calls) call with
    hsame | ⟨s, -, -, hnew, hnext⟩ | hnext | ⟨-, hnext⟩
  · rwa [hsame]
  · rw [hnext]
    rcases hslot with ⟨hslot, -⟩ | hslot
    · exact .inr (hslot ▸ hnew)
    · exact .inr (hslot.trans hnew)
  · rw [hnext]
    exact hslot.imp_left fun hslot => ⟨hslot.1, rfl⟩
  · rwa [hnext]

/-- Unless the log still starts where it did, what came before is safely gone. -/
theorem covered_final (start : SnapshotManager) (calls : List MetadataSnapshotCall) :
    (snapshotManager.final start calls).logStart = start.logStart ∨
      ∀ offset < (snapshotManager.final start calls).logStart, SafelyGone start calls offset := by
  induction calls using List.reverseRecOn with
  | nil => exact .inl rfl
  | append_singleton calls call ih =>
    have keep (hsame : (snapshotManager.final start (calls ++ [call])).logStart =
        (snapshotManager.final start calls).logStart) :
        (snapshotManager.final start (calls ++ [call])).logStart = start.logStart ∨
          ∀ offset < (snapshotManager.final start (calls ++ [call])).logStart,
            SafelyGone start (calls ++ [call]) offset := by
      rw [hsame]
      exact ih.imp_right fun h offset hoffset => (h offset hoffset).step call
    have hfinal := snapshotManager.final_append_singleton start calls call
    rcases step_cases (snapshotManager.final start calls) call with
      hsame | ⟨s, -, -, -, hnext⟩ | hnext | ⟨hdurable, hnext⟩
    · exact keep (by rw [hfinal, hsame])
    · exact keep (by rw [hfinal, hnext])
    · exact keep (by rw [hfinal, hnext])
    · refine .inr fun offset hoffset => ?_
      rw [hfinal, hnext] at hoffset
      refine ⟨calls, List.prefix_append calls [call], hdurable, Int.lt_add_one_iff.mp hoffset, ?_⟩
      rw [hfinal, hnext]
      exact .inl ⟨rfl, hdurable⟩

/-- **What a run keeps of the log.** From any log without a snapshot and in any order of calls, the
log does not start past its end unless a snapshot at the end was asked for; what it has lost was in
a durable snapshot, which is still the current one or was replaced by a later one; and the tails add
up. -/
theorem preservesHistory (h : start.Unfolded) (calls : List MetadataSnapshotCall) :
    PreservesHistory start calls := by
  have htail {past : List MetadataSnapshotCall} {s : ℤ} {report : String}
      (hok : ((snapshotManager.final start past).take s).1 = .ok report) :
      (snapshotManager.final start (past ++ [.take s])).replayTail = start.logEnd - s := by
    rw [← final_logEnd start past, ← replayTail_take (h.le_snapshotOffset past) hok,
      Machine.final_append_singleton]
    rfl
  constructor
  · intro hnot
    rw [final_logEnd]
    have hbound : ∀ s, .take s ∈ calls → s ≤ start.logEnd → s ≤ start.logEnd - 1 := by
      intro s hs hle
      refine Int.le_sub_one_of_lt (lt_of_le_of_ne hle ?_)
      rintro rfl
      exact hnot hs
    have hle := (h.logStart_le_of (by linarith [h.logStart_le]) hbound).2
    rwa [sub_add_cancel] at hle
  · exact covered_final start calls
  · intro past s report _ hok hsnapshot
    rw [htail hok, replayTail, if_neg hsnapshot.not_gt, final_logEnd]
    exact sub_add_sub_cancel _ _ _
  · intro past s report _ hok hsnapshot
    rw [htail hok, replayTail, if_pos hsnapshot, final_logEnd]
    constructor <;> linarith

/-- A run that takes two snapshots and discards below the first. -/
theorem preservesHistory_refreshed :
    PreservesHistory { logEnd := 10 } [.take 4, .markDurable, .discardBelow, .take 6] :=
  preservesHistory ⟨le_rfl, by decide, rfl⟩ _

/-- A snapshot at the end of the log lets it start past its end; a new snapshot is not durable,
though the log has been discarded up to an earlier one; and the offsets that the first snapshot
folds and the tail after it are one more than the tail before. -/
theorem history_counted_unevenly :
    (snapshotManager.final { logEnd := 10 } [.take 10, .markDurable, .discardBelow]).logStart = 11 ∧
      (snapshotManager.final { logEnd := 10 }
        [.take 4, .markDurable, .discardBelow, .take 6]).logStart = 5 ∧
      (snapshotManager.final { logEnd := 10 }
        [.take 4, .markDurable, .discardBelow, .take 6]).snapshotDurable = false ∧
      (snapshotManager.final { logEnd := 10 } [.take 4]).replayTail + (4 - 0 + 1) ≠
        ({ logEnd := 10 } : SnapshotManager).replayTail := by
  decide

/-- A log that began at zero can always be loaded: it never starts past what its snapshot holds. -/
theorem load_final (hzero : start.logStart = 0) (calls : List MetadataSnapshotCall) :
    ∃ report, (snapshotManager.final start calls).load = .ok report := by
  refine ⟨_, if_neg ?_⟩
  rintro ⟨hsnapshot, hpast⟩
  rcases covered_final start calls with hsame | hgone
  · rw [hsame, hzero] at hpast
    linarith
  · obtain ⟨past, -, -, hoffset, ⟨hslot, -⟩ | hslot⟩ := hgone _ hpast
    · linarith
    · linarith

end SnapshotManager

end Relay
