import Mathlib.Algebra.Order.Ring.Int
import Relay.Errors
import Relay.Lib.Dict
import Relay.Lib.Machine

/-!
# Producer snapshots

What lets a broker refuse duplicates, the last sequence number of every producer, is written into a
snapshot at each segment boundary, together with the first offset of any transaction that a producer
has open. After a restart the broker loads a snapshot and replays only what came later. A snapshot
past the recovered log end is refused, and so is one older than what has been loaded.

A loader may be given several snapshots, one newer than the other. Each is written into the same
table over what is there, so a producer that the newer snapshot does not list any more keeps the
entry an older one gave it, with its open transaction. The table is the newest snapshot exactly when
no producer goes missing from one loaded snapshot to the next (`ListsKnown`).

## Scope

The note on the records that need no replay is left out.

## Main definitions

* `ProducerEntry`, `ProducerSnapshot`
* `SnapshotLoader`, with `load`, `tailToReplay` and `openTransactions`
* `HoldsNewest`: the loader's table is the snapshot it loaded last

## Main results

* `tailToReplay_final`: after any run, the log from the last snapshot that was loaded is left
* `listsKnown_iff_holdsNewest`: the loader holds the newest snapshot all along exactly when every
  snapshot it accepts lists the producers it knows
-/

namespace Relay

/-- What a snapshot says of a producer. -/
structure ProducerEntry where
  producerId : ℤ
  lastSeq : ℤ
  openTxnFirstOffset : ℤ := -1
  deriving DecidableEq

/-- The producers at an offset of the log. -/
structure ProducerSnapshot where
  offset : ℤ
  entries : List ProducerEntry := []
  offset_nonneg : 0 ≤ offset

/-- The snapshot as a table; a later entry for a producer wins. -/
def ProducerSnapshot.table (snapshot : ProducerSnapshot) : Dict ℤ ProducerEntry :=
  .ofList (snapshot.entries.map fun entry => (entry.producerId, entry))

/-- The loader of a log that was recovered up to an offset. -/
structure SnapshotLoader where
  recoveredLogEnd : ℤ
  state : Dict ℤ ProducerEntry := ∅
  loadedFrom : ℤ := -1

namespace SnapshotLoader

/-- `load`. -/
def load (loader : SnapshotLoader) (snapshot : ProducerSnapshot) :
    Except RelayError String × SnapshotLoader :=
  if loader.recoveredLogEnd < snapshot.offset then
    (.error (.invalid (s!"snapshot at {snapshot.offset} is past the "
      ++ s!"recovered log end {loader.recoveredLogEnd}; the "
      ++ "log was truncated below it and it describes records that no longer exist")), loader)
  else if snapshot.offset < loader.loadedFrom then
    (.error (.invalid ("an older snapshot cannot overwrite state already "
      ++ "loaded from a newer one; the newest holds the truth")), loader)
  else
    (.ok s!"loaded {snapshot.entries.length} producer(s) at {snapshot.offset}",
      { loader with
        state := loader.state.assign (snapshot.entries.map fun entry => (entry.producerId, entry))
        loadedFrom := snapshot.offset })

/-- `tail_to_replay`. -/
def tailToReplay (loader : SnapshotLoader) : ℤ :=
  if loader.loadedFrom < 0 then loader.recoveredLogEnd
  else loader.recoveredLogEnd - loader.loadedFrom

/-- `open_transactions`. -/
def openTransactions (loader : SnapshotLoader) : List ℤ :=
  (loader.state.values.filter fun entry => 0 ≤ entry.openTxnFirstOffset).map
    ProducerEntry.producerId

/-- A snapshot that is accepted lists every producer in the table. -/
def ListsKnown (loader : SnapshotLoader) (snapshot : ProducerSnapshot) : Prop :=
  snapshot.offset ≤ loader.recoveredLogEnd → loader.loadedFrom ≤ snapshot.offset →
    ∀ id ∈ loader.state.keys, id ∈ snapshot.entries.map ProducerEntry.producerId

end SnapshotLoader

/-! ## Runs -/

/-- The loader as a component. -/
def snapshotLoader : Machine SnapshotLoader ProducerSnapshot (Except RelayError String) where
  step loader snapshot := loader.load snapshot

/-- The snapshot that a call loaded, if it was not refused. -/
def loadedByEvent : ProducerSnapshot × Except RelayError String → Option ProducerSnapshot
  | (snapshot, .ok _) => some snapshot
  | (_, .error _) => none

/-- The snapshot that a run loaded last. -/
def lastLoaded (loader : SnapshotLoader) (calls : List ProducerSnapshot) :
    Option ProducerSnapshot :=
  ((snapshotLoader.trace loader calls).filterMap loadedByEvent).getLast?

/-- After a run, the table is the snapshot that was loaded last, and the open transactions are among
those it lists. -/
structure HoldsNewest (loader : SnapshotLoader) (calls : List ProducerSnapshot) : Prop where
  state : ∀ id, (snapshotLoader.final loader calls).state.get? id =
    (lastLoaded loader calls).bind fun snapshot => snapshot.table.get? id
  openTransactions : ∀ id ∈ (snapshotLoader.final loader calls).openTransactions,
    ∃ snapshot, lastLoaded loader calls = some snapshot ∧
      ∃ entry ∈ snapshot.entries, entry.producerId = id ∧ 0 ≤ entry.openTxnFirstOffset

theorem ProducerSnapshot.mem_entries_of_get?_table {snapshot : ProducerSnapshot} {id : ℤ}
    {entry : ProducerEntry} (h : snapshot.table.get? id = some entry) :
    entry ∈ snapshot.entries ∧ entry.producerId = id := by
  obtain ⟨entry', hentry, hpair⟩ := List.mem_map.mp (Dict.mem_of_get?_ofList h)
  obtain ⟨hid, rfl⟩ := Prod.mk.inj hpair
  exact ⟨hentry, hid⟩

/-- The table alone decides the open transactions. -/
theorem holdsNewest_iff {loader : SnapshotLoader} {calls : List ProducerSnapshot} :
    HoldsNewest loader calls ↔ ∀ id, (snapshotLoader.final loader calls).state.get? id =
      (lastLoaded loader calls).bind fun snapshot => snapshot.table.get? id := by
  refine ⟨HoldsNewest.state, fun h => ⟨h, fun id hid => ?_⟩⟩
  obtain ⟨entry, hentry, rfl⟩ := List.mem_map.mp hid
  obtain ⟨hvalue, hopen⟩ := List.mem_filter.mp hentry
  obtain ⟨key, hkey⟩ := (Dict.mem_values_iff _).mp hvalue
  rw [h key] at hkey
  obtain ⟨snapshot, hlast, htable⟩ := Option.bind_eq_some_iff.mp hkey
  obtain ⟨hmem, -⟩ := ProducerSnapshot.mem_entries_of_get?_table htable
  exact ⟨snapshot, hlast, entry, hmem, rfl, of_decide_eq_true hopen⟩

/-- What a call does: it is refused, or it writes the snapshot over the table. -/
theorem load_cases (loader : SnapshotLoader) (snapshot : ProducerSnapshot) :
    (loadedByEvent (snapshot, (loader.load snapshot).1) = none ∧
        (loader.load snapshot).2 = loader ∧ loader.ListsKnown snapshot) ∨
      (loadedByEvent (snapshot, (loader.load snapshot).1) = some snapshot ∧
        (loader.load snapshot).2 =
          { loader with
            state := loader.state.assign
              (snapshot.entries.map fun entry => (entry.producerId, entry))
            loadedFrom := snapshot.offset } ∧
        snapshot.offset ≤ loader.recoveredLogEnd ∧ loader.loadedFrom ≤ snapshot.offset) := by
  rw [SnapshotLoader.load]
  split
  · next hpast => exact .inl ⟨rfl, rfl, fun hle => absurd hle (not_le.mpr hpast)⟩
  · next hpast =>
    split
    · next hold => exact .inl ⟨rfl, rfl, fun _ hle => absurd hle (not_le.mpr hold)⟩
    · next hold => exact .inr ⟨rfl, rfl, not_lt.mp hpast, not_lt.mp hold⟩

theorem lastLoaded_append_singleton (loader : SnapshotLoader) (past : List ProducerSnapshot)
    (snapshot : ProducerSnapshot) :
    lastLoaded loader (past ++ [snapshot]) =
      (loadedByEvent (snapshot, ((snapshotLoader.final loader past).load snapshot).1)).or
        (lastLoaded loader past) := by
  rw [lastLoaded, Machine.filterMap_trace_append_singleton, List.getLast?_append, lastLoaded]
  show (loadedByEvent (snapshot, ((snapshotLoader.final loader past).load snapshot).1)
    ).toList.getLast?.or _ = _
  cases loadedByEvent (snapshot, ((snapshotLoader.final loader past).load snapshot).1) with
  | none => rw [Option.toList_none, List.getLast?_nil]
  | some loaded => rw [Option.toList_some, List.getLast?_singleton]

theorem final_recoveredLogEnd (loader : SnapshotLoader) (calls : List ProducerSnapshot) :
    (snapshotLoader.final loader calls).recoveredLogEnd = loader.recoveredLogEnd := by
  refine Machine.final_eq_of_step SnapshotLoader.recoveredLogEnd (fun l snapshot => ?_) loader calls
  show (l.load snapshot).2.recoveredLogEnd = _
  rcases load_cases l snapshot with ⟨-, hstate, -⟩ | ⟨-, hstate, -⟩
  · rw [hstate]
  · rw [hstate]

theorem final_loadedFrom (recoveredLogEnd : ℤ) (calls : List ProducerSnapshot) :
    (snapshotLoader.final { recoveredLogEnd := recoveredLogEnd } calls).loadedFrom =
      (lastLoaded { recoveredLogEnd := recoveredLogEnd } calls).elim (-1)
        ProducerSnapshot.offset := by
  induction calls using List.reverseRecOn with
  | nil => rfl
  | append_singleton past snapshot ih =>
    rw [Machine.final_append_singleton, lastLoaded_append_singleton]
    show ((snapshotLoader.final _ past).load snapshot).2.loadedFrom = _
    rcases load_cases (snapshotLoader.final { recoveredLogEnd := recoveredLogEnd } past) snapshot
      with ⟨hevent, hstate, -⟩ | ⟨hevent, hstate, -⟩
    · rw [hevent, hstate, Option.none_or, ih]
    · rw [hevent, hstate, Option.some_or]
      rfl

/-- What is left to replay is the log from the snapshot that was loaded last, or all of it. -/
theorem tailToReplay_final (recoveredLogEnd : ℤ) (calls : List ProducerSnapshot) :
    (snapshotLoader.final { recoveredLogEnd := recoveredLogEnd } calls).tailToReplay =
      recoveredLogEnd - (lastLoaded { recoveredLogEnd := recoveredLogEnd } calls).elim 0
        ProducerSnapshot.offset := by
  rw [SnapshotLoader.tailToReplay, final_loadedFrom, final_recoveredLogEnd]
  cases lastLoaded { recoveredLogEnd := recoveredLogEnd } calls with
  | none => exact (sub_zero recoveredLogEnd).symm
  | some snapshot => exact if_neg snapshot.offset_nonneg.not_gt

/-- **One call.** After a run that left the loader with the newest snapshot, one more call does so
again exactly when it lists the known producers. -/
theorem HoldsNewest.listsKnown_iff {loader : SnapshotLoader} {past : List ProducerSnapshot}
    {snapshot : ProducerSnapshot} (h : HoldsNewest loader past) :
    (snapshotLoader.final loader past).ListsKnown snapshot ↔
      HoldsNewest loader (past ++ [snapshot]) := by
  have hfinal : snapshotLoader.final loader (past ++ [snapshot]) =
      ((snapshotLoader.final loader past).load snapshot).2 :=
    snapshotLoader.final_append_singleton loader past snapshot
  rw [holdsNewest_iff, lastLoaded_append_singleton, hfinal]
  rcases load_cases (snapshotLoader.final loader past) snapshot with
    ⟨hevent, hstate, hlists⟩ | ⟨hevent, hstate, hpast, hold⟩
  · rw [hevent, hstate, Option.none_or]
    exact iff_of_true hlists h.state
  · rw [hevent, hstate, Option.some_or]
    show _ ↔ ∀ id, _ = snapshot.table.get? id
    rw [ProducerSnapshot.table, Dict.get?_assign_eq_get?_ofList_iff, List.map_map]
    exact ⟨fun hlists => hlists hpast hold, fun hlists _ _ => hlists⟩

/-- **When the newest snapshot holds the truth.** In every run of an empty loader, the table is in
every state exactly the snapshot that was loaded last, and no transaction is open that it does not
list, if and only if every snapshot that is accepted lists all the producers in the table at that
moment. -/
theorem listsKnown_iff_holdsNewest (recoveredLogEnd : ℤ) (calls : List ProducerSnapshot) :
    snapshotLoader.Guarded SnapshotLoader.ListsKnown { recoveredLogEnd := recoveredLogEnd } calls ↔
      ∀ past, past <+: calls → HoldsNewest { recoveredLogEnd := recoveredLogEnd } past := by
  rw [Machine.guarded_iff_justified]
  refine justified_iff_forall_past ?_ fun past snapshot _ h => h.listsKnown_iff
  exact holdsNewest_iff.mpr fun id => rfl

/-- A producer with an open transaction in a snapshot at 10, and not in the one at 20 that is loaded
next, is still there. -/
theorem load_keeps_absent_producer :
    ¬ HoldsNewest { recoveredLogEnd := 100 }
      [⟨10, [⟨1, 5, 3⟩], by decide⟩, ⟨20, [⟨2, 7, -1⟩], by decide⟩] := by
  intro h
  have hstate : some (⟨1, 5, 3⟩ : ProducerEntry) = none := h.state 1
  cases hstate

end Relay
