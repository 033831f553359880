import Mathlib.Data.Int.Order.Basic
import Mathlib.Data.Finset.Max
import Mathlib.Data.List.Dedup
import Mathlib.Data.List.Induction
import Relay.Errors
import Relay.Lib.Dict
import Relay.Records

/-!
# Compaction

Compaction keeps the last entry of each key at its own offset, and drops a tombstone once every
consumer is past it and it has aged. A consumer that has read the original entries below some
position, and goes on in the compacted log from there, must end with the map that all the
original entries give.

That map has, at each key, the value of the key's last entry (`get?_replay_of_last`). So the
consumer is right as soon as it sees each key's last entry: below its position it has seen all of
them, and from its position on they are all in the compacted log, since a tombstone is dropped
only below every consumer's position.

## Scope

The report on the ratio that a compaction achieves is left out. It would need floats.

## Main definitions

* `KeyedEntry`, `Compactor`, with `compact` and `preservesOffsets`
* `replay`: the map that a list of entries builds

## Main results

* `compact_invisible`
-/

namespace Relay

/-- A record of a keyed topic. One without a value is a tombstone. -/
structure KeyedEntry where
  offset : ℤ
  key : Bytes
  value : Option Bytes
  deriving DecidableEq

/-- How long tombstones are kept, and what the compactions so far have done. -/
structure Compactor where
  tombstoneRetentionTicks : ℤ
  removedSuperseded : ℕ := 0
  tombstonesReaped : ℕ := 0
  kept : List KeyedEntry := []
  deriving DecidableEq

namespace Compactor

/-- `last_offset_for_key`: a later entry replaces an earlier one of its key. -/
def lastOffsetForKey (entries : List KeyedEntry) : Dict Bytes ℤ :=
  Dict.ofList (entries.map fun entry => (entry.key, entry.offset))

/-- Every consumer has observed the entry, and it has aged out. -/
def reaps (compactor : Compactor) (now : ℤ) (tombstoneTicks : Dict ℤ ℤ) (minConsumerOffset : ℤ)
    (entry : KeyedEntry) : Bool :=
  let born := (tombstoneTicks.get? entry.offset).getD now
  let observedByAll := decide (entry.offset < minConsumerOffset)
  let agedOut := decide (now - born > compactor.tombstoneRetentionTicks)
  observedByAll && agedOut

/-- The second loop of `compact`, with the result so far. Every key of `entries` has a last
offset. -/
def compactLoop (now : ℤ) (tombstoneTicks : Dict ℤ ℤ) (minConsumerOffset : ℤ)
    (lastOffsetForKey : Dict Bytes ℤ) (compactor : Compactor) (result : List KeyedEntry) :
    List KeyedEntry → Compactor × List KeyedEntry
  | [] => (compactor, result)
  | entry :: rest =>
    if lastOffsetForKey.get? entry.key ≠ some entry.offset then
      compactLoop now tombstoneTicks minConsumerOffset lastOffsetForKey
        { compactor with removedSuperseded := compactor.removedSuperseded + 1 } result rest
    else if entry.value = none ∧
        compactor.reaps now tombstoneTicks minConsumerOffset entry = true then
      compactLoop now tombstoneTicks minConsumerOffset lastOffsetForKey
        { compactor with tombstonesReaped := compactor.tombstonesReaped + 1 } result rest
    else
      compactLoop now tombstoneTicks minConsumerOffset lastOffsetForKey compactor
        (result ++ [entry]) rest

/-- `compact`. -/
def compact (compactor : Compactor) (entries : List KeyedEntry) (now : ℤ)
    (tombstoneTicks : Dict ℤ ℤ) (minConsumerOffset : ℤ) :
    Except RelayError (List KeyedEntry) × Compactor :=
  if entries = [] then (.error (.invalid "nothing to compact"), compactor)
  else
    let result := compactLoop now tombstoneTicks minConsumerOffset (lastOffsetForKey entries)
      compactor [] entries
    (.ok result.2, { result.1 with kept := result.2 })

/-- `preserves_offsets`. -/
def preservesOffsets (kept : List KeyedEntry) : Bool :=
  let offsets := kept.map KeyedEntry.offset
  offsets = offsets.mergeSort (fun a b => a ≤ b) ∧ offsets.dedup.length = offsets.length

/-- An entry that the second loop keeps: the last of its key, and no tombstone that is reaped. -/
def keeps (compactor : Compactor) (now : ℤ) (tombstoneTicks : Dict ℤ ℤ) (minConsumerOffset : ℤ)
    (lastOffsetForKey : Dict Bytes ℤ) (entry : KeyedEntry) : Bool :=
  lastOffsetForKey.get? entry.key = some entry.offset ∧
    ¬ (entry.value = none ∧ compactor.reaps now tombstoneTicks minConsumerOffset entry = true)

/-- The second loop is a filter. -/
theorem compactLoop_snd (now : ℤ) (tombstoneTicks : Dict ℤ ℤ) (minConsumerOffset : ℤ)
    (last : Dict Bytes ℤ) (compactor : Compactor) (result entries : List KeyedEntry) :
    (compactLoop now tombstoneTicks minConsumerOffset last compactor result entries).2 =
      result ++ entries.filter
        (compactor.keeps now tombstoneTicks minConsumerOffset last) := by
  induction entries generalizing compactor result with
  | nil => simp [compactLoop]
  | cons entry rest ih =>
    rw [compactLoop]
    split_ifs with hlatest hreaped
    · rw [ih, List.filter_cons_of_neg (by simp [keeps, hlatest])]
      rfl
    · rw [ih, List.filter_cons_of_neg (by simp [keeps, hreaped])]
      rfl
    · have hkeeps : compactor.keeps now tombstoneTicks minConsumerOffset last entry = true :=
        decide_eq_true ⟨not_not.mp hlatest, hreaped⟩
      rw [ih, List.filter_cons_of_pos hkeeps, List.append_assoc, List.singleton_append]

/-- The entries that the compactor has counted as removed. -/
def removed (compactor : Compactor) : ℕ := compactor.removedSuperseded + compactor.tombstonesReaped

/-- The second loop keeps or counts each entry, once. -/
theorem removed_compactLoop (now : ℤ) (tombstoneTicks : Dict ℤ ℤ) (minConsumerOffset : ℤ)
    (last : Dict Bytes ℤ) (compactor : Compactor) (result entries : List KeyedEntry) :
    (compactLoop now tombstoneTicks minConsumerOffset last compactor result entries).1.removed +
        (compactLoop now tombstoneTicks minConsumerOffset last compactor result entries).2.length =
      compactor.removed + result.length + entries.length := by
  induction entries generalizing compactor result with
  | nil => rfl
  | cons entry rest ih =>
    rw [compactLoop]
    split_ifs
    · rw [ih, List.length_cons]
      simp only [removed]
      omega
    · rw [ih, List.length_cons]
      simp only [removed]
      omega
    · rw [ih, List.length_append, List.length_singleton, List.length_cons]
      omega

/-- A compaction accounts for every entry: what it does not keep, it counts. -/
theorem removed_compact (compactor : Compactor) (entries : List KeyedEntry) (now : ℤ)
    (tombstoneTicks : Dict ℤ ℤ) (minConsumerOffset : ℤ) (hentries : entries ≠ []) :
    (compactor.compact entries now tombstoneTicks minConsumerOffset).2.removed +
        (compactor.compact entries now tombstoneTicks minConsumerOffset).2.kept.length =
      compactor.removed + entries.length := by
  rw [compact, if_neg hentries]
  exact removed_compactLoop now tombstoneTicks minConsumerOffset (lastOffsetForKey entries)
    compactor [] entries

theorem compact_fst {compactor : Compactor} {entries : List KeyedEntry} (hentries : entries ≠ [])
    (now : ℤ) (tombstoneTicks : Dict ℤ ℤ) (minConsumerOffset : ℤ) :
    (compactor.compact entries now tombstoneTicks minConsumerOffset).1 =
      .ok (entries.filter (compactor.keeps now tombstoneTicks minConsumerOffset
        (lastOffsetForKey entries))) := by
  rw [compact, if_neg hentries]
  show Except.ok (compactLoop _ _ _ _ _ _ _).2 = _
  rw [compactLoop_snd, List.nil_append]

end Compactor

/-! ## What a reader builds -/

/-- Set on a value, delete on a tombstone. -/
def applyEntry (map : Dict Bytes Bytes) (entry : KeyedEntry) : Dict Bytes Bytes :=
  match entry.value with
  | some value => map.set entry.key value
  | none => map.erase entry.key

/-- The map that a reader of the entries builds. -/
def replay (entries : List KeyedEntry) : Dict Bytes Bytes := entries.foldl applyEntry ∅

theorem get?_applyEntry (map : Dict Bytes Bytes) (entry : KeyedEntry) (key : Bytes) :
    (applyEntry map entry).get? key = if key = entry.key then entry.value else map.get? key := by
  rw [applyEntry]
  split
  · next hvalue => rw [Dict.get?_set, hvalue]
  · next hvalue => rw [Dict.get?_erase, hvalue]

theorem replay_append_singleton (entries : List KeyedEntry) (entry : KeyedEntry) :
    replay (entries ++ [entry]) = applyEntry (replay entries) entry := by
  rw [replay, List.foldl_append]
  rfl

theorem get?_lastOffsetForKey_append_singleton (entries : List KeyedEntry) (entry : KeyedEntry)
    (key : Bytes) : (Compactor.lastOffsetForKey (entries ++ [entry])).get? key =
      if key = entry.key then some entry.offset
      else (Compactor.lastOffsetForKey entries).get? key := by
  rw [Compactor.lastOffsetForKey, List.map_append, List.map_singleton,
    Dict.ofList_append_singleton, Dict.get?_set]
  rfl

/-- The entries stand in the order of their offsets. -/
abbrev Increasing (entries : List KeyedEntry) : Prop :=
  entries.Pairwise fun a b => a.offset < b.offset

/-- `entry` is the last one of its key. -/
structure IsLast (entries : List KeyedEntry) (entry : KeyedEntry) : Prop where
  mem : entry ∈ entries
  le : ∀ other ∈ entries, other.key = entry.key → other.offset ≤ entry.offset

theorem IsLast.append_singleton {entries : List KeyedEntry} {entry e : KeyedEntry}
    (hoffsets : Increasing (entries ++ [e])) (h : IsLast (entries ++ [e]) entry) :
    entry = e ∨ entry.key ≠ e.key ∧ IsLast entries entry := by
  by_cases hlast : entry = e
  · exact Or.inl hlast
  · obtain ⟨-, -, hbefore⟩ := List.pairwise_append.mp hoffsets
    have hmem : entry ∈ entries := by simpa [hlast] using h.mem
    have hlt := hbefore entry hmem e (by simp)
    refine Or.inr ⟨fun hkey => ?_, hmem, fun other hother =>
      h.le other (List.mem_append_left _ hother)⟩
    exact absurd (h.le e (by simp) hkey.symm) (not_le.mpr hlt)

/-- A table in which every entry sets what is said about its key ends with what the last entry of
a key sets. -/
theorem IsLast.eq_of_append {β : Type*} {entries : List KeyedEntry} {entry : KeyedEntry}
    (h : IsLast entries entry) (hoffsets : Increasing entries)
    (table : List KeyedEntry → Bytes → β) (set : KeyedEntry → β)
    (happend : ∀ entries e key,
      table (entries ++ [e]) key = if key = e.key then set e else table entries key) :
    table entries entry.key = set entry := by
  induction entries using List.reverseRecOn with
  | nil => exact absurd h.mem List.not_mem_nil
  | append_singleton entries e ih =>
    rw [happend]
    rcases h.append_singleton hoffsets with rfl | ⟨hkey, hlast⟩
    · rw [if_pos rfl]
    · rw [if_neg hkey]
      exact ih hlast (List.pairwise_append.mp hoffsets).1

/-- A reader ends with the value of the last entry of a key. -/
theorem get?_replay_of_last {entries : List KeyedEntry} (hoffsets : Increasing entries)
    {entry : KeyedEntry} (h : IsLast entries entry) :
    (replay entries).get? entry.key = entry.value := by
  refine h.eq_of_append hoffsets (fun entries => (replay entries).get?) KeyedEntry.value
    fun entries e key => ?_
  rw [replay_append_singleton, get?_applyEntry]

/-- A key without entries is not in the map. -/
theorem get?_replay_eq_none {entries : List KeyedEntry} {key : Bytes}
    (h : ∀ entry ∈ entries, entry.key ≠ key) : (replay entries).get? key = none := by
  induction entries using List.reverseRecOn with
  | nil => rfl
  | append_singleton entries e ih =>
    rw [replay_append_singleton, get?_applyEntry, if_neg (fun hkey => h e (by simp) hkey.symm)]
    exact ih fun entry hentry => h entry (List.mem_append_left _ hentry)

/-- The first loop finds the last entry of each key. -/
theorem get?_lastOffsetForKey_of_last {entries : List KeyedEntry} (hoffsets : Increasing entries)
    {entry : KeyedEntry} (h : IsLast entries entry) :
    (Compactor.lastOffsetForKey entries).get? entry.key = some entry.offset :=
  h.eq_of_append hoffsets (fun entries => (Compactor.lastOffsetForKey entries).get?)
    (fun e => some e.offset) get?_lastOffsetForKey_append_singleton

/-- A key that has an entry has a last one. -/
theorem exists_isLast {entries : List KeyedEntry} {entry : KeyedEntry} (h : entry ∈ entries) :
    ∃ last, last.key = entry.key ∧ IsLast entries last := by
  have hmem : ∀ e, e ∈ entries.toFinset.filter (fun e => e.key = entry.key) ↔
      e ∈ entries ∧ e.key = entry.key := by
    intro e
    rw [Finset.mem_filter, List.mem_toFinset]
  obtain ⟨last, hlast, hmax⟩ := Finset.exists_max_image
    (entries.toFinset.filter fun e => e.key = entry.key) KeyedEntry.offset
    ⟨entry, (hmem entry).mpr ⟨h, rfl⟩⟩
  obtain ⟨hlast, hkey⟩ := (hmem last).mp hlast
  exact ⟨last, hkey, hlast, fun other hother hsame =>
    hmax other ((hmem other).mpr ⟨hother, hsame.trans hkey⟩)⟩

/-- Two readers that see the same last entry of each key end with the same map. -/
theorem get?_replay_congr {entries seen : List KeyedEntry} (hoffsets : Increasing entries)
    (hseen : Increasing seen) (hsubset : ∀ entry ∈ seen, entry ∈ entries)
    (hlast : ∀ entry, IsLast entries entry → entry ∈ seen) (key : Bytes) :
    (replay seen).get? key = (replay entries).get? key := by
  by_cases hkey : ∃ entry ∈ entries, entry.key = key
  · obtain ⟨entry, hentry, rfl⟩ := hkey
    obtain ⟨last, hkey, h⟩ := exists_isLast hentry
    have hseenLast : IsLast seen last :=
      ⟨hlast last h, fun other hother => h.le other (hsubset other hother)⟩
    rw [← hkey, get?_replay_of_last hoffsets h, get?_replay_of_last hseen hseenLast]
  · have hnone : ∀ entry ∈ entries, entry.key ≠ key := fun entry hentry heq =>
      hkey ⟨entry, hentry, heq⟩
    rw [get?_replay_eq_none hnone,
      get?_replay_eq_none fun entry hentry => hnone entry (hsubset entry hentry)]

namespace Compactor

/-- A list in the order of its offsets preserves them. -/
theorem preservesOffsets_of_increasing {kept : List KeyedEntry} (h : Increasing kept) :
    preservesOffsets kept = true := by
  have hoffsets : (kept.map KeyedEntry.offset).Pairwise (· < ·) := List.pairwise_map.mpr h
  have hsorted : (kept.map KeyedEntry.offset).mergeSort (fun a b => a ≤ b) =
      kept.map KeyedEntry.offset :=
    List.mergeSort_of_pairwise (hoffsets.imp fun hab => decide_eq_true hab.le)
  have hnodup : (kept.map KeyedEntry.offset).Nodup := hoffsets.imp fun hab => hab.ne
  rw [preservesOffsets, decide_eq_true_eq, hsorted, hnodup.dedup]
  exact ⟨rfl, rfl⟩

/-- From every consumer's position on, the last entry of a key is kept. -/
theorem keeps_of_isLast (compactor : Compactor) {entries : List KeyedEntry}
    (hoffsets : Increasing entries) (now : ℤ) (tombstoneTicks : Dict ℤ ℤ) {minConsumerOffset : ℤ}
    {entry : KeyedEntry} (h : IsLast entries entry) (hle : minConsumerOffset ≤ entry.offset) :
    compactor.keeps now tombstoneTicks minConsumerOffset (lastOffsetForKey entries) entry =
      true := by
  refine decide_eq_true ⟨get?_lastOffsetForKey_of_last hoffsets h, ?_⟩
  rintro ⟨-, hreaped⟩
  rw [reaps, Bool.and_eq_true, decide_eq_true_eq] at hreaped
  exact absurd hreaped.1 (not_lt.mpr hle)

end Compactor

/-- **Compaction is invisible.** Compacting entries in the order of their offsets keeps some of
them in place, offsets unchanged. A consumer at any position that is not below the smallest
consumer offset builds, from the original entries below its position and the kept entries from
there on, the map that all the original entries give. Only an empty list is refused. -/
theorem compact_invisible (compactor : Compactor) (entries : List KeyedEntry)
    (hoffsets : Increasing entries) (now : ℤ) (tombstoneTicks : Dict ℤ ℤ)
    (minConsumerOffset : ℤ) :
    entries = [] ∧ (compactor.compact entries now tombstoneTicks minConsumerOffset).1 =
        .error (.invalid "nothing to compact") ∨
      ∃ result, (compactor.compact entries now tombstoneTicks minConsumerOffset).1 = .ok result ∧
        result.Sublist entries ∧ Compactor.preservesOffsets result = true ∧
        ∀ position, minConsumerOffset ≤ position → ∀ key,
          (replay (entries.filter (fun entry => entry.offset < position) ++
            result.filter (fun entry => position ≤ entry.offset))).get? key =
          (replay entries).get? key := by
  by_cases hentries : entries = []
  · refine Or.inl ⟨hentries, ?_⟩
    rw [Compactor.compact, if_pos hentries]
  · right
    have hsublist := List.filter_sublist (p := compactor.keeps now tombstoneTicks minConsumerOffset
      (Compactor.lastOffsetForKey entries)) (l := entries)
    refine ⟨_, Compactor.compact_fst hentries now tombstoneTicks minConsumerOffset, hsublist,
      Compactor.preservesOffsets_of_increasing (hoffsets.sublist hsublist),
      fun position hposition key => ?_⟩
    refine get?_replay_congr hoffsets ?_ (fun entry hentry => ?_) (fun entry hentry => ?_) key
    · -- below the position the original order, from it on the order of the kept ones
      refine List.pairwise_append.mpr ⟨hoffsets.sublist List.filter_sublist,
        (hoffsets.sublist hsublist).sublist List.filter_sublist, fun a ha b hb => ?_⟩
      have ha := of_decide_eq_true (List.mem_filter.mp ha).2
      have hb := of_decide_eq_true (List.mem_filter.mp hb).2
      exact lt_of_lt_of_le ha hb
    · rcases List.mem_append.mp hentry with hentry | hentry
      · exact (List.mem_filter.mp hentry).1
      · exact hsublist.subset (List.mem_filter.mp hentry).1
    · rcases lt_or_ge entry.offset position with hlt | hge
      · exact List.mem_append_left _ (List.mem_filter.mpr ⟨hentry.mem, decide_eq_true hlt⟩)
      · have hkept := compactor.keeps_of_isLast hoffsets now tombstoneTicks hentry
          (hposition.trans hge)
        exact List.mem_append_right _ (List.mem_filter.mpr
          ⟨List.mem_filter.mpr ⟨hentry.mem, hkept⟩, decide_eq_true hge⟩)

/-- A key is written and deleted again before another key is written. -/
def deletedKey : List KeyedEntry := [⟨0, [1], some [7]⟩, ⟨1, [1], none⟩, ⟨2, [2], some [8]⟩]

/-- The tombstone has aged and every consumer is past it, so only the other key is kept, and no
consumer from offset `2` on can tell. -/
theorem compact_invisible_deletedKey :
    ((⟨5, 0, 0, []⟩ : Compactor).compact deletedKey 10 ⟨[(1, 0)], by decide⟩ 2).1 =
        .ok [⟨2, [2], some [8]⟩] ∧
      ∀ position, 2 ≤ position → ∀ key,
        (replay (deletedKey.filter (fun entry => entry.offset < position) ++
          ([⟨2, [2], some [8]⟩] : List KeyedEntry).filter
            (fun entry => position ≤ entry.offset))).get? key =
        (replay deletedKey).get? key := by
  have hresult : ((⟨5, 0, 0, []⟩ : Compactor).compact deletedKey 10 ⟨[(1, 0)], by decide⟩ 2).1 =
      .ok [⟨2, [2], some [8]⟩] := by decide
  rcases compact_invisible ⟨5, 0, 0, []⟩ deletedKey (by decide) 10 ⟨[(1, 0)], by decide⟩ 2 with
    ⟨hnil, -⟩ | ⟨result, hok, -, -, hreplay⟩
  · cases hnil
  · rw [hresult] at hok
    obtain rfl := Except.ok.inj hok
    exact ⟨hresult, hreplay⟩

end Relay
