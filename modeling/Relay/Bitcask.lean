import Relay.Errors
import Relay.Lib.Machine
import Relay.Lib.Updates

/-!
# Indexed append-only stores

Writes are appended to a log, and an index says where in the log the live value of each key stands.
A delete appends a tombstone and takes the key out of the index. Compaction copies the live entries
into a new log and gives every key a new position.

The index is at all times the one that a replay of the log arrives at (`positions`), so that it can
be rebuilt, and no position of it is outside the log.

## Scope

The report on the share of the log that is dead is left out. The one tombstone object of the source
is a missing value here.

## Main definitions

* `Bitcask`, with `put`, `get`, `delete` and `compact`

## Main results

* `Bitcask.bitcask_refinesMap`: reads find the last write, the index is that of the log, and which
  calls are refused
* `Bitcask.Indexed.step_ne_indexError`: no call looks outside the log
-/

namespace Relay

/-- A log and its index. No value is a tombstone. -/
structure Bitcask where
  log : List (String × Option String) := []
  index : Dict String ℕ := ∅

/-- What a call on a store may raise. -/
inductive BitcaskError where
  | relay (error : RelayError)
  /-- A position of the index is outside the log. -/
  | indexError
  deriving DecidableEq

namespace Bitcask

/-- `put`. -/
def put (store : Bitcask) (key value : String) : ℕ × Bitcask :=
  (store.log.length,
    { log := store.log ++ [(key, some value)], index := store.index.set key store.log.length })

/-- `get`. -/
def get (store : Bitcask) (key : String) : Except BitcaskError String :=
  match store.index.get? key with
  | none => .error (.relay (.missing s!"no live value for key '{key}'"))
  | some offset =>
    match store.log[offset]? with
    | none => .error .indexError
    | some (_, none) => .error (.relay (.missing s!"key '{key}' was deleted"))
    | some (_, some value) => .ok value

/-- `delete`. -/
def delete (store : Bitcask) (key : String) : Except BitcaskError Unit × Bitcask :=
  match store.index.get? key with
  | none => (.error (.relay (.missing s!"cannot delete absent key '{key}'")), store)
  | some _ =>
    (.ok (), { log := store.log ++ [(key, none)], index := store.index.erase key })

/-- Copy the entry of a key into a new log. -/
def copyEntry (store : Bitcask) (copied : Bitcask) (entry : String × ℕ) : Option Bitcask :=
  (store.log[entry.2]?).map fun live =>
    { log := copied.log ++ [live], index := copied.index.set entry.1 copied.log.length }

/-- `compact`. -/
def compact (store : Bitcask) : Except BitcaskError String × Bitcask :=
  match store.index.entries.foldlM store.copyEntry {} with
  | none => (.error .indexError, store)
  | some copied =>
    (.ok s!"compacted {store.log.length} entries to {copied.log.length} live", copied)

end Bitcask

/-! ## Runs -/

/-- A call that changes a store. -/
inductive BitcaskCall where
  | put (key value : String)
  | delete (key : String)
  | compact
  deriving DecidableEq

/-- What a call answers. -/
inductive BitcaskAnswer where
  | put (offset : ℕ)
  | deleted (answer : Except BitcaskError Unit)
  | compacted (answer : Except BitcaskError String)

/-- The store as a component. -/
def bitcask : Machine Bitcask BitcaskCall BitcaskAnswer where
  step store
    | .put key value => (store.put key value).map .put id
    | .delete key => (store.delete key).map .deleted id
    | .compact => store.compact.map .compacted id

/-- What a call that was not refused says of a key. -/
def bitcaskUpdate : BitcaskCall × BitcaskAnswer → Option (String × Option String)
  | (.put key value, _) => some (key, some value)
  | (.delete key, .deleted (.ok ())) => some (key, none)
  | _ => none

namespace Bitcask

/-- The updates of a run on a new store. -/
def updates (calls : List BitcaskCall) : List (String × Option String) :=
  (bitcask.trace {} calls).filterMap bitcaskUpdate

/-- A store whose reads find what the calls said last, and whose index is that of its log. -/
structure RefinesMap (store : Bitcask) (calls : List BitcaskCall) : Prop where
  get (key : String) : store.get key =
    match latest (updates calls) key with
    | some value => .ok value
    | none => .error (.relay (.missing s!"no live value for key '{key}'"))
  index : store.index = positions store.log

/-! ## Indexed stores -/

/-- The index of the store is that of its log. -/
def Indexed (store : Bitcask) : Prop :=
  store.index = positions store.log

variable {store : Bitcask}

theorem Indexed.get_eq (h : store.Indexed) (key : String) :
    store.get key =
      match latest store.log key with
      | some value => .ok value
      | none => .error (.relay (.missing s!"no live value for key '{key}'")) := by
  rw [get, h]
  cases hoffset : (positions store.log).get? key with
  | none => rw [latest_of_get?_positions hoffset]
  | some offset =>
    obtain ⟨value, hvalue, hlatest⟩ := getElem?_of_get?_positions hoffset
    simp only [hvalue, hlatest]

/-! ### Compaction -/

/-- A new log of entries that the index finds says of their keys what the old log says. -/
theorem latest_filterMap_getElem? (log : List (String × Option String))
    (entries : List (String × ℕ))
    (h : ∀ entry ∈ entries, log[entry.2]? = some (entry.1, latest log entry.1)) (key : String) :
    latest (entries.filterMap fun entry => log[entry.2]?) key =
      if key ∈ entries.map Prod.fst then latest log key else none := by
  induction entries using List.reverseRecOn with
  | nil => rfl
  | append_singleton entries entry ih =>
    obtain ⟨hinit, hentry⟩ := forall_mem_append_singleton.mp h
    rw [List.filterMap_append,
      List.filterMap_cons_some (f := fun e : String × ℕ => log[e.2]?) hentry, List.filterMap_nil,
      latest_append_singleton, ih hinit, List.map_append, List.map_singleton]
    by_cases hkey : key = entry.1
    · rw [if_pos hkey, if_pos (List.mem_append_right _ (List.mem_singleton.mpr hkey)), hkey]
    · rw [if_neg hkey]
      simp only [List.mem_append, List.mem_singleton, hkey, or_false]

/-- Copying entries keeps the index of the new log. -/
theorem foldlM_copyEntry {entries : List (String × ℕ)}
    (h : ∀ entry ∈ entries, ∃ value, store.log[entry.2]? = some (entry.1, some value))
    (copied : Bitcask) (hcopied : copied.Indexed) :
    ∃ next, entries.foldlM store.copyEntry copied = some next ∧ next.Indexed ∧
      next.log = copied.log ++ entries.filterMap fun entry => store.log[entry.2]? := by
  induction entries generalizing copied with
  | nil => exact ⟨copied, rfl, hcopied, (List.append_nil _).symm⟩
  | cons entry entries ih =>
    obtain ⟨⟨value, hvalue⟩, hrest⟩ := List.forall_mem_cons.mp h
    have hcopy : store.copyEntry copied entry = some
        { log := copied.log ++ [(entry.1, some value)]
          index := copied.index.set entry.1 copied.log.length } := by
      rw [copyEntry, hvalue]
      rfl
    have hindexed : Indexed
        { log := copied.log ++ [(entry.1, some value)]
          index := copied.index.set entry.1 copied.log.length } := by
      rw [Indexed, positions_append_singleton, hcopied]
      rfl
    obtain ⟨next, hnext, hindex, hlog⟩ := ih hrest _ hindexed
    refine ⟨next, ?_, hindex, ?_⟩
    · rw [List.foldlM_cons, hcopy]
      exact hnext
    · rw [hlog, List.filterMap_cons_some (f := fun e : String × ℕ => store.log[e.2]?) hvalue,
        List.append_assoc, List.singleton_append]

/-- **Compaction** gives every key a new position, and does not change what is said of any. -/
theorem Indexed.compact (h : store.Indexed) :
    ∃ report next, store.compact = (.ok report, next) ∧ next.Indexed ∧
      ∀ key, latest next.log key = latest store.log key := by
  have hlive : ∀ entry ∈ store.index.entries,
      ∃ value, store.log[entry.2]? = some (entry.1, some value) ∧
        latest store.log entry.1 = some value := by
    intro entry hentry
    have hoffset := store.index.mem_entries_iff.mp hentry
    rw [h] at hoffset
    exact getElem?_of_get?_positions hoffset
  obtain ⟨next, hnext, hindexed, hlog⟩ := foldlM_copyEntry
    (fun entry hentry => (hlive entry hentry).imp fun _ hvalue => hvalue.1) {} rfl
  refine ⟨_, next, by rw [Bitcask.compact, hnext], hindexed, fun key => ?_⟩
  rw [hlog, List.nil_append, latest_filterMap_getElem?]
  · split
    · rfl
    · next hkey =>
      have hnone : store.index.get? key = none :=
        Option.eq_none_iff_forall_ne_some.mpr fun offset hoffset =>
          hkey (store.index.mem_keys_iff.mpr ⟨offset, hoffset⟩)
      rw [h] at hnone
      exact (latest_of_get?_positions hnone).symm
  · intro entry hentry
    obtain ⟨value, hvalue, hlatest⟩ := hlive entry hentry
    rw [hvalue, hlatest]

/-! ### One call -/

/-- **One call** keeps the index that of the log, and says of its key what it was given. -/
theorem Indexed.step (h : store.Indexed) (call : BitcaskCall) :
    (bitcask.step store call).2.Indexed ∧ ∀ key, latest (bitcask.step store call).2.log key =
      (bitcaskUpdate (call, (bitcask.step store call).1)).elim (latest store.log key)
        fun u => if key = u.1 then u.2 else latest store.log key := by
  cases call with
  | put key value =>
    refine ⟨?_, fun k => latest_append_singleton store.log (key, some value) k⟩
    show Dict.set _ _ _ = positions (store.log ++ [(key, some value)])
    rw [positions_append_singleton, h]
    rfl
  | delete key =>
    have hstep : bitcask.step store (.delete key) = (store.delete key).map .deleted id := rfl
    rw [hstep, delete]
    cases store.index.get? key with
    | none => exact ⟨h, fun _ => rfl⟩
    | some offset =>
      refine ⟨?_, fun k => latest_append_singleton store.log (key, none) k⟩
      show Dict.erase _ _ = positions (store.log ++ [(key, none)])
      rw [positions_append_singleton, h]
      rfl
  | compact =>
    have hstep : bitcask.step store .compact = store.compact.map .compacted id := rfl
    obtain ⟨report, next, hcompact, hindexed, hlatest⟩ := h.compact
    rw [hstep, hcompact]
    exact ⟨hindexed, hlatest⟩

/-- No call looks outside the log. -/
theorem Indexed.step_ne_indexError (h : store.Indexed) (call : BitcaskCall) :
    (bitcask.step store call).1 ≠ .deleted (.error .indexError) ∧
      (bitcask.step store call).1 ≠ .compacted (.error .indexError) := by
  cases call with
  | put key value => exact ⟨nofun, nofun⟩
  | delete key =>
    have hstep : bitcask.step store (.delete key) = (store.delete key).map .deleted id := rfl
    rw [hstep, delete]
    cases store.index.get? key with
    | none => exact ⟨nofun, nofun⟩
    | some offset => exact ⟨nofun, nofun⟩
  | compact =>
    have hstep : bitcask.step store .compact = store.compact.map .compacted id := rfl
    obtain ⟨report, next, hcompact, -⟩ := h.compact
    rw [hstep, hcompact]
    exact ⟨nofun, nofun⟩

/-! ### Runs -/

/-- **Runs.** The index stays that of the log, and the log says of each key what the calls said. -/
theorem indexed_final (calls : List BitcaskCall) :
    (bitcask.final {} calls).Indexed ∧
      ∀ key, latest (bitcask.final {} calls).log key = latest (updates calls) key := by
  induction calls using List.reverseRecOn with
  | nil => exact ⟨rfl, fun _ => rfl⟩
  | append_singleton calls call ih =>
    obtain ⟨hindexed, hlatest⟩ := ih.1.step call
    rw [bitcask.final_append_singleton]
    refine ⟨hindexed, fun key => ?_⟩
    rw [hlatest, ih.2, updates, updates, bitcask.filterMap_trace_append_singleton]
    cases bitcaskUpdate (call, (bitcask.step (bitcask.final {} calls) call).1) with
    | none => rw [Option.toList_none, List.append_nil]; rfl
    | some u => exact (latest_append_singleton _ u key).symm

/-- What a call answers after some events: a delete is refused exactly if the key has no live value,
and nothing else is refused. -/
def BitcaskAnswers (past : List (BitcaskCall × BitcaskAnswer)) :
    BitcaskCall × BitcaskAnswer → Prop
  | (.put _ _, answer) => ∃ offset, answer = .put offset
  | (.delete key, answer) =>
    answer = .deleted (match latest (past.filterMap bitcaskUpdate) key with
      | some _ => .ok ()
      | none => .error (.relay (.missing s!"cannot delete absent key '{key}'")))
  | (.compact, answer) => ∃ report, answer = .compacted (.ok report)

theorem Indexed.delete_eq (h : store.Indexed) (key : String) :
    (store.delete key).1 = match latest store.log key with
      | some _ => .ok ()
      | none => .error (.relay (.missing s!"cannot delete absent key '{key}'")) := by
  rw [delete, h]
  cases hoffset : (positions store.log).get? key with
  | none => rw [latest_of_get?_positions hoffset]
  | some offset =>
    obtain ⟨value, -, hlatest⟩ := getElem?_of_get?_positions hoffset
    rw [hlatest]

/-- Every call of a run is answered so. -/
theorem justified_bitcaskAnswers (calls : List BitcaskCall) :
    Justified BitcaskAnswers (bitcask.trace {} calls) := by
  refine Machine.justified_trace (fun calls call => ?_) calls
  obtain ⟨hindexed, hlatest⟩ := indexed_final calls
  cases call with
  | put key value => exact ⟨_, rfl⟩
  | delete key =>
    have hdelete := hindexed.delete_eq key
    rw [hlatest] at hdelete
    exact congrArg BitcaskAnswer.deleted hdelete
  | compact =>
    obtain ⟨report, next, hcompact, -⟩ := hindexed.compact
    refine ⟨report, ?_⟩
    show BitcaskAnswer.compacted (bitcask.final {} calls).compact.1 = _
    rw [hcompact]

/-- **A store refines a map**, and its index can be rebuilt from its log. Only the delete of a key
that has no live value is refused. -/
theorem bitcask_refinesMap (calls : List BitcaskCall) :
    RefinesMap (bitcask.final {} calls) calls ∧
      Justified BitcaskAnswers (bitcask.trace {} calls) := by
  obtain ⟨hindexed, hlatest⟩ := indexed_final calls
  refine ⟨⟨fun key => ?_, hindexed⟩, justified_bitcaskAnswers calls⟩
  rw [hindexed.get_eq, hlatest]

end Bitcask

end Relay
