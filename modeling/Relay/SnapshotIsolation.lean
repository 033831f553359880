import Mathlib.Algebra.Order.Ring.Int
import Mathlib.Data.Finset.Sort
import Mathlib.Data.String.Basic
import Relay.Errors
import Relay.Lib.Dict
import Relay.Lib.Machine
import Relay.Lib.Printing

/-!
# Snapshot isolation

A transaction takes the version at which it starts from `begin` and commits with the set of keys it
wrote. A commit is refused if one of these keys was committed at a later version than its start.
Of all commits to a key only the last one's version is kept; since versions only grow, the last
one is the one to ask.

Nothing ties the start version of a commit to the call that took it, so a run is any sequence of
calls with any start versions. Transactions that interleave, retry or never commit are such runs.

## Scope

The note on write skew is left out, which is a fixed text.

## Main definitions

* `SnapshotIsolation`, with `begin`, `read` and `commit`
* `commits`: the commits of a run that succeeded, with the versions they committed at

## Main results

* `version_le_startVersion_and_commit_error`: of two commits that wrote a common key, the second
  started at or after the first, and a refused commit changes nothing
-/

namespace Relay

/-- The manager: the version, and for each key the version at which it was last committed. -/
structure SnapshotIsolation where
  version : ℤ := 0
  committedAt : Dict String ℤ := ∅

namespace SnapshotIsolation

/-- `begin`. -/
def begin (si : SnapshotIsolation) : ℤ := si.version

/-- `read`. -/
def read (si : SnapshotIsolation) (key : String) (startVersion : ℤ) : String :=
  let last := si.committedAt.getD key (-1)
  if last ≤ startVersion then s!"'{key}' as of version {startVersion}"
  else s!"'{key}' as of version {startVersion} (ignoring later commits)"

/-- The keys of a write set that were committed since the start. -/
def conflicts (si : SnapshotIsolation) (startVersion : ℤ) (writeSet : Finset String) :
    Finset String :=
  writeSet.filter fun k => si.committedAt.getD k (-1) > startVersion

/-- `commit`. The write set is a set, and nothing depends on the order it gives its keys in. -/
def commit (si : SnapshotIsolation) (startVersion : ℤ) (writeSet : Finset String) :
    Except RelayError String × SnapshotIsolation :=
  let conflicts := si.conflicts startVersion writeSet
  if conflicts.Nonempty then
    let keys := Printing.namesText (Printing.sortedNames conflicts)
    (.error (.invalid (s!"write-write conflict on {keys}; another "
      ++ "transaction committed them since this one's start, so the "
      ++ "later committer aborts, first-committer-wins")), si)
  else
    let version := si.version + 1
    (.ok s!"committed at version {version}", {
      version
      committedAt :=
        si.committedAt.assign ((Printing.sortedNames writeSet).map fun k => (k, version)) })

/-- What a commit does: it is refused and changes nothing, or no key it wrote was committed since
its start, and all of them are committed at the next version. -/
theorem commit_cases (si : SnapshotIsolation) (startVersion : ℤ) (writeSet : Finset String) :
    (∃ error, si.commit startVersion writeSet = (.error error, si)) ∨
      (∀ k ∈ writeSet, si.committedAt.getD k (-1) ≤ startVersion) ∧
        (∃ note, (si.commit startVersion writeSet).1 = .ok note) ∧
        (si.commit startVersion writeSet).2.version = si.version + 1 ∧
        ∀ k, (si.commit startVersion writeSet).2.committedAt.get? k =
          if k ∈ writeSet then some (si.version + 1) else si.committedAt.get? k := by
  simp only [commit]
  split
  · exact Or.inl ⟨_, rfl⟩
  · next hnone =>
    refine Or.inr ⟨fun k hk => ?_, ⟨_, rfl⟩, rfl, fun k => ?_⟩
    · by_contra hlater
      exact hnone ⟨k, Finset.mem_filter.mpr ⟨hk, not_le.mp hlater⟩⟩
    · rw [Dict.get?_assign_map]
      simp only [Printing.mem_sortedNames]

end SnapshotIsolation

/-! ## Runs -/

/-- A call to the manager. -/
inductive SnapshotCall where
  | begin
  | read (key : String) (startVersion : ℤ)
  | commit (startVersion : ℤ) (writeSet : Finset String)

/-- What a call answers. A commit is given with the version that the manager is left at. -/
inductive SnapshotAnswer where
  | began (version : ℤ)
  | read (note : String)
  | commit (answer : Except RelayError String) (version : ℤ)

/-- The manager as a component. -/
def snapshotIsolation : Machine SnapshotIsolation SnapshotCall SnapshotAnswer where
  step si
    | .begin => (.began si.begin, si)
    | .read key startVersion => (.read (si.read key startVersion), si)
    | .commit startVersion writeSet =>
      let result := si.commit startVersion writeSet
      (.commit result.1 result.2.version, result.2)

/-- A commit that succeeded. -/
structure Commit where
  startVersion : ℤ
  writeSet : Finset String
  version : ℤ

/-- The commit that an event of a run made, if it made one. -/
def Commit.ofEvent : SnapshotCall × SnapshotAnswer → Option Commit
  | (.commit startVersion writeSet, .commit (.ok _) version) =>
    some { startVersion, writeSet, version }
  | _ => none

/-- The commits of a run that succeeded. -/
def commits (calls : List SnapshotCall) : List Commit :=
  (snapshotIsolation.trace {} calls).filterMap Commit.ofEvent

/-- The manager has counted the commits and knows, for every key, one that is at least as late as
any commit that wrote it; and no commit lost an update. -/
structure CommitsKnown (done : List Commit) (si : SnapshotIsolation) : Prop where
  version_le : ∀ c ∈ done, c.version ≤ si.version
  committedAt : ∀ c ∈ done, ∀ k ∈ c.writeSet, c.version ≤ si.committedAt.getD k (-1)
  startVersion : ∀ c ∈ done, ∀ c' ∈ done, c.version < c'.version →
    ∀ k ∈ c.writeSet, k ∈ c'.writeSet → c.version ≤ c'.startVersion

/-- One more commit, at the next version, of keys that were not committed since its start. -/
theorem CommitsKnown.append {done : List Commit} {si si' : SnapshotIsolation} {c : Commit}
    (h : CommitsKnown done si) (hversion : c.version = si.version + 1)
    (hversion' : si'.version = si.version + 1)
    (hstart : ∀ k ∈ c.writeSet, si.committedAt.getD k (-1) ≤ c.startVersion)
    (hcommitted : ∀ k, si'.committedAt.get? k =
      if k ∈ c.writeSet then some (si.version + 1) else si.committedAt.get? k) :
    CommitsKnown (done ++ [c]) si' := by
  have hgetD : ∀ k, si'.committedAt.getD k (-1) =
      if k ∈ c.writeSet then si.version + 1 else si.committedAt.getD k (-1) := by
    intro k
    rw [Dict.getD, hcommitted]
    split <;> rfl
  refine ⟨fun d hd => ?_, fun d hd k hk => ?_, fun d hd d' hd' hlt k hk hk' => ?_⟩
  · rw [hversion']
    rcases List.mem_append.mp hd with hold | hnew
    · exact (h.version_le d hold).trans (lt_add_one _).le
    · exact (List.mem_singleton.mp hnew) ▸ hversion.le
  · rw [hgetD]
    rcases List.mem_append.mp hd with hold | hnew
    · split
      · exact (h.version_le d hold).trans (lt_add_one _).le
      · exact h.committedAt d hold k hk
    · obtain rfl := List.mem_singleton.mp hnew
      rw [if_pos hk, hversion]
  · rcases List.mem_append.mp hd with hold | hnew
    · rcases List.mem_append.mp hd' with hold' | hnew'
      · exact h.startVersion d hold d' hold' hlt k hk hk'
      · -- the new commit started after the last commit of the key, and so after this one
        obtain rfl := List.mem_singleton.mp hnew'
        exact (h.committedAt d hold k hk).trans (hstart k hk')
    · -- no version is above the new one
      obtain rfl := List.mem_singleton.mp hnew
      rcases List.mem_append.mp hd' with hold' | hnew'
      · have hle := h.version_le d' hold'
        omega
      · obtain rfl := List.mem_singleton.mp hnew'
        exact absurd hlt (lt_irrefl _)

theorem commitsKnown_step {past : List (SnapshotCall × SnapshotAnswer)} {si : SnapshotIsolation}
    (h : CommitsKnown (past.filterMap Commit.ofEvent) si) (call : SnapshotCall) :
    CommitsKnown ((past ++ [(call, (snapshotIsolation.step si call).1)]).filterMap Commit.ofEvent)
      (snapshotIsolation.step si call).2 := by
  rw [List.filterMap_append]
  cases call with
  | begin =>
    show CommitsKnown (_ ++ []) si
    rwa [List.append_nil]
  | read key startVersion =>
    show CommitsKnown (_ ++ []) si
    rwa [List.append_nil]
  | commit startVersion writeSet =>
    simp only [snapshotIsolation]
    rcases si.commit_cases startVersion writeSet with ⟨error, heq⟩ |
      ⟨hstart, ⟨note, hnote⟩, hversion, hcommitted⟩
    · rw [heq]
      show CommitsKnown (_ ++ []) si
      rwa [List.append_nil]
    · rw [hnote, hversion]
      exact h.append (c := ⟨startVersion, writeSet, si.version + 1⟩) rfl hversion hstart hcommitted

/-- **No lost updates.** In every run, whatever start versions the commits are made with, of two
successful commits that wrote a common key the later one started at or after the version of the
earlier one; and a commit that is refused leaves the manager as it was. -/
theorem version_le_startVersion_and_commit_error :
    (∀ calls, ∀ c ∈ commits calls, ∀ c' ∈ commits calls, c.version < c'.version →
        ∀ k ∈ c.writeSet, k ∈ c'.writeSet → c.version ≤ c'.startVersion) ∧
      ∀ (si : SnapshotIsolation) startVersion writeSet error,
        (si.commit startVersion writeSet).1 = .error error →
          (si.commit startVersion writeSet).2 = si := by
  constructor
  · intro calls
    have h : CommitsKnown (commits calls) (snapshotIsolation.final {} calls) := by
      refine Machine.trace_always
        (P := fun past si => CommitsKnown (past.filterMap Commit.ofEvent) si) ⟨?_, ?_, ?_⟩
        (fun past si call h => commitsKnown_step h call) calls
      all_goals simp
    exact h.startVersion
  · intro si startVersion writeSet error herror
    rcases si.commit_cases startVersion writeSet with ⟨_, heq⟩ | ⟨-, ⟨note, hnote⟩, -, -⟩
    · rw [heq]
    · rw [hnote] at herror
      cases herror

end Relay
