import Mathlib.Algebra.Order.Ring.Int
import Relay.Errors
import Relay.Lib.AsOf
import Relay.Lib.Since

/-!
# Temporal joins

A table has a value from some time on, until it has another one. A record is joined with the value
that the table had at the time of the record, however late it comes.

A record can also come early: it is then joined with the newest version there is, and a version that
is added afterwards may still be the one of its time. Once a version is in the table that took
effect after a record, what the record joins with is settled.

## Main definitions

* `TemporalJoin`, with `addVersion`, `join` and `staleness`
* `temporalJoin`: the table as a component
* `versionsIn`: the versions that were accepted

## Main results

* `temporalJoin_answers`: what every call of a run answers, and when a join is settled
-/

namespace Relay

/-- The versions of the table, each with the time it took effect. -/
structure TemporalJoin where
  versions : List (ℤ × String) := []

/-- What a version is refused with. -/
def versionTooEarly : RelayError :=
  .invalid "versions must be added in increasing effective-time order"

/-- What a record older than the table is refused with. -/
def noVersionAt (eventTime : ℤ) : RelayError :=
  .missing (s!"no table version at or before {eventTime}; the reference " ++
    "data did not exist yet, a current-value join would give a wrong too-new answer")

/-- How far back the joined version is. -/
def stalenessReport (back : ℤ) : String :=
  s!"joined a version effective {back} before the record; a stream " ++
    "routinely joining old versions lags the reference data, where a " ++
    "current-value join would silently give a too-new answer"

namespace TemporalJoin

/-- `add_version`. -/
def addVersion (table : TemporalJoin) (effectiveTime : ℤ) (value : String) :
    Except RelayError Unit × TemporalJoin :=
  if table.versions.getLast?.any fun last => effectiveTime ≤ last.1 then
    (.error versionTooEarly, table)
  else (.ok (), { versions := table.versions ++ [(effectiveTime, value)] })

/-- `join`. -/
def join (table : TemporalJoin) (eventTime : ℤ) : Except RelayError String :=
  match table.versions with
  | [] => .error (noVersionAt eventTime)
  | first :: rest =>
    if eventTime < first.1 then .error (noVersionAt eventTime)
    else .ok (floorFrom Prod.snd eventTime first.2 (first :: rest))

/-- `staleness`. -/
def staleness (table : TemporalJoin) (eventTime : ℤ) : String :=
  match floorFrom (fun version => some version.1) eventTime none table.versions with
  | none => "no applicable version"
  | some eff => stalenessReport (eventTime - eff)

end TemporalJoin

/-- What is asked. -/
inductive TableCall where
  | addVersion (effectiveTime : ℤ) (value : String)
  | join (eventTime : ℤ)
  | staleness (eventTime : ℤ)
  deriving DecidableEq

/-- What is answered. -/
inductive TableAnswer where
  | addVersion (answer : Except RelayError Unit)
  | join (answer : Except RelayError String)
  | staleness (report : String)

/-- The table as a component. -/
def temporalJoin : Machine TemporalJoin TableCall TableAnswer where
  step table
    | .addVersion effectiveTime value =>
      (.addVersion (table.addVersion effectiveTime value).1,
        (table.addVersion effectiveTime value).2)
    | .join eventTime => (.join (table.join eventTime), table)
    | .staleness eventTime => (.staleness (table.staleness eventTime), table)

/-! ## What the calls say -/

/-- The versions that were accepted, in order. -/
def versionsIn (past : List (TableCall × TableAnswer)) : List (ℤ × String) :=
  past.filterMap fun
    | (.addVersion effectiveTime value, .addVersion (.ok _)) => some (effectiveTime, value)
    | _ => none

/-- What is answered after some events. -/
def TableAnswers (past : List (TableCall × TableAnswer)) : TableCall × TableAnswer → Prop
  | (.addVersion effectiveTime _, answer) =>
    (∀ version ∈ versionsIn past, version.1 < effectiveTime) ∧ answer = .addVersion (.ok ()) ∨
      (∃ version ∈ versionsIn past, ¬ version.1 < effectiveTime) ∧
        answer = .addVersion (.error versionTooEarly)
  | (.join eventTime, answer) =>
    LooksUp (versionsIn past) eventTime (fun version => .join (.ok version.2))
      (.join (.error (noVersionAt eventTime))) answer
  | (.staleness eventTime, answer) =>
    LooksUp (versionsIn past) eventTime
      (fun version => .staleness (stalenessReport (eventTime - version.1)))
      (.staleness "no applicable version") answer

/-! ## Every run -/

section Runs

variable {past : List (TableCall × TableAnswer)} {table : TemporalJoin}

theorem versionsIn_append (past later : List (TableCall × TableAnswer)) :
    versionsIn (past ++ later) = versionsIn past ++ versionsIn later :=
  List.filterMap_append

/-- The table has the versions that were accepted, in the order of their times. -/
structure TableVersions (past : List (TableCall × TableAnswer)) (table : TemporalJoin) : Prop where
  versions : table.versions = versionsIn past
  dated : Dated table.versions

/-- A version is accepted if it takes effect after all the others. -/
theorem TemporalJoin.addVersion_eq (h : Dated table.versions) (effectiveTime : ℤ)
    (value : String) :
    (∀ version ∈ table.versions, version.1 < effectiveTime) ∧
        table.addVersion effectiveTime value =
          (.ok (), { versions := table.versions ++ [(effectiveTime, value)] }) ∨
      (∃ version ∈ table.versions, ¬ version.1 < effectiveTime) ∧
        table.addVersion effectiveTime value = (.error versionTooEarly, table) := by
  have hany := any_getLast?_eq_true_iff (R := fun d e : ℤ × String => d.1 < e.1)
    (x := (effectiveTime, value)) (p := fun last => effectiveTime ≤ last.1)
    (fun hab hbx => hab.trans hbx) (fun last => by rw [decide_eq_true_eq, not_lt]) h
  rw [TemporalJoin.addVersion]
  split
  · next hlast => exact Or.inr ⟨hany.mp hlast, rfl⟩
  · next hlast =>
    refine Or.inl ⟨fun version hversion => ?_, rfl⟩
    by_contra hnot
    exact hlast (hany.mpr ⟨version, hversion, hnot⟩)

/-- A join looks up the value in effect. -/
theorem TemporalJoin.join_eq (h : Dated table.versions) (eventTime : ℤ) :
    LooksUp table.versions eventTime (fun version => .ok version.2)
      (.error (noVersionAt eventTime)) (table.join eventTime) := by
  rw [TemporalJoin.join]
  split
  · next hnil =>
    rw [hnil]
    exact Or.inl ⟨List.forall_mem_nil _, rfl⟩
  · next first rest hcons =>
    rw [hcons] at h ⊢
    exact h.looksUp_of_head Prod.snd first.2 Except.ok _

/-- And the report, since when it has been. -/
theorem TemporalJoin.staleness_eq (h : Dated table.versions) (eventTime : ℤ) :
    LooksUp table.versions eventTime (fun version => stalenessReport (eventTime - version.1))
      "no applicable version" (table.staleness eventTime) := by
  rw [TemporalJoin.staleness]
  rcases h.looksUp_floorFrom (t := eventTime) (fun version => some version.1) none with
    ⟨hnone, heq⟩ | ⟨version, hin, heq⟩
  · exact Or.inl ⟨hnone, by rw [heq]⟩
  · exact Or.inr ⟨version, hin, by rw [heq]⟩

theorem TableVersions.addVersion (h : TableVersions past table) (effectiveTime : ℤ)
    (value : String) :
    TableVersions (past ++ [(.addVersion effectiveTime value,
        .addVersion (table.addVersion effectiveTime value).1)])
      (table.addVersion effectiveTime value).2 := by
  rcases TemporalJoin.addVersion_eq h.dated effectiveTime value with ⟨hall, heq⟩ | ⟨-, heq⟩
  · rw [heq]
    refine ⟨?_, dated_append_singleton.mpr ⟨h.dated, hall⟩⟩
    rw [versionsIn_append, ← h.versions]
    rfl
  · rw [heq]
    refine ⟨?_, h.dated⟩
    rw [versionsIn_append, ← h.versions]
    exact (List.append_nil _).symm

/-- An event that adds no version. -/
theorem TableVersions.read (h : TableVersions past table) {e : TableCall × TableAnswer}
    (he : versionsIn [e] = []) : TableVersions (past ++ [e]) table where
  versions := by rw [versionsIn_append, he, List.append_nil, h.versions]
  dated := h.dated

theorem tableVersions_trace (calls : List TableCall) :
    TableVersions (temporalJoin.trace {} calls) (temporalJoin.final {} calls) := by
  refine Machine.trace_always (P := TableVersions) ⟨rfl, List.Pairwise.nil⟩
    (fun past table call h => ?_) calls
  cases call with
  | addVersion effectiveTime value => exact h.addVersion effectiveTime value
  | join eventTime => exact h.read rfl
  | staleness eventTime => exact h.read rfl

/-- **Joins.** A record joins with the newest version that took effect no later than the record. As
soon as there is a version that took effect after it, the join answers the same from then on. -/
theorem temporalJoin_answers (calls : List TableCall) :
    Justified TableAnswers (temporalJoin.trace {} calls) ∧
      ∀ version ∈ versionsIn (temporalJoin.trace {} calls), ∀ eventTime < version.1,
        ∀ later, (temporalJoin.final {} (calls ++ later)).join eventTime =
          (temporalJoin.final {} calls).join eventTime := by
  refine ⟨Machine.justified_trace (fun calls call => ?_) calls, ?_⟩
  · have hversions := tableVersions_trace calls
    revert hversions
    generalize temporalJoin.final {} calls = table
    generalize temporalJoin.trace {} calls = past
    intro hversions
    cases call with
    | addVersion effectiveTime value =>
      rcases TemporalJoin.addVersion_eq hversions.dated effectiveTime value with
        ⟨hall, heq⟩ | ⟨hsome, heq⟩
      · refine Or.inl ⟨hversions.versions ▸ hall, ?_⟩
        rw [temporalJoin]
        dsimp only
        rw [heq]
      · refine Or.inr ⟨hversions.versions ▸ hsome, ?_⟩
        rw [temporalJoin]
        dsimp only
        rw [heq]
    | join eventTime =>
      have hjoin := (TemporalJoin.join_eq hversions.dated eventTime).map TableAnswer.join
      rw [hversions.versions] at hjoin
      exact hjoin
    | staleness eventTime =>
      have hstaleness := (TemporalJoin.staleness_eq hversions.dated eventTime).map
        TableAnswer.staleness
      rw [hversions.versions] at hstaleness
      exact hstaleness
  · intro version hversion eventTime hlt later
    have hthen := tableVersions_trace (calls ++ later)
    have hlater : (temporalJoin.final {} (calls ++ later)).versions =
        (temporalJoin.final {} calls).versions ++
          versionsIn (temporalJoin.trace (temporalJoin.final {} calls) later) := by
      rw [hthen.versions, Machine.trace_append, versionsIn_append,
        (tableVersions_trace calls).versions]
    rw [← (tableVersions_trace calls).versions] at hversion
    have hjoin := TemporalJoin.join_eq hthen.dated eventTime
    have hdated := hthen.dated
    rw [hlater] at hjoin hdated
    rw [looksUp_append (hdated.forall_later_lt hversion hlt)] at hjoin
    exact (tableVersions_trace calls).dated.looksUp_unique hjoin
      (TemporalJoin.join_eq (tableVersions_trace calls).dated eventTime)

end Runs

end Relay
