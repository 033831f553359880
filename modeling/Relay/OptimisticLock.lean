import Mathlib.Algebra.Order.Ring.Int
import Mathlib.Data.List.Chain
import Relay.Errors
import Relay.Lib.Since

/-!
# Optimistic locking

A value is read together with its version, and written only if the version is still the one that was
read. Writers do not wait for each other: a writer that comes too late is told so and reads again.

The versions count the values that were written, so a version names one of them. What was read at
the version that a write expects is therefore the value that the write replaces, whoever read it and
whatever was tried in between.

## Scope

The conflict rate is left out, a rounded percentage in a text. The conflicts and commits it is made
of are counted.

## Main definitions

* `OptimisticValue`, with `read` and `compareAndSet`
* `optimisticValue`: the value as a component
* `valuesOf`: the values there have been, told from the calls alone

## Main results

* `optimisticValue_answers`: what every call of a run answers
* `no_update_lost`: writes that update what was read make a chain of updates
-/

namespace Relay

/-- The value and its version. -/
structure OptimisticValue where
  value : ℤ := 0
  version : ℤ := 0
  conflicts : ℤ := 0
  commits : ℤ := 0
  deriving DecidableEq

/-- What a write is refused with that expects another version. -/
def versionChanged (expectedVersion version : ℤ) : RelayError :=
  .invalid (s!"expected version {expectedVersion} but current is {version}; " ++
    "another writer changed it, re-read and retry rather than clobber the change you did not see")

namespace OptimisticValue

/-- `read`. -/
def read (v : OptimisticValue) : ℤ × ℤ := (v.value, v.version)

/-- `compare_and_set`. -/
def compareAndSet (v : OptimisticValue) (expectedVersion newValue : ℤ) :
    Except RelayError String × OptimisticValue :=
  if expectedVersion ≠ v.version then
    (.error (versionChanged expectedVersion v.version), { v with conflicts := v.conflicts + 1 })
  else
    (.ok s!"set to {newValue}; version now {v.version + 1}",
      { v with value := newValue, version := v.version + 1, commits := v.commits + 1 })

end OptimisticValue

/-- What is asked of the value. -/
inductive ValueCall where
  | read
  | compareAndSet (expectedVersion newValue : ℤ)
  deriving DecidableEq

/-- What is answered. -/
inductive ValueAnswer where
  | read (value version : ℤ)
  | compareAndSet (answer : Except RelayError String)

/-- The value as a component. -/
def optimisticValue : Machine OptimisticValue ValueCall ValueAnswer where
  step v
    | .read => (.read v.read.1 v.read.2, v)
    | .compareAndSet expectedVersion newValue =>
      (.compareAndSet (v.compareAndSet expectedVersion newValue).1,
        (v.compareAndSet expectedVersion newValue).2)

/-! ## What the calls say -/

/-- The value that is written. -/
def writtenValue : ValueCall × ValueAnswer → Option ℤ
  | (.compareAndSet _ newValue, .compareAndSet (.ok _)) => some newValue
  | _ => none

/-- The values there have been, from the first on. -/
def valuesOf (start : ℤ) (past : List (ValueCall × ValueAnswer)) : List ℤ :=
  start :: past.filterMap writtenValue

/-- What is answered after some events: reads give the last value and how many came before it, and a
write is refused unless it expects just that many. -/
def ValueAnswers (start : OptimisticValue) (past : List (ValueCall × ValueAnswer)) :
    ValueCall × ValueAnswer → Prop
  | (.read, answer) =>
    ∃ value, (valuesOf start.value past).getLast? = some value ∧
      answer = .read value (start.version + (past.filterMap writtenValue).length)
  | (.compareAndSet expectedVersion newValue, answer) =>
    answer = .compareAndSet
      (if expectedVersion = start.version + (past.filterMap writtenValue).length then
        .ok s!"set to {newValue}; version now {expectedVersion + 1}"
      else .error (versionChanged expectedVersion
        (start.version + (past.filterMap writtenValue).length)))

/-- If the event is a write that is let through, then some read before it gave the version it
expects, with a value that the new one updates. -/
def Updates (R : ℤ → ℤ → Prop) (past : List (ValueCall × ValueAnswer))
    (e : ValueCall × ValueAnswer) : Prop :=
  ∀ expectedVersion newValue report,
    e = (.compareAndSet expectedVersion newValue, .compareAndSet (.ok report)) →
      ∃ value, (.read, .read value expectedVersion) ∈ past ∧ R value newValue

theorem valuesOf_append_singleton (start : ℤ) (past : List (ValueCall × ValueAnswer))
    (e : ValueCall × ValueAnswer) :
    valuesOf start (past ++ [e]) = valuesOf start past ++ (writtenValue e).toList := by
  rw [valuesOf, List.filterMap_append, ← List.cons_append]
  cases h : writtenValue e <;> simp [valuesOf, h]

theorem length_valuesOf (start : ℤ) (past : List (ValueCall × ValueAnswer)) :
    (valuesOf start past).length = (past.filterMap writtenValue).length + 1 :=
  List.length_cons

/-! ## Every run -/

section Runs

variable {start v : OptimisticValue} {past : List (ValueCall × ValueAnswer)}

/-- The value is the last of those there have been, the version counts them, and what was read at a
version is the value with that number. -/
structure Versions (start : OptimisticValue) (past : List (ValueCall × ValueAnswer))
    (v : OptimisticValue) : Prop where
  value_eq : (valuesOf start.value past).getLast? = some v.value
  version_eq : v.version = start.version + (past.filterMap writtenValue).length
  commits_eq : v.commits = start.commits + (past.filterMap writtenValue).length
  reads value version : (ValueCall.read, ValueAnswer.read value version) ∈ past →
    ∃ k : ℕ, version = start.version + k ∧ (valuesOf start.value past)[k]? = some value

/-- The version names the last value. -/
theorem Versions.getElem? (h : Versions start past v) :
    (valuesOf start.value past)[(past.filterMap writtenValue).length]? = some v.value := by
  rw [← h.value_eq, List.getLast?_eq_getElem?, length_valuesOf, Nat.add_sub_cancel]

/-- What was read before is still the value of its number. -/
theorem Versions.reads_append (h : Versions start past v) (e : ValueCall × ValueAnswer)
    {value version : ℤ} (hmem : (ValueCall.read, ValueAnswer.read value version) ∈ past) :
    ∃ k : ℕ, version = start.version + k ∧
      (valuesOf start.value (past ++ [e]))[k]? = some value := by
  obtain ⟨k, hversion, hk⟩ := h.reads value version hmem
  refine ⟨k, hversion, ?_⟩
  rw [valuesOf_append_singleton]
  exact List.getElem?_append_left (List.getElem?_eq_some_iff.mp hk).1 ▸ hk

theorem Versions.read (h : Versions start past v) :
    Versions start (past ++ [(.read, .read v.value v.version)]) v := by
  have hwritten : (past ++ [(ValueCall.read, ValueAnswer.read v.value v.version)]).filterMap
      writtenValue = past.filterMap writtenValue := by
    rw [List.filterMap_append]
    exact List.append_nil _
  have hvalues : valuesOf start.value (past ++ [(.read, .read v.value v.version)]) =
      valuesOf start.value past := by rw [valuesOf, hwritten, valuesOf]
  refine ⟨hvalues ▸ h.value_eq, hwritten ▸ h.version_eq, hwritten ▸ h.commits_eq, ?_⟩
  intro value version hmem
  rcases List.mem_append.mp hmem with hmem | hmem
  · exact h.reads_append _ hmem
  · obtain ⟨rfl, rfl⟩ := ValueAnswer.read.inj (Prod.mk.inj (List.mem_singleton.mp hmem)).2
    exact ⟨_, h.version_eq, hvalues ▸ h.getElem?⟩

/-- A write that is refused, or let through as a further value. -/
theorem Versions.compareAndSet (h : Versions start past v) (expectedVersion newValue : ℤ) :
    Versions start (past ++ [(.compareAndSet expectedVersion newValue,
        .compareAndSet (v.compareAndSet expectedVersion newValue).1)])
      (v.compareAndSet expectedVersion newValue).2 := by
  have hreads : ∀ answer value version, (ValueCall.read, ValueAnswer.read value version) ∈
      past ++ [(.compareAndSet expectedVersion newValue, .compareAndSet answer)] →
        (ValueCall.read, ValueAnswer.read value version) ∈ past := by
    intro answer value version hmem
    rcases List.mem_append.mp hmem with hmem | hmem
    · exact hmem
    · cases (Prod.mk.inj (List.mem_singleton.mp hmem)).1
  by_cases hversion : expectedVersion = v.version
  · have hset : v.compareAndSet expectedVersion newValue =
        (.ok s!"set to {newValue}; version now {v.version + 1}",
          { v with value := newValue, version := v.version + 1, commits := v.commits + 1 }) :=
      if_neg (not_not.mpr hversion)
    rw [hset]
    refine ⟨?_, ?_, ?_, fun value version hmem => h.reads_append _ (hreads _ _ _ hmem)⟩
    · rw [valuesOf_append_singleton]
      exact List.getLast?_concat
    · rw [List.filterMap_append, List.length_append, h.version_eq, Nat.cast_add, ← Int.add_assoc]
      rfl
    · rw [List.filterMap_append, List.length_append, h.commits_eq, Nat.cast_add, ← Int.add_assoc]
      rfl
  · have hset : v.compareAndSet expectedVersion newValue =
        (.error (versionChanged expectedVersion v.version),
          { v with conflicts := v.conflicts + 1 }) := if_pos hversion
    have hwritten : (past ++ [(ValueCall.compareAndSet expectedVersion newValue,
        ValueAnswer.compareAndSet (.error (versionChanged expectedVersion v.version)))]).filterMap
          writtenValue = past.filterMap writtenValue := by
      rw [List.filterMap_append]
      exact List.append_nil _
    rw [hset]
    refine ⟨?_, ?_, ?_, fun value version hmem => h.reads_append _ (hreads _ _ _ hmem)⟩
    · rw [valuesOf, hwritten]
      exact h.value_eq
    · rw [hwritten]
      exact h.version_eq
    · rw [hwritten]
      exact h.commits_eq

theorem versions_trace (start : OptimisticValue) (calls : List ValueCall) :
    Versions start (optimisticValue.trace start calls) (optimisticValue.final start calls) := by
  refine Machine.trace_always (P := Versions start) ?_ (fun past v call h => ?_) calls
  · refine ⟨rfl, (Int.add_zero _).symm, (Int.add_zero _).symm, fun value version hmem => ?_⟩
    cases hmem
  · cases call with
    | read => exact h.read
    | compareAndSet expectedVersion newValue => exact h.compareAndSet expectedVersion newValue

/-- **Versions count.** In every run a read gives the value that was written last, and its version
is the number of values written so far; a write is let through exactly if it expects that number. -/
theorem optimisticValue_answers (start : OptimisticValue) (calls : List ValueCall) :
    Justified (ValueAnswers start) (optimisticValue.trace start calls) := by
  refine Machine.justified_trace (fun calls call => ?_) calls
  have hversions := versions_trace start calls
  revert hversions
  generalize optimisticValue.final start calls = v
  generalize optimisticValue.trace start calls = past
  intro hversions
  cases call with
  | read =>
    refine ⟨v.value, hversions.value_eq, ?_⟩
    rw [← hversions.version_eq]
    rfl
  | compareAndSet expectedVersion newValue =>
    refine congrArg ValueAnswer.compareAndSet ?_
    rw [← hversions.version_eq, OptimisticValue.compareAndSet]
    by_cases hversion : expectedVersion = v.version
    · rw [if_neg (not_not.mpr hversion), if_pos hversion, hversion]
    · rw [if_pos hversion, if_neg hversion]

/-- **No update is lost.** In every run, if each write that is let through updates a value that some
read gave with the version it expects, then each value written updates the one written just before
it, however the reads and writes of different writers are mixed. -/
theorem no_update_lost {R : ℤ → ℤ → Prop} {start : OptimisticValue} {calls : List ValueCall}
    (h : Justified (Updates R) (optimisticValue.trace start calls)) :
    (valuesOf start.value (optimisticValue.trace start calls)).IsChain R := by
  induction calls using List.reverseRecOn with
  | nil => exact List.IsChain.singleton _
  | append_singleton calls call ih =>
    have hversions := versions_trace start calls
    rw [Machine.trace_append_singleton] at h ⊢
    obtain ⟨hpast, hlast⟩ := justified_append_singleton.mp h
    rw [valuesOf_append_singleton]
    refine (ih hpast).append ?_ fun x hx y hy => ?_
    · cases writtenValue
          (call, (optimisticValue.step (optimisticValue.final start calls) call).1) with
      | none => exact List.IsChain.nil
      | some value => exact List.IsChain.singleton value
    · cases call with
      | read => cases hy
      | compareAndSet expectedVersion newValue =>
        change Updates R _ (.compareAndSet expectedVersion newValue, .compareAndSet
          ((optimisticValue.final start calls).compareAndSet expectedVersion newValue).1) at hlast
        change y ∈ (writtenValue (.compareAndSet expectedVersion newValue, .compareAndSet
          ((optimisticValue.final start calls).compareAndSet
            expectedVersion newValue).1)).toList.head? at hy
        by_cases hexpected : expectedVersion = (optimisticValue.final start calls).version
        · rw [OptimisticValue.compareAndSet, if_neg (not_not.mpr hexpected)] at hlast hy
          obtain rfl := Option.some.inj hy
          obtain ⟨value, hread, hR⟩ := hlast _ _ _ rfl
          -- the version that was read is that of the value there is
          obtain ⟨k, hk, hvalue⟩ := hversions.reads value expectedVersion hread
          have hnumber :
              k = ((optimisticValue.trace start calls).filterMap writtenValue).length := by
            have hversion := hversions.version_eq
            rw [← hexpected, hk] at hversion
            omega
          rw [hnumber, hversions.getElem?] at hvalue
          rw [hversions.value_eq] at hx
          rw [← Option.some.inj hx, Option.some.inj hvalue]
          exact hR
        · rw [OptimisticValue.compareAndSet, if_pos hexpected] at hy
          cases hy

/-- Two writers count up by one each. The second comes too late and reads again. -/
theorem no_update_lost_two :
    (valuesOf 0 (optimisticValue.trace {} [.read, .read, .compareAndSet 0 1, .compareAndSet 0 1,
      .read, .compareAndSet 1 2])).IsChain fun x y => y = x + 1 := by
  refine @no_update_lost _ {} _ ?_
  have htrace : optimisticValue.trace {} [.read, .read, .compareAndSet 0 1, .compareAndSet 0 1,
      .read, .compareAndSet 1 2] =
      [(.read, .read 0 0), (.read, .read 0 0),
        (.compareAndSet 0 1, .compareAndSet (.ok "set to 1; version now 1")),
        (.compareAndSet 0 1, .compareAndSet (.error (versionChanged 0 1))),
        (.read, .read 1 1),
        (.compareAndSet 1 2, .compareAndSet (.ok "set to 2; version now 2"))] := rfl
  rw [htrace, show ∀ a b c d e f : ValueCall × ValueAnswer, [a, b, c, d, e, f] =
    [] ++ [a] ++ [b] ++ [c] ++ [d] ++ [e] ++ [f] from fun a b c d e f => rfl]
  simp only [justified_append_singleton]
  refine ⟨⟨⟨⟨⟨⟨justified_nil _, ?_⟩, ?_⟩, ?_⟩, ?_⟩, ?_⟩, ?_⟩
  all_goals
    intro expectedVersion newValue report he
    cases he
  · exact ⟨0, by simp, rfl⟩
  · exact ⟨1, by simp, rfl⟩

end Runs

end Relay
