import Mathlib.Algebra.Order.Ring.Int
import Relay.Errors
import Relay.Lib.Dict
import Relay.Lib.Machine

/-!
# Suppression

A windowed aggregation has a new result with every record. A suppressor holds the latest result of
each window and lets it out once, when the stream time has passed the end of the window and its
grace, so that no result is let out that a later one contradicts.

What has been let out is forgotten. So an update for a window that was let out before is held like
the first of its window, and from then on, any stream time late enough lets out a second result. A
window is let out at most once, now and whatever the stream time will be, exactly when no update is
for a window that was let out before it (`OnTime`).

## Scope

The report on savings is left out. What it counts is counted.

## Main definitions

* `Suppressor`, with `update`, `advance` and `forceEmit`
* `Suppressor.EmitsOnce`: what a run promises of the results it lets out

## Main results

* `onTime_iff_emitsOnce`: exactly which runs keep that promise
-/

namespace Relay

/-- The results that are held back. -/
structure Suppressor where
  grace : ℤ
  /-- The latest result of each window, by the window's end. -/
  pending : Dict ℤ ℤ := ∅
  absorbed : ℤ := 0
  emitted : ℤ := 0
  grace_nonneg : 0 ≤ grace

/-- Why `force_emit` gives no result: it refuses, or there is none to `pop`. -/
inductive ForceEmitError where
  | refused (error : RelayError)
  | keyError (windowEnd : ℤ)
  deriving DecidableEq

namespace Suppressor

/-- `update`. -/
def update (suppressor : Suppressor) (windowEnd value : ℤ) : Suppressor :=
  { suppressor with
    absorbed :=
      if windowEnd ∈ suppressor.pending.keys then suppressor.absorbed + 1 else suppressor.absorbed
    pending := suppressor.pending.set windowEnd value }

/-- `advance`. -/
def advance (suppressor : Suppressor) (streamTime : ℤ) : List (ℤ × ℤ) × Suppressor :=
  let ready := suppressor.pending.entries.filter fun e => e.1 + suppressor.grace ≤ streamTime
  (ready.mergeSort fun e e' => e.1 < e'.1 ∨ e.1 = e'.1 ∧ e.2 ≤ e'.2,
    { suppressor with
      pending := ready.foldl (fun pending e => pending.erase e.1) suppressor.pending
      emitted := suppressor.emitted + ready.length })

/-- `force_emit`. -/
def forceEmit (suppressor : Suppressor) (windowEnd streamTime : ℤ) :
    Except ForceEmitError ℤ × Suppressor :=
  if streamTime < windowEnd + suppressor.grace then
    (.error (.refused (.invalid (s!"window {windowEnd} is still within its grace period "
      ++ s!"(until {windowEnd + suppressor.grace}); a late record could "
      ++ "still change it, and emitting now sends a value a "
      ++ "later correction contradicts"))), suppressor)
  else
    match suppressor.pending.get? windowEnd with
    | none => (.error (.keyError windowEnd), suppressor)
    | some value =>
      (.ok value,
        { suppressor with
          pending := suppressor.pending.erase windowEnd
          emitted := suppressor.emitted + 1 })

end Suppressor

/-! ## Runs -/

/-- A call to a suppressor. -/
inductive SuppressorCall where
  | update (windowEnd value : ℤ)
  | advance (streamTime : ℤ)
  | forceEmit (windowEnd streamTime : ℤ)
  deriving DecidableEq

/-- The stream time a call is made at, if it says. -/
def SuppressorCall.streamTime : SuppressorCall → Option ℤ
  | .update _ _ => none
  | .advance streamTime => some streamTime
  | .forceEmit _ streamTime => some streamTime

/-- What a call answers. -/
inductive SuppressorAnswer where
  | updated
  | advanced (ready : List (ℤ × ℤ))
  | forced (answer : Except ForceEmitError ℤ)

/-- The suppressor as a component. -/
def suppressorMachine : Machine Suppressor SuppressorCall SuppressorAnswer where
  step suppressor
    | .update windowEnd value => (.updated, suppressor.update windowEnd value)
    | .advance streamTime => (suppressor.advance streamTime).map .advanced id
    | .forceEmit windowEnd streamTime => (suppressor.forceEmit windowEnd streamTime).map .forced id

/-- The results that a call let out, each with the end of its window. -/
def releasedBy : SuppressorCall × SuppressorAnswer → List (ℤ × ℤ)
  | (.advance _, .advanced ready) => ready
  | (.forceEmit windowEnd _, .forced (.ok value)) => [(windowEnd, value)]
  | _ => []

namespace Suppressor

/-- The results that a run let out, oldest first. -/
def released (suppressor : Suppressor) (calls : List SuppressorCall) : List (ℤ × ℤ) :=
  (suppressorMachine.trace suppressor calls).flatMap releasedBy

/-- Each window is let out at most once, and only past its grace. -/
structure EmitsOnce (suppressor : Suppressor) (calls : List SuppressorCall) : Prop where
  once : ((suppressor.released calls).map Prod.fst).Nodup
  pastGrace : ∀ event ∈ suppressorMachine.trace suppressor calls, ∀ e ∈ releasedBy event,
    ∃ streamTime, event.1.streamTime = some streamTime ∧ e.1 + suppressor.grace ≤ streamTime

/-- A call after others is no update for a window that was let out. -/
def OnTime (suppressor : Suppressor) (past : List SuppressorCall) (call : SuppressorCall) : Prop :=
  ∀ windowEnd value, call = .update windowEnd value →
    windowEnd ∉ (suppressor.released past).map Prod.fst

variable {suppressor : Suppressor} {calls : List SuppressorCall} {call : SuppressorCall}

/-- What a call does to the windows that are held: an update holds its window, and any other call
lets out some of them, which are past their grace, and they are held no more. -/
theorem step_cases (suppressor : Suppressor) (call : SuppressorCall) :
    (∃ windowEnd value, call = .update windowEnd value ∧
        releasedBy (call, (suppressorMachine.step suppressor call).1) = [] ∧
        ∀ w, w ∈ (suppressorMachine.step suppressor call).2.pending.keys ↔
          w = windowEnd ∨ w ∈ suppressor.pending.keys) ∨
      (∀ windowEnd value, call ≠ .update windowEnd value) ∧
        (∀ e ∈ releasedBy (call, (suppressorMachine.step suppressor call).1),
          e.1 ∈ suppressor.pending.keys ∧ ∃ streamTime, call.streamTime = some streamTime ∧
            e.1 + suppressor.grace ≤ streamTime) ∧
        ((releasedBy (call, (suppressorMachine.step suppressor call).1)).map Prod.fst).Nodup ∧
        ∀ w, w ∈ (suppressorMachine.step suppressor call).2.pending.keys ↔
          w ∈ suppressor.pending.keys ∧
            w ∉ (releasedBy (call, (suppressorMachine.step suppressor call).1)).map Prod.fst := by
  cases call with
  | update windowEnd value =>
    exact .inl ⟨windowEnd, value, rfl, rfl, fun w => Dict.mem_keys_set⟩
  | advance streamTime =>
    have hperm := List.mergeSort_perm
      (suppressor.pending.entries.filter fun e => e.1 + suppressor.grace ≤ streamTime)
      fun e e' => e.1 < e'.1 ∨ e.1 = e'.1 ∧ e.2 ≤ e'.2
    have hends := (hperm.map Prod.fst)
    refine .inr ⟨fun w v heq => (by cases heq), fun e he => ?_, hends.nodup_iff.mpr ?_,
      fun w => ?_⟩
    · obtain ⟨hmem, hgrace⟩ := List.mem_filter.mp (hperm.mem_iff.mp he)
      exact ⟨List.mem_map_of_mem hmem, streamTime, rfl, of_decide_eq_true hgrace⟩
    · exact suppressor.pending.nodup.sublist (List.filter_sublist.map Prod.fst)
    · exact Dict.mem_keys_foldl_erase.trans (and_congr_right' (not_congr hends.mem_iff.symm))
  | forceEmit windowEnd streamTime =>
    have hstep : suppressorMachine.step suppressor (.forceEmit windowEnd streamTime) =
        (suppressor.forceEmit windowEnd streamTime).map .forced id := rfl
    have hkept : ∀ w, w ∈ suppressor.pending.keys ↔ w ∈ suppressor.pending.keys ∧
        w ∉ ([] : List (ℤ × ℤ)).map Prod.fst :=
      fun w => (and_iff_left List.not_mem_nil).symm
    have hcall (w v : ℤ) : SuppressorCall.forceEmit windowEnd streamTime ≠ .update w v :=
      fun heq => by cases heq
    rw [hstep, forceEmit]
    split
    · exact .inr ⟨hcall, List.forall_mem_nil _, List.nodup_nil, hkept⟩
    · next hgrace =>
      split
      · exact .inr ⟨hcall, List.forall_mem_nil _, List.nodup_nil, hkept⟩
      · next value hvalue =>
        refine .inr ⟨hcall, fun e he => ?_, List.nodup_singleton _, fun w => ?_⟩
        · rw [List.mem_singleton.mp he]
          exact ⟨(Dict.mem_keys_iff _).mpr ⟨value, hvalue⟩, streamTime, rfl, not_lt.mp hgrace⟩
        · refine Dict.mem_keys_erase.trans (and_comm.trans (and_congr_right' ?_))
          exact not_congr List.mem_singleton.symm

/-- A suppressor that holds nothing. -/
structure Fresh (suppressor : Suppressor) : Prop where
  pending : suppressor.pending = ∅

theorem released_append_singleton (suppressor : Suppressor) (calls : List SuppressorCall)
    (call : SuppressorCall) :
    suppressor.released (calls ++ [call]) = suppressor.released calls ++
      releasedBy (call, (suppressorMachine.step
        (suppressorMachine.final suppressor calls) call).1) :=
  suppressorMachine.flatMap_trace_append_singleton releasedBy suppressor calls call

theorem final_grace (suppressor : Suppressor) (calls : List SuppressorCall) :
    (suppressorMachine.final suppressor calls).grace = suppressor.grace := by
  refine Machine.final_eq_of_step grace (fun s call => ?_) suppressor calls
  rcases call with ⟨windowEnd, value⟩ | ⟨streamTime⟩ | ⟨windowEnd, streamTime⟩
  · rfl
  · rfl
  · show (s.forceEmit windowEnd streamTime).2.grace = _
    rw [forceEmit]
    split
    · rfl
    · split <;> rfl

/-- Whatever the calls, what is let out is past its grace. -/
theorem pastGrace_trace (suppressor : Suppressor) (calls : List SuppressorCall) :
    ∀ event ∈ suppressorMachine.trace suppressor calls, ∀ e ∈ releasedBy event,
      ∃ streamTime, event.1.streamTime = some streamTime ∧
        e.1 + suppressor.grace ≤ streamTime := by
  induction calls using List.reverseRecOn with
  | nil => exact nofun
  | append_singleton calls call ih =>
    rw [Machine.trace_append_singleton]
    refine forall_mem_append_singleton.mpr ⟨ih, ?_⟩
    rcases (suppressorMachine.final suppressor calls).step_cases call with
      ⟨windowEnd, value, -, hnone, -⟩ | ⟨-, hpast, -, -⟩
    · rw [hnone]
      exact nofun
    · intro e he
      rw [← suppressor.final_grace calls]
      exact (hpast e he).2

/-! ## Letting out once -/

/-- Each window was let out at most once, and none of them is held again. -/
def Spent (suppressor : Suppressor) (calls : List SuppressorCall) : Prop :=
  ((suppressor.released calls).map Prod.fst).Nodup ∧
    ∀ w ∈ (suppressorMachine.final suppressor calls).pending.keys,
      w ∉ (suppressor.released calls).map Prod.fst

/-- **One call.** One more call leaves nothing held that was let out before exactly when it is no
update for such a window. -/
theorem Spent.onTime_iff (h : suppressor.Spent calls) :
    suppressor.OnTime calls call ↔ suppressor.Spent (calls ++ [call]) := by
  obtain ⟨hnodup, hheld⟩ := h
  rw [Spent, released_append_singleton, List.map_append, Machine.final_append_singleton]
  rcases (suppressorMachine.final suppressor calls).step_cases call with
    ⟨windowEnd, value, rfl, hnone, hkeys⟩ | ⟨hcall, hout, honce, hkeys⟩
  · rw [hnone, List.map_nil, List.append_nil]
    constructor
    · refine fun hontime => ⟨hnodup, fun w hw => ?_⟩
      rcases (hkeys w).mp hw with rfl | hw
      · exact hontime w value rfl
      · exact hheld w hw
    · rintro ⟨-, hheld'⟩ windowEnd' value' heq
      obtain ⟨rfl, rfl⟩ := SuppressorCall.update.inj heq
      exact hheld' windowEnd ((hkeys windowEnd).mpr (.inl rfl))
  · refine iff_of_true (fun windowEnd value heq => absurd heq (hcall windowEnd value)) ⟨?_, ?_⟩
    · refine List.nodup_append.mpr ⟨hnodup, honce, ?_⟩
      rintro w hw _ hw' rfl
      obtain ⟨e, he, rfl⟩ := List.mem_map.mp hw'
      exact hheld e.1 (hout e he).1 hw
    · intro w hw hmem
      obtain ⟨hw, hnot⟩ := (hkeys w).mp hw
      rcases List.mem_append.mp hmem with hmem | hmem
      · exact hheld w hw hmem
      · exact hnot hmem

/-- What is held after a run is let out by a stream time late enough. -/
theorem mem_released_advance {w streamTime : ℤ}
    (hw : w ∈ (suppressorMachine.final suppressor calls).pending.keys)
    (hpast : w + suppressor.grace ≤ streamTime) :
    w ∈ (releasedBy (.advance streamTime, (suppressorMachine.step
      (suppressorMachine.final suppressor calls) (.advance streamTime)).1)).map Prod.fst := by
  obtain ⟨e, he, rfl⟩ := List.mem_map.mp hw
  refine List.mem_map_of_mem (List.mem_mergeSort.mpr (List.mem_filter.mpr ⟨he, ?_⟩))
  rw [final_grace]
  exact decide_eq_true hpast

/-- Nothing that was let out is held exactly when nothing will be let out again. -/
theorem spent_iff (now : ℤ) :
    suppressor.Spent calls ↔
      ∀ streamTime, now ≤ streamTime → suppressor.EmitsOnce (calls ++ [.advance streamTime]) := by
  constructor
  · intro h streamTime _
    exact ⟨(h.onTime_iff.mp fun _ _ heq => (by cases heq)).1, suppressor.pastGrace_trace _⟩
  · intro h
    have honce (streamTime : ℤ) (hnow : now ≤ streamTime) := (h streamTime hnow).once
    simp only [released_append_singleton, List.map_append, List.nodup_append] at honce
    refine ⟨(honce now le_rfl).1, fun w hw hmem => ?_⟩
    exact (honce (max now (w + suppressor.grace)) (le_max_left _ _)).2.2 w hmem w
      (mem_released_advance hw (le_max_right _ _)) rfl

/-- **When each window is let out once.** In every run of a suppressor that held nothing, each
window is let out at most once and only past its grace, all along the run and however far the stream
time goes on from `now`, if and only if no update is for a window that was let out before it. -/
theorem onTime_iff_emitsOnce (h : suppressor.Fresh) (calls : List SuppressorCall) (now : ℤ) :
    Justified suppressor.OnTime calls ↔
      ∀ past, past <+: calls → ∀ streamTime, now ≤ streamTime →
        suppressor.EmitsOnce (past ++ [.advance streamTime]) := by
  simp only [← spent_iff now]
  refine justified_iff_forall_past ⟨List.nodup_nil, fun w hw => ?_⟩
    fun past call _ hspent => hspent.onTime_iff
  rw [Machine.final_nil, h.pending] at hw
  exact absurd hw List.not_mem_nil

/-- A window that is updated twice and then let out. -/
theorem onTime_iff_emitsOnce_absorbed :
    Justified (OnTime { grace := 10, grace_nonneg := by decide })
        [.update 100 1, .update 100 2, .advance 110] ↔
      ∀ past, past <+: [.update 100 1, .update 100 2, .advance 110] → ∀ streamTime,
        110 ≤ streamTime →
        EmitsOnce { grace := 10, grace_nonneg := by decide } (past ++ [.advance streamTime]) :=
  onTime_iff_emitsOnce ⟨rfl⟩ _ 110

/-- A window that is updated after it was let out is let out again. -/
theorem update_released_again :
    released { grace := 10, grace_nonneg := by decide }
        [.update 100 1, .forceEmit 100 110, .update 100 2, .forceEmit 100 120] =
      [(100, 1), (100, 2)] ∧
    ¬ EmitsOnce { grace := 10, grace_nonneg := by decide }
      [.update 100 1, .forceEmit 100 110, .update 100 2, .forceEmit 100 120] := by
  refine ⟨rfl, fun h => ?_⟩
  have honce : [(100 : ℤ), 100].Nodup := h.once
  exact absurd honce (by decide)

end Suppressor

end Relay
