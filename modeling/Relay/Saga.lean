import Mathlib.Data.List.Basic
import Relay.Errors
import Relay.Lib.Machine

/-!
# Sagas

An operation that spans several services is a sequence of local transactions, each with a
compensation that undoes it. The steps are run forward, and if one fails, the steps completed so far
are compensated in reverse order. No step is run forward once the saga is unwinding.

A step must not be undone twice, and a saga that committed has nothing to undo. But `fail` does not
look at the state it is called in: called again, or after the saga has committed, it hands out the
same compensations once more. Sagas compensate at most once exactly when `fail` is called while they
are running, or with nothing completed (`MayFail`).

## Scope

The report on what was compensated is left out.

## Main definitions

* `Saga`, with `completeStep`, `fail` and `compensateStep`
* `CompensatesOnce`: what a run of a saga promises about the steps it hands out to be undone

## Main results

* `mayFail_iff_compensatesOnce`: exactly which runs keep the promise all along
* `compensateStep_of_mem_fail`: what `fail` hands out is accepted to be compensated
-/

namespace Relay

/-- The state of a saga. -/
inductive SagaState where
  | running
  | compensating
  | committed
  | compensated
  deriving DecidableEq

/-- The word for a state. -/
def SagaState.text : SagaState → String
  | .running => "running"
  | .compensating => "compensating"
  | .committed => "committed"
  | .compensated => "compensated"

/-- A saga: its steps in order, and what has been done of them. -/
structure Saga where
  steps : List String
  completed : List String := []
  compensated : List String := []
  state : SagaState := .running
  steps_ne_nil : steps ≠ []

namespace Saga

/-- `complete_step`. -/
def completeStep (saga : Saga) (step : String) : Except RelayError String × Saga :=
  if saga.state ≠ .running then
    (.error (.invalid (s!"cannot run '{step}' forward; the saga is {saga.state.text}, "
      ++ "unwinding, not proceeding")), saga)
  else if step ∉ saga.steps then (.error (.invalid s!"'{step}' is not a step of this saga"), saga)
  else if saga.completed ++ [step] = saga.steps then
    (.ok "all steps completed; saga committed",
      { saga with
        completed := saga.completed ++ [step]
        state := .committed })
  else (.ok s!"'{step}' completed", { saga with completed := saga.completed ++ [step] })

/-- `fail`: the completed steps, to be compensated in reverse order. -/
def fail (saga : Saga) : List String × Saga :=
  (saga.completed.reverse,
    { saga with
      compensated := saga.completed.reverse
      state := .compensated })

/-- `compensate_step`. -/
def compensateStep (saga : Saga) (step : String) : Except RelayError String :=
  if step ∉ saga.completed then
    .error (.invalid (s!"'{step}' did not complete; compensating an action never "
      ++ "taken could double-undo or corrupt state"))
  else .ok s!"compensated '{step}'"

/-- Every step that `fail` hands out is accepted to be compensated. -/
theorem compensateStep_of_mem_fail (saga : Saga) {step : String} (h : step ∈ saga.fail.1) :
    saga.fail.2.compensateStep step = .ok s!"compensated '{step}'" :=
  if_neg (not_not.mpr (List.mem_reverse.mp h))

end Saga

/-! ## Runs -/

/-- A call to a saga. -/
inductive SagaCall where
  | completeStep (step : String)
  | fail
  deriving DecidableEq

/-- What a call answers. -/
inductive SagaAnswer where
  | completed (answer : Except RelayError String)
  | toCompensate (order : List String)

/-- A saga as a component. -/
def sagaMachine : Machine Saga SagaCall SagaAnswer where
  step saga
    | .completeStep step => (saga.completeStep step).map .completed id
    | .fail => saga.fail.map .toCompensate id

/-- The step that a call completed. -/
def completionOf : SagaCall × SagaAnswer → Option String
  | (.completeStep step, .completed (.ok _)) => some step
  | _ => none

/-- The steps that a call returned to be compensated. -/
def compensationsOf : SagaCall × SagaAnswer → List String
  | (_, .toCompensate order) => order
  | _ => []

namespace Saga

/-- The steps that were completed in a run, oldest first. -/
def completions (saga : Saga) (calls : List SagaCall) : List String :=
  (sagaMachine.trace saga calls).filterMap completionOf

/-- All the steps that were returned to be compensated in a run, one answer after another. -/
def compensations (saga : Saga) (calls : List SagaCall) : List String :=
  (sagaMachine.trace saga calls).flatMap compensationsOf

/-- Every completion is compensated at most once, in reverse order, and none after the saga has
committed. -/
structure CompensatesOnce (saga : Saga) (calls : List SagaCall) : Prop where
  once : (saga.compensations calls).Sublist (saga.completions calls).reverse
  committed : ∀ before after, calls = before ++ after →
    (sagaMachine.final saga before).state = .committed →
    (sagaMachine.final saga before).compensations after = []

/-- `fail` is called on a running saga, or with nothing completed. -/
def MayFail (saga : Saga) (call : SagaCall) : Prop :=
  call = .fail → saga.state = .running ∨ saga.completed = []

variable {saga : Saga} {calls : List SagaCall} {call : SagaCall}

/-- What `completeStep` does: it is refused, or it adds the step to a running saga, which may
commit it. -/
theorem step_completeStep (saga : Saga) (step : String) :
    (completionOf (.completeStep step, (sagaMachine.step saga (.completeStep step)).1) = none ∧
        (sagaMachine.step saga (.completeStep step)).2 = saga) ∨
      saga.state = .running ∧ ∃ state, (state = .running ∨ state = .committed) ∧
        completionOf (.completeStep step, (sagaMachine.step saga (.completeStep step)).1) =
          some step ∧
        (sagaMachine.step saga (.completeStep step)).2 =
          { saga with completed := saga.completed ++ [step], state := state } := by
  have hstep : sagaMachine.step saga (.completeStep step) =
      (saga.completeStep step).map .completed id := rfl
  rw [hstep, completeStep]
  split
  · exact .inl ⟨rfl, rfl⟩
  · next hrunning =>
    rw [not_not] at hrunning
    split
    · exact .inl ⟨rfl, rfl⟩
    · split
      · exact .inr ⟨hrunning, .committed, .inr rfl, rfl, rfl⟩
      · exact .inr ⟨hrunning, .running, .inl rfl, rfl, by rw [← hrunning]; rfl⟩

theorem completions_append_singleton (saga : Saga) (calls : List SagaCall) (call : SagaCall) :
    saga.completions (calls ++ [call]) = saga.completions calls ++
      (completionOf (call, (sagaMachine.step (sagaMachine.final saga calls) call).1)).toList :=
  sagaMachine.filterMap_trace_append_singleton completionOf saga calls call

theorem completions_append_fail (saga : Saga) (calls : List SagaCall) :
    saga.completions (calls ++ [.fail]) = saga.completions calls :=
  (saga.completions_append_singleton calls .fail).trans (List.append_nil _)

theorem compensations_append (saga : Saga) (before after : List SagaCall) :
    saga.compensations (before ++ after) =
      saga.compensations before ++ (sagaMachine.final saga before).compensations after := by
  rw [compensations, Machine.trace_append, List.flatMap_append]
  rfl

theorem compensations_fail (saga : Saga) : saga.compensations [.fail] = saga.completed.reverse :=
  List.append_nil _

theorem compensations_completeStep (saga : Saga) (step : String) :
    saga.compensations [.completeStep step] = [] := rfl

/-- A saga that has stopped running never runs again, and completes nothing more. -/
theorem final_of_ne_running (h : saga.state ≠ .running) (calls : List SagaCall) :
    (sagaMachine.final saga calls).state ≠ .running ∧
      (sagaMachine.final saga calls).completed = saga.completed := by
  refine Machine.always
    (P := fun s : Saga => s.state ≠ .running ∧ s.completed = saga.completed) ⟨h, rfl⟩ ?_ calls
  rintro s (step | _) ⟨hstate, hcompleted⟩
  · rcases s.step_completeStep step with ⟨-, hsame⟩ | ⟨hrunning, -⟩
    · rw [hsame]
      exact ⟨hstate, hcompleted⟩
    · exact absurd hrunning hstate
  · exact ⟨nofun, hcompleted⟩

/-- What the books of a saga say of the run that led to it. -/
structure Accounts (start : Saga) (calls : List SagaCall) : Prop where
  completed : (sagaMachine.final start calls).completed = start.completions calls
  running : (sagaMachine.final start calls).state = .running → start.compensations calls = []
  compensated : (sagaMachine.final start calls).state = .compensated →
    (start.completions calls).length ≤ (start.compensations calls).length
  settled : (sagaMachine.final start calls).state ≠ .compensating

/-- **One call.** -/
theorem Accounts.step (h : Accounts saga calls) (call : SagaCall) :
    Accounts saga (calls ++ [call]) := by
  have hfinal := sagaMachine.final_append_singleton saga calls call
  have hcompletions := completions_append_singleton saga calls call
  have hcompensations := saga.compensations_append calls [call]
  cases call with
  | completeStep step =>
    rw [compensations_completeStep, List.append_nil] at hcompensations
    rcases (sagaMachine.final saga calls).step_completeStep step with
      ⟨hnone, hsame⟩ | ⟨hrunning, state, hstate, hone, hnext⟩
    · rw [hnone, Option.toList_none, List.append_nil] at hcompletions
      rw [hsame] at hfinal
      constructor
      · rw [hfinal, hcompletions, h.completed]
      · rw [hfinal, hcompensations]
        exact h.running
      · rw [hfinal, hcompletions, hcompensations]
        exact h.compensated
      · rw [hfinal]
        exact h.settled
    · rw [hone, Option.toList_some] at hcompletions
      rw [hnext] at hfinal
      have hafter : (sagaMachine.final saga (calls ++ [.completeStep step])).state = state :=
        congrArg Saga.state hfinal
      constructor
      · rw [hfinal, hcompletions, ← h.completed]
      · rw [hcompensations]
        exact fun _ => h.running hrunning
      · rw [hafter]
        rintro rfl
        rcases hstate with hstate | hstate <;> cases hstate
      · rw [hafter]
        rintro rfl
        rcases hstate with hstate | hstate <;> cases hstate
  | fail =>
    rw [compensations_fail] at hcompensations
    constructor
    · rw [hfinal, completions_append_fail, ← h.completed]
      rfl
    · rw [hfinal]
      exact nofun
    · intro _
      rw [completions_append_fail, hcompensations, List.length_append, List.length_reverse,
        h.completed]
      exact Nat.le_add_left _ _
    · rw [hfinal]
      exact nofun

/-- A saga as it is created. -/
def Fresh (saga : Saga) : Prop :=
  saga.completed = [] ∧ saga.state = .running

theorem Fresh.accounts (h : saga.Fresh) (calls : List SagaCall) : Accounts saga calls := by
  induction calls using List.reverseRecOn with
  | nil =>
    refine ⟨h.1, fun _ => rfl, fun _ => Nat.le_refl 0, ?_⟩
    rw [Machine.final_nil, h.2]
    exact nofun
  | append_singleton calls call ih => exact ih.step call

/-- A timely call keeps the promise. -/
theorem Accounts.compensatesOnce_append (h : Accounts saga calls)
    (honce : saga.CompensatesOnce calls) (hmay : (sagaMachine.final saga calls).MayFail call) :
    saga.CompensatesOnce (calls ++ [call]) := by
  constructor
  · rw [compensations_append]
    cases call with
    | completeStep step =>
      rw [compensations_completeStep, List.append_nil, completions_append_singleton,
        List.reverse_append]
      exact honce.once.trans (List.sublist_append_right _ _)
    | fail =>
      rw [compensations_fail, completions_append_fail, h.completed]
      rcases hmay rfl with hrunning | hnone
      · rw [h.running hrunning, List.nil_append]
      · rw [h.completed] at hnone
        have honce := honce.once
        rw [hnone] at honce ⊢
        rwa [List.reverse_nil, List.append_nil]
  · intro before after hsplit hcommitted
    rcases List.eq_nil_or_concat after with rfl | ⟨after, call', rfl⟩
    · rfl
    · rw [List.concat_eq_append, ← List.append_assoc] at hsplit
      obtain ⟨rfl, hcall⟩ := List.append_inj' hsplit rfl
      obtain rfl := List.singleton_inj.mp hcall
      have hrest := honce.committed before after rfl hcommitted
      rw [List.concat_eq_append, compensations_append, hrest, List.nil_append,
        ← Machine.final_append]
      cases call with
      | completeStep step => rfl
      | fail =>
        rw [compensations_fail]
        rcases hmay rfl with hrunning | hnone
        · rw [Machine.final_append] at hrunning
          refine absurd hrunning (final_of_ne_running ?_ after).1
          rw [hcommitted]
          exact nofun
        · rw [hnone, List.reverse_nil]

/-- A call that keeps the promise is timely. -/
theorem Accounts.mayFail (h : Accounts saga calls)
    (hnext : saga.CompensatesOnce (calls ++ [call])) :
    (sagaMachine.final saga calls).MayFail call := by
  rintro rfl
  refine or_iff_not_imp_left.mpr fun hrunning => ?_
  cases hstate : (sagaMachine.final saga calls).state with
  | running => exact absurd hstate hrunning
  | compensating => exact absurd hstate h.settled
  | committed =>
    have hnone := hnext.committed calls [.fail] rfl hstate
    rw [compensations_fail] at hnone
    exact List.reverse_eq_nil_iff.mp hnone
  | compensated =>
    -- everything has been handed out already, so there is no room for more
    have hlength := hnext.once.length_le
    rw [compensations_append, compensations_fail, completions_append_fail, List.length_reverse,
      List.length_append, List.length_reverse, h.completed] at hlength
    have hall := h.compensated hstate
    rw [h.completed]
    exact List.eq_nil_of_length_eq_zero (by omega)

/-- **When a saga is undone at most once.** In every run of a new saga, it is undone at most once,
in reverse order, and not after it has committed, in every state along the run, if and only if every
`fail` finds it running or with nothing completed. -/
theorem mayFail_iff_compensatesOnce (steps : List String) (hsteps : steps ≠ [])
    (calls : List SagaCall) :
    sagaMachine.Guarded MayFail { steps := steps, steps_ne_nil := hsteps } calls ↔
      ∀ past, past <+: calls →
        CompensatesOnce { steps := steps, steps_ne_nil := hsteps } past := by
  have hfresh : Fresh { steps := steps, steps_ne_nil := hsteps } := ⟨rfl, rfl⟩
  rw [Machine.guarded_iff_justified]
  refine justified_iff_forall_past ⟨List.Sublist.refl _, fun before after hsplit _ => ?_⟩
    fun past call _ honce => ⟨(hfresh.accounts past).compensatesOnce_append honce,
      (hfresh.accounts past).mayFail⟩
  rw [(List.append_eq_nil_iff.mp hsplit.symm).2]
  rfl

theorem mayFail_iff_compensatesOnce_order :
    sagaMachine.Guarded MayFail { steps := ["reserve", "charge"], steps_ne_nil := by decide }
        [.completeStep "reserve", .fail] ↔
      ∀ past, past <+: [.completeStep "reserve", .fail] →
        CompensatesOnce { steps := ["reserve", "charge"], steps_ne_nil := by decide } past :=
  mayFail_iff_compensatesOnce ["reserve", "charge"] (by decide) [.completeStep "reserve", .fail]

/-- A saga that committed is compensated, and one that failed twice is compensated twice. -/
theorem fail_compensates_again :
    ¬ CompensatesOnce { steps := ["reserve"], steps_ne_nil := by decide }
        [.completeStep "reserve", .fail] ∧
      ¬ CompensatesOnce { steps := ["reserve", "charge"], steps_ne_nil := by decide }
        [.completeStep "reserve", .fail, .fail] := by
  constructor
  · intro h
    have hnone : ["reserve"] = [] := h.committed [.completeStep "reserve"] [.fail] rfl rfl
    cases hnone
  · intro h
    have hlength : 2 ≤ 1 := h.once.length_le
    exact absurd hlength (by decide)

end Saga

end Relay
