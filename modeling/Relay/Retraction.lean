import Mathlib.Algebra.BigOperators.Group.List.Basic
import Mathlib.Algebra.Order.Ring.Int
import Relay.Errors
import Relay.Lib.Counters
import Relay.Lib.Since

/-!
# Retractions

A windowed aggregate that has sent a result downstream may have to correct it. It then takes back
what it has sent for the window before it sends the new value, so that whoever adds the values up
and subtracts what is taken back is right at any time.

## Scope

The report on the number of retractions is left out. The number is counted.

## Main definitions

* `RetractingEmitter`, with `emit`, `retractOnly` and `netEffect`
* `retractingEmitter`: the emitter as a component, and `sent`: the records it sends in a run
* `Said`: what the records say last of a window

## Main results

* `retractingEmitter_answers`: what is sent, that nothing is taken back that was not said last, and
  what the records add up to
-/

namespace Relay

/-- A value is sent, or taken back. -/
inductive EmittedKind where
  | add
  | retract
  deriving DecidableEq

/-- A record sent downstream. -/
structure EmittedRecord where
  kind : EmittedKind
  window : ℤ
  value : ℤ
  deriving DecidableEq

/-- The emitter, with the value that stands for each window. -/
structure RetractingEmitter where
  emitted : Dict ℤ ℤ := ∅
  retractions : ℤ := 0

/-- What is taken back of a window that has no value. -/
def neverEmitted (window : ℤ) : RelayError :=
  .invalid (s!"window {window} never emitted; a spurious retraction would " ++
    "make a downstream subtract a value it never added")

namespace RetractingEmitter

/-- `emit`. -/
def emit (emitter : RetractingEmitter) (window value : ℤ) :
    List EmittedRecord × RetractingEmitter :=
  match emitter.emitted.get? window with
  | some old =>
    ([⟨.retract, window, old⟩, ⟨.add, window, value⟩],
      { emitted := emitter.emitted.set window value, retractions := emitter.retractions + 1 })
  | none =>
    ([⟨.add, window, value⟩], { emitter with emitted := emitter.emitted.set window value })

/-- `retract_only`. -/
def retractOnly (emitter : RetractingEmitter) (window : ℤ) :
    Except RelayError EmittedRecord × RetractingEmitter :=
  match emitter.emitted.get? window with
  | none => (.error (neverEmitted window), emitter)
  | some value =>
    (.ok ⟨.retract, window, value⟩,
      { emitted := emitter.emitted.erase window, retractions := emitter.retractions + 1 })

/-- `net_effect`. -/
def netEffect (records : List EmittedRecord) : ℤ :=
  records.foldl (fun total r => total + if r.kind = .add then r.value else -r.value) 0

end RetractingEmitter

open RetractingEmitter (netEffect)

/-- What is asked of the emitter. -/
inductive EmitterCall where
  | emit (window value : ℤ)
  | retractOnly (window : ℤ)
  deriving DecidableEq

/-- What the emitter answers. -/
inductive EmitterAnswer where
  | emit (records : List EmittedRecord)
  | retractOnly (answer : Except RelayError EmittedRecord)

/-- The emitter as a component. -/
def retractingEmitter : Machine RetractingEmitter EmitterCall EmitterAnswer where
  step emitter
    | .emit window value => (.emit (emitter.emit window value).1, (emitter.emit window value).2)
    | .retractOnly window =>
      (.retractOnly (emitter.retractOnly window).1, (emitter.retractOnly window).2)

/-- The records that are sent in some events. -/
def sent (past : List (EmitterCall × EmitterAnswer)) : List EmittedRecord :=
  past.flatMap fun e =>
    match e.2 with
    | .emit records => records
    | .retractOnly (.ok record) => [record]
    | .retractOnly (.error _) => []

/-! ## What the records say -/

/-- The records of one window. -/
def ofWindow (window : ℤ) (records : List EmittedRecord) : List EmittedRecord :=
  records.filter fun r => r.window = window

/-- The last record of the window adds the value. -/
def Said (window value : ℤ) (records : List EmittedRecord) : Prop :=
  (ofWindow window records).getLast? = some ⟨.add, window, value⟩

/-- What is taken back is what was said last of the window, and a value is only sent when nothing is
said of the window. -/
def Unsays (records : List EmittedRecord) (r : EmittedRecord) : Prop :=
  match r.kind with
  | .retract => Said r.window r.value records
  | .add => ∀ value, ¬ Said r.window value records

/-- What is answered after some events. -/
def EmitterAnswers (past : List (EmitterCall × EmitterAnswer)) : EmitterCall × EmitterAnswer → Prop
  | (.emit window value, answer) =>
    (∀ old, Said window old (sent past) →
        answer = .emit [⟨.retract, window, old⟩, ⟨.add, window, value⟩]) ∧
      ((∀ old, ¬ Said window old (sent past)) → answer = .emit [⟨.add, window, value⟩])
  | (.retractOnly window, answer) =>
    (∀ old, Said window old (sent past) →
        answer = .retractOnly (.ok ⟨.retract, window, old⟩)) ∧
      ((∀ old, ¬ Said window old (sent past)) →
        answer = .retractOnly (.error (neverEmitted window)))

theorem ofWindow_append_singleton (window : ℤ) (records : List EmittedRecord) (r : EmittedRecord) :
    ofWindow window (records ++ [r]) =
      if r.window = window then ofWindow window records ++ [r] else ofWindow window records := by
  rw [ofWindow, List.filter_append]
  split
  · next hwindow => simp [ofWindow, hwindow]
  · next hwindow => simp [ofWindow, hwindow]

/-- What stands for a window is what its last record says. -/
theorem said_append_singleton {window value : ℤ} {records : List EmittedRecord}
    {r : EmittedRecord} :
    Said window value (records ++ [r]) ↔
      if r.window = window then r = ⟨.add, window, value⟩ else Said window value records := by
  rw [Said, ofWindow_append_singleton]
  split
  · rw [List.getLast?_concat, Option.some.injEq]
  · rfl

/-- An addition counts its value, and a retraction takes it away. -/
theorem netEffect_append_singleton (records : List EmittedRecord) (r : EmittedRecord) :
    netEffect (records ++ [r]) =
      netEffect records + if r.kind = .add then r.value else -r.value := by
  rw [netEffect, List.foldl_append]
  rfl

theorem netEffect_ofWindow_append_singleton (window : ℤ) (records : List EmittedRecord)
    (r : EmittedRecord) :
    netEffect (ofWindow window (records ++ [r])) = netEffect (ofWindow window records) +
      if r.window = window then if r.kind = .add then r.value else -r.value else 0 := by
  rw [ofWindow_append_singleton]
  split
  · rw [netEffect_append_singleton]
  · exact (Int.add_zero _).symm

/-! ## Every run -/

section Runs

variable {records : List EmittedRecord} {emitted : Dict ℤ ℤ} {window value : ℤ}

/-- The values that stand are what the records say, and what they add up to. -/
structure Stands (records : List EmittedRecord) (emitted : Dict ℤ ℤ) : Prop where
  said window value : emitted.get? window = some value ↔ Said window value records
  unsays : Justified Unsays records
  net window : netEffect (ofWindow window records) = emitted.count window
  total : netEffect records = emitted.total

/-- Only lookups matter. -/
theorem Stands.congr {emitted' : Dict ℤ ℤ} (h : Stands records emitted)
    (heq : ∀ w, emitted'.get? w = emitted.get? w) : Stands records emitted' := by
  have hcount : ∀ w, emitted'.count w = emitted.count w := fun w => by
    rw [Dict.count, Dict.getD, heq]
    rfl
  refine ⟨fun w v => ?_, h.unsays, fun w => ?_, ?_⟩
  · rw [heq, h.said]
  · rw [hcount, h.net]
  · rw [Dict.total_congr hcount, h.total]

/-- A value is sent for a window that has none. -/
theorem Stands.add (h : Stands records emitted) (hnone : emitted.get? window = none) (value : ℤ) :
    Stands (records ++ [⟨.add, window, value⟩]) (emitted.set window value) where
  said w v := by
    rw [said_append_singleton, Dict.get?_set]
    by_cases hw : w = window
    · subst hw
      simp
    · rw [if_neg hw, if_neg (Ne.symm hw), h.said]
  unsays := by
    refine justified_append_singleton.mpr ⟨h.unsays, fun v hsaid => ?_⟩
    rw [← h.said, hnone] at hsaid
    cases hsaid
  net w := by
    rw [netEffect_ofWindow_append_singleton, h.net, Dict.count_set]
    by_cases hw : w = window
    · subst hw
      rw [Dict.count, Dict.getD, hnone]
      simp
    · rw [if_neg hw, if_neg (Ne.symm hw), Int.add_zero]
  total := by
    rw [netEffect_append_singleton, h.total, Dict.total_set, Dict.count, Dict.getD, hnone]
    simp

/-- The value of a window is taken back. -/
theorem Stands.retract (h : Stands records emitted) (hsome : emitted.get? window = some value) :
    Stands (records ++ [⟨.retract, window, value⟩]) (emitted.erase window) where
  said w v := by
    rw [said_append_singleton, Dict.get?_erase]
    by_cases hw : w = window
    · subst hw
      simp
    · rw [if_neg hw, if_neg (Ne.symm hw), h.said]
  unsays := justified_append_singleton.mpr ⟨h.unsays, (h.said _ _).mp hsome⟩
  net w := by
    rw [netEffect_ofWindow_append_singleton, h.net, Dict.count, Dict.count, Dict.getD, Dict.getD,
      Dict.get?_erase]
    by_cases hw : w = window
    · subst hw
      simp [hsome]
    · simp [hw, Ne.symm hw]
  total := by
    rw [netEffect_append_singleton, h.total, Dict.total_erase, Dict.count, Dict.getD, hsome]
    rfl

theorem sent_append_singleton (past : List (EmitterCall × EmitterAnswer))
    (e : EmitterCall × EmitterAnswer) : sent (past ++ [e]) = sent past ++ sent [e] := by
  rw [sent, List.flatMap_append]
  rfl

/-- What is sent is taken back or added, and the counter counts what is taken back. -/
def Emits (past : List (EmitterCall × EmitterAnswer)) (emitter : RetractingEmitter) : Prop :=
  Stands (sent past) emitter.emitted ∧
    emitter.retractions = ((sent past).countP fun r => r.kind = .retract : ℕ)

/-- Every call sends what takes the place of what stood. -/
theorem emits_step (past : List (EmitterCall × EmitterAnswer)) (emitter : RetractingEmitter)
    (call : EmitterCall) (h : Emits past emitter) :
    Emits (past ++ [(call, (retractingEmitter.step emitter call).1)])
      (retractingEmitter.step emitter call).2 := by
  obtain ⟨hstands, hcount⟩ := h
  rw [Emits, sent_append_singleton, List.countP_append, Nat.cast_add, ← hcount]
  cases call with
  | emit window value =>
    change Stands (sent past ++ sent [(_, .emit (emitter.emit window value).1)])
      (emitter.emit window value).2.emitted ∧ _
    cases hget : emitter.emitted.get? window with
    | none =>
      have hemit : emitter.emit window value = ([⟨.add, window, value⟩],
          { emitter with emitted := emitter.emitted.set window value }) := by
        rw [RetractingEmitter.emit, hget]
      rw [retractingEmitter]
      dsimp only
      rw [hemit]
      exact ⟨hstands.add hget value, (Int.add_zero _).symm⟩
    | some old =>
      have hemit : emitter.emit window value =
          ([⟨.retract, window, old⟩, ⟨.add, window, value⟩],
            { emitted := emitter.emitted.set window value,
              retractions := emitter.retractions + 1 }) := by
        rw [RetractingEmitter.emit, hget]
      rw [retractingEmitter]
      dsimp only
      rw [hemit]
      refine ⟨?_, rfl⟩
      have hnone : (emitter.emitted.erase window).get? window = none := by
        rw [Dict.get?_erase, if_pos rfl]
      have hboth : Stands (sent past ++ [⟨.retract, window, old⟩] ++ [⟨.add, window, value⟩])
          (emitter.emitted.set window value) :=
        ((hstands.retract hget).add hnone value).congr fun w => by
          rw [Dict.get?_set, Dict.get?_set, Dict.get?_erase]
          split <;> rfl
      rw [List.append_assoc] at hboth
      exact hboth
  | retractOnly window =>
    cases hget : emitter.emitted.get? window with
    | none =>
      have hretract : emitter.retractOnly window = (.error (neverEmitted window), emitter) := by
        rw [RetractingEmitter.retractOnly, hget]
      rw [retractingEmitter]
      dsimp only
      rw [hretract]
      refine ⟨?_, (Int.add_zero _).symm⟩
      have hnothing : sent [(EmitterCall.retractOnly window,
          .retractOnly (.error (neverEmitted window)))] = [] := rfl
      rw [hnothing, List.append_nil]
      exact hstands
    | some value =>
      have hretract : emitter.retractOnly window = (.ok ⟨.retract, window, value⟩,
          { emitted := emitter.emitted.erase window, retractions := emitter.retractions + 1 }) := by
        rw [RetractingEmitter.retractOnly, hget]
      rw [retractingEmitter]
      dsimp only
      rw [hretract]
      exact ⟨hstands.retract hget, rfl⟩

theorem emits_trace (calls : List EmitterCall) :
    Emits (retractingEmitter.trace {} calls) (retractingEmitter.final {} calls) :=
  Machine.trace_always (P := Emits)
    ⟨⟨fun w v => iff_of_false (fun h => by cases h) (fun h => by cases h), justified_nil _,
      fun w => rfl, rfl⟩, rfl⟩ emits_step calls

/-- **Nothing is taken back that was not said.** In every run a value that is sent for a window
follows the retraction of the value that stood for it, if one did, and a retraction alone is refused
if none did. So all that is taken back was said last of its window, and what the records of a window
add up to is the value that stands for it; all records add up to all values that stand. -/
theorem retractingEmitter_answers (calls : List EmitterCall) :
    Justified EmitterAnswers (retractingEmitter.trace {} calls) ∧
      Justified Unsays (sent (retractingEmitter.trace {} calls)) ∧
      (∀ window, netEffect (ofWindow window (sent (retractingEmitter.trace {} calls))) =
        (retractingEmitter.final {} calls).emitted.count window) ∧
      netEffect (sent (retractingEmitter.trace {} calls)) =
        (retractingEmitter.final {} calls).emitted.total ∧
      (retractingEmitter.final {} calls).retractions =
        ((sent (retractingEmitter.trace {} calls)).countP fun r => r.kind = .retract : ℕ) := by
  obtain ⟨hstands, hcount⟩ := emits_trace calls
  refine ⟨Machine.justified_trace (fun calls call => ?_) calls, hstands.unsays, hstands.net,
    hstands.total, hcount⟩
  have hsaid := (emits_trace calls).1.said
  revert hsaid
  generalize retractingEmitter.final {} calls = emitter
  generalize retractingEmitter.trace {} calls = past
  intro hsaid
  cases call with
  | emit window value =>
    refine ⟨fun old hold => ?_, fun hnone => ?_⟩
    · refine congrArg EmitterAnswer.emit ?_
      rw [RetractingEmitter.emit, (hsaid window old).mpr hold]
    · refine congrArg EmitterAnswer.emit ?_
      rw [RetractingEmitter.emit, Option.eq_none_iff_forall_ne_some.mpr fun old hold =>
        hnone old ((hsaid window old).mp hold)]
  | retractOnly window =>
    refine ⟨fun old hold => ?_, fun hnone => ?_⟩
    · refine congrArg EmitterAnswer.retractOnly ?_
      rw [RetractingEmitter.retractOnly, (hsaid window old).mpr hold]
    · refine congrArg EmitterAnswer.retractOnly ?_
      rw [RetractingEmitter.retractOnly, Option.eq_none_iff_forall_ne_some.mpr fun old hold =>
        hnone old ((hsaid window old).mp hold)]

end Runs

end Relay
