import Mathlib.Algebra.Order.Ring.Int
import Relay.Errors
import Relay.Lib.Dict
import Relay.Lib.Since

/-!
# Hinted handoff

While a replica is down its writes are kept for it as hints, and they are handed over when it is
back. A hint that has become too old is dropped instead. That is only found out when the hints of
the replica are looked at: counting them drops the old ones as well, and does so for good, whatever
time the next call names.

## Main definitions

* `HintedHandoff`, with `storeHint`, `replay` and `pending`
* `hintedHandoff`: the hints as a component
* `waiting`: the hints a replica still has, told from the calls alone
* `handedOver`: the writes that were handed over to a replica

## Main results

* `hintedHandoff_answers`: what every call of a run answers, and that the writes are handed over in
  the order they were stored in, each at most once
-/

namespace Relay

/-- The hints, with the time and the write of each. -/
structure HintedHandoff where
  hintWindow : ℤ
  hints : Dict String (List (ℤ × String)) := ∅
  hintWindow_pos : 1 ≤ hintWindow

/-- What a hint for a replica that is up is refused with. -/
def replicaIsUp (replica : String) : RelayError :=
  .invalid (s!"replica '{replica}' is up; it should take the write directly, " ++
    "not through a hint that adds a hop")

/-- How many hints there are. -/
def pendingReport (n : ℕ) (replica : String) : String :=
  s!"{n} hint(s) pending for '{replica}'; many means it is down long " ++
    "enough that hints may expire, where anti-entropy rather than " ++
    "handoff becomes what heals it"

namespace HintedHandoff

/-- `store_hint`. -/
def storeHint (handoff : HintedHandoff) (replica : String) (now : ℤ) (write : String)
    (replicaUp : Bool) : Except RelayError String × HintedHandoff :=
  if replicaUp then (.error (replicaIsUp replica), handoff)
  else
    (.ok s!"hint stored for down replica '{replica}'",
      { handoff with
        hints := handoff.hints.set replica (handoff.hints.getD replica [] ++ [(now, write)]) })

/-- `_expire`. -/
def expire (handoff : HintedHandoff) (replica : String) (now : ℤ) : HintedHandoff :=
  { handoff with
    hints := handoff.hints.set replica
      ((handoff.hints.getD replica []).filter fun hint => now - hint.1 < handoff.hintWindow) }

/-- `replay`. -/
def replay (handoff : HintedHandoff) (replica : String) (now : ℤ) : List String × HintedHandoff :=
  let handoff := handoff.expire replica now
  ((handoff.hints.getD replica []).map Prod.snd,
    { handoff with hints := handoff.hints.set replica [] })

/-- `pending`. -/
def pending (handoff : HintedHandoff) (replica : String) (now : ℤ) : String × HintedHandoff :=
  let handoff := handoff.expire replica now
  (pendingReport (handoff.hints.getD replica []).length replica, handoff)

end HintedHandoff

/-- What is asked. -/
inductive HandoffCall where
  | storeHint (replica : String) (now : ℤ) (write : String) (replicaUp : Bool)
  | replay (replica : String) (now : ℤ)
  | pending (replica : String) (now : ℤ)
  deriving DecidableEq

/-- What is answered. -/
inductive HandoffAnswer where
  | storeHint (answer : Except RelayError String)
  | replay (writes : List String)
  | pending (report : String)

/-- The hints as a component. -/
def hintedHandoff : Machine HintedHandoff HandoffCall HandoffAnswer where
  step handoff
    | .storeHint replica now write replicaUp =>
      (.storeHint (handoff.storeHint replica now write replicaUp).1,
        (handoff.storeHint replica now write replicaUp).2)
    | .replay replica now =>
      (.replay (handoff.replay replica now).1, (handoff.replay replica now).2)
    | .pending replica now =>
      (.pending (handoff.pending replica now).1, (handoff.pending replica now).2)

/-! ## What the calls say -/

/-- The hint that is stored for the replica. -/
def hinted (replica : String) : HandoffCall × HandoffAnswer → Option (ℤ × String)
  | (.storeHint r now write false, _) => if r = replica then some (now, write) else none
  | _ => none

/-- The hint is handed over, or is found too old when the hints of the replica are counted. -/
def LeavesHints (hintWindow : ℤ) (replica : String) (hint : ℤ × String) :
    HandoffCall × HandoffAnswer → Prop
  | (.storeHint .., _) => False
  | (.replay r _, _) => r = replica
  | (.pending r now, _) => r = replica ∧ hintWindow ≤ now - hint.1

instance (hintWindow : ℤ) (replica : String) (hint : ℤ × String) (e : HandoffCall × HandoffAnswer) :
    Decidable (LeavesHints hintWindow replica hint e) :=
  match e with
  | (.storeHint .., _) => .isFalse id
  | (.replay r _, _) => inferInstanceAs (Decidable (r = replica))
  | (.pending r now, _) => inferInstanceAs (Decidable (r = replica ∧ hintWindow ≤ now - hint.1))

/-- The hints that were stored for the replica and have not left since. -/
def waiting (hintWindow : ℤ) (replica : String) (past : List (HandoffCall × HandoffAnswer)) :
    List (ℤ × String) :=
  survivors (hinted replica) (LeavesHints hintWindow replica) past

/-- The hints that wait and are not yet too old. -/
def freshHints (hintWindow : ℤ) (replica : String) (now : ℤ)
    (past : List (HandoffCall × HandoffAnswer)) : List (ℤ × String) :=
  (waiting hintWindow replica past).filter fun hint => now - hint.1 < hintWindow

/-- The writes that were handed over to the replica, in order. -/
def handedOver (replica : String) (past : List (HandoffCall × HandoffAnswer)) : List String :=
  past.flatMap fun
    | (.replay r _, .replay writes) => if r = replica then writes else []
    | _ => []

/-- What is answered after some events. -/
def HandoffAnswers (hintWindow : ℤ) (past : List (HandoffCall × HandoffAnswer)) :
    HandoffCall × HandoffAnswer → Prop
  | (.storeHint replica _ _ replicaUp, answer) =>
    answer = .storeHint (if replicaUp then .error (replicaIsUp replica)
      else .ok s!"hint stored for down replica '{replica}'")
  | (.replay replica now, answer) =>
    answer = .replay ((freshHints hintWindow replica now past).map Prod.snd)
  | (.pending replica now, answer) =>
    answer = .pending (pendingReport (freshHints hintWindow replica now past).length replica)

/-! ## Every run -/

section Runs

variable {hintWindow : ℤ} {past : List (HandoffCall × HandoffAnswer)} {handoff : HintedHandoff}

/-- The hints are those that wait, and what was handed over comes before them in the order of what
was stored. -/
structure Hands (hintWindow : ℤ) (past : List (HandoffCall × HandoffAnswer))
    (handoff : HintedHandoff) : Prop where
  window_eq : handoff.hintWindow = hintWindow
  hints replica : handoff.hints.getD replica [] = waiting hintWindow replica past
  sublist replica :
    (handedOver replica past ++ (waiting hintWindow replica past).map Prod.snd).Sublist
      ((past.filterMap (hinted replica)).map Prod.snd)

theorem waiting_append_singleton (replica : String) (e : HandoffCall × HandoffAnswer) :
    waiting hintWindow replica (past ++ [e]) =
      (waiting hintWindow replica past).filter
          (fun hint => ¬ LeavesHints hintWindow replica hint e) ++
        (hinted replica e).toList :=
  survivors_append_singleton

theorem handedOver_append_singleton (replica : String) (e : HandoffCall × HandoffAnswer) :
    handedOver replica (past ++ [e]) = handedOver replica past ++ handedOver replica [e] := by
  rw [handedOver, List.flatMap_append]
  rfl

theorem hinted_append_singleton (replica : String) (e : HandoffCall × HandoffAnswer) :
    ((past ++ [e]).filterMap (hinted replica)).map Prod.snd =
      (past.filterMap (hinted replica)).map Prod.snd ++ (hinted replica e).toList.map Prod.snd := by
  rw [List.filterMap_append, List.map_append]
  cases hmade : hinted replica e <;> simp [hmade]

/-- An event that no hint of the replica leaves at and that hands nothing over to it. -/
theorem Hands.stored (h : Hands hintWindow past handoff) {e : HandoffCall × HandoffAnswer}
    {replica : String} (hstay : ∀ hint, ¬ LeavesHints hintWindow replica hint e)
    (hnothing : handedOver replica [e] = []) :
    waiting hintWindow replica (past ++ [e]) =
        waiting hintWindow replica past ++ (hinted replica e).toList ∧
      (handedOver replica (past ++ [e]) ++
          (waiting hintWindow replica (past ++ [e])).map Prod.snd).Sublist
        (((past ++ [e]).filterMap (hinted replica)).map Prod.snd) := by
  have hwaiting : waiting hintWindow replica (past ++ [e]) =
      waiting hintWindow replica past ++ (hinted replica e).toList := by
    rw [waiting_append_singleton, List.filter_eq_self.mpr fun hint _ => decide_eq_true (hstay hint)]
  refine ⟨hwaiting, ?_⟩
  rw [hwaiting, handedOver_append_singleton, hnothing, List.append_nil, hinted_append_singleton,
    List.map_append, ← List.append_assoc]
  exact (h.sublist replica).append (List.Sublist.refl _)

/-- The event hands over some hints of the replica and keeps others, all in order. -/
theorem Hands.left (h : Hands hintWindow past handoff) {e : HandoffCall × HandoffAnswer}
    {replica : String} (hmade : hinted replica e = none)
    (hleft : (handedOver replica [e] ++
        ((waiting hintWindow replica past).filter
          fun hint => ¬ LeavesHints hintWindow replica hint e).map Prod.snd).Sublist
      ((waiting hintWindow replica past).map Prod.snd)) :
    (handedOver replica (past ++ [e]) ++
        (waiting hintWindow replica (past ++ [e])).map Prod.snd).Sublist
      (((past ++ [e]).filterMap (hinted replica)).map Prod.snd) := by
  rw [handedOver_append_singleton, waiting_append_singleton, hinted_append_singleton, hmade,
    Option.toList_none, List.append_nil, List.map_nil, List.append_nil, List.append_assoc]
  exact ((List.Sublist.refl _).append hleft).trans (h.sublist replica)

/-- A hint waits if the replica is down. -/
theorem Hands.storeHint (h : Hands hintWindow past handoff) (replica : String) (now : ℤ)
    (write : String) (replicaUp : Bool) :
    Hands hintWindow (past ++ [(.storeHint replica now write replicaUp,
        .storeHint (handoff.storeHint replica now write replicaUp).1)])
      (handoff.storeHint replica now write replicaUp).2 where
  window_eq := by
    rw [HintedHandoff.storeHint]
    split <;> exact h.window_eq
  hints r := by
    rw [(h.stored (fun hint => id) rfl).1, ← h.hints]
    cases replicaUp with
    | true => exact (List.append_nil _).symm
    | false =>
      rw [HintedHandoff.storeHint, if_neg Bool.false_ne_true]
      dsimp only [hinted]
      rw [Dict.getD_set]
      by_cases hr : r = replica
      · rw [if_pos hr, if_pos hr.symm, hr]
        rfl
      · rw [if_neg hr, if_neg (Ne.symm hr)]
        exact (List.append_nil _).symm
  sublist r := (h.stored (fun hint => id) rfl).2

/-- The hints of one replica that are not too old. -/
theorem Hands.getD_expire (h : Hands hintWindow past handoff) (replica : String) (now : ℤ)
    (r : String) : (handoff.expire replica now).hints.getD r [] =
      if r = replica then freshHints hintWindow replica now past
      else waiting hintWindow r past := by
  rw [HintedHandoff.expire]
  dsimp only
  rw [Dict.getD_set, h.hints, h.hints, h.window_eq, freshHints]

/-- A replay hands over what waits and is not too old. -/
theorem Hands.replay_fst (h : Hands hintWindow past handoff) (replica : String) (now : ℤ) :
    (handoff.replay replica now).1 =
      (freshHints hintWindow replica now past).map Prod.snd := by
  rw [HintedHandoff.replay]
  dsimp only
  rw [h.getD_expire, if_pos rfl]

theorem Hands.replay (h : Hands hintWindow past handoff) (replica : String) (now : ℤ) :
    Hands hintWindow (past ++ [(.replay replica now, .replay (handoff.replay replica now).1)])
      (handoff.replay replica now).2 where
  window_eq := h.window_eq
  hints r := by
    rw [waiting_append_singleton, HintedHandoff.replay]
    dsimp only
    rw [Dict.getD_set, h.getD_expire]
    by_cases hr : r = replica
    · rw [if_pos hr]
      simp [LeavesHints, hinted, hr]
    · rw [if_neg hr, if_neg hr]
      simp [LeavesHints, hinted, Ne.symm hr]
  sublist r := by
    refine h.left rfl ?_
    by_cases hr : r = replica
    · subst hr
      rw [h.replay_fst, freshHints]
      simp [LeavesHints, handedOver, List.filter_sublist.map Prod.snd]
    · simp [LeavesHints, handedOver, Ne.symm hr]

theorem Hands.pending (h : Hands hintWindow past handoff) (replica : String) (now : ℤ) :
    Hands hintWindow (past ++ [(.pending replica now, .pending (handoff.pending replica now).1)])
      (handoff.pending replica now).2 where
  window_eq := h.window_eq
  hints r := by
    rw [waiting_append_singleton, HintedHandoff.pending]
    dsimp only
    rw [h.getD_expire]
    by_cases hr : r = replica
    · subst hr
      rw [if_pos rfl, freshHints]
      simp [LeavesHints, hinted]
    · rw [if_neg hr]
      simp [LeavesHints, hinted, Ne.symm hr]
  sublist r := by
    refine h.left rfl ?_
    exact List.filter_sublist.map Prod.snd

/-- No hints were stored yet. -/
def noHints (hintWindow : ℤ) (h : 1 ≤ hintWindow) : HintedHandoff where
  hintWindow := hintWindow
  hintWindow_pos := h

theorem hands_trace (h : 1 ≤ hintWindow) (calls : List HandoffCall) :
    Hands hintWindow (hintedHandoff.trace (noHints hintWindow h) calls)
      (hintedHandoff.final (noHints hintWindow h) calls) := by
  refine Machine.trace_always (P := Hands hintWindow)
    ⟨rfl, fun r => rfl, fun r => List.Sublist.refl _⟩ (fun past handoff call h => ?_) calls
  cases call with
  | storeHint replica now write replicaUp => exact h.storeHint replica now write replicaUp
  | replay replica now => exact h.replay replica now
  | pending replica now => exact h.pending replica now

/-- **Hints.** A replay hands over the hints of the replica that were stored since the last replay,
without those that are too old by now or were too old when the hints were counted. In every run the
writes are handed over in the order they were stored in, each at most once. -/
theorem hintedHandoff_answers (h : 1 ≤ hintWindow) (calls : List HandoffCall) :
    Justified (HandoffAnswers hintWindow) (hintedHandoff.trace (noHints hintWindow h) calls) ∧
      ∀ replica, (handedOver replica (hintedHandoff.trace (noHints hintWindow h) calls)).Sublist
        (((hintedHandoff.trace (noHints hintWindow h) calls).filterMap (hinted replica)).map
          Prod.snd) := by
  refine ⟨Machine.justified_trace (fun calls call => ?_) calls, fun replica => ?_⟩
  · have hhands := hands_trace h calls
    revert hhands
    generalize hintedHandoff.final (noHints hintWindow h) calls = handoff
    generalize hintedHandoff.trace (noHints hintWindow h) calls = past
    intro hhands
    cases call with
    | storeHint replica now write replicaUp =>
      refine congrArg HandoffAnswer.storeHint ?_
      rw [HintedHandoff.storeHint]
      split <;> rfl
    | replay replica now => exact congrArg HandoffAnswer.replay (hhands.replay_fst replica now)
    | pending replica now =>
      refine congrArg HandoffAnswer.pending ?_
      rw [HintedHandoff.pending]
      dsimp only
      rw [hhands.getD_expire, if_pos rfl]
  · exact (List.sublist_append_left _ _).trans ((hands_trace h calls).sublist replica)

/-- The hint is handed over when the replica is back, and only then. -/
theorem hintedHandoff_answers_back :
    Justified (HandoffAnswers 5) (hintedHandoff.trace (noHints 5 (by decide))
        [.storeHint "b" 0 "w" false, .pending "b" 3, .replay "b" 4, .replay "b" 4]) ∧
      ∀ replica, (handedOver replica (hintedHandoff.trace (noHints 5 (by decide))
        [.storeHint "b" 0 "w" false, .pending "b" 3, .replay "b" 4, .replay "b" 4])).Sublist
        (((hintedHandoff.trace (noHints 5 (by decide))
          [.storeHint "b" 0 "w" false, .pending "b" 3, .replay "b" 4, .replay "b" 4]).filterMap
            (hinted replica)).map Prod.snd) :=
  hintedHandoff_answers (by decide) _

end Runs

end Relay
