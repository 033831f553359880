import Mathlib.Algebra.Order.Ring.Int
import Mathlib.Data.List.Perm.Basic
import Relay.Errors
import Relay.Lib.Dict
import Relay.Lib.Since

/-!
# The dead letter queue

A record that cannot be processed is tried again, but only so often. The tracker counts the attempts
at each record that failed in a row. When they reach the limit, the record becomes a dead letter
with its provenance, and the count starts over; a success makes it start over as well. Dead letters
are taken out one by one to be replayed.

So of the failures of a record in a row, every so many-th makes a dead letter. What becomes of these
is that each is either still there or has been taken out, once.

## Scope

The report is left out, which counts the dead letters by reason.

## Main definitions

* `RetryTracker`, with `recordFailure`, `recordSuccess` and `replay`
* `retryTracker`: the tracker as a component
* `failuresInARow`: told from the calls

## Main results

* `retryTracker_answers`: which failures make dead letters, and that none is lost or handed out
  twice
-/

namespace Relay

/-- A record that was given up, and where it came from. -/
structure DeadLetter where
  sourceTopic : String
  sourcePartition : ℤ
  sourceOffset : ℤ
  attempts : ℤ
  reason : String
  deriving DecidableEq

/-- The tracker. -/
structure RetryTracker where
  maxAttempts : ℤ
  attempts : Dict (String × ℤ × ℤ) ℤ := ∅
  deadLetters : List DeadLetter := []
  /-- The constructor refuses other limits. -/
  maxAttempts_pos : 1 ≤ maxAttempts

namespace RetryTracker

/-- What is said of a failure that made a dead letter. -/
def deadLettered (offset count : ℤ) (reason : String) : String :=
  s!"offset {offset} dead-lettered after {count} attempt(s): {reason}; " ++
    "the partition advances and the failure is a ticket, not an outage"

/-- What is said of a failure that will be retried. -/
def willRetry (offset count maxAttempts : ℤ) (reason : String) : String :=
  s!"offset {offset} failed attempt {count} of {maxAttempts}: {reason}; will retry"

/-- `record_failure`. -/
def recordFailure (tracker : RetryTracker) (topic : String) (partition offset : ℤ)
    (reason : String) : String × RetryTracker :=
  let key := (topic, partition, offset)
  let count := tracker.attempts.getD key 0 + 1
  if tracker.maxAttempts ≤ count then
    (deadLettered offset count reason, { tracker with
      attempts := (tracker.attempts.set key count).erase key
      deadLetters := tracker.deadLetters ++ [{
        sourceTopic := topic
        sourcePartition := partition
        sourceOffset := offset
        attempts := count
        reason }] })
  else
    (willRetry offset count tracker.maxAttempts reason,
      { tracker with attempts := tracker.attempts.set key count })

/-- `record_success`. -/
def recordSuccess (tracker : RetryTracker) (topic : String) (partition offset : ℤ) : RetryTracker :=
  { tracker with attempts := tracker.attempts.erase (topic, partition, offset) }

/-- `replay`. -/
def replay (tracker : RetryTracker) (index : ℤ) : Except RelayError DeadLetter × RetryTracker :=
  match if 0 ≤ index then tracker.deadLetters[index.toNat]? else none with
  | none => (.error (.invalid "no dead letter at that position to replay"), tracker)
  | some letter =>
    (.ok letter, { tracker with deadLetters := tracker.deadLetters.eraseIdx index.toNat })

end RetryTracker

/-- What the tracker is told, and asked. -/
inductive RetryCall where
  | failure (topic : String) (partition offset : ℤ) (reason : String)
  | success (topic : String) (partition offset : ℤ)
  | replay (index : ℤ)
  deriving DecidableEq

/-- What the tracker answers. -/
inductive RetryAnswer where
  | failure (text : String)
  | success
  | replay (answer : Except RelayError DeadLetter)
  deriving DecidableEq

/-- The tracker as a component. -/
def retryTracker : Machine RetryTracker RetryCall RetryAnswer where
  step tracker
    | .failure topic partition offset reason =>
      (.failure (tracker.recordFailure topic partition offset reason).1,
        (tracker.recordFailure topic partition offset reason).2)
    | .success topic partition offset => (.success, tracker.recordSuccess topic partition offset)
    | .replay index => (.replay (tracker.replay index).1, (tracker.replay index).2)

/-! ## What the calls say -/

namespace RetryCall

/-- The call reports that a record failed. -/
def Fails (key : String × ℤ × ℤ) : RetryCall → Prop
  | .failure topic partition offset _ => (topic, partition, offset) = key
  | _ => False

/-- The call reports that a record succeeded. -/
def Succeeds (key : String × ℤ × ℤ) : RetryCall → Prop
  | .success topic partition offset => (topic, partition, offset) = key
  | _ => False

instance (key : String × ℤ × ℤ) : DecidablePred (Fails key)
  | .failure _ _ _ _ => inferInstanceAs (Decidable (_ = _))
  | .success _ _ _ => inferInstanceAs (Decidable False)
  | .replay _ => inferInstanceAs (Decidable False)

instance (key : String × ℤ × ℤ) : DecidablePred (Succeeds key)
  | .failure _ _ _ _ => inferInstanceAs (Decidable False)
  | .success _ _ _ => inferInstanceAs (Decidable (_ = _))
  | .replay _ => inferInstanceAs (Decidable False)

variable {key : String × ℤ × ℤ} {topic reason : String} {partition offset index : ℤ}

@[simp] theorem fails_failure_iff :
    (failure topic partition offset reason).Fails key ↔ key = (topic, partition, offset) :=
  eq_comm

@[simp] theorem not_fails_success : ¬ (success topic partition offset).Fails key := id

@[simp] theorem not_fails_replay : ¬ (replay index).Fails key := id

@[simp] theorem succeeds_success_iff :
    (success topic partition offset).Succeeds key ↔ key = (topic, partition, offset) :=
  eq_comm

@[simp] theorem not_succeeds_failure : ¬ (failure topic partition offset reason).Succeeds key := id

@[simp] theorem not_succeeds_replay : ¬ (replay index).Succeeds key := id

end RetryCall

/-- How often a record has failed since it last succeeded. -/
def failuresInARow (key : String × ℤ × ℤ) (calls : List RetryCall) : ℕ :=
  (afterLast (RetryCall.Succeeds key) calls).countP fun call => call.Fails key

/-- The dead letter that a call makes after some calls, if it makes one. -/
def letterOf (maxAttempts : ℤ) (past : List RetryCall) : RetryCall → Option DeadLetter
  | .failure topic partition offset reason =>
    if ((failuresInARow (topic, partition, offset) past : ℤ) + 1) % maxAttempts = 0 then
      some {
        sourceTopic := topic
        sourcePartition := partition
        sourceOffset := offset
        attempts := maxAttempts
        reason }
    else none
  | _ => none

/-- The dead letters that some calls make, in order. -/
def lettersOf (maxAttempts : ℤ) (calls : List RetryCall) : List DeadLetter :=
  (List.range calls.length).filterMap fun j =>
    calls[j]?.bind fun call => letterOf maxAttempts (calls.take j) call

/-- The dead letters that were taken out. -/
def replayed (events : List (RetryCall × RetryAnswer)) : List DeadLetter :=
  events.filterMap fun
    | (_, .replay (.ok letter)) => some letter
    | _ => none

/-- A success starts the count again, and a failure is one more. -/
theorem failuresInARow_append_singleton (key : String × ℤ × ℤ) (calls : List RetryCall)
    (call : RetryCall) : failuresInARow key (calls ++ [call]) =
      if call.Succeeds key then 0
      else failuresInARow key calls + if call.Fails key then 1 else 0 := by
  rw [failuresInARow, afterLast_append_singleton]
  split
  · rfl
  · rw [List.countP_append, List.countP_singleton, failuresInARow]
    simp

/-- One more call makes at most one more letter. -/
theorem lettersOf_append_singleton (maxAttempts : ℤ) (calls : List RetryCall) (call : RetryCall) :
    lettersOf maxAttempts (calls ++ [call]) =
      lettersOf maxAttempts calls ++ (letterOf maxAttempts calls call).toList := by
  rw [lettersOf, List.length_append, List.length_singleton, List.range_succ, List.filterMap_append]
  refine congrArg₂ _ (List.filterMap_congr fun j hj => ?_) ?_
  · have hlt : j < calls.length := List.mem_range.mp hj
    rw [List.getElem?_append_left hlt, List.take_append_of_le_length hlt.le]
  · rw [List.filterMap_cons, List.getElem?_concat_length, Option.bind_some, List.take_left]
    cases letterOf maxAttempts calls call <;> rfl

/-- One more event takes out at most one letter. -/
theorem replayed_append_singleton (events : List (RetryCall × RetryAnswer))
    (e : RetryCall × RetryAnswer) : replayed (events ++ [e]) =
      replayed events ++ match e with
        | (_, .replay (.ok letter)) => [letter]
        | _ => [] := by
  rw [replayed, List.filterMap_append]
  obtain ⟨call, answer⟩ := e
  cases answer with
  | failure text => rfl
  | success => rfl
  | replay answer => cases answer <;> rfl

/-- One more attempt, counted up to a limit. -/
theorem emod_add_one {n limit : ℤ} (hlimit : 1 ≤ limit) :
    (n + 1) % limit = if n % limit + 1 < limit then n % limit + 1 else 0 := by
  have hnonneg := Int.emod_nonneg n (by omega : limit ≠ 0)
  have hlt := Int.emod_lt_of_pos n (by omega : 0 < limit)
  rw [← Int.emod_add_emod]
  split
  · next h => exact Int.emod_eq_of_lt (by omega) h
  · rw [show n % limit + 1 = limit by omega, Int.emod_self]

section Runs

variable {tracker : RetryTracker} {past : List (RetryCall × RetryAnswer)}

/-- What the tracker holds after some events. -/
structure TracksRetries (past : List (RetryCall × RetryAnswer)) (tracker : RetryTracker) :
    Prop where
  count : ∀ key, tracker.attempts.getD key 0 =
    (failuresInARow key (past.map Prod.fst) : ℤ) % tracker.maxAttempts
  perm : (tracker.deadLetters ++ replayed past).Perm
    (lettersOf tracker.maxAttempts (past.map Prod.fst))
  sublist : tracker.deadLetters.Sublist (lettersOf tracker.maxAttempts (past.map Prod.fst))

theorem getD_erase (d : Dict (String × ℤ × ℤ) ℤ) (key k : String × ℤ × ℤ) :
    (d.erase key).getD k 0 = if k = key then 0 else d.getD k 0 := by
  rw [Dict.getD, Dict.get?_erase]
  split <;> rfl

/-- A failure is one more of its record and none of any other. -/
theorem failuresInARow_failure (key : String × ℤ × ℤ) (calls : List RetryCall) (topic : String)
    (partition offset : ℤ) (reason : String) :
    failuresInARow key (calls ++ [.failure topic partition offset reason]) =
      failuresInARow key calls + if key = (topic, partition, offset) then 1 else 0 := by
  rw [failuresInARow_append_singleton, if_neg RetryCall.not_succeeds_failure]
  by_cases hkey : key = (topic, partition, offset)
  · rw [if_pos hkey, if_pos (RetryCall.fails_failure_iff.mpr hkey)]
  · rw [if_neg hkey, if_neg (RetryCall.fails_failure_iff.not.mpr hkey)]

/-- A failure is counted, and the last of so many makes a letter in place of the count. -/
theorem TracksRetries.failure (h : TracksRetries past tracker) (topic : String)
    (partition offset : ℤ) (reason : String) :
    TracksRetries (past ++ [(.failure topic partition offset reason,
        .failure (tracker.recordFailure topic partition offset reason).1)])
      (tracker.recordFailure topic partition offset reason).2 := by
  have hpos := tracker.maxAttempts_pos
  have hcount := h.count (topic, partition, offset)
  have hnext := emod_add_one (n := (failuresInARow (topic, partition, offset)
    (past.map Prod.fst) : ℤ)) hpos
  have hmod := Int.emod_lt_of_pos (failuresInARow (topic, partition, offset)
    (past.map Prod.fst) : ℤ) (by omega : 0 < tracker.maxAttempts)
  rw [← hcount] at hnext hmod
  have hcalls : ∀ answer, (past ++ [(RetryCall.failure topic partition offset reason,
      RetryAnswer.failure answer)]).map Prod.fst = past.map Prod.fst ++
        [.failure topic partition offset reason] := fun answer => by
    rw [List.map_append, List.map_singleton]
  have hsame : ∀ answer, replayed (past ++ [(RetryCall.failure topic partition offset reason,
      RetryAnswer.failure answer)]) = replayed past := fun answer => by
    rw [replayed_append_singleton, List.append_nil]
  by_cases hlast : tracker.maxAttempts ≤ tracker.attempts.getD (topic, partition, offset) 0 + 1
  · rw [if_neg (by omega)] at hnext
    have hstep : tracker.recordFailure topic partition offset reason = (_, _) := if_pos hlast
    have hletter : letterOf tracker.maxAttempts (past.map Prod.fst)
        (.failure topic partition offset reason) = some {
          sourceTopic := topic
          sourcePartition := partition
          sourceOffset := offset
          attempts := tracker.maxAttempts
          reason } := if_pos hnext
    have hfull : tracker.attempts.getD (topic, partition, offset) 0 + 1 = tracker.maxAttempts := by
      omega
    rw [hstep]
    refine ⟨fun key => ?_, ?_, ?_⟩
    · dsimp only
      rw [hcalls, failuresInARow_failure, getD_erase, Dict.getD_set]
      by_cases hkey : key = (topic, partition, offset)
      · rw [if_pos hkey, if_pos hkey, hkey, Nat.cast_add, Nat.cast_one, hnext]
      · rw [if_neg hkey, if_neg hkey, if_neg hkey, Nat.add_zero, h.count]
    · dsimp only
      rw [hcalls, hsame, lettersOf_append_singleton, hletter, hfull, Option.toList_some,
        List.append_assoc]
      refine (List.perm_append_comm.append_left _).trans ?_
      rw [← List.append_assoc]
      exact h.perm.append_right _
    · dsimp only
      rw [hcalls, lettersOf_append_singleton, hletter, hfull, Option.toList_some]
      exact h.sublist.append (List.Sublist.refl _)
  · rw [if_pos (by omega)] at hnext
    have hstep : tracker.recordFailure topic partition offset reason = (_, _) := if_neg hlast
    have hletter : letterOf tracker.maxAttempts (past.map Prod.fst)
        (.failure topic partition offset reason) = none := by
      refine if_neg ?_
      rw [hnext, hcount]
      have hnonneg := Int.emod_nonneg (failuresInARow (topic, partition, offset)
        (past.map Prod.fst) : ℤ) (by omega : tracker.maxAttempts ≠ 0)
      omega
    rw [hstep]
    refine ⟨fun key => ?_, ?_, ?_⟩
    · dsimp only
      rw [hcalls, failuresInARow_failure, Dict.getD_set]
      by_cases hkey : key = (topic, partition, offset)
      · rw [if_pos hkey, if_pos hkey, hkey, Nat.cast_add, Nat.cast_one, hnext]
      · rw [if_neg hkey, if_neg hkey, Nat.add_zero, h.count]
    · dsimp only
      rw [hcalls, hsame, lettersOf_append_singleton, hletter, Option.toList_none, List.append_nil]
      exact h.perm
    · dsimp only
      rw [hcalls, lettersOf_append_singleton, hletter, Option.toList_none, List.append_nil]
      exact h.sublist

/-- A success touches no letter. -/
theorem TracksRetries.success (h : TracksRetries past tracker) (topic : String)
    (partition offset : ℤ) :
    TracksRetries (past ++ [(.success topic partition offset, .success)])
      (tracker.recordSuccess topic partition offset) := by
  have hcalls : (past ++ [(RetryCall.success topic partition offset, RetryAnswer.success)]).map
      Prod.fst = past.map Prod.fst ++ [.success topic partition offset] := by
    rw [List.map_append, List.map_singleton]
  have hletters : lettersOf tracker.maxAttempts (past.map Prod.fst ++
      [.success topic partition offset]) = lettersOf tracker.maxAttempts (past.map Prod.fst) := by
    rw [lettersOf_append_singleton]
    exact List.append_nil _
  rw [RetryTracker.recordSuccess]
  refine ⟨fun key => ?_, ?_, ?_⟩
  · dsimp only
    rw [hcalls, failuresInARow_append_singleton, getD_erase, h.count]
    by_cases hkey : key = (topic, partition, offset)
    · rw [if_pos hkey, if_pos (RetryCall.succeeds_success_iff.mpr hkey)]
      exact (Int.zero_emod _).symm
    · rw [if_neg hkey, if_neg (RetryCall.succeeds_success_iff.not.mpr hkey),
        if_neg RetryCall.not_fails_success, Nat.add_zero]
  · dsimp only
    rw [hcalls, hletters, replayed_append_singleton, List.append_nil]
    exact h.perm
  · dsimp only
    rw [hcalls, hletters]
    exact h.sublist

/-- A replay moves a letter from those still there to those taken out. -/
theorem TracksRetries.replay (h : TracksRetries past tracker) (index : ℤ) :
    TracksRetries (past ++ [(.replay index, .replay (tracker.replay index).1)])
      (tracker.replay index).2 := by
  have hcalls : ∀ answer, (past ++ [(RetryCall.replay index, RetryAnswer.replay answer)]).map
      Prod.fst = past.map Prod.fst ++ [.replay index] := fun answer => by
    rw [List.map_append, List.map_singleton]
  have hletters : lettersOf tracker.maxAttempts (past.map Prod.fst ++ [.replay index]) =
      lettersOf tracker.maxAttempts (past.map Prod.fst) := by
    rw [lettersOf_append_singleton]
    exact List.append_nil _
  have hcount : ∀ key, tracker.attempts.getD key 0 =
      (failuresInARow key (past.map Prod.fst ++ [.replay index]) : ℤ) % tracker.maxAttempts :=
    fun key => by
      rw [failuresInARow_append_singleton, if_neg RetryCall.not_succeeds_replay,
        if_neg RetryCall.not_fails_replay, Nat.add_zero]
      exact h.count key
  rw [RetryTracker.replay]
  split
  · refine ⟨fun key => ?_, ?_, ?_⟩
    · rw [hcalls]
      exact hcount key
    · rw [hcalls, hletters, replayed_append_singleton, List.append_nil]
      exact h.perm
    · rw [hcalls, hletters]
      exact h.sublist
  · next letter hletter =>
    have hget : tracker.deadLetters[index.toNat]? = some letter := by
      split at hletter
      · exact hletter
      · cases hletter
    obtain ⟨hlt, hat⟩ := List.getElem?_eq_some_iff.mp hget
    refine ⟨fun key => ?_, ?_, ?_⟩
    · rw [hcalls]
      exact hcount key
    · dsimp only
      rw [hcalls, hletters, replayed_append_singleton]
      have hone : (letter :: tracker.deadLetters.eraseIdx index.toNat).Perm
          tracker.deadLetters := by
        rw [← hat]
        exact List.getElem_cons_eraseIdx_perm hlt
      refine List.Perm.trans ?_ h.perm
      refine List.Perm.trans ?_ (hone.append_right _)
      rw [← List.append_assoc]
      exact List.perm_append_singleton _ _
    · dsimp only
      rw [hcalls, hletters]
      exact (List.eraseIdx_sublist _ _).trans h.sublist

theorem TracksRetries.step (h : TracksRetries past tracker) (call : RetryCall) :
    TracksRetries (past ++ [(call, (retryTracker.step tracker call).1)])
      (retryTracker.step tracker call).2 := by
  cases call with
  | failure topic partition offset reason => exact h.failure topic partition offset reason
  | success topic partition offset => exact h.success topic partition offset
  | replay index => exact h.replay index

/-- A tracker that was told nothing. -/
def newRetryTracker (maxAttempts : ℤ) (h : 1 ≤ maxAttempts) : RetryTracker where
  maxAttempts := maxAttempts
  maxAttempts_pos := h

variable {maxAttempts : ℤ} {h : 1 ≤ maxAttempts}

theorem final_maxAttempts (calls : List RetryCall) :
    (retryTracker.final (newRetryTracker maxAttempts h) calls).maxAttempts = maxAttempts := by
  refine Machine.final_eq_of_step RetryTracker.maxAttempts (fun tracker call => ?_) _ calls
  cases call with
  | failure topic partition offset reason =>
    change (tracker.recordFailure topic partition offset reason).2.maxAttempts = _
    rw [RetryTracker.recordFailure]
    split <;> rfl
  | success topic partition offset => rfl
  | replay index =>
    change (tracker.replay index).2.maxAttempts = _
    rw [RetryTracker.replay]
    split <;> rfl

theorem tracksRetries_final (calls : List RetryCall) :
    TracksRetries (retryTracker.trace (newRetryTracker maxAttempts h) calls)
      (retryTracker.final (newRetryTracker maxAttempts h) calls) := by
  refine Machine.trace_always (P := TracksRetries)
    ⟨fun key => ?_, List.Perm.refl _, List.Sublist.refl _⟩ ?_ calls
  · exact (Int.zero_emod _).symm
  · exact fun past tracker call hpast => hpast.step call

/-- What is answered after some calls, by a tracker that then has some dead letters. -/
def RetryAnswers (maxAttempts : ℤ) (past : List (RetryCall × RetryAnswer)) :
    RetryCall × RetryAnswer → Prop
  | (.failure topic partition offset reason, answer) =>
    answer = .failure (
      if ((failuresInARow (topic, partition, offset) (past.map Prod.fst) : ℤ) + 1) % maxAttempts = 0
      then RetryTracker.deadLettered offset maxAttempts reason
      else RetryTracker.willRetry offset
        ((failuresInARow (topic, partition, offset) (past.map Prod.fst) : ℤ) % maxAttempts + 1)
        maxAttempts reason)
  | (.success _ _ _, answer) => answer = .success
  | (.replay index, answer) =>
    ∃ letters : List DeadLetter,
      (letters ++ replayed past).Perm (lettersOf maxAttempts (past.map Prod.fst)) ∧
      letters.Sublist (lettersOf maxAttempts (past.map Prod.fst)) ∧
      answer = .replay (match if 0 ≤ index then letters[index.toNat]? else none with
        | none => .error (.invalid "no dead letter at that position to replay")
        | some letter => .ok letter)

/-- **Every so many-th failure in a row makes a dead letter**, and no other does. At every time of a
run, the dead letters that were made are those that are there, in the order they were made in, and
those that were taken out, each once; and what is taken out is what stands at the position. -/
theorem retryTracker_answers (h : 1 ≤ maxAttempts) (calls : List RetryCall) :
    Justified (RetryAnswers maxAttempts)
      (retryTracker.trace (newRetryTracker maxAttempts h) calls) := by
  refine Machine.justified_trace (fun calls call => ?_) calls
  have htracks := tracksRetries_final (h := h) calls
  have hmax := final_maxAttempts (h := h) calls
  revert htracks hmax
  generalize retryTracker.final (newRetryTracker maxAttempts h) calls = tracker
  generalize retryTracker.trace (newRetryTracker maxAttempts h) calls = past
  rintro ⟨hcount, hperm, hsublist⟩ rfl
  cases call with
  | failure topic partition offset reason =>
    refine congrArg RetryAnswer.failure ?_
    have hkey := hcount (topic, partition, offset)
    have hnext := emod_add_one (n := (failuresInARow (topic, partition, offset)
      (past.map Prod.fst) : ℤ)) h
    have hmod := Int.emod_lt_of_pos (failuresInARow (topic, partition, offset)
      (past.map Prod.fst) : ℤ) (by omega : 0 < tracker.maxAttempts)
    have hnonneg := Int.emod_nonneg (failuresInARow (topic, partition, offset)
      (past.map Prod.fst) : ℤ) (by omega : tracker.maxAttempts ≠ 0)
    rw [RetryTracker.recordFailure, hkey]
    by_cases hlast : tracker.maxAttempts ≤ (failuresInARow (topic, partition, offset)
        (past.map Prod.fst) : ℤ) % tracker.maxAttempts + 1
    · rw [if_pos hlast, if_pos (by rw [hnext, if_neg (by omega)])]
      exact congrArg (RetryTracker.deadLettered offset · reason) (by omega)
    · rw [if_neg hlast, if_neg (by rw [hnext, if_pos (by omega)]; omega)]
  | success topic partition offset => rfl
  | replay index =>
    refine ⟨tracker.deadLetters, hperm, hsublist, congrArg RetryAnswer.replay ?_⟩
    rw [RetryTracker.replay]
    split <;> rfl

theorem retryTracker_answers_two :
    Justified (RetryAnswers 2) (retryTracker.trace (newRetryTracker 2 (by decide))
      [.failure "t" 0 7 "bad", .failure "t" 0 7 "bad", .replay 0, .replay 0]) :=
  retryTracker_answers (by decide) _

end Runs

end Relay
