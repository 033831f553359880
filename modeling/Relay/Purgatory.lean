import Mathlib.Algebra.Order.Ring.Int
import Mathlib.Data.String.Basic
import Relay.Errors
import Relay.Lib.Groups
import Relay.Lib.Machine
import Relay.Lib.Ranks

/-!
# Purgatory

Requests that wait for a condition are parked under a key, with a threshold for the progress made on
that key and with a deadline. Progress completes the requests of its key whose threshold it has
reached, and a tick of the clock those whose deadline it has reached, whatever their keys. Both
sweeps mark what they complete and drop it afterwards.

Request ids need not be distinct, so a parked request is known by the place of its call in the run.
The waiting room is the purgatory as one would describe it: a list of the requests parked that no
call since has completed. The dictionary of the purgatory holds the room by keys, and a call answers
with the ids of those it lets go.

## Scope

The report of the counters is left out. They are counted.

## Main definitions

* `Purgatory`, with `park`, `onProgress`, `onTick` and `pending`
* `room`: the requests parked and not completed since
* `ReturnedAt`: the first call after a request was parked that completes it

## Main results

* `holds_room`: the purgatory holds the waiting room
* `returned_once_or_pending`: every request is returned by one call, or still pending
-/

namespace Relay

/-- A request in the purgatory. -/
structure DelayedRequest where
  requestId : String
  threshold : ℤ
  deadline : ℤ
  completed : Bool := false
  outcome : String := ""
  deriving DecidableEq

/-- Requests that wait, by their keys, and how many have been completed. -/
structure Purgatory where
  requests : Dict String (List DelayedRequest) := ∅
  completedByEvent : ℤ := 0
  completedByTimeout : ℤ := 0

namespace Purgatory

/-- A sweep through a list of requests: those that are due are marked, and their ids collected. -/
def sweep (due : DelayedRequest → Bool) (outcome : String) (requests : List DelayedRequest) :
    List DelayedRequest × List String :=
  (requests.map fun r =>
      if !r.completed && due r then { r with completed := true, outcome := outcome } else r,
    (requests.filter fun r => !r.completed && due r).map fun r => r.requestId)

/-- `_reap`. -/
def reap (purgatory : Purgatory) (key : String) : Purgatory :=
  let left := (purgatory.requests.getD key []).filter fun r => !r.completed
  let requests := purgatory.requests.set key left
  { purgatory with requests := if left = [] then requests.erase key else requests }

/-- `park`. -/
def park (purgatory : Purgatory) (key requestId : String) (threshold deadline : ℤ) :
    Except RelayError String × Purgatory :=
  if deadline < 1 then
    (.error (.invalid ("a request with no deadline can wait forever, "
      ++ "which is a leak wearing a feature's clothes")), purgatory)
  else
    (.ok s!"{requestId} parked on {key} at threshold {threshold}",
      { purgatory with
        requests := purgatory.requests.set key
          (purgatory.requests.getD key [] ++ [⟨requestId, threshold, deadline, false, ""⟩]) })

/-- `on_progress`. -/
def onProgress (purgatory : Purgatory) (key : String) (value : ℤ) : List String × Purgatory :=
  let due : DelayedRequest → Bool := fun r => r.threshold ≤ value
  let completed := (sweep due "satisfied" (purgatory.requests.getD key [])).2
  let marked := { purgatory with
    requests := purgatory.requests.mapValues fun k rs =>
      if k = key then (sweep due "satisfied" rs).1 else rs
    completedByEvent := purgatory.completedByEvent + completed.length }
  (completed.mergeSort fun a b => a ≤ b, marked.reap key)

/-- `on_tick`. -/
def onTick (purgatory : Purgatory) (now : ℤ) : List String × Purgatory :=
  let due : DelayedRequest → Bool := fun r => r.deadline ≤ now
  let timedOut := purgatory.requests.values.flatMap fun rs => (sweep due "timeout" rs).2
  let marked := { purgatory with
    requests := purgatory.requests.mapValues fun _ rs => (sweep due "timeout" rs).1
    completedByTimeout := purgatory.completedByTimeout + timedOut.length }
  (timedOut.mergeSort fun a b => a ≤ b, marked.requests.keys.foldl reap marked)

/-- `pending`. -/
def pending (purgatory : Purgatory) : ℤ := (purgatory.requests.values.map List.length).sum

end Purgatory

/-! ## Runs -/

/-- A call to a purgatory. -/
inductive PurgatoryCall where
  | park (key requestId : String) (threshold deadline : ℤ)
  | onProgress (key : String) (value : ℤ)
  | onTick (now : ℤ)
  deriving DecidableEq

/-- What a call answers. -/
inductive PurgatoryAnswer where
  | parked (answer : Except RelayError String)
  | completed (ids : List String)

/-- A purgatory as a machine. -/
def purgatory : Machine Purgatory PurgatoryCall PurgatoryAnswer where
  step state call :=
    match call with
    | .park key requestId threshold deadline =>
      let (answer, state) := state.park key requestId threshold deadline
      (.parked answer, state)
    | .onProgress key value =>
      let (ids, state) := state.onProgress key value
      (.completed ids, state)
    | .onTick now =>
      let (ids, state) := state.onTick now
      (.completed ids, state)

/-- The ids that an answer returns. -/
def PurgatoryAnswer.ids : PurgatoryAnswer → List String
  | .parked _ => []
  | .completed ids => ids

namespace Purgatory

/-! ### The waiting room -/

/-- A request with the key it waits for. -/
structure Parked where
  key : String
  requestId : String
  threshold : ℤ
  deadline : ℤ
  deriving DecidableEq

/-- The request as it stands in the purgatory until it is completed. -/
def Parked.request (parked : Parked) : DelayedRequest :=
  ⟨parked.requestId, parked.threshold, parked.deadline, false, ""⟩

/-- The request that a call parks, unless it raises. -/
def parkedBy : PurgatoryCall → Option Parked
  | .park key requestId threshold deadline =>
    if deadline < 1 then none else some ⟨key, requestId, threshold, deadline⟩
  | _ => none

/-- A call completes a request: progress on its key up to the threshold, or a tick at the deadline
or later. -/
def completes (call : PurgatoryCall) (parked : Parked) : Bool :=
  match call with
  | .park .. => false
  | .onProgress key value => parked.key = key ∧ parked.threshold ≤ value
  | .onTick now => parked.deadline ≤ now

/-- One more call, at some place of the run. -/
def roomStep (room : List (ℕ × Parked)) (call : PurgatoryCall) (i : ℕ) : List (ℕ × Parked) :=
  match parkedBy call with
  | some parked => room ++ [(i, parked)]
  | none => room.filter fun t => !completes call t.2

/-- The requests parked, with the places of their calls, that no call since has completed. -/
def room (calls : List PurgatoryCall) : List (ℕ × Parked) :=
  calls.zipIdx.foldl (fun room e => roomStep room e.1 e.2) []

/-- The request parked by the call at a place. -/
def parkedAt (calls : List PurgatoryCall) (i : ℕ) : Option Parked := calls[i]?.bind parkedBy

/-- The call at `j` is the first after the one at `i` to complete what that one parked. -/
def ReturnedAt (calls : List PurgatoryCall) (i j : ℕ) : Prop :=
  ∃ parked, parkedAt calls i = some parked ∧ i < j ∧
    (∃ call, calls[j]? = some call ∧ completes call parked = true) ∧
    ∀ k call, i < k → k < j → calls[k]? = some call → completes call parked = false

theorem room_append_singleton (calls : List PurgatoryCall) (call : PurgatoryCall) :
    room (calls ++ [call]) = roomStep (room calls) call calls.length := by
  rw [room, List.zipIdx_append, List.foldl_append]
  simp [room]

theorem parkedAt_append_singleton {calls : List PurgatoryCall} {call : PurgatoryCall} {i : ℕ}
    {parked : Parked} : parkedAt (calls ++ [call]) i = some parked ↔
      parkedAt calls i = some parked ∨ i = calls.length ∧ parkedBy call = some parked := by
  simp only [parkedAt, Option.bind_eq_some_iff, getElem?_append_singleton_eq_some]
  constructor
  · rintro ⟨c, hc | ⟨rfl, rfl⟩, hparked⟩
    · exact Or.inl ⟨c, hc, hparked⟩
    · exact Or.inr ⟨rfl, hparked⟩
  · rintro (⟨c, hc, hparked⟩ | ⟨rfl, hparked⟩)
    · exact ⟨c, Or.inl hc, hparked⟩
    · exact ⟨call, Or.inr ⟨rfl, rfl⟩, hparked⟩

theorem lt_length_of_parkedAt {calls : List PurgatoryCall} {i : ℕ} {parked : Parked}
    (h : parkedAt calls i = some parked) : i < calls.length := by
  obtain ⟨call, hcall, -⟩ := Option.bind_eq_some_iff.mp h
  exact (List.getElem?_eq_some_iff.mp hcall).1

/-- A call that parks something completes nothing. -/
theorem completes_of_parkedBy {call : PurgatoryCall} {parked : Parked}
    (h : parkedBy call = some parked) (other : Parked) : completes call other = false := by
  cases call with
  | park => rfl
  | onProgress => cases h
  | onTick => cases h

/-- **The waiting room.** A request is in it exactly if it was parked and no call since completes
it. -/
theorem mem_room {calls : List PurgatoryCall} {i : ℕ} {parked : Parked} :
    (i, parked) ∈ room calls ↔ parkedAt calls i = some parked ∧
      ∀ k call, i < k → calls[k]? = some call → completes call parked = false := by
  induction calls using List.reverseRecOn with
  | nil => exact iff_of_false (by simp [room]) (by simp [parkedAt])
  | append_singleton calls last ih =>
    -- a request parked before is let go by the last call alone
    have hbefore : (parkedAt calls i = some parked ∧ ∀ k call, i < k →
          (calls ++ [last])[k]? = some call → completes call parked = false) ↔
        (i, parked) ∈ room calls ∧ completes last parked = false := by
      rw [ih]
      simp only [getElem?_append_singleton_eq_some]
      constructor
      · rintro ⟨hparked, hsince⟩
        exact ⟨⟨hparked, fun k call hk hcall => hsince k call hk (Or.inl hcall)⟩,
          hsince _ last (lt_length_of_parkedAt hparked) (Or.inr ⟨rfl, rfl⟩)⟩
      · rintro ⟨⟨hparked, hsince⟩, hlast⟩
        refine ⟨hparked, fun k call hk hcall => ?_⟩
        rcases hcall with hcall | ⟨rfl, rfl⟩
        · exact hsince k call hk hcall
        · exact hlast
    rw [room_append_singleton, parkedAt_append_singleton, or_and_right, hbefore, roomStep]
    cases hlast : parkedBy last with
    | none => simp [and_comm]
    | some other =>
      have hkept := completes_of_parkedBy hlast parked
      have hnone : ∀ k call, calls.length < k → (calls ++ [last])[k]? = some call →
          completes call parked = false := by
        intro k call hk hcall
        have hlt := (List.getElem?_eq_some_iff.mp hcall).1
        rw [List.length_append, List.length_singleton] at hlt
        omega
      rw [List.mem_append, List.mem_singleton, Prod.mk.injEq, and_iff_left hkept]
      refine or_congr Iff.rfl ⟨?_, ?_⟩
      · rintro ⟨rfl, rfl⟩
        exact ⟨⟨rfl, rfl⟩, hnone⟩
      · rintro ⟨⟨rfl, hother⟩, -⟩
        exact ⟨rfl, (Option.some.inj hother).symm⟩

theorem parkedAt_of_mem_room {calls : List PurgatoryCall} {t : ℕ × Parked} (h : t ∈ room calls) :
    parkedAt calls t.1 = some t.2 :=
  (mem_room.mp h).1

/-- No call has two requests in the room. -/
theorem nodup_room (calls : List PurgatoryCall) : ((room calls).map Prod.fst).Nodup := by
  induction calls using List.reverseRecOn with
  | nil => exact List.nodup_nil
  | append_singleton calls last ih =>
    rw [room_append_singleton, roomStep]
    cases parkedBy last with
    | none => exact ih.sublist (List.filter_sublist.map _)
    | some parked =>
      rw [List.map_append, List.map_singleton]
      refine List.nodup_append.mpr ⟨ih, List.nodup_singleton _, fun i hi j hj heq => ?_⟩
      obtain ⟨t, ht, rfl⟩ := List.mem_map.mp hi
      have hlt := lt_length_of_parkedAt (parkedAt_of_mem_room ht)
      rw [heq, List.mem_singleton.mp hj] at hlt
      exact lt_irrefl _ hlt

theorem parkedAt_take {calls : List PurgatoryCall} {i j : ℕ} {parked : Parked} :
    parkedAt (calls.take j) i = some parked ↔ i < j ∧ parkedAt calls i = some parked := by
  rw [parkedAt, parkedAt, List.getElem?_take]
  split
  · next h => exact (and_iff_right h).symm
  · next h => exact iff_of_false (by simp) fun hc => h hc.1

/-- What a call lets go, by the place it stands at. -/
theorem mem_room_take {calls : List PurgatoryCall} {j : ℕ} {call : PurgatoryCall}
    (hcall : calls[j]? = some call) {i : ℕ} :
    i ∈ (((room (calls.take j)).filter fun t => completes call t.2).map Prod.fst) ↔
      ReturnedAt calls i j := by
  rw [List.mem_map]
  constructor
  · rintro ⟨⟨i, parked⟩, ht, rfl⟩
    obtain ⟨hroom, hcompletes⟩ := List.mem_filter.mp ht
    obtain ⟨hparked, hsince⟩ := mem_room.mp hroom
    obtain ⟨hij, hparked⟩ := parkedAt_take.mp hparked
    refine ⟨parked, hparked, hij, ⟨call, hcall, hcompletes⟩, fun k c hik hkj hc => ?_⟩
    exact hsince k c hik (by rw [List.getElem?_take_of_lt hkj, hc])
  · rintro ⟨parked, hparked, hij, ⟨c, hc, hcompletes⟩, hsince⟩
    obtain rfl := Option.some.inj (hcall.symm.trans hc)
    refine ⟨(i, parked), List.mem_filter.mpr ⟨mem_room.mpr ⟨?_, ?_⟩, hcompletes⟩, rfl⟩
    · exact parkedAt_take.mpr ⟨hij, hparked⟩
    · intro k c hik hk
      rw [List.getElem?_take] at hk
      split at hk
      · next hkj => exact hsince k c hik hkj hk
      · cases hk

/-! ### One list of requests -/

/-- A sweep returns the ids of those that are due. -/
theorem sweep_ids (due : DelayedRequest → Bool) (outcome : String) (room : List (ℕ × Parked)) :
    (sweep due outcome (room.map fun t => t.2.request)).2 =
      (room.filter fun t => due t.2.request).map fun t => t.2.requestId := by
  show ((room.map fun t => t.2.request).filter _).map _ = _
  rw [List.filter_map, List.map_map]
  rfl

/-- And leaves the others as they are. -/
theorem sweep_left (due : DelayedRequest → Bool) (outcome : String) (room : List (ℕ × Parked)) :
    ((sweep due outcome (room.map fun t => t.2.request)).1.filter fun r => !r.completed) =
      (room.filter fun t => !due t.2.request).map fun t => t.2.request := by
  induction room with
  | nil => rfl
  | cons t room ih =>
    simp only [sweep, List.map_cons] at ih ⊢
    rw [List.filter_cons, ih, List.filter_cons]
    cases due t.2.request <;> simp [Parked.request]

theorem getD_reap (state : Purgatory) (key k : String) :
    (state.reap key).requests.getD k [] =
      if k = key then (state.requests.getD k []).filter fun r => !r.completed
      else state.requests.getD k [] := by
  rw [reap]
  by_cases hk : k = key
  · subst hk
    split
    · next hleft => rw [Dict.getD, Dict.get?_erase, if_pos rfl, if_pos rfl, hleft]; rfl
    · rw [Dict.getD_set, if_pos rfl]
  · rw [if_neg hk]
    split
    · rw [Dict.getD, Dict.get?_erase, if_neg hk, Dict.get?_set_of_ne _ _ hk, Dict.getD]
    · rw [Dict.getD_set, if_neg hk]

theorem getD_foldl_reap (keys : List String) (state : Purgatory) (k : String) :
    (keys.foldl reap state).requests.getD k [] =
      if k ∈ keys then (state.requests.getD k []).filter fun r => !r.completed
      else state.requests.getD k [] := by
  induction keys generalizing state with
  | nil => rfl
  | cons key keys ih =>
    rw [List.foldl_cons, ih, getD_reap]
    by_cases hk : k = key <;> by_cases hmem : k ∈ keys <;> simp [hk, hmem, List.filter_filter]

/-! ### The purgatory holds the room -/

/-- The dictionary holds the requests of the room by their keys. -/
def Holds (room : List (ℕ × Parked)) (state : Purgatory) : Prop :=
  Dict.Groups (fun t : ℕ × Parked => t.2.key) (fun t => t.2.request) state.requests room

section Holds

variable {room : List (ℕ × Parked)} {state : Purgatory}

/-- A parked request joins the room. -/
theorem Holds.park (h : Holds room state) (parked : Parked) (i : ℕ) :
    Holds (room ++ [(i, parked)]) { state with
      requests := state.requests.set parked.key
        (state.requests.getD parked.key [] ++ [parked.request]) } :=
  Dict.Groups.append_singleton h (i, parked)

/-- Progress on a key goes through the group of the key. -/
theorem Holds.onProgress (h : Holds room state) (key : String) (value : ℤ) :
    Holds (room.filter fun t => !completes (.onProgress key value) t.2)
      (state.onProgress key value).2 := by
  intro k
  have hmarked := state.requests.getD_mapValues (fun k rs =>
    if k = key then (sweep (fun r => r.threshold ≤ value) "satisfied" rs).1 else rs) k []
  rw [show (if k = key then (sweep _ _ []).1 else []) = [] from ite_self _] at hmarked
  rw [Purgatory.onProgress, getD_reap, hmarked, h k]
  split
  · next hk =>
    rw [sweep_left, List.filter_filter, List.filter_filter]
    congr 1
    refine List.filter_congr fun t _ => ?_
    by_cases ht : t.2.key = k
    · simp [completes, ht, ← hk]
      rfl
    · simp [ht]
  · next hk =>
    rw [List.filter_filter]
    congr 1
    refine List.filter_congr fun t _ => ?_
    by_cases ht : t.2.key = k <;> simp [completes, ht, hk]

theorem Holds.onProgress_ids (h : Holds room state) (key : String) (value : ℤ) :
    (sweep (fun r => r.threshold ≤ value) "satisfied" (state.requests.getD key [])).2 =
      (room.filter fun t => completes (.onProgress key value) t.2).map fun t => t.2.requestId := by
  rw [h key, sweep_ids, List.filter_filter]
  congr 1
  refine List.filter_congr fun t _ => ?_
  rw [completes, Bool.decide_and, Bool.and_comm]
  rfl

theorem Holds.onTick (h : Holds room state) (now : ℤ) :
    Holds (room.filter fun t => !completes (.onTick now) t.2) (state.onTick now).2 := by
  intro k
  have hmarked := state.requests.getD_mapValues
    (fun _ rs => (sweep (fun r => r.deadline ≤ now) "timeout" rs).1) k []
  change Dict.getD _ k [] = _ at hmarked
  have hreaped : ((state.onTick now).2.requests.getD k []) =
      (sweep (fun r => r.deadline ≤ now) "timeout" (state.requests.getD k [])).1.filter
        fun r => !r.completed := by
    rw [Purgatory.onTick, getD_foldl_reap, hmarked]
    split
    · rfl
    · next hk =>
      -- there is no such key, and so nothing to drop
      rw [← hmarked, Dict.getD_of_not_mem_keys hk]
      rfl
  rw [hreaped, h k, sweep_left, List.filter_filter, List.filter_filter]
  congr 1
  refine List.filter_congr fun t _ => ?_
  rw [completes, Bool.and_comm]
  rfl

theorem Holds.onTick_ids (h : Holds room state) (now : ℤ) :
    (state.requests.values.flatMap fun rs =>
        (sweep (fun r => r.deadline ≤ now) "timeout" rs).2).Perm
      ((room.filter fun t => completes (.onTick now) t.2).map fun t => t.2.requestId) :=
  h.flatMap_values_perm _ fun l => sweep_ids _ _ l

/-- All groups together are the room. -/
theorem Holds.flatten_perm (h : Holds room state) :
    state.requests.values.flatten.Perm (room.map fun t => t.2.request) := by
  have hperm := h.flatMap_values_perm id (p := fun _ => true) (f := fun t => t.2.request)
    fun l => by rw [List.filter_true]; rfl
  rwa [List.filter_true, List.flatMap_id] at hperm

theorem Holds.pending_eq (h : Holds room state) : state.pending = room.length := by
  rw [pending, ← List.length_flatten, h.flatten_perm.length_eq, List.length_map]

/-! ### Steps and runs -/

/-- How many requests have been completed. -/
def completedCount (state : Purgatory) : ℤ := state.completedByEvent + state.completedByTimeout

theorem reap_counts (state : Purgatory) (key : String) :
    (state.reap key).completedCount = state.completedCount := rfl

theorem foldl_reap_counts (keys : List String) (state : Purgatory) :
    (keys.foldl reap state).completedCount = state.completedCount := by
  induction keys generalizing state with
  | nil => rfl
  | cons key keys ih => rw [List.foldl_cons, ih, reap_counts]

/-- **One call.** The purgatory follows the room, and returns and counts those it lets go. -/
theorem Holds.step (h : Holds room state) (call : PurgatoryCall) (i : ℕ) :
    Holds (roomStep room call i) (purgatory.step state call).2 ∧
      (purgatory.step state call).1.ids =
        ((room.filter fun t => completes call t.2).map fun t => t.2.requestId).mergeSort
          (fun a b => a ≤ b) ∧
      (purgatory.step state call).2.completedCount =
        state.completedCount + (room.filter fun t => completes call t.2).length := by
  cases call with
  | park key requestId threshold deadline =>
    have hnone : (room.filter fun t =>
        completes (.park key requestId threshold deadline) t.2) = [] :=
      List.filter_eq_nil_iff.mpr fun t _ => by simp [completes]
    have hids : (purgatory.step state (.park key requestId threshold deadline)).1.ids =
        (([] : List (ℕ × Parked)).map fun t => t.2.requestId).mergeSort fun a b => a ≤ b := by
      rw [List.map_nil, List.mergeSort_nil]
      rfl
    rw [hnone, and_iff_right hids]
    show Holds _ (state.park key requestId threshold deadline).2 ∧
      (state.park key requestId threshold deadline).2.completedCount = _
    by_cases hdeadline : deadline < 1
    · have hsame : roomStep room (.park key requestId threshold deadline) i = room := by
        rw [roomStep, parkedBy, if_pos hdeadline]
        exact List.filter_eq_self.mpr fun t _ => rfl
      rw [Purgatory.park, if_pos hdeadline, hsame]
      exact ⟨h, (add_zero state.completedCount).symm⟩
    · rw [Purgatory.park, if_neg hdeadline, roomStep, parkedBy, if_neg hdeadline]
      exact ⟨h.park ⟨key, requestId, threshold, deadline⟩ i,
        (add_zero state.completedCount).symm⟩
  | onProgress key value =>
    have hids := h.onProgress_ids key value
    refine ⟨h.onProgress key value, by rw [← hids]; rfl, ?_⟩
    rw [← List.length_map fun t : ℕ × Parked => t.2.requestId, ← hids]
    exact add_right_comm state.completedByEvent _ state.completedByTimeout
  | onTick now =>
    have hids := h.onTick_ids now
    refine ⟨h.onTick now, Ranks.mergeSort_eq_of_perm hids, ?_⟩
    rw [← List.length_map fun t : ℕ × Parked => t.2.requestId, ← hids.length_eq]
    exact (foldl_reap_counts _ _).trans
      (add_assoc state.completedByEvent state.completedByTimeout _).symm

end Holds

/-- **The purgatory holds the room**, after every run, and has counted who left it. -/
theorem holds_room (calls : List PurgatoryCall) :
    Holds (room calls) (purgatory.final {} calls) ∧
      (purgatory.final {} calls).completedCount + (room calls).length =
        (calls.filterMap parkedBy).length := by
  induction calls using List.reverseRecOn with
  | nil => exact ⟨Dict.groups_empty, rfl⟩
  | append_singleton calls call ih =>
    obtain ⟨hholds, hcount⟩ := ih
    obtain ⟨hstep, -, hcompleted⟩ := hholds.step call calls.length
    rw [Machine.final_append_singleton, room_append_singleton]
    refine ⟨hstep, ?_⟩
    rw [hcompleted, List.filterMap_append, List.length_append, roomStep]
    cases hparked : parkedBy call with
    | none =>
      have hsplit := (List.filter_append_perm (fun t => completes call t.2) (room calls)).length_eq
      rw [List.length_append] at hsplit
      simp only [List.filterMap_cons, hparked, List.filterMap_nil, List.length_nil]
      omega
    | some parked =>
      have hnone : ((room calls).filter fun t => completes call t.2) = [] :=
        List.filter_eq_nil_iff.mpr fun t _ => by simp [completes_of_parkedBy hparked]
      simp only [hnone, List.filterMap_cons, hparked, List.filterMap_nil, List.length_append,
        List.length_singleton, List.length_nil]
      omega

/-! ### Every request, once -/

theorem ReturnedAt.unique {calls : List PurgatoryCall} {i j k : ℕ} (hj : ReturnedAt calls i j)
    (hk : ReturnedAt calls i k) : j = k := by
  obtain ⟨parked, hparked, hij, ⟨c, hc, hcompletes⟩, hsince⟩ := hj
  obtain ⟨other, hother, hik, ⟨c', hc', hcompletes'⟩, hsince'⟩ := hk
  obtain rfl := Option.some.inj (hparked.symm.trans hother)
  rcases lt_trichotomy j k with hlt | heq | hlt
  · rw [hsince' j c hij hlt hc] at hcompletes
    cases hcompletes
  · exact heq
  · rw [hsince k c' hik hlt hc'] at hcompletes'
    cases hcompletes'

/-- A request stays in the room exactly if no call is the first to complete it. -/
theorem mem_room_iff_not_returned {calls : List PurgatoryCall} {i : ℕ} {parked : Parked}
    (hparked : parkedAt calls i = some parked) :
    (i, parked) ∈ room calls ↔ ∀ j, ¬ ReturnedAt calls i j := by
  rw [mem_room, and_iff_right hparked]
  constructor
  · rintro hsince j ⟨other, hother, hij, ⟨c, hc, hcompletes⟩, -⟩
    obtain rfl := Option.some.inj (hparked.symm.trans hother)
    rw [hsince j c hij hc] at hcompletes
    cases hcompletes
  · -- the first of the calls that complete it is least among them
    intro hnever k call hik hcall
    by_contra hcompletes
    have hexists : ∃ k, i < k ∧ ∃ call, calls[k]? = some call ∧ completes call parked = true :=
      ⟨k, hik, call, hcall, eq_true_of_ne_false hcompletes⟩
    obtain ⟨hfirst, hcompleted⟩ := Nat.find_spec hexists
    refine hnever (Nat.find hexists) ⟨parked, hparked, hfirst, hcompleted, fun l c hil hl hc => ?_⟩
    by_contra hc'
    exact Nat.find_min hexists hl ⟨hil, c, hc, eq_true_of_ne_false hc'⟩

/-- What is read off the requests parked at some places. -/
theorem filterMap_parkedAt {γ : Type*} {calls : List PurgatoryCall} {held : List (ℕ × Parked)}
    (hheld : ∀ t ∈ held, parkedAt calls t.1 = some t.2) (f : Parked → γ) :
    ((held.map Prod.fst).filterMap fun i => (parkedAt calls i).map f) =
      held.map fun t => f t.2 := by
  rw [List.filterMap_map, ← List.filterMap_eq_map]
  refine List.filterMap_congr fun t ht => ?_
  show (parkedAt calls t.1).map f = some (f t.2)
  rw [hheld t ht]
  rfl

/-- **Purgatory.** In every run, a call returns the ids of the requests it is the first to complete
since they were parked; the requests that no call completes are pending, and nothing else is; so
every request is returned by exactly one call or pending; and those completed by events, those
completed by timeouts and the pending ones are as many as were parked. -/
theorem returned_once_or_pending (calls : List PurgatoryCall) :
    (∀ j call answer, (purgatory.trace {} calls)[j]? = some (call, answer) →
      ∃ places : List ℕ, places.Nodup ∧ (∀ i, i ∈ places ↔ ReturnedAt calls i j) ∧
        answer.ids = (places.filterMap fun i =>
          (parkedAt calls i).map Parked.requestId).mergeSort fun a b => a ≤ b) ∧
      (∃ places : List ℕ, places.Nodup ∧
        (∀ i, i ∈ places ↔ (∃ parked, parkedAt calls i = some parked) ∧
          ∀ j, ¬ ReturnedAt calls i j) ∧
        (purgatory.final {} calls).requests.values.flatten.Perm
          (places.filterMap fun i => (parkedAt calls i).map Parked.request) ∧
        (purgatory.final {} calls).pending = places.length) ∧
      (∀ i parked, parkedAt calls i = some parked →
        (∃! j, ReturnedAt calls i j) ∨ ∀ j, ¬ ReturnedAt calls i j) ∧
      (purgatory.final {} calls).completedByEvent + (purgatory.final {} calls).completedByTimeout +
        (purgatory.final {} calls).pending = (calls.filterMap parkedBy).length := by
  obtain ⟨hholds, hcount⟩ := holds_room calls
  refine ⟨fun j call answer hanswer => ?_, ?_, fun i parked hparked => ?_, ?_⟩
  · rw [Machine.getElem?_trace, Option.map_eq_some_iff] at hanswer
    obtain ⟨c, hcall, heq⟩ := hanswer
    obtain ⟨rfl, rfl⟩ := Prod.mk.inj heq
    have hplaces : ∀ t ∈ (room (calls.take j)).filter fun t => completes c t.2,
        parkedAt calls t.1 = some t.2 := fun t ht =>
      (parkedAt_take.mp (parkedAt_of_mem_room (List.mem_filter.mp ht).1)).2
    refine ⟨_, (nodup_room (calls.take j)).sublist (List.filter_sublist.map _),
      fun i => mem_room_take hcall, ?_⟩
    rw [((holds_room (calls.take j)).1.step c j).2.1, filterMap_parkedAt hplaces]
  · have hplaces : ∀ t ∈ room calls, parkedAt calls t.1 = some t.2 := fun t =>
      parkedAt_of_mem_room
    refine ⟨_, nodup_room calls, fun i => ?_, ?_, ?_⟩
    · constructor
      · intro hi
        obtain ⟨⟨i, parked⟩, ht, rfl⟩ := List.mem_map.mp hi
        exact ⟨⟨parked, hplaces _ ht⟩, (mem_room_iff_not_returned (hplaces _ ht)).mp ht⟩
      · rintro ⟨⟨parked, hparked⟩, hnever⟩
        exact List.mem_map.mpr ⟨_, (mem_room_iff_not_returned hparked).mpr hnever, rfl⟩
    · rw [filterMap_parkedAt hplaces]
      exact hholds.flatten_perm
    · rw [hholds.pending_eq, List.length_map]
  · by_cases hreturned : ∃ j, ReturnedAt calls i j
    · obtain ⟨j, hj⟩ := hreturned
      exact Or.inl ⟨j, hj, fun k hk => hk.unique hj⟩
    · exact Or.inr (not_exists.mp hreturned)
  · rw [hholds.pending_eq]
    exact hcount

end Purgatory

end Relay
