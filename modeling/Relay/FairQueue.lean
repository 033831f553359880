import Mathlib.Algebra.Order.Ring.Int
import Mathlib.Tactic.Linarith
import Mathlib.Tactic.Ring
import Relay.Errors
import Relay.Lib.Dict
import Relay.Lib.Machine

/-!
# Fair queueing

A round adds each client's weight to its deficit and then serves requests from the client's queue
while the deficit covers them. In a window of rounds a client is so served exactly what it is
granted in them, less what its deficit has grown by.

A client with an empty queue is to pass, its quantum not hoarded. But the deficit of such a client
grows too, and whoever comes back after some idle rounds finds all their quanta and may spend them
at once. A window stays within its rounds' quanta and one request as long as no round finds a client
that has requests waiting and more deficit than the largest of them. A client that always has
requests waiting is never in that situation: what keeps its queue from being served further is a
request that is larger than the deficit.

## Scope

The report on what each client was served is left out.

## Main definitions

* `FairQueue`, with `enqueue` and `round`
* `FairWindows`: what a run promises of its windows

## Main results

* `account_round`: what a round does to one client
* `fairWindows_of_guarded`: a condition under which a run keeps the promise
* `hoarded_quantum`: a run that does not
-/

namespace Relay

/-- Clients with their weights, the costs of the requests they wait with, and what they may spend
and have been served. -/
structure FairQueue where
  weights : Dict String ℤ
  queues : Dict String (List ℤ)
  deficit : Dict String ℤ
  served : Dict String ℤ
  positive : ∀ w ∈ weights.values, 0 < w

/-- What a fair queue keeps of one client. -/
structure Account where
  queue : List ℤ
  deficit : ℤ
  served : ℤ

/-- The loop of `round`: requests are served from the front while the deficit covers them. -/
def serve : List ℤ → ℤ → ℤ → Account
  | [], deficit, served => ⟨[], deficit, served⟩
  | cost :: q, deficit, served =>
    if cost ≤ deficit then serve q (deficit - cost) (served + cost)
    else ⟨cost :: q, deficit, served⟩

namespace FairQueue

/-- A fair queue built from weights alone. -/
def fresh (weights : Dict String ℤ) (positive : ∀ w ∈ weights.values, 0 < w) : FairQueue where
  weights := weights
  queues := weights.mapValues fun _ _ => []
  deficit := weights.mapValues fun _ _ => 0
  served := weights.mapValues fun _ _ => 0
  positive := positive

/-- `enqueue`. -/
def enqueue (fq : FairQueue) (client : String) (cost : ℤ) : Except RelayError Unit × FairQueue :=
  if client ∉ fq.weights.keys then
    (.error (.invalid s!"unknown client '{client}'"), fq)
  else
    (.ok (), { fq with queues := fq.queues.set client (fq.queues.getD client [] ++ [cost]) })

/-- What there is of a client. A client with a weight has an entry in every dictionary. -/
def account (fq : FairQueue) (client : String) : Account :=
  ⟨fq.queues.getD client [], fq.deficit.getD client 0, fq.served.getD client 0⟩

/-- The turn of one client in a round. -/
def visit (fq : FairQueue) (client : String) (weight : ℤ) : FairQueue :=
  let served := serve (fq.account client).queue ((fq.account client).deficit + weight)
    (fq.account client).served
  { fq with
    queues := fq.queues.set client served.queue
    deficit := fq.deficit.set client served.deficit
    served := fq.served.set client served.served }

/-- `round`. -/
def round (fq : FairQueue) : FairQueue :=
  fq.weights.entries.foldl (fun fq e => fq.visit e.1 e.2) fq

end FairQueue

/-! ## Runs -/

/-- A call to a fair queue. -/
inductive FairCall where
  | enqueue (client : String) (cost : ℤ)
  | round
  deriving DecidableEq

/-- A fair queue as a machine. An unknown client changes nothing. -/
def fairQueue : Machine FairQueue FairCall (Except RelayError Unit) where
  step fq call :=
    match call with
    | .enqueue client cost => fq.enqueue client cost
    | .round => (.ok (), fq.round)

/-- The rounds of a run. -/
def rounds (calls : List FairCall) : ℤ := calls.count .round

/-- The largest cost a run enqueues for a client. -/
def largestCost (client : String) (calls : List FairCall) : ℤ :=
  (calls.filterMap fun call =>
    match call with
    | .enqueue c cost => if c = client then some cost else none
    | .round => none).foldr max 0

/-- What a client has been served. -/
def FairQueue.servedTo (fq : FairQueue) (client : String) : ℤ := fq.served.getD client 0

/-- In every window of a run each client is served at most its weight for each round, and the
largest cost it has ever had enqueued. -/
def FairWindows (start : FairQueue) (calls : List FairCall) : Prop :=
  ∀ before window after, calls = before ++ window ++ after →
    ∀ client weight, start.weights.get? client = some weight →
      (fairQueue.final start (before ++ window)).servedTo client -
          (fairQueue.final start before).servedTo client ≤
        rounds window * weight + largestCost client calls

/-- No round finds a client that has requests waiting and more deficit than its bound. -/
def NoneHoarded (bound : String → ℤ) (fq : FairQueue) (call : FairCall) : Prop :=
  call = .round → ∀ client ∈ fq.weights.keys, (fq.account client).queue ≠ [] →
    (fq.account client).deficit ≤ bound client

namespace FairQueue

/-! ### One turn -/

/-- Whatever the deficit loses was served. -/
theorem serve_served_add_deficit (q : List ℤ) (deficit served : ℤ) :
    (serve q deficit served).served + (serve q deficit served).deficit = served + deficit := by
  induction q generalizing deficit served with
  | nil => rfl
  | cons cost q ih =>
    rw [serve]
    split
    · rw [ih]
      ring
    · rfl

/-- Serving spends no more than there is. -/
theorem serve_deficit_nonneg (q : List ℤ) {deficit : ℤ} (served : ℤ) (h : 0 ≤ deficit) :
    0 ≤ (serve q deficit served).deficit := by
  induction q generalizing deficit served with
  | nil => exact h
  | cons cost q ih =>
    rw [serve]
    split
    · next hcost => exact ih _ (sub_nonneg.mpr hcost)
    · exact h

/-- What stops a turn before the queue is empty is a request that the deficit does not cover. -/
theorem serve_deficit_lt {q rest : List ℤ} {deficit served cost : ℤ}
    (h : (serve q deficit served).queue = cost :: rest) :
    (serve q deficit served).deficit < cost := by
  induction q generalizing deficit served with
  | nil => cases h
  | cons head q ih =>
    rw [serve] at h ⊢
    split at h
    · next hcost =>
      rw [if_pos hcost]
      exact ih h
    · next hcost =>
      obtain ⟨rfl, -⟩ := List.cons.inj h
      rw [if_neg hcost]
      exact not_le.mp hcost

/-- Serving takes messages from the front. -/
theorem serve_queue_suffix (q : List ℤ) (deficit served : ℤ) :
    (serve q deficit served).queue <:+ q := by
  induction q generalizing deficit served with
  | nil => exact List.suffix_rfl
  | cons cost q ih =>
    rw [serve]
    split
    · exact (ih _ _).trans (List.suffix_cons cost q)
    · exact List.suffix_rfl

/-- What a turn makes of what there is of a client. -/
def turn (weight : ℤ) (account : Account) : Account :=
  serve account.queue (account.deficit + weight) account.served

/-- A visit gives one client its turn. -/
theorem account_visit (fq : FairQueue) (client : String) (weight : ℤ) (k : String) :
    (fq.visit client weight).account k =
      if k = client then turn weight (fq.account client) else fq.account k := by
  rw [visit, account, Dict.getD_set, Dict.getD_set, Dict.getD_set]
  split <;> rfl

/-- A round gives every client its turn. -/
theorem account_foldl_visit (fq : FairQueue) {clients : List (String × ℤ)}
    (hclients : (clients.map Prod.fst).Nodup) (k : String) :
    (clients.foldl (fun fq e => fq.visit e.1 e.2) fq).account k =
      (clients.lookup k).elim (fq.account k) fun weight => turn weight (fq.account k) := by
  induction clients generalizing fq with
  | nil => rfl
  | cons e clients ih =>
    obtain ⟨client, weight⟩ := e
    rw [List.map_cons, List.nodup_cons] at hclients
    rw [List.foldl_cons, ih _ hclients.2, account_visit, Dict.lookup_cons_ite]
    by_cases hk : k = client
    · -- the client does not have another turn
      rw [Dict.lookup_eq_none_iff_not_mem.mpr (hk ▸ hclients.1), if_pos hk, if_pos hk, hk]
      rfl
    · rw [if_neg hk, if_neg hk]

/-- **One round.** Every client has one turn. -/
theorem account_round (fq : FairQueue) {client : String} {weight : ℤ}
    (h : fq.weights.get? client = some weight) :
    fq.round.account client = turn weight (fq.account client) := by
  rw [round, account_foldl_visit fq fq.weights.nodup,
    show fq.weights.entries.lookup client = some weight from h]
  rfl

/-! ### One call -/

theorem weights_visit (fq : FairQueue) (client : String) (weight : ℤ) :
    (fq.visit client weight).weights = fq.weights := rfl

theorem weights_foldl_visit (fq : FairQueue) (clients : List (String × ℤ)) :
    (clients.foldl (fun fq e => fq.visit e.1 e.2) fq).weights = fq.weights := by
  induction clients generalizing fq with
  | nil => rfl
  | cons e clients ih => rw [List.foldl_cons, ih, weights_visit]

theorem weights_step (fq : FairQueue) (call : FairCall) :
    (fairQueue.step fq call).2.weights = fq.weights := by
  cases call with
  | enqueue client cost =>
    show (fq.enqueue client cost).2.weights = fq.weights
    rw [enqueue]
    split <;> rfl
  | round => exact fq.weights_foldl_visit fq.weights.entries

theorem weights_final (fq : FairQueue) (calls : List FairCall) :
    (fairQueue.final fq calls).weights = fq.weights :=
  Machine.final_eq_of_step weights weights_step fq calls

/-- A request changes the queue of its client alone. -/
theorem account_enqueue (fq : FairQueue) (client : String) (cost : ℤ) (k : String) :
    ((fairQueue.step fq (.enqueue client cost)).2.account k).deficit = (fq.account k).deficit ∧
      ((fairQueue.step fq (.enqueue client cost)).2.account k).served = (fq.account k).served ∧
        ∀ c ∈ ((fairQueue.step fq (.enqueue client cost)).2.account k).queue,
          c ∈ (fq.account k).queue ∨ (k = client ∧ c = cost) := by
  show ((fq.enqueue client cost).2.account k).deficit = _ ∧
    ((fq.enqueue client cost).2.account k).served = _ ∧
      ∀ c ∈ ((fq.enqueue client cost).2.account k).queue, _
  rw [enqueue]
  split
  · exact ⟨rfl, rfl, fun c hc => Or.inl hc⟩
  · refine ⟨rfl, rfl, fun c hc => ?_⟩
    change c ∈ (fq.queues.set client (fq.queues.getD client [] ++ [cost])).getD k [] at hc
    rw [Dict.getD_set] at hc
    split at hc
    · next hk =>
      subst hk
      rcases List.mem_append.mp hc with hc | hc
      · exact Or.inl hc
      · exact Or.inr ⟨rfl, List.mem_singleton.mp hc⟩
    · exact Or.inl hc

/-- No call leaves a deficit below zero. -/
theorem deficit_nonneg_step {fq : FairQueue} {client : String} {weight : ℤ}
    (hweight : fq.weights.get? client = some weight) (call : FairCall)
    (h : 0 ≤ (fq.account client).deficit) :
    0 ≤ ((fairQueue.step fq call).2.account client).deficit := by
  cases call with
  | enqueue c cost => rwa [(fq.account_enqueue c cost client).1]
  | round =>
    have hpos := fq.positive weight (fq.weights.mem_values_iff.mpr ⟨client, hweight⟩)
    rw [show (fairQueue.step fq .round).2 = fq.round from rfl, fq.account_round hweight]
    exact serve_deficit_nonneg _ _ (add_nonneg h hpos.le)

theorem deficit_nonneg_final (fq : FairQueue) {client : String} {weight : ℤ}
    (hweight : fq.weights.get? client = some weight) (calls : List FairCall)
    (h : 0 ≤ (fq.account client).deficit) :
    0 ≤ ((fairQueue.final fq calls).account client).deficit := by
  refine (Machine.always (P := fun s : FairQueue => s.weights = fq.weights ∧
    0 ≤ (s.account client).deficit) ⟨rfl, h⟩ (fun s call hs => ?_) calls).2
  have hs' : s.weights.get? client = some weight := by rwa [hs.1]
  exact ⟨(s.weights_step call).trans hs.1, deficit_nonneg_step hs' call hs.2⟩

/-! ### Windows -/

/-- What a client has been served since some state of the run: nothing yet, or no more than the
quanta since and one request, less what it may still spend. -/
def Spent (bound weight before : ℤ) (client : String) (window : List FairCall) (fq : FairQueue) :
    Prop :=
  fq.servedTo client = before ∨
    fq.servedTo client - before + (fq.account client).deficit ≤ rounds window * weight + bound

theorem rounds_append_singleton (calls : List FairCall) (call : FairCall) :
    rounds (calls ++ [call]) = rounds calls + if call = .round then 1 else 0 := by
  rw [rounds, rounds, List.count_append, List.count_singleton]
  cases call <;> simp

/-- One more call of the window, which no bound is exceeded in, keeps the balance. -/
theorem Spent.step {bound weight before : ℤ} {client : String} {window : List FairCall}
    {fq : FairQueue} (h : Spent bound weight before client window fq)
    (hweight : fq.weights.get? client = some weight) (call : FairCall)
    (hbound : call = .round → (fq.account client).queue ≠ [] → (fq.account client).deficit ≤ bound)
    (hrounds : 0 ≤ rounds window * weight) :
    Spent bound weight before client (window ++ [call]) (fairQueue.step fq call).2 := by
  rw [Spent, rounds_append_singleton]
  cases call with
  | enqueue c cost =>
    obtain ⟨hdeficit, hserved, -⟩ := fq.account_enqueue c cost client
    rw [hdeficit, show (fairQueue.step fq (.enqueue c cost)).2.servedTo client = _ from hserved,
      if_neg (by simp), add_zero]
    exact h
  | round =>
    have hsum := serve_served_add_deficit (fq.account client).queue
      ((fq.account client).deficit + weight) (fq.account client).served
    change fq.round.servedTo client = before ∨ fq.round.servedTo client - before +
      (fq.round.account client).deficit ≤ _
    rw [show fq.round.servedTo client = (fq.round.account client).served from rfl,
      fq.account_round hweight, if_pos rfl]
    change (turn weight (fq.account client)).served + (turn weight (fq.account client)).deficit =
      _ at hsum
    rcases h with hnone | hspent
    · rw [show fq.servedTo client = (fq.account client).served from rfl] at hnone
      by_cases hqueue : (fq.account client).queue = []
      · left
        rw [turn, hqueue]
        exact hnone
      · right
        have hdeficit := hbound rfl hqueue
        linarith
    · right
      rw [show fq.servedTo client = (fq.account client).served from rfl] at hspent
      linarith

theorem largestCost_nonneg (client : String) (calls : List FairCall) :
    0 ≤ largestCost client calls := by
  rw [largestCost]
  induction calls.filterMap _ with
  | nil => exact le_rfl
  | cons cost costs ih => exact le_max_of_le_right ih

/-- The quanta of a window. -/
theorem rounds_mul_nonneg {fq : FairQueue} {client : String} {weight : ℤ}
    (hweight : fq.weights.get? client = some weight) (calls : List FairCall) :
    0 ≤ rounds calls * weight :=
  mul_nonneg (Int.natCast_nonneg _)
    (fq.positive weight (fq.weights.mem_values_iff.mpr ⟨client, hweight⟩)).le

theorem spent_of_guarded {start : FairQueue} {client : String} {weight : ℤ}
    (hweight : start.weights.get? client = some weight) {bound : String → ℤ}
    {window : List FairCall} (h : fairQueue.Guarded (NoneHoarded bound) start window) :
    Spent (bound client) weight (start.servedTo client) client window
      (fairQueue.final start window) := by
  induction window using List.reverseRecOn with
  | nil => exact Or.inl rfl
  | append_singleton window call ih =>
    obtain ⟨hwindow, hcall, -⟩ := (Machine.guarded_append _ _ _ _ _).mp h
    have hreached : (fairQueue.final start window).weights.get? client = some weight := by
      rwa [weights_final]
    have hmem := (Dict.mem_keys_iff _).mpr ⟨weight, hreached⟩
    rw [Machine.final_append_singleton]
    exact (ih hwindow).step hreached call (fun hround => hcall hround client hmem)
      (rounds_mul_nonneg hreached window)

/-- **Fair windows.** In a run in which no round finds a client that has requests waiting and more
deficit than the largest cost ever enqueued for it, every window gives each client at most its
quanta and one request. -/
theorem fairWindows_of_guarded (weights : Dict String ℤ) (positive : ∀ w ∈ weights.values, 0 < w)
    (calls : List FairCall)
    (h : fairQueue.Guarded (NoneHoarded fun client => largestCost client calls)
      (fresh weights positive) calls) :
    FairWindows (fresh weights positive) calls := by
  intro before window after hcalls client weight hweight
  set start := fairQueue.final (fresh weights positive) before
  have hguard : fairQueue.Guarded (NoneHoarded fun client => largestCost client calls) start
      window := by
    rw [hcalls, Machine.guarded_append, Machine.guarded_append] at h
    rw [hcalls]
    exact h.1.2
  have hstart : start.weights.get? client = some weight := by rwa [weights_final]
  have hspent := spent_of_guarded hstart hguard
  have hzero := weights.getD_mapValues (fun _ _ => (0 : ℤ)) client 0
  have hdeficit := deficit_nonneg_final (fresh weights positive) hweight (before ++ window) hzero.ge
  rw [Machine.final_append] at hdeficit ⊢
  have hquanta := rounds_mul_nonneg hstart window
  have hcost := largestCost_nonneg client calls
  rcases hspent with hnone | hspent
  · rw [hnone]
    linarith
  · linarith

/-! ### Busy clients -/

theorem le_largestCost {client : String} {cost : ℤ} {calls : List FairCall}
    (h : .enqueue client cost ∈ calls) : cost ≤ largestCost client calls := by
  have hle (costs : List ℤ) (hcost : cost ∈ costs) : cost ≤ costs.foldr max 0 := by
    induction costs with
    | nil => cases hcost
    | cons c costs ih =>
      rcases List.mem_cons.mp hcost with rfl | hcost
      · exact le_max_left _ _
      · exact le_max_of_le_right (ih hcost)
  exact hle _ (List.mem_filterMap.mpr ⟨_, h, if_pos rfl⟩)

/-- No client may spend more than one request's bound, and no request exceeds it. -/
def Moderate (bound : String → ℤ) (fq : FairQueue) : Prop :=
  ∀ client ∈ fq.weights.keys, (fq.account client).deficit ≤ bound client ∧
    ∀ cost ∈ (fq.account client).queue, cost ≤ bound client

/-- A round that leaves every client with requests waiting. -/
def Busy (fq : FairQueue) (call : FairCall) : Prop :=
  call = .round → ∀ client ∈ fq.weights.keys, (fq.round.account client).queue ≠ []

/-- A client with requests waiting after its turn has less left than the next of them costs. -/
theorem Moderate.step {bound : String → ℤ} {fq : FairQueue} (h : Moderate bound fq)
    {call : FairCall} (hbusy : Busy fq call)
    (hcost : ∀ client cost, call = .enqueue client cost → cost ≤ bound client) :
    Moderate bound (fairQueue.step fq call).2 := by
  intro client hclient
  rw [weights_step] at hclient
  cases call with
  | enqueue c cost =>
    obtain ⟨hdeficit, -, hqueue⟩ := fq.account_enqueue c cost client
    rw [hdeficit]
    refine ⟨(h client hclient).1, fun x hx => ?_⟩
    rcases hqueue x hx with hx | ⟨rfl, rfl⟩
    · exact (h client hclient).2 x hx
    · exact hcost client x rfl
  | round =>
    obtain ⟨weight, hweight⟩ := (Dict.mem_keys_iff _).mp hclient
    have hleft := hbusy rfl client hclient
    change (fq.round.account client).deficit ≤ _ ∧ ∀ cost ∈ (fq.round.account client).queue, _
    rw [fq.account_round hweight] at hleft ⊢
    have hsuffix := serve_queue_suffix (fq.account client).queue
      ((fq.account client).deficit + weight) (fq.account client).served
    have hall : ∀ cost ∈ (turn weight (fq.account client)).queue, cost ≤ bound client :=
      fun cost hmem => (h client hclient).2 cost (hsuffix.subset hmem)
    obtain ⟨cost, rest, hqueue⟩ := List.exists_cons_of_ne_nil hleft
    -- the request at the front is what the deficit does not cover
    have hlt := serve_deficit_lt hqueue
    exact ⟨hlt.le.trans (hall cost (hqueue ▸ List.mem_cons_self)), hall⟩

theorem guarded_of_moderate {start : FairQueue} {bound : String → ℤ}
    (hstart : Moderate bound start) {calls : List FairCall}
    (hcosts : ∀ client cost, .enqueue client cost ∈ calls → cost ≤ bound client)
    (h : fairQueue.Guarded Busy start calls) :
    fairQueue.Guarded (NoneHoarded bound) start calls := by
  induction calls generalizing start with
  | nil => trivial
  | cons call calls ih =>
    obtain ⟨hcall, hrest⟩ := h
    refine ⟨fun _ client hclient _ => (hstart client hclient).1,
      ih (hstart.step hcall fun client cost heq => ?_) (fun client cost hmem => ?_) hrest⟩
    · exact hcosts client cost (heq ▸ List.mem_cons_self)
    · exact hcosts client cost (List.mem_cons_of_mem call hmem)

/-- **Busy clients.** In a run whose rounds leave every client with requests waiting, nothing is
hoarded. -/
theorem guarded_of_busy (weights : Dict String ℤ) (positive : ∀ w ∈ weights.values, 0 < w)
    {calls : List FairCall} (h : fairQueue.Guarded Busy (fresh weights positive) calls) :
    fairQueue.Guarded (NoneHoarded fun client => largestCost client calls)
      (fresh weights positive) calls := by
  refine guarded_of_moderate (fun client _ => ?_) (fun client cost => le_largestCost) h
  have hdeficit := weights.getD_mapValues (fun _ _ => (0 : ℤ)) client 0
  have hqueue := weights.getD_mapValues (fun _ _ => ([] : List ℤ)) client 0
  refine ⟨hdeficit.trans_le (largestCost_nonneg client calls), fun cost hcost => ?_⟩
  rw [show ((fresh weights positive).account client).queue = [] from hqueue] at hcost
  cases hcost

/-! ### A client that comes back -/

instance (bound : String → ℤ) (fq : FairQueue) (call : FairCall) :
    Decidable (NoneHoarded bound fq call) :=
  inferInstanceAs (Decidable (_ → _))

/-- Two clients that always have requests waiting. -/
def busyRun : List FairCall :=
  [.enqueue "a" 3, .enqueue "b" 2, .enqueue "b" 5, .round, .round, .enqueue "a" 4, .round]

/-- One client that has nothing to do for five rounds. -/
def idleRun : List FairCall :=
  List.replicate 5 .round ++ List.replicate 6 (.enqueue "a" 1) ++ [.round]

theorem fairWindows_busyRun :
    FairWindows (fresh (Dict.ofList [("a", 1), ("b", 2)]) (by decide)) busyRun :=
  fairWindows_of_guarded (Dict.ofList [("a", 1), ("b", 2)]) (by decide) busyRun (by decide +kernel)

/-- The round after the idle ones serves six requests where one round and one request make two. -/
theorem hoarded_quantum : ¬ FairWindows (fresh (Dict.ofList [("a", 1)]) (by decide)) idleRun := by
  intro h
  have hlast := h (List.replicate 5 .round ++ List.replicate 6 (.enqueue "a" 1)) [.round] [] rfl
    "a" 1 (by decide)
  exact absurd hlast (by decide +kernel)

end FairQueue

end Relay
