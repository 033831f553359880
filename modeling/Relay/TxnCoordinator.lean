import Mathlib.Algebra.Order.Ring.Int
import Relay.Errors
import Relay.Lib.Dict
import Relay.Lib.Machine

/-!
# The transaction coordinator

A producer registers under a transactional id and is given an epoch, which it shows with every
request. The coordinator keeps the current epoch of each id and whether it has an open transaction,
and fences every request with an epoch behind the current one. A new instance of a producer and a
transaction that times out both raise the epoch.

Instances of one id come and go, may be paused for any time, and wake up with the epoch they were
given. So the run is of the coordinator together with the instances there have been: every request
is made by one of them, with its own epoch, in whatever order.

The open flag belongs to the id and not to an instance. It is enough that the epoch does: an epoch
is given to one instance only, a request that passes carries the current one, and whatever raises
the epoch closes the transaction. So an open transaction is that of the one instance with the
current epoch (`OpenedBy`).

## Main definitions

* `TransactionCoordinator`, with `register`, `begin`, `complete` and `timeoutAbort`
* `txnWorld`: the coordinator with its instances
* `Closes`: the events that end whatever transaction an id has open

## Main results

* `epochs_increase_and_fenced`: epochs increase, an instance completes only what it began, and is
  fenced for good once it is superseded or timed out
-/

namespace Relay

/-- What the coordinator knows of a transactional id. -/
structure ProducerTxnState where
  transactionalId : String
  epoch : ℤ
  openTxn : Bool := false

/-- The coordinator. -/
structure TransactionCoordinator where
  producers : Dict String ProducerTxnState := ∅
  zombiesFenced : ℕ := 0

namespace TransactionCoordinator

/-- `register`. -/
def register (coordinator : TransactionCoordinator) (transactionalId : String) :
    ℤ × TransactionCoordinator :=
  match coordinator.producers.get? transactionalId with
  | none => (0, { coordinator with
      producers := coordinator.producers.set transactionalId { transactionalId, epoch := 0 } })
  | some held => (held.epoch + 1, { coordinator with
      producers := coordinator.producers.set transactionalId
        { held with epoch := held.epoch + 1, openTxn := false } })

/-- `_live`. -/
def live (coordinator : TransactionCoordinator) (transactionalId : String) (epoch : ℤ) :
    Except RelayError ProducerTxnState × TransactionCoordinator :=
  match coordinator.producers.get? transactionalId with
  | none => (.error (.invalid s!"{transactionalId} is not registered"), coordinator)
  | some state =>
    if epoch < state.epoch then
      (.error (.fenced (s!"{transactionalId} epoch {epoch} is behind "
        ++ s!"{state.epoch}; a resurrected producer cannot "
        ++ "commit a transaction its replacement handled")),
        { coordinator with zombiesFenced := coordinator.zombiesFenced + 1 })
    else (.ok state, coordinator)

/-- `begin`. -/
def begin (coordinator : TransactionCoordinator) (transactionalId : String) (epoch : ℤ) :
    Except RelayError String × TransactionCoordinator :=
  match coordinator.live transactionalId epoch with
  | (.error error, coordinator) => (.error error, coordinator)
  | (.ok state, coordinator) =>
    if state.openTxn then
      (.error (.invalid (s!"{transactionalId} already has an open "
        ++ "transaction; a second would blur which records "
        ++ "belong to which outcome")), coordinator)
    else
      (.ok s!"{transactionalId} began a transaction at epoch {epoch}", { coordinator with
        producers := coordinator.producers.set transactionalId { state with openTxn := true } })

/-- `complete`. -/
def complete (coordinator : TransactionCoordinator) (transactionalId : String) (epoch : ℤ)
    (commit : Bool) : Except RelayError String × TransactionCoordinator :=
  match coordinator.live transactionalId epoch with
  | (.error error, coordinator) => (.error error, coordinator)
  | (.ok state, coordinator) =>
    if ¬ state.openTxn then
      let outcome := if commit then "commit" else "abort"
      (.error (.invalid (s!"{transactionalId} has no open transaction to " ++ outcome)),
        coordinator)
    else
      let verb := if commit then "committed" else "aborted"
      (.ok s!"{transactionalId} {verb} at epoch {epoch}", { coordinator with
        producers := coordinator.producers.set transactionalId { state with openTxn := false } })

/-- `timeout_abort`. -/
def timeoutAbort (coordinator : TransactionCoordinator) (transactionalId : String) :
    Except RelayError String × TransactionCoordinator :=
  match coordinator.producers.get? transactionalId with
  | none => (.error (.invalid "no open transaction to time out"), coordinator)
  | some state =>
    if ¬ state.openTxn then (.error (.invalid "no open transaction to time out"), coordinator)
    else
      let epoch := state.epoch + 1
      (.ok (s!"{transactionalId} timed out, aborted, epoch "
        ++ s!"bumped to {epoch}; the next attempt starts "
        ++ "clean and the timed-out records never resurrect"), { coordinator with
        producers := coordinator.producers.set transactionalId
          { state with openTxn := false, epoch } })

end TransactionCoordinator

/-! ## Instances -/

/-- An instance of a producer: its transactional id, and the epoch it was given. -/
structure TxnInstance where
  transactionalId : String
  epoch : ℤ

/-- The coordinator, and the instances in the order they registered. -/
structure TxnWorld where
  coordinator : TransactionCoordinator := {}
  instances : List TxnInstance := []

/-- What can happen. Requests are made by an instance. -/
inductive TxnCall where
  | register (transactionalId : String)
  | begin (index : ℕ)
  | complete (index : ℕ) (commit : Bool)
  | timeoutAbort (transactionalId : String)

/-- What a call answers. A request is given with the instance that made it. -/
inductive TxnAnswer where
  | registered (epoch : ℤ)
  | answered (producer : TxnInstance) (answer : Except RelayError String)
  | aborted (answer : Except RelayError String)
  /-- There is no such instance. -/
  | unregistered

namespace TxnWorld

/-- A request of an instance, with its own id and epoch. -/
def request (world : TxnWorld) (index : ℕ)
    (send : String → ℤ → Except RelayError String × TransactionCoordinator) :
    TxnAnswer × TxnWorld :=
  match world.instances[index]? with
  | none => (.unregistered, world)
  | some producer =>
    let result := send producer.transactionalId producer.epoch
    (.answered producer result.1, { world with coordinator := result.2 })

end TxnWorld

/-- The coordinator and its instances as a component. -/
def txnWorld : Machine TxnWorld TxnCall TxnAnswer where
  step world
    | .register transactionalId =>
      let result := world.coordinator.register transactionalId
      (.registered result.1, {
        coordinator := result.2
        instances := world.instances ++ [{ transactionalId, epoch := result.1 }] })
    | .begin index => world.request index world.coordinator.begin
    | .complete index commit =>
      world.request index fun transactionalId epoch =>
        world.coordinator.complete transactionalId epoch commit
    | .timeoutAbort transactionalId =>
      let result := world.coordinator.timeoutAbort transactionalId
      (.aborted result.1, { world with coordinator := result.2 })

/-- The instance that registered at an event, if one did. -/
def TxnInstance.ofEvent : TxnCall × TxnAnswer → Option TxnInstance
  | (.register transactionalId, .registered epoch) => some { transactionalId, epoch }
  | _ => none

/-- The event ends whatever transaction the id has open: it is completed, timed out, or its producer
is superseded. -/
def Closes (transactionalId : String) : TxnCall × TxnAnswer → Prop
  | (.register id, .registered _) => id = transactionalId
  | (.complete _ _, .answered producer (.ok _)) => producer.transactionalId = transactionalId
  | (.timeoutAbort id, .aborted (.ok _)) => id = transactionalId
  | _ => False

/-- The event supersedes the instances of the id, or times out its transaction. -/
def Supersedes (transactionalId : String) : TxnCall × TxnAnswer → Prop
  | (.register id, .registered _) => id = transactionalId
  | (.timeoutAbort id, .aborted (.ok _)) => id = transactionalId
  | _ => False

/-! ## Steps -/

/-- A call that was refused, or made by nobody. -/
def Refused : TxnAnswer → Prop
  | .answered _ (.error _) | .aborted (.error _) | .unregistered => True
  | _ => False

/-- The world with another state for an id. -/
def TxnWorld.put (world : TxnWorld) (transactionalId : String) (state : ProducerTxnState) :
    TxnWorld :=
  { world with
    coordinator := { world.coordinator with
      producers := world.coordinator.producers.set transactionalId state } }

/-- What a call does. A refusal counts a zombie at most. -/
inductive TxnStep (world : TxnWorld) : TxnCall → TxnAnswer → TxnWorld → Prop
  | refused {call : TxnCall} {answer : TxnAnswer} {zombiesFenced : ℕ} (refused : Refused answer) :
      TxnStep world call answer
        { world with coordinator := { world.coordinator with zombiesFenced } }
  | registered {transactionalId : String} (state : ProducerTxnState) {world' : TxnWorld}
      (newer : ∀ held, world.coordinator.producers.get? transactionalId = some held →
        held.epoch < state.epoch)
      (closed : state.openTxn = false)
      (instances :
        world'.instances = world.instances ++ [{ transactionalId, epoch := state.epoch }])
      (producers : world'.coordinator.producers =
        world.coordinator.producers.set transactionalId state) :
      TxnStep world (.register transactionalId) (.registered state.epoch) world'
  | began {index : ℕ} {producer : TxnInstance} {state : ProducerTxnState} {note : String}
      (registered : world.instances[index]? = some producer)
      (held : world.coordinator.producers.get? producer.transactionalId = some state)
      (live : state.epoch ≤ producer.epoch) :
      TxnStep world (.begin index) (.answered producer (.ok note))
        (world.put producer.transactionalId { state with openTxn := true })
  | completed {index : ℕ} {commit : Bool} {producer : TxnInstance} {state : ProducerTxnState}
      {note : String} (registered : world.instances[index]? = some producer)
      (held : world.coordinator.producers.get? producer.transactionalId = some state)
      (live : state.epoch ≤ producer.epoch) (isOpen : state.openTxn = true) :
      TxnStep world (.complete index commit) (.answered producer (.ok note))
        (world.put producer.transactionalId { state with openTxn := false })
  | timedOut {transactionalId : String} {state : ProducerTxnState} {note : String}
      (held : world.coordinator.producers.get? transactionalId = some state) :
      TxnStep world (.timeoutAbort transactionalId) (.aborted (.ok note))
        (world.put transactionalId { state with openTxn := false, epoch := state.epoch + 1 })

/-- What `_live` finds. -/
theorem TransactionCoordinator.live_cases (coordinator : TransactionCoordinator)
    (transactionalId : String) (epoch : ℤ) :
    (∃ error zombiesFenced, coordinator.live transactionalId epoch =
        (.error error, { coordinator with zombiesFenced })) ∨
      ∃ state, coordinator.live transactionalId epoch = (.ok state, coordinator) ∧
        coordinator.producers.get? transactionalId = some state ∧ state.epoch ≤ epoch := by
  rw [live]
  split
  · exact Or.inl ⟨_, _, rfl⟩
  · next state hheld =>
    split
    · exact Or.inl ⟨_, _, rfl⟩
    · next hlive => exact Or.inr ⟨state, rfl, hheld, not_lt.mp hlive⟩

theorem txnStep_step (world : TxnWorld) (call : TxnCall) :
    TxnStep world call (txnWorld.step world call).1 (txnWorld.step world call).2 := by
  cases call with
  | register transactionalId =>
    simp only [txnWorld, TransactionCoordinator.register]
    split
    · next hnone =>
      refine .registered { transactionalId, epoch := 0 } (fun held hheld => ?_) rfl rfl rfl
      rw [hnone] at hheld
      cases hheld
    · next held hheld =>
      refine .registered { held with epoch := held.epoch + 1, openTxn := false }
        (fun held' hheld' => ?_) rfl rfl rfl
      obtain rfl := Option.some.inj (hheld.symm.trans hheld')
      exact lt_add_one _
  | begin index =>
    simp only [txnWorld, TxnWorld.request]
    split
    · exact .refused trivial
    · next producer hproducer =>
      simp only [TransactionCoordinator.begin]
      rcases world.coordinator.live_cases producer.transactionalId producer.epoch with
        ⟨error, zombiesFenced, heq⟩ | ⟨state, heq, hheld, hlive⟩
      · rw [heq]
        exact .refused trivial
      · rw [heq]
        simp only
        split
        · exact .refused trivial
        · exact .began hproducer hheld hlive
  | complete index commit =>
    simp only [txnWorld, TxnWorld.request]
    split
    · exact .refused trivial
    · next producer hproducer =>
      simp only [TransactionCoordinator.complete]
      rcases world.coordinator.live_cases producer.transactionalId producer.epoch with
        ⟨error, zombiesFenced, heq⟩ | ⟨state, heq, hheld, hlive⟩
      · rw [heq]
        exact .refused trivial
      · rw [heq]
        simp only
        split
        · exact .refused trivial
        · next hopen => exact .completed hproducer hheld hlive (not_not.mp hopen)
  | timeoutAbort transactionalId =>
    simp only [txnWorld, TransactionCoordinator.timeoutAbort]
    split
    · exact .refused trivial
    · next state hheld =>
      split
      · exact .refused trivial
      · exact .timedOut hheld

/-- A refusal closes nothing. -/
theorem not_closes_of_refused {call : TxnCall} {answer : TxnAnswer} (h : Refused answer)
    (transactionalId : String) : ¬ Closes transactionalId (call, answer) := by
  rcases answer with epoch | ⟨producer, error | note⟩ | ⟨error | note⟩ | _
  · exact absurd h id
  · cases call <;> exact id
  · exact absurd h id
  · cases call <;> exact id
  · exact absurd h id
  · cases call <;> exact id

/-! ## Authority -/

/-- The producer began a transaction, which nothing has closed since. -/
def OpenedBy (past : List (TxnCall × TxnAnswer)) (index : ℕ) (producer : TxnInstance) : Prop :=
  ∃ before note after, past = before ++ (.begin index, .answered producer (.ok note)) :: after ∧
    ∀ e ∈ after, ¬ Closes producer.transactionalId e

/-- Whoever completes a transaction has begun it, and it was still open. -/
def CompletesOwn (past : List (TxnCall × TxnAnswer)) (e : TxnCall × TxnAnswer) : Prop :=
  ∀ index commit producer note, e = (.complete index commit, .answered producer (.ok note)) →
    OpenedBy past index producer

theorem OpenedBy.append {past : List (TxnCall × TxnAnswer)} {index : ℕ} {producer : TxnInstance}
    (h : OpenedBy past index producer) {e : TxnCall × TxnAnswer}
    (he : ¬ Closes producer.transactionalId e) : OpenedBy (past ++ [e]) index producer := by
  obtain ⟨before, note, after, rfl, hafter⟩ := h
  refine ⟨before, note, after ++ [e], by simp, ?_⟩
  exact forall_mem_append_singleton.mpr ⟨hafter, he⟩

/-- Every instance is known to the coordinator and not ahead of it, no two instances of an id have
the same epoch, and an open transaction is that of the instance with the current epoch. -/
structure Authority (past : List (TxnCall × TxnAnswer)) (world : TxnWorld) : Prop where
  known : ∀ producer ∈ world.instances, ∃ state,
    world.coordinator.producers.get? producer.transactionalId = some state ∧
      producer.epoch ≤ state.epoch
  increase : world.instances.Pairwise fun a b =>
    a.transactionalId = b.transactionalId → a.epoch < b.epoch
  openedBy : ∀ transactionalId state,
    world.coordinator.producers.get? transactionalId = some state → state.openTxn = true →
      ∃ index, world.instances[index]? = some ⟨transactionalId, state.epoch⟩ ∧
        OpenedBy past index ⟨transactionalId, state.epoch⟩
  completesOwn : Justified CompletesOwn past

namespace Authority

variable {past : List (TxnCall × TxnAnswer)} {world : TxnWorld} {call : TxnCall}
  {answer : TxnAnswer}

/-- An instance that is not behind has the current epoch. -/
theorem epoch_eq (h : Authority past world) {index : ℕ} {producer : TxnInstance}
    {state : ProducerTxnState} (hproducer : world.instances[index]? = some producer)
    (hheld : world.coordinator.producers.get? producer.transactionalId = some state)
    (hlive : state.epoch ≤ producer.epoch) :
    producer = ⟨producer.transactionalId, state.epoch⟩ := by
  obtain ⟨state', hstate', hle⟩ := h.known producer (List.mem_of_getElem? hproducer)
  obtain rfl := Option.some.inj (hheld.symm.trans hstate')
  rw [le_antisymm hlive hle]

/-- No two instances are the same. -/
theorem index_unique (h : Authority past world) {i j : ℕ} {producer : TxnInstance}
    (hi : world.instances[i]? = some producer) (hj : world.instances[j]? = some producer) :
    i = j := by
  obtain ⟨hi', rfl⟩ := List.getElem?_eq_some_iff.mp hi
  obtain ⟨hj', heq⟩ := List.getElem?_eq_some_iff.mp hj
  have hpairwise := List.pairwise_iff_getElem.mp h.increase
  rcases lt_trichotomy i j with hlt | heq' | hlt
  · have hepoch := hpairwise i j hi' hj' hlt
    rw [heq] at hepoch
    exact absurd (hepoch rfl) (lt_irrefl _)
  · exact heq'
  · have hepoch := hpairwise j i hj' hi' hlt
    rw [heq] at hepoch
    exact absurd (hepoch rfl) (lt_irrefl _)

/-- A step that leaves the instances alone and closes at most the transaction of one id, which is
not behind afterwards. -/
theorem put (h : Authority past world) {transactionalId : String} {held state : ProducerTxnState}
    (hheld : world.coordinator.producers.get? transactionalId = some held)
    (hepoch : held.epoch ≤ state.epoch)
    (hcloses : ∀ id, id ≠ transactionalId → ¬ Closes id (call, answer))
    (hopen : state.openTxn = true → ∃ index,
      world.instances[index]? = some ⟨transactionalId, state.epoch⟩ ∧
        OpenedBy (past ++ [(call, answer)]) index ⟨transactionalId, state.epoch⟩)
    (hown : CompletesOwn past (call, answer)) :
    Authority (past ++ [(call, answer)]) (world.put transactionalId state) := by
  refine ⟨fun producer hproducer => ?_, h.increase, ?_,
    justified_append_singleton.mpr ⟨h.completesOwn, hown⟩⟩
  · obtain ⟨state', hstate', hle⟩ := h.known producer hproducer
    show ∃ state'', (world.coordinator.producers.set transactionalId state).get?
      producer.transactionalId = some state'' ∧ producer.epoch ≤ state''.epoch
    rw [Dict.get?_set]
    split
    · next hid =>
      rw [hid, hheld] at hstate'
      obtain rfl := Option.some.inj hstate'
      exact ⟨state, rfl, hle.trans hepoch⟩
    · exact ⟨state', hstate', hle⟩
  · refine Dict.forall_get?_set hopen fun id state' hne hstate' hopen' => ?_
    obtain ⟨index, hindex, hopened⟩ := h.openedBy id state' hstate' hopen'
    exact ⟨index, hindex, hopened.append (hcloses id hne)⟩

theorem step (h : Authority past world) {world' : TxnWorld}
    (hstep : TxnStep world call answer world') : Authority (past ++ [(call, answer)]) world' := by
  cases hstep with
  | refused refused =>
    refine ⟨h.known, h.increase, fun id state hstate hopen => ?_,
      justified_append_singleton.mpr ⟨h.completesOwn, ?_⟩⟩
    · obtain ⟨index, hindex, hopened⟩ := h.openedBy id state hstate hopen
      exact ⟨index, hindex, hopened.append (not_closes_of_refused refused id)⟩
    · rintro index commit producer note heq
      obtain ⟨rfl, rfl⟩ := Prod.mk.inj heq
      exact refused.elim
  | @registered transactionalId state _ newer closed instances producers =>
    have hbelow : ∀ producer ∈ world.instances, producer.transactionalId = transactionalId →
        producer.epoch < state.epoch := by
      rintro producer hproducer rfl
      obtain ⟨held, hheld, hle⟩ := h.known producer hproducer
      exact hle.trans_lt (newer held hheld)
    refine ⟨?_, ?_, ?_, justified_append_singleton.mpr ⟨h.completesOwn, ?_⟩⟩
    · rw [instances, producers]
      refine forall_mem_append_singleton.mpr ⟨fun producer hproducer => ?_, ?_⟩
      · rw [Dict.get?_set]
        split
        · next hid => exact ⟨state, rfl, (hbelow producer hproducer hid).le⟩
        · exact h.known producer hproducer
      · exact ⟨state, Dict.get?_set_self _ _ _, le_rfl⟩
    · rw [instances]
      exact pairwise_append_singleton.mpr ⟨h.increase, hbelow⟩
    · rw [producers, instances]
      refine Dict.forall_get?_set (fun hopen => ?_) fun id state' hne hstate' hopen => ?_
      · rw [closed] at hopen
        cases hopen
      · obtain ⟨index, hindex, hopened⟩ := h.openedBy id state' hstate' hopen
        refine ⟨index, ?_, hopened.append fun hcloses => hne hcloses.symm⟩
        rw [List.getElem?_append_left (List.getElem?_eq_some_iff.mp hindex).1]
        exact hindex
    · rintro index commit producer note heq
      cases heq
  | @began index producer state note registered held live =>
    have hproducer := h.epoch_eq registered held live
    refine h.put held le_rfl (fun id _ hcloses => hcloses) (fun _ => ⟨index, ?_, ?_⟩) ?_
    · rw [← hproducer]
      exact registered
    · rw [← hproducer]
      exact ⟨past, note, [], rfl, fun e he => absurd he List.not_mem_nil⟩
    · rintro index commit producer note heq
      cases heq
  | @completed index commit producer state note registered held live isOpen =>
    have hproducer := h.epoch_eq registered held live
    refine h.put held le_rfl (fun id hne hcloses => hne hcloses.symm)
      (fun hopen => by cases hopen) ?_
    rintro index' commit' producer' note' heq
    obtain ⟨hcall, hanswer⟩ := Prod.mk.inj heq
    obtain ⟨rfl, rfl⟩ := TxnCall.complete.inj hcall
    obtain ⟨rfl, -⟩ := TxnAnswer.answered.inj hanswer
    obtain ⟨index', hindex', hopened⟩ := h.openedBy _ state held isOpen
    rw [← hproducer] at hindex' hopened
    exact (h.index_unique registered hindex') ▸ hopened
  | @timedOut transactionalId state note held =>
    refine h.put held (lt_add_one _).le (fun id hne hcloses => hne hcloses.symm)
      (fun hopen => by cases hopen) ?_
    rintro index commit producer note heq
    cases heq

end Authority

theorem authority_run (calls : List TxnCall) :
    Authority (txnWorld.trace {} calls) (txnWorld.final {} calls) := by
  refine Machine.trace_always (P := Authority) ?_
    (fun _ world call h => h.step (txnStep_step world call)) calls
  refine ⟨by simp, List.Pairwise.nil, fun _ _ hheld => ?_, justified_nil _⟩
  cases hheld

/-! ## Fencing -/

/-- The instance is behind the current epoch of its id. -/
def Behind (index : ℕ) (producer : TxnInstance) (world : TxnWorld) : Prop :=
  world.instances[index]? = some producer ∧ ∃ state,
    world.coordinator.producers.get? producer.transactionalId = some state ∧
      producer.epoch < state.epoch

/-- The epoch of an id only rises. -/
theorem Behind.put {index : ℕ} {producer : TxnInstance} {world : TxnWorld}
    (h : Behind index producer world) {transactionalId : String} {held state : ProducerTxnState}
    (hheld : world.coordinator.producers.get? transactionalId = some held)
    (hepoch : held.epoch ≤ state.epoch) :
    Behind index producer (world.put transactionalId state) := by
  obtain ⟨hproducer, state', hstate', hlt⟩ := h
  by_cases hid : producer.transactionalId = transactionalId
  · rw [hid, hheld] at hstate'
    obtain rfl := Option.some.inj hstate'
    refine ⟨hproducer, state, ?_, hlt.trans_le hepoch⟩
    rw [hid]
    exact Dict.get?_set_self _ _ _
  · exact ⟨hproducer, state', (Dict.get?_set_of_ne _ _ hid).trans hstate', hlt⟩

theorem Behind.step {index : ℕ} {producer : TxnInstance} {world world' : TxnWorld}
    {call : TxnCall} {answer : TxnAnswer} (h : Behind index producer world)
    (hstep : TxnStep world call answer world') : Behind index producer world' := by
  cases hstep with
  | refused => exact h
  | @registered transactionalId state _ newer closed instances producers =>
    obtain ⟨hproducer, state', hstate', hlt⟩ := h
    have hproducer' : world'.instances[index]? = some producer := by
      rw [instances, List.getElem?_append_left (List.getElem?_eq_some_iff.mp hproducer).1]
      exact hproducer
    rw [Behind, producers]
    by_cases hid : producer.transactionalId = transactionalId
    · refine ⟨hproducer', state, ?_, hlt.trans (newer state' (hid ▸ hstate'))⟩
      rw [hid]
      exact Dict.get?_set_self _ _ _
    · exact ⟨hproducer', state', (Dict.get?_set_of_ne _ _ hid).trans hstate', hlt⟩
  | began registered held live => exact h.put held le_rfl
  | completed registered held live isOpen => exact h.put held le_rfl
  | timedOut held => exact h.put held (lt_add_one _).le

/-- An instance is behind once its id is registered again or its transaction times out. -/
theorem behind_of_supersedes {past : List (TxnCall × TxnAnswer)} {world world' : TxnWorld}
    {call : TxnCall} {answer : TxnAnswer} {index : ℕ} {producer : TxnInstance}
    (h : Authority past world) (hproducer : world.instances[index]? = some producer)
    (hstep : TxnStep world call answer world')
    (hsupersedes : Supersedes producer.transactionalId (call, answer)) :
    Behind index producer world' := by
  obtain ⟨held', hheld', hle⟩ := h.known producer (List.mem_of_getElem? hproducer)
  cases hstep with
  | refused refused =>
    rcases answer with epoch | ⟨producer, error | note⟩ | ⟨error | note⟩ | _
    all_goals cases call <;> first | exact refused.elim | exact hsupersedes.elim
  | @registered _ state _ newer closed instances producers =>
    obtain rfl := hsupersedes
    refine ⟨?_, state, ?_, hle.trans_lt (newer held' hheld')⟩
    · rw [instances, List.getElem?_append_left (List.getElem?_eq_some_iff.mp hproducer).1]
      exact hproducer
    · rw [producers]
      exact Dict.get?_set_self _ _ _
  | began registered held live => exact hsupersedes.elim
  | completed registered held live isOpen => exact hsupersedes.elim
  | @timedOut _ state note held =>
    obtain rfl := hsupersedes
    obtain rfl := Option.some.inj (held.symm.trans hheld')
    exact ⟨hproducer, _, Dict.get?_set_self _ _ _, Int.lt_add_one_of_le hle⟩

/-- A request of an instance that is behind is fenced. -/
theorem Behind.fenced {index : ℕ} {producer : TxnInstance} {world : TxnWorld}
    (h : Behind index producer world) (commit : Bool) :
    (∃ message, (txnWorld.step world (.begin index)).1 =
        .answered producer (.error (.fenced message))) ∧
      ∃ message, (txnWorld.step world (.complete index commit)).1 =
        .answered producer (.error (.fenced message)) := by
  obtain ⟨hproducer, state, hstate, hlt⟩ := h
  simp only [txnWorld, TxnWorld.request, hproducer, TransactionCoordinator.begin,
    TransactionCoordinator.complete, TransactionCoordinator.live, hstate, if_pos hlt]
  exact ⟨⟨_, rfl⟩, ⟨_, rfl⟩⟩

/-- A request registers nobody. -/
theorem instances_request (world : TxnWorld) (index : ℕ)
    (send : String → ℤ → Except RelayError String × TransactionCoordinator) (call : TxnCall) :
    (world.request index send).2.instances = world.instances ++
      [(call, (world.request index send).1)].filterMap TxnInstance.ofEvent := by
  have hnone : TxnInstance.ofEvent (call, (world.request index send).1) = none := by
    rw [TxnWorld.request]
    split
    · cases call <;> rfl
    · cases call <;> rfl
  rw [List.filterMap_cons_none hnone, List.filterMap_nil, List.append_nil, TxnWorld.request]
  split
  · rfl
  · rfl

/-- The instances are those that registered. -/
theorem instances_final (calls : List TxnCall) : (txnWorld.final {} calls).instances =
    (txnWorld.trace {} calls).filterMap TxnInstance.ofEvent := by
  refine Machine.trace_always
    (P := fun past (world : TxnWorld) => world.instances = past.filterMap TxnInstance.ofEvent) rfl
    (fun past world call h => ?_) calls
  rw [List.filterMap_append, ← h]
  cases call with
  | register transactionalId => rfl
  | begin index => exact instances_request world index world.coordinator.begin (.begin index)
  | complete index commit =>
    exact instances_request world index
      (fun id epoch => world.coordinator.complete id epoch commit) (.complete index commit)
  | timeoutAbort transactionalId => exact (List.append_nil _).symm

/-- **Transaction fencing.** In every run of any instances, which show the epochs they were given:
the epochs given for one id increase; an instance that completes a transaction has begun it, and the
transaction was not completed, timed out or superseded in between; and once the id of an instance is
registered again, or a transaction of the id times out, all its requests are fenced. -/
theorem epochs_increase_and_fenced (calls : List TxnCall) :
    ((txnWorld.trace {} calls).filterMap TxnInstance.ofEvent).Pairwise
        (fun a b => a.transactionalId = b.transactionalId → a.epoch < b.epoch) ∧
      Justified CompletesOwn (txnWorld.trace {} calls) ∧
      ∀ past call rest index producer, calls = past ++ call :: rest →
        (txnWorld.final {} past).instances[index]? = some producer →
        Supersedes producer.transactionalId
          (call, (txnWorld.step (txnWorld.final {} past) call).1) →
          ∀ commit,
            (∃ message, (txnWorld.step (txnWorld.final {} calls) (.begin index)).1 =
              .answered producer (.error (.fenced message))) ∧
            ∃ message, (txnWorld.step (txnWorld.final {} calls) (.complete index commit)).1 =
              .answered producer (.error (.fenced message)) := by
  have h := authority_run calls
  refine ⟨?_, h.completesOwn, ?_⟩
  · rw [← instances_final]
    exact h.increase
  · rintro past call rest index producer rfl hproducer hsupersedes commit
    have hbehind := behind_of_supersedes (authority_run past) hproducer (txnStep_step _ call)
      hsupersedes
    rw [Machine.final_append, Machine.final_cons]
    have hrun : Behind index producer
        (txnWorld.final (txnWorld.step (txnWorld.final {} past) call).2 rest) :=
      Machine.always hbehind (fun world call hb => hb.step (txnStep_step world call)) rest
    exact hrun.fenced commit

end Relay
