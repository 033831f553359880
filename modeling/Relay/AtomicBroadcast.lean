import Mathlib.Algebra.Order.Ring.Int
import Mathlib.Data.List.Induction
import Relay.Errors
import Relay.Lib.Dict
import Relay.Lib.Machine

/-!
# Atomic broadcast

A node delivers messages in the order of their sequence numbers. It knows the next number it
expects, buffers what is ahead of it, and has two ways of taking a message: `receive` buffers it
and drains the buffer, `deliverInOrder` takes the next expected one past the buffer and refuses
any other.

Both advance the expected number by what they deliver, and that is enough for every node to
deliver a beginning of one and the same sequence. Only `receive` drains. After `deliverInOrder`
the next message may sit in the buffer, deliverable and not delivered, until something is
received; `forall_prompt_iff` says that this happens exactly when it is called for a number whose
successor is buffered.

## Scope

The report on how much is buffered ahead of the gap is left out.

## Main definitions

* `AtomicBroadcast`, with `receive`, `deliverInOrder` and the loop `drain`
* `atomicBroadcast`: a node as a component
* `Prompt`: nothing that could be delivered is buffered

## Main results

* `delivered_isPrefix`: what two nodes deliver are beginnings of one sequence
* `forall_prompt_iff`: when a node never sits on a deliverable message
-/

namespace Relay

/-- A node. -/
structure AtomicBroadcast (μ : Type*) where
  nextExpected : ℤ := 0
  buffer : Dict ℤ μ := ∅
  delivered : List μ := []

namespace AtomicBroadcast

variable {μ : Type*}

/-- The message with the next expected number is delivered out of the buffer. -/
def advance (s : AtomicBroadcast μ) (message : μ) : AtomicBroadcast μ where
  nextExpected := s.nextExpected + 1
  buffer := s.buffer.erase s.nextExpected
  delivered := s.delivered ++ [message]

/-- The loop of `receive`: deliver from the buffer while the next expected number is in it. -/
def drain (s : AtomicBroadcast μ) : List μ × AtomicBroadcast μ :=
  match _h : s.buffer.get? s.nextExpected with
  | none => ([], s)
  | some message =>
    let rest := (s.advance message).drain
    (message :: rest.1, rest.2)
termination_by s.buffer.entries.length
decreasing_by exact Dict.length_erase_lt _h

/-- `receive`. -/
def receive (s : AtomicBroadcast μ) (sequence : ℤ) (message : μ) : List μ × AtomicBroadcast μ :=
  -- a duplicate of something already delivered
  if sequence < s.nextExpected then ([], s)
  else drain { s with buffer := s.buffer.set sequence message }

/-- `deliver_in_order`. -/
def deliverInOrder (s : AtomicBroadcast μ) (sequence : ℤ) (message : μ) :
    Except RelayError String × AtomicBroadcast μ :=
  if sequence ≠ s.nextExpected then
    (.error (.invalid (s!"sequence {sequence} skips the next expected {s.nextExpected}; " ++
      "delivering it breaks total order, buffer it until the gap fills")), s)
  else (.ok s!"delivered {sequence}", { s with
    delivered := s.delivered ++ [message]
    nextExpected := s.nextExpected + 1 })

/-- What every round of the loop keeps holds after it, and then the next expected number is not in
the buffer. -/
theorem drain_induction {P : AtomicBroadcast μ → Prop}
    (advance : ∀ s message, P s → s.buffer.get? s.nextExpected = some message →
      P (s.advance message)) (s : AtomicBroadcast μ) (h : P s) :
    P s.drain.2 ∧ s.drain.2.buffer.get? s.drain.2.nextExpected = none := by
  induction hn : s.buffer.entries.length using Nat.strong_induction_on generalizing s with
  | _ n ih =>
    subst hn
    rw [drain]
    split
    · next hnone => exact ⟨h, hnone⟩
    · next message hsome =>
      exact ih _ (Dict.length_erase_lt hsome) _ (advance s message h hsome) rfl

/-- The loop stops at once if the next expected number is not in the buffer. -/
theorem drain_of_get?_eq_none {s : AtomicBroadcast μ} (h : s.buffer.get? s.nextExpected = none) :
    s.drain = ([], s) := by
  rw [drain]
  split
  · rfl
  · next message hsome =>
    rw [h] at hsome
    cases hsome

end AtomicBroadcast

/-- A call at a node. -/
inductive BroadcastCall (μ : Type*) where
  | receive (sequence : ℤ) (message : μ)
  | deliverInOrder (sequence : ℤ) (message : μ)

namespace BroadcastCall

variable {μ : Type*}

def sequence : BroadcastCall μ → ℤ
  | .receive sequence _ => sequence
  | .deliverInOrder sequence _ => sequence

def message : BroadcastCall μ → μ
  | .receive _ message => message
  | .deliverInOrder _ message => message

end BroadcastCall

section Runs

variable {μ : Type*}

/-- A node as a component. -/
def atomicBroadcast : Machine (AtomicBroadcast μ) (BroadcastCall μ)
    (List μ ⊕ Except RelayError String) where
  step s
    | .receive sequence message =>
      let result := s.receive sequence message
      (.inl result.1, result.2)
    | .deliverInOrder sequence message =>
      let result := s.deliverInOrder sequence message
      (.inr result.1, result.2)

/-- What a call does: a duplicate and a refusal change nothing, a message at or ahead of the
expected number is buffered and the buffer drained, and the expected one is delivered past the
buffer. -/
inductive BroadcastStep (s : AtomicBroadcast μ) :
    BroadcastCall μ → List μ ⊕ Except RelayError String → AtomicBroadcast μ → Prop
  | duplicate {sequence : ℤ} {message : μ} {answer : List μ} (behind : sequence < s.nextExpected) :
      BroadcastStep s (.receive sequence message) (.inl answer) s
  | buffer {sequence : ℤ} {message : μ} {answer : List μ} (ahead : s.nextExpected ≤ sequence) :
      BroadcastStep s (.receive sequence message) (.inl answer)
        (AtomicBroadcast.drain { s with buffer := s.buffer.set sequence message }).2
  | refuse {sequence : ℤ} {message : μ} {error : RelayError} (skips : sequence ≠ s.nextExpected) :
      BroadcastStep s (.deliverInOrder sequence message) (.inr (.error error)) s
  | deliver {message : μ} {note : String} :
      BroadcastStep s (.deliverInOrder s.nextExpected message) (.inr (.ok note))
        { s with
          delivered := s.delivered ++ [message]
          nextExpected := s.nextExpected + 1 }

theorem broadcastStep_step (s : AtomicBroadcast μ) (call : BroadcastCall μ) :
    BroadcastStep s call (atomicBroadcast.step s call).1 (atomicBroadcast.step s call).2 := by
  cases call with
  | receive sequence message =>
    simp only [atomicBroadcast, AtomicBroadcast.receive]
    split
    · next hbehind => exact .duplicate hbehind
    · next hahead => exact .buffer (not_lt.mp hahead)
  | deliverInOrder sequence message =>
    simp only [atomicBroadcast, AtomicBroadcast.deliverInOrder]
    split
    · next hskips => exact .refuse hskips
    · next hnext =>
      rw [ne_eq, not_not] at hnext
      subst hnext
      exact .deliver

/-- The node after a run. -/
def nodeAfter (calls : List (BroadcastCall μ)) : AtomicBroadcast μ := atomicBroadcast.final {} calls

/-! ## Total order -/

/-- The messages up to the expected number have been delivered in order, and the buffer holds
messages under their own numbers. -/
structure Delivers (m : ℤ → μ) (s : AtomicBroadcast μ) : Prop where
  nextExpected : s.nextExpected = s.delivered.length
  delivered : s.delivered = (List.range s.delivered.length).map fun i : ℕ => m i
  buffered : ∀ k x, s.buffer.get? k = some x → x = m k

variable {m : ℤ → μ} {s : AtomicBroadcast μ}

/-- The next expected message is delivered, with or without its entry in the buffer. -/
theorem Delivers.next (h : Delivers m s) {buffer : Dict ℤ μ}
    (hbuffer : ∀ k x, buffer.get? k = some x → x = m k) :
    Delivers m
      { nextExpected := s.nextExpected + 1, buffer,
        delivered := s.delivered ++ [m s.nextExpected] } where
  nextExpected := by
    rw [List.length_append, h.nextExpected]
    rfl
  delivered := by
    rw [List.length_append, List.length_singleton, List.range_succ, List.map_append,
      ← h.delivered, List.map_singleton, h.nextExpected]
  buffered := hbuffer

theorem Delivers.advance (h : Delivers m s) {message : μ}
    (hmessage : s.buffer.get? s.nextExpected = some message) : Delivers m (s.advance message) := by
  obtain rfl := h.buffered _ _ hmessage
  exact h.next (Dict.forall_get?_erase fun k x _ hk => h.buffered k x hk)

theorem Delivers.step (h : Delivers m s) {call : BroadcastCall μ}
    {answer : List μ ⊕ Except RelayError String} {s' : AtomicBroadcast μ}
    (hcall : call.message = m call.sequence) (hstep : BroadcastStep s call answer s') :
    Delivers m s' := by
  cases hstep with
  | duplicate => exact h
  | refuse => exact h
  | @buffer sequence message =>
    have hbuffer : Delivers m { s with buffer := s.buffer.set sequence message } := by
      refine ⟨h.nextExpected, h.delivered, Dict.forall_get?_set hcall fun k x _ hk => ?_⟩
      exact h.buffered k x hk
    exact (AtomicBroadcast.drain_induction (fun _ _ hs hmessage => hs.advance hmessage) _
      hbuffer).1
  | @deliver message =>
    obtain rfl : message = m s.nextExpected := hcall
    exact h.next h.buffered

/-- Of two such nodes, the one that has delivered less has delivered a beginning of the other's
messages. -/
theorem Delivers.isPrefix {s' : AtomicBroadcast μ} (h : Delivers m s) (h' : Delivers m s')
    (hle : s.delivered.length ≤ s'.delivered.length) : s.delivered <+: s'.delivered := by
  have hrange : List.range s.delivered.length <+: List.range s'.delivered.length := by
    rw [← min_eq_left hle, ← List.take_range]
    exact List.take_prefix _ _
  rw [h.delivered, h'.delivered]
  exact hrange.map _

theorem delivers_nodeAfter {calls : List (BroadcastCall μ)}
    (h : ∀ call ∈ calls, call.message = m call.sequence) : Delivers m (nodeAfter calls) := by
  have hguard : atomicBroadcast.Guarded (fun _ call => call.message = m call.sequence) {} calls :=
    atomicBroadcast.guarded_of_forall_mem h
  refine Machine.invariant ⟨rfl, rfl, fun k x hk => by cases hk⟩ (fun s call hs hcall => ?_) hguard
  exact hs.step hcall (broadcastStep_step s call)

/-- **Total order.** Let every sequence number have its message, and let two nodes be handed these
messages by whatever calls, in any order, repeatedly or not at all. Then both have delivered a
beginning of `m 0, m 1, ...`, as long as their next expected number says, and one has delivered a
beginning of what the other has. -/
theorem delivered_isPrefix (m : ℤ → μ) (calls calls' : List (BroadcastCall μ))
    (h : ∀ call ∈ calls, call.message = m call.sequence)
    (h' : ∀ call ∈ calls', call.message = m call.sequence) :
    ((nodeAfter calls).delivered =
        (List.range (nodeAfter calls).delivered.length).map fun i : ℕ => m i) ∧
      ((nodeAfter calls').delivered =
        (List.range (nodeAfter calls').delivered.length).map fun i : ℕ => m i) ∧
      ((nodeAfter calls).delivered <+: (nodeAfter calls').delivered ∨
        (nodeAfter calls').delivered <+: (nodeAfter calls).delivered) ∧
      (nodeAfter calls).nextExpected = (nodeAfter calls).delivered.length ∧
      (nodeAfter calls').nextExpected = (nodeAfter calls').delivered.length := by
  have hnode := delivers_nodeAfter h
  have hnode' := delivers_nodeAfter h'
  refine ⟨hnode.delivered, hnode'.delivered, ?_, hnode.nextExpected, hnode'.nextExpected⟩
  exact (le_total _ _).imp (hnode.isPrefix hnode') (hnode'.isPrefix hnode)

/-- One node receives message 1 twice and then message 0, another is handed message 0 in order. -/
theorem delivered_isPrefix_two :
    (nodeAfter [.receive 1 1, .receive 1 1, .receive 0 (0 : ℤ)]).delivered <+:
        (nodeAfter [.deliverInOrder 0 (0 : ℤ)]).delivered ∨
      (nodeAfter [.deliverInOrder 0 (0 : ℤ)]).delivered <+:
        (nodeAfter [.receive 1 1, .receive 1 1, .receive 0 (0 : ℤ)]).delivered :=
  (delivered_isPrefix id [.receive 1 1, .receive 1 1, .receive 0 (0 : ℤ)]
    [.deliverInOrder 0 (0 : ℤ)] (by simp [BroadcastCall.message, BroadcastCall.sequence])
    (by simp [BroadcastCall.message, BroadcastCall.sequence])).2.2.1

/-! ## Nothing deliverable waits -/

/-- The next expected number is not in the buffer, and everything in the buffer is ahead of it. -/
def Prompt (s : AtomicBroadcast μ) : Prop :=
  s.buffer.get? s.nextExpected = none ∧ ∀ k x, s.buffer.get? k = some x → s.nextExpected < k

/-- A call that was not refused. -/
def Taken (answer : List μ ⊕ Except RelayError String) : Prop :=
  ∀ error, answer ≠ .inr (.error error)

/-- Every number that the node took is delivered or buffered. -/
structure HoldsTaken (past : List (BroadcastCall μ × (List μ ⊕ Except RelayError String)))
    (s : AtomicBroadcast μ) : Prop where
  nextExpected : s.nextExpected = s.delivered.length
  taken : ∀ e ∈ past, Taken e.2 → e.1.sequence < s.nextExpected ∨
    ∃ x, s.buffer.get? e.1.sequence = some x

theorem HoldsTaken.append {past : List (BroadcastCall μ × (List μ ⊕ Except RelayError String))}
    (h : HoldsTaken past s) {call : BroadcastCall μ} {answer : List μ ⊕ Except RelayError String}
    (hcall : Taken answer → call.sequence < s.nextExpected ∨
      ∃ x, s.buffer.get? call.sequence = some x) : HoldsTaken (past ++ [(call, answer)]) s where
  nextExpected := h.nextExpected
  taken e he htaken := by
    rcases List.mem_append.mp he with he | he
    · exact h.taken e he htaken
    · obtain rfl := List.mem_singleton.mp he
      exact hcall htaken

/-- Delivering the next expected message, with or without its entry in the buffer. -/
theorem HoldsTaken.next {past : List (BroadcastCall μ × (List μ ⊕ Except RelayError String))}
    (h : HoldsTaken past s) {buffer : Dict ℤ μ} {message : μ}
    (hbuffer : ∀ k, k ≠ s.nextExpected → buffer.get? k = s.buffer.get? k) :
    HoldsTaken past
      { nextExpected := s.nextExpected + 1, buffer, delivered := s.delivered ++ [message] } where
  nextExpected := by
    rw [List.length_append, h.nextExpected]
    rfl
  taken e he htaken := by
    show e.1.sequence < s.nextExpected + 1 ∨ ∃ x, buffer.get? e.1.sequence = some x
    by_cases hnext : e.1.sequence = s.nextExpected
    · exact Or.inl (by omega)
    · rw [hbuffer _ hnext]
      exact (h.taken e he htaken).imp_left fun hlt => hlt.trans (lt_add_one _)

theorem HoldsTaken.step {past : List (BroadcastCall μ × (List μ ⊕ Except RelayError String))}
    (h : HoldsTaken past s) {call : BroadcastCall μ} {answer : List μ ⊕ Except RelayError String}
    {s' : AtomicBroadcast μ} (hstep : BroadcastStep s call answer s') :
    HoldsTaken (past ++ [(call, answer)]) s' := by
  cases hstep with
  | duplicate behind => exact h.append fun _ => Or.inl behind
  | refuse => exact h.append fun htaken => absurd rfl (htaken _)
  | @buffer sequence message =>
    have hbuffer : HoldsTaken past { s with buffer := s.buffer.set sequence message } := by
      refine ⟨h.nextExpected, fun e he htaken => (h.taken e he htaken).imp_right ?_⟩
      rintro ⟨x, hx⟩
      rw [Dict.get?_set]
      split
      · exact ⟨message, rfl⟩
      · exact ⟨x, hx⟩
    refine (AtomicBroadcast.drain_induction (fun s x hs _ => ?_) _
      (hbuffer.append fun _ => Or.inr ⟨message, Dict.get?_set_self _ _ _⟩)).1
    exact hs.next fun k hk => by rw [Dict.get?_erase, if_neg hk]
  | deliver =>
    refine HoldsTaken.append (h.next fun _ _ => rfl) fun _ => Or.inl ?_
    exact lt_add_one _

theorem holdsTaken_nodeAfter (calls : List (BroadcastCall μ)) :
    HoldsTaken (atomicBroadcast.trace {} calls) (nodeAfter calls) := by
  refine Machine.trace_always (P := HoldsTaken) ⟨rfl, fun e he => absurd he List.not_mem_nil⟩ ?_
    calls
  exact fun past s call h => h.step (broadcastStep_step s call)

/-- A node that has nothing deliverable in its buffer has delivered what it took, as far as that
has no gap. -/
theorem HoldsTaken.le_length {past : List (BroadcastCall μ × (List μ ⊕ Except RelayError String))}
    (h : HoldsTaken past s) (hs : Prompt s) {n : ℕ}
    (hn : ∀ i : ℕ, i < n → ∃ e ∈ past, e.1.sequence = i ∧ Taken e.2) :
    n ≤ s.delivered.length := by
  by_contra hlt
  obtain ⟨e, he, hsequence, htaken⟩ := hn s.delivered.length (not_le.mp hlt)
  rw [← h.nextExpected] at hsequence
  -- the next expected number itself was taken, so it is delivered or buffered
  rcases h.taken e he htaken with hbehind | ⟨x, hx⟩
  · omega
  · rw [hsequence, hs.1] at hx
    cases hx

/-- The drain leaves nothing deliverable, if nothing in the buffer is behind. -/
theorem prompt_drain (h : ∀ k x, s.buffer.get? k = some x → s.nextExpected ≤ k) :
    Prompt s.drain.2 := by
  have hadvance : ∀ (s : AtomicBroadcast μ) (message : μ),
      (∀ k x, s.buffer.get? k = some x → s.nextExpected ≤ k) →
      s.buffer.get? s.nextExpected = some message →
      ∀ k x, (s.advance message).buffer.get? k = some x →
        (s.advance message).nextExpected ≤ k := by
    intro s _ hs _
    refine Dict.forall_get?_erase fun k x hne hk => ?_
    exact Int.add_one_le_of_lt (lt_of_le_of_ne (hs k x hk) (Ne.symm hne))
  obtain ⟨hle, hnone⟩ := AtomicBroadcast.drain_induction hadvance s h
  refine ⟨hnone, fun k x hk => lt_of_le_of_ne (hle k x hk) ?_⟩
  rintro rfl
  rw [hnone] at hk
  cases hk

/-- A node that sits on nothing deliverable keeps to that, unless it delivers past the buffer a
message whose successor is buffered. -/
theorem Prompt.step_iff (h : Prompt s) {call : BroadcastCall μ}
    {answer : List μ ⊕ Except RelayError String} {s' : AtomicBroadcast μ}
    (hstep : BroadcastStep s call answer s') :
    (∀ message, call = .deliverInOrder s.nextExpected message →
      s.buffer.get? (s.nextExpected + 1) = none) ↔ Prompt s' := by
  cases hstep with
  | duplicate => exact iff_of_true (fun _ hcall => by cases hcall) h
  | refuse skips =>
    refine iff_of_true (fun _ hcall => ?_) h
    cases hcall
    exact absurd rfl skips
  | @buffer sequence message _ ahead =>
    refine iff_of_true (fun _ hcall => by cases hcall) (prompt_drain ?_)
    exact Dict.forall_get?_set ahead fun k x _ hk => (h.2 k x hk).le
  | @deliver message =>
    constructor
    · intro hnone
      have hnone := hnone message rfl
      refine ⟨hnone, fun k x hk => lt_of_le_of_ne (Int.add_one_le_of_lt (h.2 k x hk)) ?_⟩
      rintro rfl
      rw [hnone] at hk
      cases hk
    · exact fun hprompt _ _ => hprompt.1

/-- **A node never sits on a deliverable message** in a run, after any of its calls, exactly when it
is never told to deliver in order a message whose successor is in its buffer. Sitting on nothing
means that the next expected number is not buffered, everything buffered is ahead of it, and
whatever the node took without a gap it has delivered. -/
theorem forall_prompt_iff (calls : List (BroadcastCall μ)) :
    (∀ past, past <+: calls → (nodeAfter past).buffer.get? (nodeAfter past).nextExpected = none ∧
        (∀ k x, (nodeAfter past).buffer.get? k = some x → (nodeAfter past).nextExpected < k) ∧
        ∀ n : ℕ, (∀ i : ℕ, i < n → ∃ e ∈ atomicBroadcast.trace {} past,
            e.1.sequence = i ∧ Taken e.2) → n ≤ (nodeAfter past).delivered.length) ↔
      atomicBroadcast.Guarded (fun s call => ∀ message,
        call = .deliverInOrder s.nextExpected message →
          s.buffer.get? (s.nextExpected + 1) = none) {} calls := by
  have hprompt : (∀ past, past <+: calls → Prompt (nodeAfter past)) ↔ _ :=
    (justified_iff_forall_past (B := fun past => Prompt (nodeAfter past))
      (A := fun past call => ∀ message,
        call = .deliverInOrder (nodeAfter past).nextExpected message →
          (nodeAfter past).buffer.get? ((nodeAfter past).nextExpected + 1) = none)
      ⟨rfl, fun k x hk => by cases hk⟩ fun past call _ h => ?_).symm
  · rw [atomicBroadcast.guarded_iff_justified]
    refine Iff.trans (forall_congr' fun past => imp_congr_right fun _ => ?_) hprompt
    refine ⟨fun h => ⟨h.1, h.2.1⟩, fun h => ⟨h.1, h.2, fun n hn => ?_⟩⟩
    exact (holdsTaken_nodeAfter past).le_length h hn
  · have hnode : nodeAfter (past ++ [call]) = (atomicBroadcast.step (nodeAfter past) call).2 :=
      atomicBroadcast.final_append_singleton _ past call
    rw [hnode]
    exact h.step_iff (broadcastStep_step _ call)

/-- Message 1 is buffered, then message 0 delivered in order: message 1 is the next expected one,
and stays in the buffer. -/
theorem get?_nextExpected_deliverInOrder :
    (nodeAfter [.receive 1 "b", .deliverInOrder 0 "a"]).buffer.get?
        (nodeAfter [.receive 1 "b", .deliverInOrder 0 "a"]).nextExpected = some "b" ∧
      (nodeAfter [.receive 1 "b", .deliverInOrder 0 "a"]).delivered = ["a"] := by
  have hdrain : AtomicBroadcast.drain { buffer := (∅ : Dict ℤ String).set 1 "b" } =
      ([], { buffer := (∅ : Dict ℤ String).set 1 "b" }) :=
    AtomicBroadcast.drain_of_get?_eq_none rfl
  have hnode : nodeAfter [.receive 1 "b", .deliverInOrder 0 "a"] =
      { nextExpected := 1, buffer := (∅ : Dict ℤ String).set 1 "b", delivered := ["a"] } := by
    simp [nodeAfter, atomicBroadcast, AtomicBroadcast.receive, hdrain,
      AtomicBroadcast.deliverInOrder]
  rw [hnode]
  exact ⟨rfl, rfl⟩

end Runs

end Relay
