import Mathlib.Data.Int.Order.Basic
import Relay.Idempotent

/-!
# Order under retries, and exactly once

## Within one session

Between two openings of a producer's session the accepted sequences are `0`, `1`, `2`, and so on,
whatever epochs the requests carry and however they are lost, repeated and reordered, and a
duplicate is answered with the offset its sequence got (`admit_inOrder`).

## Across sessions

Exactly-once over all runs is more than the gate keeps. Opening a session again at the epoch it
has replaces a session that remembers by one that does not, and a request whose epoch is ahead of
the session's is answered by the session it finds. `exactlyOnce_of_guarded` says that nothing else
goes wrong: runs without these two keep the promise. `exists_not_exactlyOnce` says that either of
them breaks it, at once or with one more call.

## Scope

The runs of the source that this is about are on fixed inputs. They are left out, and the statement
is about every run.

## Main definitions

* `InOrder`: what a span between two openings of a session promises
* `ExactlyOnce`: what a run promises if every call meets `SafeCall`
-/

namespace Relay

/-! ## Order under retries -/

/-- What holds in the calls made after a producer opened its session. -/
structure InOrder (producerId : String) (gate : IdempotencyGate) (calls : List GateCall) :
    Prop where
  /-- The producer's accepted sequences are `0`, `1`, `2`, and so on, in this order. -/
  counts_sequences : Counts
    ((landed (fun stamp => stamp.producerId = producerId) (gateMachine.trace gate calls)).map
      Prod.fst)
  /-- A call that raises leaves the producer's session alone. -/
  refused_unchanged : ∀ past call future, calls = past ++ call :: future →
    (gateMachine.step (gateMachine.final gate past) call).1.Refused →
      (gateMachine.final gate (past ++ [call])).sessions.get? producerId =
        (gateMachine.final gate past).sessions.get? producerId
  /-- A duplicate is answered with the offset that the call which accepted this sequence passed. -/
  duplicate_quotes : Justified
    (fun past event => ∀ x ∈ duplication event, x.1.producerId = producerId →
      (x.1.sequence, x.2) ∈ landed (fun stamp => stamp.producerId = producerId) past)
    (gateMachine.trace gate calls)

/-- The producer's session remembers exactly what it was sent since it was opened. -/
structure Span (producerId : String) (past : List (GateCall × GateAnswer))
    (gate : IdempotencyGate) : Prop where
  memory : ∃ session offsets, gate.sessions.get? producerId = some session ∧
    Remembers session offsets ∧
      landed (fun stamp => stamp.producerId = producerId) past = numbered offsets
  quotes : Justified
    (fun past event => ∀ x ∈ duplication event, x.1.producerId = producerId →
      (x.1.sequence, x.2) ∈ landed (fun stamp => stamp.producerId = producerId) past) past

theorem Span.step {producerId : String} {past : List (GateCall × GateAnswer)}
    {gate gate' : IdempotencyGate} {call : GateCall} {answer : GateAnswer}
    (hspan : Span producerId past gate) (hstep : GateStep gate call answer gate')
    (hopen : opening (call, answer) ≠ some producerId) :
    Span producerId (past ++ [(call, answer)]) gate' := by
  obtain ⟨⟨session, offsets, hheld, hmem, hlanded⟩, hquotes⟩ := hspan
  cases hstep with
  | refused hrefused =>
    refine ⟨⟨session, offsets, hheld, hmem, ?_⟩, justified_append_singleton.mpr ⟨hquotes, ?_⟩⟩
    · rw [landed_append_of_none (acceptance_of_refused hrefused), hlanded]
    · rw [duplication_of_refused hrefused]
      exact fun x hx => absurd hx (Option.not_mem_none x)
  | @opened other epoch hepoch =>
    have hne : producerId ≠ other := fun heq => hopen (congrArg some heq.symm)
    refine ⟨⟨session, offsets, ?_, hmem, hlanded ▸ landed_append_of_none rfl⟩,
      justified_append_singleton.mpr ⟨hquotes, fun x hx => absurd hx (Option.not_mem_none x)⟩⟩
    rw [IdempotencyGate.sessions_setSession, Dict.get?_set_of_ne _ _ hne, hheld]
  | @duplicate other epoch sequence assignOffset landedAt held hother hepoch hfound =>
    refine ⟨⟨session, offsets, hheld, hmem, hlanded ▸ landed_append_of_none rfl⟩,
      justified_append_singleton.mpr ⟨hquotes, ?_⟩⟩
    rintro x hx rfl
    obtain rfl := Option.some.inj hx
    obtain rfl : session = held := Option.some.inj (hheld.symm.trans hother)
    rw [hlanded]
    exact hmem.get?_eq_some_iff.mp hfound
  | @accepted other epoch assignOffset held hother hepoch =>
    refine ⟨?_, justified_append_singleton.mpr
      ⟨hquotes, fun x hx => absurd hx (Option.not_mem_none x)⟩⟩
    by_cases hsame : other = producerId
    · subst hsame
      obtain rfl : session = held := Option.some.inj (hheld.symm.trans hother)
      refine ⟨_, offsets ++ [assignOffset], Dict.get?_set_self _ _ _, hmem.accept assignOffset, ?_⟩
      rw [landed_append_of_keep rfl (decide_eq_true rfl), hlanded, numbered_append_singleton]
      have hlast : session.lastSequence + 1 = offsets.length := by
        rw [hmem.lastSequence_eq]; omega
      rw [hlast]
    · refine ⟨session, offsets, ?_, hmem, ?_⟩
      · rw [IdempotencyGate.sessions_setSession, Dict.get?_set_of_ne _ _ (Ne.symm hsame), hheld]
      · rw [landed_append_of_not rfl (decide_eq_false hsame), hlanded]

/-- **Idempotence buys order under retries.** Whatever was done to the gate before, once a
producer has opened its session, and until it opens one again, its accepted sequences are gapless
and in order, refusals leave its session alone, and duplicates are answered with the offset of
the acceptance. -/
theorem admit_inOrder (gate : IdempotencyGate) (producerId : String) (epoch : ℤ)
    (calls : List GateCall)
    (hopened : ∃ session, (gate.openSession producerId epoch).1 = .ok session)
    (hspan : ∀ event ∈ gateMachine.trace (gate.openSession producerId epoch).2 calls,
      opening event ≠ some producerId) :
    InOrder producerId (gate.openSession producerId epoch).2 calls := by
  have hspan : Span producerId (gateMachine.trace (gate.openSession producerId epoch).2 calls)
      (gateMachine.final (gate.openSession producerId epoch).2 calls) := by
    refine Machine.trace_induction_of
      (R := fun gate call answer gate' =>
        GateStep gate call answer gate' ∧ opening (call, answer) ≠ some producerId)
      (fun gate call hopen => ⟨gateStep gate call, hopen⟩) ?_
      (fun past gate call answer gate' h hstep => h.step hstep.1 hstep.2)
      (gateMachine.guarded_iff_forall_mem_trace.mpr hspan)
    obtain ⟨session, hsession⟩ := hopened
    exact ⟨⟨{ producerId, epoch }, [], IdempotencyGate.get?_openSession hsession,
      remembers_nil producerId epoch, rfl⟩, justified_nil _⟩
  obtain ⟨session, offsets, -, -, hlanded⟩ := hspan.memory
  constructor
  case counts_sequences => rw [hlanded]; exact counts_map_fst_numbered offsets
  case refused_unchanged =>
    intro past call future hcalls hrefused
    rw [Machine.final_append_singleton]
    exact congrArg (·.sessions.get? producerId) ((gateStep _ call).eq_of_refused hrefused)
  case duplicate_quotes => exact hspan.quotes

/-- Two producers over a wire that repeats and reorders. The record `2` of `p` overtakes `1` and
is refused, `1` arrives twice, and `2` is accepted under an epoch ahead of the session's. -/
theorem admit_inOrder_retries :
    InOrder "p" (({} : IdempotencyGate).openSession "p" 1).2
      [.admitRequest "p" 1 0 100, .openSession "q" 4, .admitRequest "p" 1 2 101,
        .admitRequest "p" 1 1 101, .admitRequest "q" 4 0 102, .admitRequest "p" 1 1 103,
        .admitRequest "p" 2 2 103, .admitRequest "p" 1 2 104] :=
  admit_inOrder {} "p" 1 _ ⟨_, rfl⟩ (by decide)

/-! ## Exactly once -/

/-- Each record is accepted at most once, and a duplicate is answered with the offset at which
that record was accepted before. -/
structure ExactlyOnce (past : List (GateCall × GateAnswer)) : Prop where
  nodup : ((accepted past).map Prod.fst).Nodup
  quotes : Justified (fun past event => ∀ x ∈ duplication event, x ∈ accepted past) past

/-- An event that accepts nothing, and answers no duplicate that was not accepted. -/
theorem ExactlyOnce.append_of_none {past : List (GateCall × GateAnswer)}
    {event : GateCall × GateAnswer} (h : ExactlyOnce past) (hnone : acceptance event = none)
    (hquotes : ∀ x ∈ duplication event, x ∈ accepted past) : ExactlyOnce (past ++ [event]) := by
  refine ⟨?_, justified_append_singleton.mpr ⟨h.quotes, hquotes⟩⟩
  rw [accepted_append_of_none hnone]
  exact h.nodup

/-- A call that does not open a session again at the epoch it has, unless nothing was accepted
there, and does not reach ahead of the session's epoch with a sequence the session would answer. -/
def SafeCall (gate : IdempotencyGate) : GateCall → Prop
  | .openSession producerId epoch => ∀ held ∈ gate.sessions.get? producerId,
      held.epoch = epoch → held.lastSequence = -1
  | .admitRequest producerId epoch sequence _ => ∀ held ∈ gate.sessions.get? producerId,
      held.epoch < epoch → sequence < 0 ∨ held.lastSequence + 1 < sequence

instance (gate : IdempotencyGate) : (call : GateCall) → Decidable (SafeCall gate call)
  | .openSession producerId epoch => inferInstanceAs (Decidable (∀ held ∈
      gate.sessions.get? producerId, held.epoch = epoch → held.lastSequence = -1))
  | .admitRequest producerId epoch sequence _ => inferInstanceAs (Decidable (∀ held ∈
      gate.sessions.get? producerId,
        held.epoch < epoch → sequence < 0 ∨ held.lastSequence + 1 < sequence))

/-- Accepted under this producer id and this epoch. -/
def ofSession (producerId : String) (epoch : ℤ) (stamp : Stamp) : Bool :=
  stamp.producerId = producerId && stamp.epoch = epoch

/-- Every session remembers exactly what was accepted under its epoch, and nothing was accepted
under a later one. -/
structure Sound (past : List (GateCall × GateAnswer)) (gate : IdempotencyGate) : Prop where
  epoch_le : ∀ x ∈ accepted past,
    ∃ session, gate.sessions.get? x.1.producerId = some session ∧ x.1.epoch ≤ session.epoch
  memory : ∀ producerId session, gate.sessions.get? producerId = some session →
    ∃ offsets, Remembers session offsets ∧
      landed (ofSession producerId session.epoch) past = numbered offsets
  exactlyOnce : ExactlyOnce past

theorem mem_landed_ofSession {producerId : String} {epoch sequence offset : ℤ}
    {past : List (GateCall × GateAnswer)} :
    (sequence, offset) ∈ landed (ofSession producerId epoch) past ↔
      (⟨producerId, epoch, sequence⟩, offset) ∈ accepted past := by
  simp [mem_landed, ofSession]

section Step

variable {past : List (GateCall × GateAnswer)} {gate : IdempotencyGate} {producerId : String}
  {epoch : ℤ}

/-- An event that accepts nothing and leaves the sessions alone. -/
theorem Sound.append_of_none (h : Sound past gate) {event : GateCall × GateAnswer}
    {gate' : IdempotencyGate} (hsessions : gate'.sessions = gate.sessions)
    (hnone : acceptance event = none) (hquotes : ∀ x ∈ duplication event, x ∈ accepted past) :
    Sound (past ++ [event]) gate' := by
  constructor
  case epoch_le =>
    rw [accepted_append_of_none hnone, hsessions]
    exact h.epoch_le
  case memory =>
    intro other session hget
    rw [hsessions] at hget
    rw [landed_append_of_none hnone]
    exact h.memory other session hget
  case exactlyOnce => exact h.exactlyOnce.append_of_none hnone hquotes

/-- Nothing has been accepted under the epoch of a session that may be opened. -/
theorem Sound.landed_eq_nil (h : Sound past gate)
    (hepoch : ∀ held ∈ gate.sessions.get? producerId, held.epoch ≤ epoch)
    (hsafe : SafeCall gate (.openSession producerId epoch)) :
    landed (ofSession producerId epoch) past = [] := by
  rw [List.eq_nil_iff_forall_not_mem]
  rintro ⟨sequence, offset⟩ hmem
  obtain ⟨held, hheld, hle⟩ := h.epoch_le _ (mem_landed_ofSession.mp hmem)
  obtain rfl : held.epoch = epoch := le_antisymm (hepoch held hheld) hle
  obtain ⟨offsets, hmemory, hlanded⟩ := h.memory producerId held hheld
  rw [hlanded] at hmem
  have hlt := hmemory.lt_of_mem hmem
  have hlast := hsafe held hheld rfl
  omega

theorem Sound.opened (h : Sound past gate)
    (hepoch : ∀ held ∈ gate.sessions.get? producerId, held.epoch ≤ epoch)
    (hsafe : SafeCall gate (.openSession producerId epoch)) :
    Sound (past ++ [(.openSession producerId epoch, .openSession (.ok { producerId, epoch }))])
      (gate.setSession producerId { producerId, epoch }) := by
  constructor
  case epoch_le =>
    rw [accepted_append_of_none rfl]
    intro x hx
    obtain ⟨held, hheld, hle⟩ := h.epoch_le x hx
    by_cases hsame : x.1.producerId = producerId
    · rw [hsame] at hheld ⊢
      exact ⟨_, Dict.get?_set_self _ _ _, hle.trans (hepoch held hheld)⟩
    · refine ⟨held, ?_, hle⟩
      rw [IdempotencyGate.sessions_setSession, Dict.get?_set_of_ne _ _ hsame, hheld]
  case memory =>
    rw [IdempotencyGate.sessions_setSession]
    refine Dict.forall_get?_set ?_ fun other session _ hget => ?_
    · rw [landed_append_of_none rfl]
      exact ⟨[], remembers_nil producerId epoch, h.landed_eq_nil hepoch hsafe⟩
    · rw [landed_append_of_none rfl]
      exact h.memory other session hget
  case exactlyOnce =>
    exact h.exactlyOnce.append_of_none rfl fun x hx => absurd hx (Option.not_mem_none x)

/-- A session that answers a safe request, from memory or by accepting it, has the epoch of the
request. -/
theorem SafeCall.epoch_eq {session : ProducerSession} {sequence assignOffset : ℤ}
    (hsafe : SafeCall gate (.admitRequest producerId epoch sequence assignOffset))
    (hheld : gate.sessions.get? producerId = some session) (hepoch : session.epoch ≤ epoch)
    (hnonneg : 0 ≤ sequence) (hle : sequence ≤ session.lastSequence + 1) :
    session.epoch = epoch := by
  rcases hepoch.lt_or_eq with hlt | heq
  · rcases hsafe session hheld hlt with hneg | hgt <;> omega
  · exact heq

theorem Sound.duplicate (h : Sound past gate) {session : ProducerSession}
    {sequence assignOffset landedAt : ℤ}
    (hheld : gate.sessions.get? producerId = some session) (hepoch : session.epoch ≤ epoch)
    (hfound : session.acceptedOffsets.get? sequence = some landedAt)
    (hsafe : SafeCall gate (.admitRequest producerId epoch sequence assignOffset)) :
    Sound (past ++ [(.admitRequest producerId epoch sequence assignOffset,
        .admitRequest (.ok (.duplicate sequence landedAt)))])
      { gate with duplicatesAbsorbed := gate.duplicatesAbsorbed + 1 } := by
  obtain ⟨offsets, hmemory, hlanded⟩ := h.memory producerId session hheld
  have hmem := hmemory.get?_eq_some_iff.mp hfound
  have hlt := hmemory.lt_of_mem hmem
  obtain rfl := hsafe.epoch_eq hheld hepoch hlt.1 (by omega)
  rw [← hlanded, mem_landed_ofSession] at hmem
  refine h.append_of_none rfl rfl fun x hx => ?_
  exact Option.some.inj hx ▸ hmem

/-- The session's next sequence has not been accepted under its epoch. -/
theorem Sound.next_notMem (h : Sound past gate) {session : ProducerSession}
    (hheld : gate.sessions.get? producerId = some session) :
    (⟨producerId, session.epoch, session.lastSequence + 1⟩ : Stamp) ∉
      (accepted past).map Prod.fst := by
  intro hstamp
  obtain ⟨offsets, hmemory, hlanded⟩ := h.memory producerId session hheld
  obtain ⟨⟨_, offset⟩, hmem, rfl⟩ := List.mem_map.mp hstamp
  -- the session would remember a sequence past its last
  rw [← mem_landed_ofSession, hlanded] at hmem
  have hlt := hmemory.lt_of_mem hmem
  omega

theorem Sound.accept (h : Sound past gate) {session : ProducerSession} {assignOffset : ℤ}
    (hheld : gate.sessions.get? producerId = some session) (hepoch : session.epoch ≤ epoch)
    (hsafe :
      SafeCall gate (.admitRequest producerId epoch (session.lastSequence + 1) assignOffset)) :
    Sound (past ++ [(.admitRequest producerId epoch (session.lastSequence + 1) assignOffset,
        .admitRequest (.ok (.accepted (session.lastSequence + 1) assignOffset)))])
      (gate.setSession producerId (session.accept (session.lastSequence + 1) assignOffset)) := by
  obtain ⟨offsets, hmemory, hlanded⟩ := h.memory producerId session hheld
  have hlast : session.lastSequence + 1 = offsets.length := by rw [hmemory.lastSequence_eq]; omega
  obtain rfl := hsafe.epoch_eq hheld hepoch (by omega) le_rfl
  constructor
  case epoch_le =>
    rw [accepted_append_of_some rfl]
    intro x hx
    by_cases hsame : x.1.producerId = producerId
    · rw [hsame]
      refine ⟨_, Dict.get?_set_self _ _ _, ?_⟩
      rcases List.mem_append.mp hx with hx | hx
      · obtain ⟨held, hget, hle⟩ := h.epoch_le x hx
        obtain rfl : session = held := Option.some.inj (hheld.symm.trans (hsame ▸ hget))
        exact hle
      · rw [List.mem_singleton.mp hx, ProducerSession.epoch_accept]
    · rcases List.mem_append.mp hx with hx | hx
      · obtain ⟨held, hget, hle⟩ := h.epoch_le x hx
        refine ⟨held, ?_, hle⟩
        rw [IdempotencyGate.sessions_setSession, Dict.get?_set_of_ne _ _ hsame, hget]
      · exact absurd (List.mem_singleton.mp hx ▸ rfl) hsame
  case memory =>
    rw [IdempotencyGate.sessions_setSession]
    refine Dict.forall_get?_set ?_ fun other held hne hget => ?_
    · refine ⟨offsets ++ [assignOffset], hmemory.accept assignOffset, ?_⟩
      rw [ProducerSession.epoch_accept, landed_append_of_keep rfl (by simp [ofSession]), hlanded,
        numbered_append_singleton, hlast]
    · rw [landed_append_of_not rfl (by simp [ofSession, Ne.symm hne])]
      exact h.memory other held hget
  case exactlyOnce =>
    refine ⟨?_, justified_append_singleton.mpr
      ⟨h.exactlyOnce.quotes, fun x hx => absurd hx (Option.not_mem_none x)⟩⟩
    rw [accepted_append_of_some rfl, List.map_append, List.map_singleton]
    refine List.nodup_append.mpr ⟨h.exactlyOnce.nodup, List.nodup_singleton _, ?_⟩
    rintro stamp hstamp _ hnew rfl
    rw [List.mem_singleton.mp hnew] at hstamp
    exact h.next_notMem hheld hstamp

end Step

/-- One safe call keeps the promise. -/
theorem Sound.step {past : List (GateCall × GateAnswer)} {gate gate' : IdempotencyGate}
    {call : GateCall} {answer : GateAnswer} (h : Sound past gate)
    (hstep : GateStep gate call answer gate') (hsafe : SafeCall gate call) :
    Sound (past ++ [(call, answer)]) gate' := by
  cases hstep with
  | refused hrefused =>
    refine h.append_of_none rfl (acceptance_of_refused hrefused) ?_
    rw [duplication_of_refused hrefused]
    exact fun x hx => absurd hx (Option.not_mem_none x)
  | opened hepoch => exact h.opened hepoch hsafe
  | duplicate hheld hepoch hfound => exact h.duplicate hheld hepoch hfound hsafe
  | accepted hheld hepoch => exact h.accept hheld hepoch hsafe

theorem sound_of_guarded {calls : List GateCall} (h : gateMachine.Guarded SafeCall {} calls) :
    Sound (gateMachine.trace {} calls) (gateMachine.final {} calls) :=
  Machine.trace_induction_of
    (R := fun gate call answer gate' => GateStep gate call answer gate' ∧ SafeCall gate call)
    (fun gate call hsafe => ⟨gateStep gate call, hsafe⟩)
    ⟨by simp [accepted], by simp, ⟨List.nodup_nil, justified_nil _⟩⟩
    (fun _ _ _ _ _ hsound hstep => hsound.step hstep.1 hstep.2) h

/-- **Exactly once.** In every run of a fresh gate whose calls are all safe, each record is
accepted at most once, and duplicates are answered with the offset of the acceptance. -/
theorem exactlyOnce_of_guarded (calls : List GateCall)
    (h : gateMachine.Guarded SafeCall {} calls) : ExactlyOnce (gateMachine.trace {} calls) :=
  (sound_of_guarded h).exactlyOnce

/-- A producer that restarts under a new epoch, and whose delayed retries from before are
fenced. -/
theorem exactlyOnce_of_guarded_restart :
    ExactlyOnce (gateMachine.trace {} [.openSession "p" 1, .admitRequest "p" 1 0 100,
      .admitRequest "p" 1 0 101, .openSession "p" 2, .admitRequest "p" 1 0 101,
      .admitRequest "p" 2 0 101, .admitRequest "p" 1 1 102, .admitRequest "p" 2 0 102]) :=
  exactlyOnce_of_guarded _ (by decide)

/-- Opening the session again at the epoch it has: the first record is accepted, and written, a
second time. -/
theorem not_exactlyOnce_reopened :
    ¬ ExactlyOnce (gateMachine.trace {} [.openSession "p" 1, .admitRequest "p" 1 0 100,
      .openSession "p" 1, .admitRequest "p" 1 0 200]) :=
  fun h => absurd h.nodup (by decide)

/-! ### Both kinds of unsafe call break the promise -/

section Unsafe

variable {past : List (GateCall × GateAnswer)} {gate : IdempotencyGate} {producerId : String}
  {session : ProducerSession}

/-- A session that is opened again at its epoch accepts its first record again. -/
theorem Sound.exists_of_reopened (h : Sound past gate)
    (hheld : gate.sessions.get? producerId = some session) (hlast : session.lastSequence ≠ -1) :
    ∃ more, ¬ ExactlyOnce
      (past ++ gateMachine.trace gate (.openSession producerId session.epoch :: more)) := by
  obtain ⟨offsets, hmemory, hlanded⟩ := h.memory producerId session hheld
  have hpos : 0 < offsets.length := by
    have := hmemory.lastSequence_eq
    omega
  have hmem : ((0 : ℤ), offsets[0]) ∈ numbered offsets :=
    mem_numbered.mpr ⟨le_rfl, List.getElem?_eq_getElem hpos⟩
  rw [← hlanded, mem_landed_ofSession] at hmem
  have hfresh : (gate.setSession producerId ⟨producerId, session.epoch, -1, ∅⟩).sessions.get?
      producerId = some ⟨producerId, session.epoch, -1, ∅⟩ := Dict.get?_set_self _ _ _
  have hagain := step_admit_next hfresh (Int.le_refl session.epoch) (rfl : (0 : ℤ) = -1 + 1) 0
  refine ⟨[.admitRequest producerId session.epoch 0 0], fun honce => ?_⟩
  rw [Machine.trace_cons, step_openSession hheld le_rfl, Machine.trace_cons, Machine.trace_nil,
    hagain] at honce
  have hnodup := honce.nodup
  rw [accepted, List.filterMap_append, List.map_append] at hnodup
  exact (List.nodup_append.mp hnodup).2.2 _ (List.mem_map_of_mem hmem) _ List.mem_cons_self rfl

/-- A record the session answers under an epoch ahead of its own: as a duplicate it was never
accepted, and once accepted its retry under the session's epoch is a duplicate that never was. -/
theorem Sound.exists_of_ahead (h : Sound past gate)
    (hheld : gate.sessions.get? producerId = some session) {epoch sequence assignOffset : ℤ}
    (hahead : session.epoch < epoch) (hnonneg : 0 ≤ sequence)
    (hle : sequence ≤ session.lastSequence + 1) :
    ∃ more, ¬ ExactlyOnce (past ++
      gateMachine.trace gate (.admitRequest producerId epoch sequence assignOffset :: more)) := by
  obtain ⟨offsets, hmemory, hlanded⟩ := h.memory producerId session hheld
  have hlength := hmemory.lastSequence_eq
  rcases hle.lt_or_eq with hlt | rfl
  · -- the session remembers the sequence, but from its own epoch
    obtain ⟨landedAt, hget⟩ : ∃ landedAt, offsets[sequence.toNat]? = some landedAt :=
      ⟨_, List.getElem?_eq_getElem (by omega)⟩
    have hfound := hmemory.get?_eq_some_iff.mpr (mem_numbered.mpr ⟨hnonneg, hget⟩)
    refine ⟨[], fun honce => ?_⟩
    rw [Machine.trace_cons, step_admit_landed hheld hahead.le (by omega) hfound,
      Machine.trace_nil] at honce
    have hquoted := (justified_append_singleton.mp honce.quotes).2 _ rfl
    obtain ⟨held, hget, hepoch⟩ := h.epoch_le _ hquoted
    obtain rfl : session = held := Option.some.inj (hheld.symm.trans hget)
    exact absurd hepoch (not_le.mpr hahead)
  · have hheld' : (gate.setSession producerId
        (session.accept (session.lastSequence + 1) assignOffset)).sessions.get? producerId =
      some (session.accept (session.lastSequence + 1) assignOffset) := Dict.get?_set_self _ _ _
    have hretry := step_admit_landed hheld' (Int.le_refl session.epoch)
      (Int.le_refl (session.lastSequence + 1)) (Dict.get?_set_self _ _ _) 0
    refine ⟨[.admitRequest producerId session.epoch (session.lastSequence + 1) 0], fun honce => ?_⟩
    rw [Machine.trace_cons, step_admit_next hheld hahead.le rfl, Machine.trace_cons,
      Machine.trace_nil, hretry, ← List.singleton_append, ← List.append_assoc] at honce
    have hquoted := (justified_append_singleton.mp honce.quotes).2 _ rfl
    rw [accepted_append_of_some rfl, List.mem_append, List.mem_singleton] at hquoted
    rcases hquoted with hquoted | hquoted
    · rw [← mem_landed_ofSession, hlanded] at hquoted
      have := hmemory.lt_of_mem hquoted
      omega
    · have hepoch : session.epoch = epoch := congrArg (·.1.epoch) hquoted
      exact absurd hepoch hahead.ne

end Unsafe

/-- **The condition is exact.** After any safe run, a call that is not safe breaks the promise at
once or with one more call. -/
theorem exists_not_exactlyOnce (calls : List GateCall) (call : GateCall)
    (h : gateMachine.Guarded SafeCall {} calls)
    (hbreaks : ¬ SafeCall (gateMachine.final {} calls) call) :
    ∃ more, ¬ ExactlyOnce (gateMachine.trace {} (calls ++ call :: more)) := by
  have hsound := sound_of_guarded h
  simp only [Machine.trace_append]
  cases call with
  | openSession producerId epoch =>
    simp only [SafeCall, not_forall, exists_prop] at hbreaks
    obtain ⟨session, hheld, rfl, hlast⟩ := hbreaks
    exact hsound.exists_of_reopened hheld hlast
  | admitRequest producerId epoch sequence assignOffset =>
    simp only [SafeCall, not_forall, not_or, not_lt, exists_prop] at hbreaks
    obtain ⟨session, hheld, hahead, hnonneg, hle⟩ := hbreaks
    exact hsound.exists_of_ahead hheld hahead hnonneg hle

end Relay
