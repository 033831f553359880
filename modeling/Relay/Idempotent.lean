import Relay.Errors
import Relay.Lib.Dict
import Relay.Lib.Machine
import Relay.Lib.OffsetLog

/-!
# Idempotent producers

A producer opens a session with an epoch, and the gate remembers for each session the last
sequence it accepted and the offset every accepted sequence got. A retry is answered with the
original offset, a gap is refused, and an epoch behind the session's is fenced.

What one call can do is said once, by `GateStep`. What the memory of a session says is
`Remembers`: it is the list of the offsets the session has given out, numbered from zero.

## Scope

The summary of the sessions is left out.

## Main definitions

* `ProducerSession`, `IdempotencyGate`, with `openSession` and `admitRequest`
* `GateStep`: what one call to a gate can do
* `Remembers`: what a session's memory says
* `accepted`, `landed`: what a run of calls accepted
-/

namespace Relay

/-- What the gate remembers about one producer. -/
structure ProducerSession where
  producerId : String
  epoch : ℤ
  lastSequence : ℤ := -1
  acceptedOffsets : Dict ℤ ℤ := ∅
  deriving DecidableEq

/-- The session once it has accepted a sequence. -/
def ProducerSession.accept (session : ProducerSession) (sequence assignOffset : ℤ) :
    ProducerSession :=
  { session with
    lastSequence := sequence
    acceptedOffsets := session.acceptedOffsets.set sequence assignOffset }

@[simp] theorem ProducerSession.epoch_accept (session : ProducerSession)
    (sequence assignOffset : ℤ) : (session.accept sequence assignOffset).epoch = session.epoch :=
  rfl

/-- The answers of `admitRequest` that are not refusals. -/
inductive Admission where
  | duplicate (sequence landedAt : ℤ)
  | accepted (sequence assignOffset : ℤ)
  deriving DecidableEq

/-- What the producer is told. -/
def Admission.text : Admission → String
  | .duplicate sequence landedAt => s!"duplicate: sequence {sequence} already "
      ++ s!"landed at offset {landedAt}, answered with the original, not appended again"
  | .accepted sequence assignOffset => s!"accepted sequence {sequence} at offset {assignOffset}"

/-- The sessions by producer id. -/
structure IdempotencyGate where
  sessions : Dict String ProducerSession := ∅
  duplicatesAbsorbed : ℕ := 0
  deriving DecidableEq

namespace IdempotencyGate

/-- Assign the session a producer holds. -/
def setSession (gate : IdempotencyGate) (producerId : String) (session : ProducerSession) :
    IdempotencyGate :=
  { gate with sessions := gate.sessions.set producerId session }

@[simp] theorem sessions_setSession (gate : IdempotencyGate) (producerId : String)
    (session : ProducerSession) :
    (gate.setSession producerId session).sessions = gate.sessions.set producerId session := rfl

/-- `open_session`: any session the producer held is replaced, unless the epoch goes back. -/
def openSession (gate : IdempotencyGate) (producerId : String) (epoch : ℤ) :
    Except RelayError ProducerSession × IdempotencyGate :=
  let session : ProducerSession := { producerId, epoch }
  match gate.sessions.get? producerId with
  | some held =>
    if epoch < held.epoch then
      (.error (.fenced (s!"{producerId} opened epoch {epoch} behind the "
        ++ s!"current {held.epoch}; a zombie producer "
        ++ "resuming after a partition is refused before it can duplicate")), gate)
    else (.ok session, gate.setSession producerId session)
  | none => (.ok session, gate.setSession producerId session)

/-- `admit`: the session recognises a retry, refuses a gap, or accepts the next sequence. -/
def admitRequest (gate : IdempotencyGate) (producerId : String) (epoch sequence assignOffset : ℤ) :
    Except RelayError Admission × IdempotencyGate :=
  match gate.sessions.get? producerId with
  | none =>
    (.error (.invalid s!"{producerId} has no open session; register before producing"), gate)
  | some session =>
    if epoch < session.epoch then
      (.error (.fenced s!"{producerId} epoch {epoch} is fenced by {session.epoch}"), gate)
    else if sequence ≤ session.lastSequence then
      match session.acceptedOffsets.get? sequence with
      | some landedAt =>
        (.ok (.duplicate sequence landedAt),
          { gate with duplicatesAbsorbed := gate.duplicatesAbsorbed + 1 })
      | none =>
        (.error (.invalid (s!"sequence {sequence} is below the last "
          ++ s!"accepted {session.lastSequence} and was "
          ++ "never seen; this is a producer bug, not a retry")), gate)
    else if sequence ≠ session.lastSequence + 1 then
      (.error (.invalid (s!"sequence gap: expected {session.lastSequence + 1}, got {sequence}; "
        ++ "a record was lost in flight and accepting this "
        ++ "one would leave a hole the producer cannot see")), gate)
    else
      (.ok (.accepted sequence assignOffset),
        gate.setSession producerId (session.accept sequence assignOffset))

end IdempotencyGate

/-- The calls a gate takes. -/
inductive GateCall where
  | openSession (producerId : String) (epoch : ℤ)
  | admitRequest (producerId : String) (epoch sequence assignOffset : ℤ)
  deriving DecidableEq

/-- Its answers. -/
inductive GateAnswer where
  | openSession (answer : Except RelayError ProducerSession)
  | admitRequest (answer : Except RelayError Admission)
  deriving DecidableEq

/-- The gate as a component. -/
def gateMachine : Machine IdempotencyGate GateCall GateAnswer where
  step gate
    | .openSession producerId epoch =>
      let result := gate.openSession producerId epoch
      (.openSession result.1, result.2)
    | .admitRequest producerId epoch sequence assignOffset =>
      let result := gate.admitRequest producerId epoch sequence assignOffset
      (.admitRequest result.1, result.2)

/-- The call raised. -/
def GateAnswer.Refused : GateAnswer → Prop
  | .openSession answer => ∃ e, answer = .error e
  | .admitRequest answer => ∃ e, answer = .error e

/-- What one call to a gate can do. -/
inductive GateStep (gate : IdempotencyGate) : GateCall → GateAnswer → IdempotencyGate → Prop
  /-- Refuse, and change nothing. -/
  | refused {call : GateCall} {answer : GateAnswer} (hrefused : answer.Refused) :
      GateStep gate call answer gate
  /-- Replace the producer's session by a fresh one, at no lower epoch. -/
  | opened {producerId : String} {epoch : ℤ}
      (hepoch : ∀ held ∈ gate.sessions.get? producerId, held.epoch ≤ epoch) :
      GateStep gate (.openSession producerId epoch) (.openSession (.ok { producerId, epoch }))
        (gate.setSession producerId { producerId, epoch })
  /-- Answer a retry from memory. -/
  | duplicate {producerId : String} {epoch sequence assignOffset landedAt : ℤ}
      {session : ProducerSession} (hheld : gate.sessions.get? producerId = some session)
      (hepoch : session.epoch ≤ epoch)
      (hlanded : session.acceptedOffsets.get? sequence = some landedAt) :
      GateStep gate (.admitRequest producerId epoch sequence assignOffset)
        (.admitRequest (.ok (.duplicate sequence landedAt)))
        { gate with duplicatesAbsorbed := gate.duplicatesAbsorbed + 1 }
  /-- Accept the next sequence of the session. -/
  | accepted {producerId : String} {epoch assignOffset : ℤ} {session : ProducerSession}
      (hheld : gate.sessions.get? producerId = some session) (hepoch : session.epoch ≤ epoch) :
      GateStep gate (.admitRequest producerId epoch (session.lastSequence + 1) assignOffset)
        (.admitRequest (.ok (.accepted (session.lastSequence + 1) assignOffset)))
        (gate.setSession producerId (session.accept (session.lastSequence + 1) assignOffset))

/-- The calls of the gate are such steps. -/
theorem gateStep (gate : IdempotencyGate) (call : GateCall) :
    GateStep gate call (gateMachine.step gate call).1 (gateMachine.step gate call).2 := by
  cases call with
  | openSession producerId epoch =>
    simp only [gateMachine, IdempotencyGate.openSession]
    split
    · next held hheld =>
      split
      · exact .refused ⟨_, rfl⟩
      · next hge =>
        refine .opened fun held' hheld' => ?_
        rw [hheld, Option.mem_some_iff] at hheld'
        exact hheld' ▸ Int.not_lt.mp hge
    · next hnone =>
      exact .opened fun held hheld => absurd (hnone ▸ hheld) (Option.not_mem_none held)
  | admitRequest producerId epoch sequence assignOffset =>
    simp only [gateMachine, IdempotencyGate.admitRequest]
    split
    · exact .refused ⟨_, rfl⟩
    · next session hheld =>
      split
      · exact .refused ⟨_, rfl⟩
      next hge =>
      split
      · split
        · next landedAt hlanded => exact .duplicate hheld (Int.not_lt.mp hge) hlanded
        · exact .refused ⟨_, rfl⟩
      split
      · exact .refused ⟨_, rfl⟩
      · next hnext =>
        obtain rfl : sequence = session.lastSequence + 1 := not_not.mp hnext
        exact .accepted hheld (Int.not_lt.mp hge)

/-- A call that raises changes nothing. -/
theorem GateStep.eq_of_refused {gate gate' : IdempotencyGate} {call : GateCall}
    {answer : GateAnswer} (h : GateStep gate call answer gate') (hrefused : answer.Refused) :
    gate' = gate := by
  cases h with
  | refused => rfl
  | opened => obtain ⟨e, he⟩ := hrefused; cases he
  | duplicate => obtain ⟨e, he⟩ := hrefused; cases he
  | accepted => obtain ⟨e, he⟩ := hrefused; cases he

/-- A producer that opened its session holds a fresh one. -/
theorem IdempotencyGate.get?_openSession {gate : IdempotencyGate} {producerId : String} {epoch : ℤ}
    {session : ProducerSession} (h : (gate.openSession producerId epoch).1 = .ok session) :
    (gate.openSession producerId epoch).2.sessions.get? producerId =
      some { producerId, epoch } := by
  rw [IdempotencyGate.openSession] at h ⊢
  split
  · next held hheld =>
    simp only [hheld] at h
    split at h
    · cases h
    · next hge => rw [if_neg hge, sessions_setSession, Dict.get?_set_self]
  · rw [sessions_setSession, Dict.get?_set_self]

section Answers

variable {gate : IdempotencyGate} {producerId : String} {epoch : ℤ} {session : ProducerSession}

/-- An epoch that does not go back opens a session. -/
theorem step_openSession (hheld : gate.sessions.get? producerId = some session)
    (hepoch : session.epoch ≤ epoch) :
    gateMachine.step gate (.openSession producerId epoch) =
      (.openSession (.ok { producerId, epoch }),
        gate.setSession producerId { producerId, epoch }) := by
  simp only [gateMachine, IdempotencyGate.openSession, hheld, if_neg (Int.not_lt.mpr hepoch)]

/-- The session's next sequence is accepted. -/
theorem step_admit_next (hheld : gate.sessions.get? producerId = some session)
    (hepoch : session.epoch ≤ epoch) {sequence : ℤ} (hnext : sequence = session.lastSequence + 1)
    (assignOffset : ℤ) :
    gateMachine.step gate (.admitRequest producerId epoch sequence assignOffset) =
      (.admitRequest (.ok (.accepted sequence assignOffset)),
        gate.setSession producerId (session.accept sequence assignOffset)) := by
  have hlt : ¬ sequence ≤ session.lastSequence := by omega
  simp only [gateMachine, IdempotencyGate.admitRequest, hheld, if_neg (Int.not_lt.mpr hepoch),
    if_neg hlt, if_neg (not_not.mpr hnext)]

/-- A sequence the session has accepted is answered from memory. -/
theorem step_admit_landed (hheld : gate.sessions.get? producerId = some session)
    (hepoch : session.epoch ≤ epoch) {sequence landedAt : ℤ}
    (hlast : sequence ≤ session.lastSequence)
    (hlanded : session.acceptedOffsets.get? sequence = some landedAt) (assignOffset : ℤ) :
    gateMachine.step gate (.admitRequest producerId epoch sequence assignOffset) =
      (.admitRequest (.ok (.duplicate sequence landedAt)),
        { gate with duplicatesAbsorbed := gate.duplicatesAbsorbed + 1 }) := by
  simp only [gateMachine, IdempotencyGate.admitRequest, hheld, if_neg (Int.not_lt.mpr hepoch),
    if_pos hlast, hlanded]

end Answers

/-! ## The memory of a session -/

/-- The session has accepted as many records as there are offsets, the record with sequence `n`
at the `n`-th of them, and it remembers exactly these. -/
structure Remembers (session : ProducerSession) (offsets : List ℤ) : Prop where
  lastSequence_eq : session.lastSequence = offsets.length - 1
  get?_eq_some_iff : ∀ {sequence landedAt : ℤ},
    session.acceptedOffsets.get? sequence = some landedAt ↔ (sequence, landedAt) ∈ numbered offsets

/-- A fresh session remembers nothing. -/
theorem remembers_nil (producerId : String) (epoch : ℤ) : Remembers { producerId, epoch } [] :=
  ⟨rfl, by simp⟩

theorem Remembers.lt_of_mem {session : ProducerSession} {offsets : List ℤ}
    (h : Remembers session offsets) {sequence landedAt : ℤ}
    (hmem : (sequence, landedAt) ∈ numbered offsets) :
    0 ≤ sequence ∧ sequence ≤ session.lastSequence := by
  obtain ⟨hnonneg, hget⟩ := mem_numbered.mp hmem
  obtain ⟨hlt, -⟩ := List.getElem?_eq_some_iff.mp hget
  rw [h.lastSequence_eq]
  omega

/-- Accepting the next sequence adds its offset at the end. -/
theorem Remembers.accept {session : ProducerSession} {offsets : List ℤ}
    (h : Remembers session offsets) (assignOffset : ℤ) :
    Remembers (session.accept (session.lastSequence + 1) assignOffset)
      (offsets ++ [assignOffset]) := by
  have hlast : session.lastSequence + 1 = offsets.length := by rw [h.lastSequence_eq]; omega
  refine ⟨by simp [ProducerSession.accept, hlast], fun {sequence landedAt} => ?_⟩
  rw [ProducerSession.accept, Dict.get?_set, hlast, numbered_append_singleton, List.mem_append,
    List.mem_singleton]
  split
  · next heq =>
    subst heq
    have hnot : ((offsets.length : ℤ), landedAt) ∉ numbered offsets := fun hmem => by
      have := (h.lt_of_mem hmem).2
      omega
    simp [hnot, eq_comm]
  · next hne => simp [h.get?_eq_some_iff, hne]

/-! ## What a run accepted -/

/-- What a record is known by. -/
structure Stamp where
  producerId : String
  epoch : ℤ
  sequence : ℤ
  deriving DecidableEq

/-- The record that an event accepts, with the offset it gets. -/
def acceptance : GateCall × GateAnswer → Option (Stamp × ℤ)
  | (.admitRequest producerId epoch sequence assignOffset, .admitRequest (.ok (.accepted _ _))) =>
    some (⟨producerId, epoch, sequence⟩, assignOffset)
  | _ => none

/-- The record that an event answers as a duplicate, with the offset it quotes. -/
def duplication : GateCall × GateAnswer → Option (Stamp × ℤ)
  | (.admitRequest producerId epoch sequence _, .admitRequest (.ok (.duplicate _ landedAt))) =>
    some (⟨producerId, epoch, sequence⟩, landedAt)
  | _ => none

/-- The producer whose session an event opened. -/
def opening : GateCall × GateAnswer → Option String
  | (.openSession producerId _, .openSession (.ok _)) => some producerId
  | _ => none

/-- The accepted records with their offsets, oldest first. -/
def accepted (past : List (GateCall × GateAnswer)) : List (Stamp × ℤ) := past.filterMap acceptance

/-- The sequences and offsets of the accepted records whose stamp meets `keep`. -/
def landed (keep : Stamp → Bool) (past : List (GateCall × GateAnswer)) : List (ℤ × ℤ) :=
  ((accepted past).filter fun x => keep x.1).map fun x => (x.1.sequence, x.2)

/-- A refused call is no acceptance. -/
theorem acceptance_of_refused {call : GateCall} {answer : GateAnswer} (h : answer.Refused) :
    acceptance (call, answer) = none := by
  cases answer with
  | openSession answer => cases call <;> rfl
  | admitRequest answer =>
    obtain ⟨e, rfl⟩ := h
    cases call <;> rfl

theorem duplication_of_refused {call : GateCall} {answer : GateAnswer} (h : answer.Refused) :
    duplication (call, answer) = none := by
  cases answer with
  | openSession answer => cases call <;> rfl
  | admitRequest answer =>
    obtain ⟨e, rfl⟩ := h
    cases call <;> rfl

section Accepted

variable {past : List (GateCall × GateAnswer)} {event : GateCall × GateAnswer} {keep : Stamp → Bool}

theorem accepted_append_of_none (h : acceptance event = none) :
    accepted (past ++ [event]) = accepted past := by
  rw [accepted, List.filterMap_append, List.filterMap_cons_none h, List.filterMap_nil,
    List.append_nil, accepted]

/-- One more acceptance. -/
theorem accepted_append_of_some {x : Stamp × ℤ} (h : acceptance event = some x) :
    accepted (past ++ [event]) = accepted past ++ [x] := by
  rw [accepted, List.filterMap_append, List.filterMap_cons_some h, List.filterMap_nil, accepted]

theorem landed_append_of_none (h : acceptance event = none) :
    landed keep (past ++ [event]) = landed keep past := by
  rw [landed, accepted_append_of_none h, landed]

theorem landed_append_of_not {x : Stamp × ℤ} (h : acceptance event = some x)
    (hkeep : keep x.1 = false) : landed keep (past ++ [event]) = landed keep past := by
  rw [landed, accepted_append_of_some h, List.filter_append]
  simp [landed, hkeep]

theorem landed_append_of_keep {x : Stamp × ℤ} (h : acceptance event = some x)
    (hkeep : keep x.1 = true) :
    landed keep (past ++ [event]) = landed keep past ++ [(x.1.sequence, x.2)] := by
  rw [landed, accepted_append_of_some h, List.filter_append]
  simp [landed, hkeep]

theorem mem_landed {sequence offset : ℤ} :
    (sequence, offset) ∈ landed keep past ↔
      ∃ producerId epoch, keep ⟨producerId, epoch, sequence⟩ = true ∧
        (⟨producerId, epoch, sequence⟩, offset) ∈ accepted past := by
  simp only [landed, List.mem_map, List.mem_filter, Prod.mk.injEq, Prod.exists]
  constructor
  · rintro ⟨⟨producerId, epoch, _⟩, _, ⟨hmem, hkeep⟩, rfl, rfl⟩
    exact ⟨producerId, epoch, hkeep, hmem⟩
  · rintro ⟨producerId, epoch, hkeep, hmem⟩
    exact ⟨_, _, ⟨hmem, hkeep⟩, rfl, rfl⟩

end Accepted

end Relay
