import Mathlib.Algebra.Order.Ring.Int
import Relay.Errors
import Relay.Lib.Dict
import Relay.Lib.Machine

/-!
# Incremental fetch sessions

A client that fetches from many partitions names all of them once, in a full fetch, and then only
those whose offset changed. The broker remembers the rest. Each incremental fetch carries the number
that the session has reached, one right after a full fetch and one more after every incremental, and
a fetch with another number is refused.

The number counts from the last full fetch, and every full fetch begins again at one, so it does not
say which full fetch it counts from. An incremental fetch that the network has held back until the
client has made another full fetch is refused only if the numbers happen to differ; otherwise the
session takes its changes over, and the client and the broker disagree from then on. When the
numbers never meet in that way (`OwnEstablishment`), the session is the client's.

## Scope

The note on the entries that were elided is left out.

## Main definitions

* `FetchSession`, with `fullFetch` and `incrementalFetch`
* `FetchWorld`: a client, the requests in flight, and the broker's session
* `FetchWorld.Synchronised`: the session is what the client made of it

## Main results

* `synchronised_of_ownEstablishment`: a session that is never given a number of another full fetch
  is always the one the client made, and refuses all requests of others
-/

namespace Relay

/-- A fetch session. -/
structure FetchSession where
  sessionId : ℤ
  epoch : ℤ := 0
  knownOffsets : Dict ℤ ℤ := ∅

namespace FetchSession

/-- `full_fetch`. -/
def fullFetch (session : FetchSession) (offsets : Dict ℤ ℤ) : String × FetchSession :=
  (s!"session {session.sessionId} established at epoch 1 "
      ++ s!"with {offsets.entries.length} partition(s)",
    { session with knownOffsets := offsets, epoch := 1 })

/-- `incremental_fetch`. -/
def incrementalFetch (session : FetchSession) (epoch : ℤ) (changed : Dict ℤ ℤ) :
    Except RelayError (List ℤ × String) × FetchSession :=
  if session.epoch = 0 then
    (.error (.invalid "no session yet; the first fetch must be full"), session)
  else if epoch ≠ session.epoch then
    (.error (.invalid (s!"epoch mismatch: client has {epoch}, session is "
      ++ s!"at {session.epoch}; forcing a full fetch to "
      ++ "resync, because a partial view against stale session state silently skips partitions")),
      session)
  else
    let known := session.knownOffsets.update changed
    let touched := changed.keys.mergeSort fun a b => a ≤ b
    (.ok (touched, s!"{touched.length} of {known.entries.length} "
      ++ "partition(s) named; the rest the broker remembers"),
      { session with knownOffsets := known, epoch := session.epoch + 1 })

end FetchSession

/-! ## A client and its session -/

/-- A full fetch of the client, with the changes of the incremental fetches that it numbered from
it, in the order it sent them. -/
structure Establishment where
  offsets : Dict ℤ ℤ
  changes : List (Dict ℤ ℤ) := []

/-- A request in flight. It belongs to the client's full fetch at a position, which the broker does
not see. -/
inductive FetchRequest where
  | full (position : ℕ) (offsets : Dict ℤ ℤ)
  | incremental (position : ℕ) (epoch : ℤ) (changed : Dict ℤ ℤ)

/-- What the client has sent, what is in flight, the session, and the position of the last full
fetch that the session has processed. -/
structure FetchWorld where
  session : FetchSession
  sent : List Establishment := []
  inFlight : List FetchRequest := []
  processed : Option ℕ := none

/-- What happens: the client sends, or one of the requests in flight arrives. -/
inductive FetchCall where
  | sendFull (offsets : Dict ℤ ℤ)
  | sendIncremental (changed : Dict ℤ ℤ)
  | deliver (index : ℕ)

/-- What is answered. -/
inductive FetchAnswer where
  | sent
  | full (note : String)
  | incremental (answer : Except RelayError (List ℤ × String))

namespace FetchWorld

/-- The client makes a full fetch, and numbers from it until the next. -/
def sendFull (world : FetchWorld) (offsets : Dict ℤ ℤ) : FetchWorld :=
  { world with
    sent := world.sent ++ [{ offsets := offsets }]
    inFlight := world.inFlight ++ [.full world.sent.length offsets] }

/-- The client numbers an incremental fetch from its last full fetch. Before it has made one, it
does not send any. -/
def sendIncremental (world : FetchWorld) (changed : Dict ℤ ℤ) : FetchWorld :=
  match world.sent.getLast? with
  | none => world
  | some last =>
    { world with
      sent := world.sent.dropLast ++ [{ last with changes := last.changes ++ [changed] }]
      inFlight := world.inFlight ++
        [.incremental (world.sent.length - 1) (last.changes.length + 1) changed] }

/-- A request arrives, and is in flight no more. -/
def deliver (world : FetchWorld) (index : ℕ) : FetchAnswer × FetchWorld :=
  let inFlight := world.inFlight.eraseIdx index
  match world.inFlight[index]? with
  | none => (.sent, world)
  | some (.full position offsets) =>
    let (note, session) := world.session.fullFetch offsets
    (.full note, { world with
      session := session
      inFlight := inFlight
      processed := some position })
  | some (.incremental _ epoch changed) =>
    let (answer, session) := world.session.incrementalFetch epoch changed
    (.incremental answer, { world with session := session, inFlight := inFlight })

end FetchWorld

/-- The client, the network and the session as one component. -/
def fetchWorld : Machine FetchWorld FetchCall FetchAnswer where
  step world
    | .sendFull offsets => (.sent, world.sendFull offsets)
    | .sendIncremental changed => (.sent, world.sendIncremental changed)
    | .deliver index => world.deliver index

/-- An incremental fetch that arrives with the session's number was numbered from the full fetch
that the session has processed last. -/
def FetchWorld.OwnEstablishment (world : FetchWorld) : FetchCall → Prop
  | .deliver index => ∀ position epoch changed,
      world.inFlight[index]? = some (.incremental position epoch changed) →
        epoch = world.session.epoch → world.processed = some position
  | .sendFull _ | .sendIncremental _ => True

/-- The session has the offsets of the last full fetch that it processed, with the changes that the
client sent with the numbers up to its own, in order. -/
structure FetchWorld.Synchronised (world : FetchWorld) : Prop where
  fresh : world.processed = none → world.session.epoch = 0
  known : ∀ position, world.processed = some position →
    ∃ (establishment : Establishment) (n : ℕ), world.sent[position]? = some establishment ∧
      n ≤ establishment.changes.length ∧ world.session.epoch = n + 1 ∧
      world.session.knownOffsets =
        (establishment.changes.take n).foldl Dict.update establishment.offsets

/-- The requests in flight are what the client sent. -/
structure FetchWorld.Authentic (world : FetchWorld) : Prop where
  full : ∀ position offsets, .full position offsets ∈ world.inFlight →
    ∃ establishment, world.sent[position]? = some establishment ∧ establishment.offsets = offsets
  incremental : ∀ position (epoch : ℤ) changed,
    .incremental position epoch changed ∈ world.inFlight →
    ∃ (establishment : Establishment) (n : ℕ), world.sent[position]? = some establishment ∧
      establishment.changes[n]? = some changed ∧ epoch = n + 1

/-! ### Sending -/

/-- Full fetches stay as they were sent, and more changes may follow on each. -/
def Continues (before after : List Establishment) : Prop :=
  ∀ (position : ℕ) (establishment : Establishment), before[position]? = some establishment →
    ∃ establishment', after[position]? = some establishment' ∧
      establishment'.offsets = establishment.offsets ∧
      establishment.changes <+: establishment'.changes

/-- A new establishment continues what was sent. -/
theorem continues_append (before : List Establishment) (establishment : Establishment) :
    Continues before (before ++ [establishment]) := by
  intro position found hfound
  refine ⟨found, ?_, rfl, List.prefix_rfl⟩
  rw [List.getElem?_append_left (List.getElem?_eq_some_iff.mp hfound).1, hfound]

/-- So does a change sent under the last one. -/
theorem continues_change {sent : List Establishment} {last : Establishment}
    (hlast : sent.getLast? = some last) (changed : Dict ℤ ℤ) :
    Continues sent (sent.dropLast ++ [{ last with changes := last.changes ++ [changed] }]) := by
  intro position found hfound
  rw [← List.dropLast_append_getLast? last hlast] at hfound
  generalize sent.dropLast = before at hfound ⊢
  rcases lt_trichotomy position before.length with hlt | rfl | hgt
  · rw [List.getElem?_append_left hlt] at hfound
    exact ⟨found, by rw [List.getElem?_append_left hlt, hfound], rfl, List.prefix_rfl⟩
  · rw [List.getElem?_concat_length] at hfound
    obtain rfl := Option.some.inj hfound
    exact ⟨_, List.getElem?_concat_length, rfl, List.prefix_append _ _⟩
  · have hlength : (before ++ [last]).length ≤ position := by
      rw [List.length_append]
      exact hgt
    rw [List.getElem?_eq_none hlength] at hfound
    cases hfound

theorem FetchWorld.Synchronised.sent {world : FetchWorld} (h : world.Synchronised)
    {sent : List Establishment} (hsent : Continues world.sent sent) (inFlight : List FetchRequest) :
    FetchWorld.Synchronised { world with sent := sent, inFlight := inFlight } := by
  refine ⟨h.fresh, fun position hposition => ?_⟩
  obtain ⟨establishment, n, hfound, hle, hepoch, hknown⟩ := h.known position hposition
  obtain ⟨establishment', hfound', hoffsets, hchanges⟩ := hsent position establishment hfound
  refine ⟨establishment', n, hfound', hle.trans hchanges.length_le, hepoch, ?_⟩
  obtain ⟨more, hmore⟩ := hchanges
  rw [← hmore, List.take_append_of_le_length hle, hoffsets]
  exact hknown

theorem FetchWorld.Authentic.sent {world : FetchWorld} (h : world.Authentic)
    {sent : List Establishment} (hsent : Continues world.sent sent) :
    FetchWorld.Authentic { world with sent := sent } := by
  constructor
  · intro position offsets hmem
    obtain ⟨establishment, hfound, hoffsets⟩ := h.full position offsets hmem
    obtain ⟨establishment', hfound', hoffsets', -⟩ := hsent position establishment hfound
    exact ⟨establishment', hfound', hoffsets'.trans hoffsets⟩
  · intro position epoch changed hmem
    obtain ⟨establishment, n, hfound, hchanged, hepoch⟩ := h.incremental position epoch changed hmem
    obtain ⟨establishment', hfound', -, more, hmore⟩ := hsent position establishment hfound
    refine ⟨establishment', n, hfound', ?_, hepoch⟩
    rw [← hmore, List.getElem?_append_left (List.getElem?_eq_some_iff.mp hchanged).1, hchanged]

theorem FetchWorld.Authentic.sendFull {world : FetchWorld} (h : world.Authentic)
    (offsets : Dict ℤ ℤ) : (world.sendFull offsets).Authentic := by
  have hsent := h.sent (continues_append world.sent { offsets := offsets })
  constructor
  · intro position offsets' hmem
    rcases List.mem_append.mp hmem with hmem | hmem
    · exact hsent.full position offsets' hmem
    · obtain ⟨rfl, rfl⟩ := FetchRequest.full.inj (List.mem_singleton.mp hmem)
      exact ⟨_, List.getElem?_concat_length, rfl⟩
  · intro position epoch changed hmem
    rcases List.mem_append.mp hmem with hmem | hmem
    · exact hsent.incremental position epoch changed hmem
    · cases List.mem_singleton.mp hmem

theorem FetchWorld.Authentic.sendIncremental {world : FetchWorld} (h : world.Authentic)
    (changed : Dict ℤ ℤ) : (world.sendIncremental changed).Authentic := by
  rw [FetchWorld.sendIncremental]
  split
  · exact h
  · next last hlast =>
    have hsent := h.sent (continues_change hlast changed)
    constructor
    · intro position offsets hmem
      rcases List.mem_append.mp hmem with hmem | hmem
      · exact hsent.full position offsets hmem
      · cases List.mem_singleton.mp hmem
    · intro position epoch changed' hmem
      rcases List.mem_append.mp hmem with hmem | hmem
      · exact hsent.incremental position epoch changed' hmem
      · obtain ⟨rfl, rfl, rfl⟩ := FetchRequest.incremental.inj (List.mem_singleton.mp hmem)
        refine ⟨{ last with changes := last.changes ++ [changed'] }, last.changes.length, ?_,
          List.getElem?_concat_length, rfl⟩
        rw [← List.length_dropLast]
        exact List.getElem?_concat_length

theorem FetchWorld.Synchronised.sendIncremental {world : FetchWorld} (h : world.Synchronised)
    (changed : Dict ℤ ℤ) : (world.sendIncremental changed).Synchronised := by
  rw [FetchWorld.sendIncremental]
  split
  · exact h
  · next last hlast => exact h.sent (continues_change hlast changed) _

/-! ### Delivering -/

/-- What a delivery does: there was nothing to deliver, a full fetch establishes the session, or an
incremental fetch with its number changes it and one with another number is refused. -/
inductive DeliverStep (world : FetchWorld) (index : ℕ) : FetchAnswer → FetchWorld → Prop
  | nothing : DeliverStep world index .sent world
  | full {position : ℕ} {offsets : Dict ℤ ℤ} {note : String} {session : FetchSession}
      (inFlight : world.inFlight[index]? = some (.full position offsets))
      (epoch : session.epoch = 1) (knownOffsets : session.knownOffsets = offsets) :
      DeliverStep world index (.full note) { world with
        session := session
        inFlight := world.inFlight.eraseIdx index
        processed := some position }
  | accepted {position : ℕ} {changed : Dict ℤ ℤ} {answer : List ℤ × String} {session : FetchSession}
      (inFlight : world.inFlight[index]? =
        some (.incremental position world.session.epoch changed))
      (epoch : session.epoch = world.session.epoch + 1)
      (knownOffsets : session.knownOffsets = world.session.knownOffsets.update changed) :
      DeliverStep world index (.incremental (.ok answer)) { world with
        session := session
        inFlight := world.inFlight.eraseIdx index }
  | refused {e : RelayError} : DeliverStep world index (.incremental (.error e)) { world with
      inFlight := world.inFlight.eraseIdx index }

theorem deliverStep_deliver (world : FetchWorld) (index : ℕ) :
    DeliverStep world index (world.deliver index).1 (world.deliver index).2 := by
  rw [FetchWorld.deliver]
  split
  · exact .nothing
  · next position offsets hinFlight => exact .full hinFlight rfl rfl
  · next position epoch changed hinFlight =>
    simp only [FetchSession.incrementalFetch]
    split
    · exact .refused
    · split
      · exact .refused
      · next hepoch =>
        rw [not_not.mp hepoch] at hinFlight
        exact .accepted hinFlight rfl rfl

/-- A delivery only takes a request out of the flight. -/
theorem FetchWorld.Authentic.deliver {world world' : FetchWorld} {index : ℕ} {answer : FetchAnswer}
    (h : world.Authentic) (hstep : DeliverStep world index answer world') : world'.Authentic := by
  have herased : ∀ request ∈ world.inFlight.eraseIdx index, request ∈ world.inFlight :=
    fun _ hmem => List.mem_of_mem_eraseIdx hmem
  cases hstep with
  | nothing => exact h
  | full | accepted | refused =>
    exact ⟨fun position offsets hmem => h.full position offsets (herased _ hmem),
      fun position epoch changed hmem => h.incremental position epoch changed (herased _ hmem)⟩

/-- A delivery keeps the session in step, if what it accepts was numbered from the full fetch that
the session processed last. -/
theorem FetchWorld.Synchronised.deliver {world world' : FetchWorld} {index : ℕ}
    {answer : FetchAnswer} (h : world.Synchronised) (hauthentic : world.Authentic)
    (hown : world.OwnEstablishment (.deliver index))
    (hstep : DeliverStep world index answer world') :
    world'.Synchronised := by
  cases hstep with
  | nothing => exact h
  | refused => exact ⟨h.fresh, h.known⟩
  | @full position offsets note session inFlight epoch knownOffsets =>
    refine ⟨fun hnone => (by cases hnone), fun position' hposition => ?_⟩
    obtain rfl := Option.some.inj hposition
    obtain ⟨establishment, hfound, rfl⟩ :=
      hauthentic.full position offsets (List.mem_of_getElem? inFlight)
    exact ⟨establishment, 0, hfound, Nat.zero_le _, epoch, knownOffsets⟩
  | @accepted position changed answer session inFlight epoch knownOffsets =>
    have hprocessed := hown position _ changed inFlight rfl
    refine ⟨fun hnone => ?_, fun position' hposition => ?_⟩
    · cases hprocessed.symm.trans hnone
    · obtain rfl := Option.some.inj (hprocessed.symm.trans hposition)
      obtain ⟨establishment, n, hfound, hle, hepoch, hknown⟩ := h.known position hprocessed
      obtain ⟨establishment', n', hfound', hchanged, hepoch'⟩ :=
        hauthentic.incremental position _ changed (List.mem_of_getElem? inFlight)
      obtain rfl := Option.some.inj (hfound.symm.trans hfound')
      -- the number says that it is the next change
      obtain rfl : n' = n := by omega
      obtain ⟨hlt, hget⟩ := List.getElem?_eq_some_iff.mp hchanged
      refine ⟨establishment, n' + 1, hfound, hlt, ?_, ?_⟩
      · rw [epoch, hepoch]
        rfl
      · rw [knownOffsets, hknown, List.take_succ_eq_append_getElem hlt, hget, List.foldl_append]
        rfl

/-! ## Runs -/

theorem synchronised_step {world : FetchWorld} {call : FetchCall}
    (h : world.Authentic ∧ world.Synchronised) (hown : world.OwnEstablishment call) :
    (fetchWorld.step world call).2.Authentic ∧ (fetchWorld.step world call).2.Synchronised := by
  cases call with
  | sendFull offsets => exact ⟨h.1.sendFull offsets, h.2.sent (continues_append _ _) _⟩
  | sendIncremental changed => exact ⟨h.1.sendIncremental changed, h.2.sendIncremental changed⟩
  | deliver index =>
    have hstep := deliverStep_deliver world index
    exact ⟨h.1.deliver hstep, h.2.deliver h.1 hown hstep⟩

/-- A request with another number is refused. -/
theorem exists_deliver_eq_error {world : FetchWorld} {index position : ℕ} {epoch : ℤ}
    {changed : Dict ℤ ℤ}
    (hinFlight : world.inFlight[index]? = some (.incremental position epoch changed))
    (hepoch : epoch ≠ world.session.epoch) :
    ∃ e, (world.deliver index).1 = .incremental (.error e) := by
  simp only [FetchWorld.deliver, hinFlight, FetchSession.incrementalFetch, if_pos hepoch]
  split
  · exact ⟨_, rfl⟩
  · exact ⟨_, rfl⟩

/-- **When a session never mixes two full fetches.** Let a client send full and incremental fetches
to one session, and let the network deliver them in any order. If an incremental fetch that arrives
with the session's number always comes from the full fetch that the session has processed last, then
in every state the session has the offsets of that full fetch with exactly the changes that the
client numbered from it, up to the session's own number; and an incremental fetch from any other
full fetch is refused. -/
theorem synchronised_of_ownEstablishment (sessionId : ℤ) (calls : List FetchCall)
    (hcalls : fetchWorld.Guarded FetchWorld.OwnEstablishment
      { session := { sessionId := sessionId } } calls) :
    (∀ past, past <+: calls →
        (fetchWorld.final { session := { sessionId := sessionId } } past).Synchronised) ∧
      ∀ past index rest position epoch changed, calls = past ++ .deliver index :: rest →
        (fetchWorld.final { session := { sessionId := sessionId } } past).inFlight[index]? =
          some (.incremental position epoch changed) →
        (fetchWorld.final { session := { sessionId := sessionId } } past).processed ≠
          some position →
          ∃ e, (fetchWorld.step (fetchWorld.final { session := { sessionId := sessionId } } past)
            (.deliver index)).1 = .incremental (.error e) := by
  constructor
  · rintro past ⟨rest, rfl⟩
    have hpast := ((fetchWorld.guarded_append _ _ past rest).mp hcalls).1
    refine (Machine.invariant (P := fun world => world.Authentic ∧ world.Synchronised) ⟨?_, ?_⟩
      (fun world call h hown => synchronised_step h hown) hpast).2
    · exact ⟨fun _ _ hmem => absurd hmem List.not_mem_nil,
        fun _ _ _ hmem => absurd hmem List.not_mem_nil⟩
    · exact ⟨fun _ => rfl, fun _ hsome => (by cases hsome)⟩
  · rintro past index rest position epoch changed rfl hinFlight hother
    have hown := ((fetchWorld.guarded_append _ _ past _).mp hcalls).2.1
    refine exists_deliver_eq_error hinFlight fun hepoch => hother ?_
    exact hown position epoch changed hinFlight hepoch

/-- Two changes, delivered in the order they were sent. -/
theorem synchronised_of_ownEstablishment_in_order :
    (fetchWorld.final { session := { sessionId := 7 } } [.sendFull (.ofList [(0, 0)]),
        .sendIncremental (.ofList [(0, 5)]), .deliver 0, .deliver 0]).session.knownOffsets =
          .ofList [(0, 5)] ∧
      (fetchWorld.final { session := { sessionId := 7 } } [.sendFull (.ofList [(0, 0)]),
        .sendIncremental (.ofList [(0, 5)]), .deliver 0, .deliver 0]).Synchronised := by
  have h := synchronised_of_ownEstablishment 7 [.sendFull (.ofList [(0, 0)]),
    .sendIncremental (.ofList [(0, 5)]), .deliver 0, .deliver 0] ?_
  · exact ⟨by decide, h.1 _ List.prefix_rfl⟩
  · refine ⟨trivial, trivial, fun position epoch changed hinFlight => ?_, ?_, trivial⟩
    · cases Option.some.inj hinFlight
    · intro position epoch changed hinFlight _
      obtain ⟨rfl, -, -⟩ := FetchRequest.incremental.inj (Option.some.inj hinFlight)
      rfl

/-- An incremental fetch is held back until the client has made another full fetch. It has the
number that the session expects, and its change replaces the offset of the new full fetch. -/
theorem not_synchronised_of_delayed :
    (fetchWorld.final { session := { sessionId := 7 } } [.sendFull (.ofList [(0, 0)]), .deliver 0,
        .sendIncremental (.ofList [(0, 5)]), .sendFull (.ofList [(0, 100)]), .deliver 1,
        .deliver 0]).session.knownOffsets = .ofList [(0, 5)] ∧
      ¬ (fetchWorld.final { session := { sessionId := 7 } } [.sendFull (.ofList [(0, 0)]),
        .deliver 0, .sendIncremental (.ofList [(0, 5)]), .sendFull (.ofList [(0, 100)]), .deliver 1,
        .deliver 0]).Synchronised := by
  refine ⟨by decide, fun h => ?_⟩
  obtain ⟨establishment, n, hfound, hle, -, hknown⟩ := h.known 1 rfl
  obtain rfl := Option.some.inj hfound
  obtain rfl : n = 0 := Nat.le_zero.mp hle
  exact absurd hknown (by decide)

end Relay
