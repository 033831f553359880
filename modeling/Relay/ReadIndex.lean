import Mathlib.Algebra.Order.Ring.Int
import Relay.Errors
import Relay.Lib.Machine
import Relay.Lib.Quorum

/-!
# Read index

A leader records its commit index as the index of a read, asks its followers for heartbeats to see
that it still leads, and serves the read once a majority has answered and its state machine has
applied that far.

Which followers answered is not recorded: every answer adds one to a counter, and the counter is set
back when a read begins. The network is under no obligation to answer each heartbeat once, or before
the next read begins. So the run is of the whole group: heartbeats that were sent, each with the
number of reads begun by then, and answers to them, of which any may arrive at any time and any
number of times.

## What the counter counts

As long as the answers counted for a read are those of different followers to heartbeats of that
read, the counter is at most the number of voters that confirmed it. An answer counted out of turn
does no harm once these voters are a majority. `isQuorum_confirmedBy_of_serve` says that under this
condition a read is served only with a majority behind it, and `serve_duplicate_reply` shows what
one follower answering twice can do.

## Main definitions

* `ReadIndex`, with `beginRead`, `confirm`, `applyTo` and `serve`
* `readCluster`: the leader with its heartbeats and their answers
* `confirmedBy`: the voters behind the current read
* `CountsOnce`: the condition on the answers that are counted

## Main results

* `isQuorum_confirmedBy_of_serve`
-/

namespace Relay

/-- The leader's side of a read. -/
structure ReadIndex where
  commitIndex : ℤ
  voters : ℤ
  appliedIndex : ℤ := 0
  confirmations : ℤ := 0
  readIndex : ℤ := -1
  /-- The constructor refuses fewer voters. -/
  voters_pos : 1 ≤ voters

namespace ReadIndex

/-- `majority`. -/
def majority (r : ReadIndex) : ℤ := r.voters / 2 + 1

/-- `begin_read`. The leader counts itself. -/
def beginRead (r : ReadIndex) : ℤ × ReadIndex :=
  (r.commitIndex, { r with readIndex := r.commitIndex, confirmations := 1 })

/-- `confirm`. -/
def confirm (r : ReadIndex) : ReadIndex := { r with confirmations := r.confirmations + 1 }

/-- `quorum_confirmed`. -/
def QuorumConfirmed (r : ReadIndex) : Prop := r.majority ≤ r.confirmations

instance (r : ReadIndex) : Decidable r.QuorumConfirmed :=
  inferInstanceAs (Decidable (r.majority ≤ r.confirmations))

/-- `apply_to`. -/
def applyTo (r : ReadIndex) (index : ℤ) : ReadIndex :=
  { r with appliedIndex := max r.appliedIndex index }

/-- `serve`. -/
def serve (r : ReadIndex) : Except RelayError String :=
  if r.readIndex < 0 then
    .error (.invalid "begin the read to set its read index first")
  else if ¬ r.QuorumConfirmed then
    .error (.invalid (s!"only {r.confirmations}/{r.voters} confirmed, below "
      ++ s!"majority {r.majority}; this leader cannot prove it still "
      ++ "leads and must step down, not serve a possibly-stale read"))
  else if r.appliedIndex < r.readIndex then
    .error (.invalid (s!"state machine applied to {r.appliedIndex}, behind the "
      ++ s!"read index {r.readIndex}; wait for it to catch up so the "
      ++ "read reflects all committed writes"))
  else .ok s!"linearizable read served as of index {r.readIndex}"

/-- What a read that is served has passed. -/
theorem serve_ok {r : ReadIndex} {note : String} (h : r.serve = .ok note) :
    0 ≤ r.readIndex ∧ r.majority ≤ r.confirmations ∧ r.readIndex ≤ r.appliedIndex := by
  rw [serve] at h
  split_ifs at h with hbegun hquorum happlied
  exact ⟨not_lt.mp hbegun, hquorum, not_lt.mp happlied⟩

end ReadIndex

/-! ## The group -/

section Group

variable {ν : Type*} [DecidableEq ν]

/-- The voters, with their leader among them. -/
structure ReadGroup (ν : Type*) where
  voters : Finset ν
  leader : ν
  leader_mem : leader ∈ voters

/-- A heartbeat: whom it was sent to, and how many reads had begun by then. -/
structure Heartbeat (ν : Type*) where
  follower : ν
  read : ℕ
  deriving DecidableEq

/-- The leader, how many reads have begun, the heartbeats sent so far, and those that were answered,
once for each answer. -/
structure ReadCluster (ν : Type*) where
  reader : ReadIndex
  reads : ℕ := 0
  heartbeats : List (Heartbeat ν) := []
  answered : List (Heartbeat ν) := []

/-- What can happen. -/
inductive ReadEvent (ν : Type*) where
  /-- The leader's commit index moves. -/
  | commitTo (index : ℤ)
  | beginRead
  /-- A heartbeat is sent. -/
  | heartbeat (follower : ν)
  /-- An answer to a heartbeat arrives, and is confirmed. -/
  | reply (heartbeat : ℕ)
  | applyTo (index : ℤ)
  | serve

/-- The group as a component. Only a heartbeat that was sent is answered. -/
def readCluster : Machine (ReadCluster ν) (ReadEvent ν) (Option (Except RelayError String)) where
  step c
    | .commitTo index => (none, { c with reader := { c.reader with commitIndex := index } })
    | .beginRead => (none, { c with reader := c.reader.beginRead.2, reads := c.reads + 1 })
    | .heartbeat follower =>
      (none, { c with heartbeats := c.heartbeats ++ [{ follower, read := c.reads }] })
    | .reply i =>
      match c.heartbeats[i]? with
      | none => (none, c)
      | some heartbeat => (none, { c with
          reader := c.reader.confirm
          answered := c.answered ++ [heartbeat] })
    | .applyTo index => (none, { c with reader := c.reader.applyTo index })
    | .serve => (some c.reader.serve, c)

namespace ReadGroup

variable (g : ReadGroup ν)

omit [DecidableEq ν] in
theorem one_le_card : 1 ≤ (g.voters.card : ℤ) := by
  have hpos := Finset.card_pos.mpr ⟨g.leader, g.leader_mem⟩
  omega

/-- The group before anything has happened. -/
def start (commitIndex : ℤ) : ReadCluster ν where
  reader := { commitIndex, voters := g.voters.card, voters_pos := g.one_le_card }

/-- The group after some events. -/
def after (commitIndex : ℤ) (events : List (ReadEvent ν)) : ReadCluster ν :=
  readCluster.final (g.start commitIndex) events

/-- The voters behind the current read: the leader, and those that answered a heartbeat which was
sent since the read began. -/
def confirmedBy (c : ReadCluster ν) : Finset ν :=
  insert g.leader (g.voters.filter fun v => { follower := v, read := c.reads } ∈ c.answered)

/-- An answer that is counted for a read is one of a voter that is not behind the read yet, to a
heartbeat which was sent since the read began; or there is a majority behind the read already, or
no read has begun. -/
def CountsOnce (c : ReadCluster ν) (event : ReadEvent ν) : Prop :=
  ∀ i heartbeat, event = .reply i → c.heartbeats[i]? = some heartbeat →
    (heartbeat.read = c.reads ∧ heartbeat.follower ∈ g.voters ∧
        heartbeat.follower ∉ g.confirmedBy c) ∨
      IsQuorum g.voters (g.confirmedBy c) ∨ c.reads = 0

/-- The counter is at most the number of voters behind the read, or these are a majority. -/
structure Honest (c : ReadCluster ν) : Prop where
  voters : c.reader.voters = g.voters.card
  unread : c.reads = 0 → c.reader.readIndex < 0
  counted : c.reader.confirmations ≤ (g.confirmedBy c).card ∨
    IsQuorum g.voters (g.confirmedBy c) ∨ c.reads = 0

variable {g} {c c' : ReadCluster ν}

theorem confirmedBy_subset_voters : g.confirmedBy c ⊆ g.voters :=
  Finset.insert_subset g.leader_mem (Finset.filter_subset _ _)

/-- More answers put no fewer voters behind the read. -/
theorem confirmedBy_subset (hreads : c'.reads = c.reads) (hanswered : c.answered ⊆ c'.answered) :
    g.confirmedBy c ⊆ g.confirmedBy c' := by
  refine Finset.insert_subset_insert _ fun v hv => ?_
  rw [Finset.mem_filter] at hv ⊢
  rw [hreads]
  exact ⟨hv.1, hanswered hv.2⟩

/-- An event that leaves the counter and the answers alone. -/
theorem Honest.frame (h : g.Honest c) (hreads : c'.reads = c.reads)
    (hanswered : c'.answered = c.answered)
    (hconfirmations : c'.reader.confirmations = c.reader.confirmations)
    (hvoters : c'.reader.voters = c.reader.voters)
    (hreadIndex : c'.reader.readIndex = c.reader.readIndex) : g.Honest c' := by
  have hconfirmed : g.confirmedBy c' = g.confirmedBy c := by
    rw [confirmedBy, confirmedBy, hreads, hanswered]
  refine ⟨hvoters.trans h.voters, ?_, ?_⟩
  · rw [hreads, hreadIndex]
    exact h.unread
  · rw [hreads, hconfirmed, hconfirmations]
    exact h.counted

/-- An answer is counted. -/
theorem Honest.reply (h : g.Honest c) {heartbeat : Heartbeat ν}
    (hcounts : (heartbeat.read = c.reads ∧ heartbeat.follower ∈ g.voters ∧
        heartbeat.follower ∉ g.confirmedBy c) ∨
      IsQuorum g.voters (g.confirmedBy c) ∨ c.reads = 0) :
    g.Honest { c with
      reader := c.reader.confirm
      answered := c.answered ++ [heartbeat] } := by
  have hsubset : g.confirmedBy c ⊆ g.confirmedBy { c with
      reader := c.reader.confirm
      answered := c.answered ++ [heartbeat] } :=
    confirmedBy_subset rfl (List.subset_append_left _ _)
  -- a majority behind the read stays one
  have hkept : IsQuorum g.voters (g.confirmedBy c) → IsQuorum g.voters
      (g.confirmedBy { c with
        reader := c.reader.confirm
        answered := c.answered ++ [heartbeat] }) := fun hquorum =>
    ⟨confirmedBy_subset_voters, hquorum.card_le.trans (Finset.card_le_card hsubset)⟩
  refine ⟨h.voters, h.unread, ?_⟩
  rcases hcounts with ⟨hread, hvoter, hnew⟩ | hquorum | hunread
  · refine h.counted.imp (fun hcounted => ?_) (Or.imp_left hkept)
    have hfollower : heartbeat.follower ∈ g.confirmedBy { c with
        reader := c.reader.confirm
        answered := c.answered ++ [heartbeat] } := by
      refine Finset.mem_insert_of_mem (Finset.mem_filter.mpr ⟨hvoter, ?_⟩)
      rw [← hread]
      exact List.mem_append_right _ (List.mem_singleton_self _)
    have hinsert := Finset.card_le_card (Finset.insert_subset hfollower hsubset)
    rw [Finset.card_insert_of_notMem hnew] at hinsert
    show c.reader.confirmations + 1 ≤ _
    omega
  · exact Or.inr (Or.inl (hkept hquorum))
  · exact Or.inr (Or.inr hunread)

theorem Honest.step (h : g.Honest c) {event : ReadEvent ν} (hcounts : g.CountsOnce c event) :
    g.Honest (readCluster.step c event).2 := by
  cases event with
  | commitTo index => exact h.frame rfl rfl rfl rfl rfl
  | beginRead =>
    refine ⟨h.voters, fun hzero => absurd hzero (Nat.succ_ne_zero _), Or.inl ?_⟩
    have hpos := Finset.card_pos.mpr (Finset.insert_nonempty g.leader
      (g.voters.filter fun v => { follower := v, read := c.reads + 1 } ∈ c.answered))
    show (1 : ℤ) ≤ _
    exact Int.ofNat_le.mpr hpos
  | heartbeat follower => exact h.frame rfl rfl rfl rfl rfl
  | reply i =>
    simp only [readCluster]
    split
    · exact h
    · next heartbeat hsent => exact h.reply (hcounts i heartbeat rfl hsent)
  | applyTo index => exact h.frame rfl rfl rfl rfl rfl
  | serve => exact h

theorem honest_after {commitIndex : ℤ} {events : List (ReadEvent ν)}
    (h : readCluster.Guarded g.CountsOnce (g.start commitIndex) events) :
    g.Honest (g.after commitIndex events) := by
  refine Machine.invariant ⟨rfl, fun _ => ?_, Or.inr (Or.inr rfl)⟩
    (fun c event hc hcounts => hc.step hcounts) h
  show (-1 : ℤ) < 0
  omega

/-- What a read that is served has behind it. -/
theorem Honest.isQuorum_of_serve (h : g.Honest c) {note : String}
    (hserve : c.reader.serve = .ok note) : IsQuorum g.voters (g.confirmedBy c) := by
  obtain ⟨hbegun, hmajority, -⟩ := ReadIndex.serve_ok hserve
  rcases h.counted with hcounted | hquorum | hunread
  · refine ⟨confirmedBy_subset_voters, ?_⟩
    rw [ReadIndex.majority, h.voters] at hmajority
    omega
  · exact hquorum
  · exact absurd hbegun (not_le.mpr (h.unread hunread))

end ReadGroup

/-- **Reads are served by a majority**, if answers are counted once and for the read that they
confirm: in every such run, after any of its events, a read is served only if a majority of the
voters, the leader included, has answered heartbeats sent since the read began, and the state
machine has applied up to the read index. -/
theorem isQuorum_confirmedBy_of_serve (g : ReadGroup ν) (commitIndex : ℤ)
    (events : List (ReadEvent ν))
    (h : readCluster.Guarded g.CountsOnce (g.start commitIndex) events) :
    ∀ past, past <+: events → ∀ note, (g.after commitIndex past).reader.serve = .ok note →
      IsQuorum g.voters (g.confirmedBy (g.after commitIndex past)) ∧
        (g.after commitIndex past).reader.readIndex ≤
          (g.after commitIndex past).reader.appliedIndex := by
  rintro past ⟨rest, rfl⟩ note hserve
  have hpast := ((readCluster.guarded_append _ _ past rest).mp h).1
  exact ⟨(ReadGroup.honest_after hpast).isQuorum_of_serve hserve,
    (ReadIndex.serve_ok hserve).2.2⟩

end Group

/-- Five voters, led by the first. -/
def fiveVoters : ReadGroup ℕ where
  voters := Finset.range 5
  leader := 0
  leader_mem := by decide

/-- Two followers answer a read of index 7. -/
theorem isQuorum_confirmedBy_two_replies :
    IsQuorum fiveVoters.voters (fiveVoters.confirmedBy (fiveVoters.after 7
      [.beginRead, .heartbeat 1, .heartbeat 2, .reply 1, .reply 0, .applyTo 7])) := by
  refine (isQuorum_confirmedBy_of_serve fiveVoters 7
    [.beginRead, .heartbeat 1, .heartbeat 2, .reply 1, .reply 0, .applyTo 7] ?_ _ List.prefix_rfl
    _ rfl).1
  refine ⟨?_, ?_, ?_, ?_, ?_, ?_, trivial⟩
  all_goals
    intro i heartbeat hevent hsent
    cases hevent
  all_goals
    cases hsent
    exact Or.inl ⟨rfl, by decide, by decide⟩

/-- One follower answers one heartbeat, and the answer arrives twice: a read of index 7 is served
with two of five voters behind it. -/
theorem serve_duplicate_reply :
    (fiveVoters.after 7 [.beginRead, .heartbeat 1, .reply 0, .reply 0, .applyTo 7]).reader.serve =
        .ok "linearizable read served as of index 7" ∧
      ¬ IsQuorum fiveVoters.voters (fiveVoters.confirmedBy
        (fiveVoters.after 7 [.beginRead, .heartbeat 1, .reply 0, .reply 0, .applyTo 7])) := by
  refine ⟨rfl, fun h => absurd h.card_le ?_⟩
  decide

end Relay
