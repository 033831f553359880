import Mathlib.Algebra.Order.Ring.Int
import Mathlib.Data.Finset.Card
import Mathlib.Data.List.Sort
import Mathlib.Data.String.Basic
import Relay.Errors
import Relay.Lib.Dict
import Relay.Lib.Leases

/-!
# Liveness of members and brokers

The coordinator of a group keeps its members, and a cluster keeps its brokers, by the times of their
heartbeats. A sweep finds those that have been silent for longer than they may. They are not dropped
but marked, and a heartbeat of one that is marked is refused: its partitions are with somebody else
by now, and it has to join again.

The two trackers differ in what they say and count, and both keep a table of leases.

## Main definitions

* `LivenessTracker`, with `join`, `heartbeat`, `sweep` and `liveMembers`
* `ClusterMembership`, with `register`, `heartbeat`, `fenceLapsed` and `liveBrokers`
* `liveness`, `clusterMembership`: the trackers as components

## Main results

* `liveness_answers`, `cluster_answers`: who may heartbeat, who is swept and who is live, told from
  the calls and what was answered before
-/

namespace Relay

/-- A member of a group. -/
structure Member where
  name : String
  lastHeartbeat : ℤ
  generation : ℤ
  evicted : Bool := false
  deriving DecidableEq

/-- The tracker of a group. Every member is kept under its name. -/
structure LivenessTracker where
  sessionTimeout : ℤ
  members : Dict String Member := ∅
  generation : ℤ := 0
  evictions : ℤ := 0
  /-- The constructor refuses other timeouts. -/
  sessionTimeout_pos : 1 ≤ sessionTimeout
  name_eq : ∀ name member, members.get? name = some member → member.name = name

/-- What a heartbeat of somebody who never joined is refused with. -/
def noMember (name : String) : RelayError := .invalid s!"{name} is not a member"

/-- What a heartbeat of a member that was evicted is refused with. -/
def mustRejoin (name : String) : RelayError :=
  .fenced (s!"{name} was evicted and its partitions moved; heartbeating now would make two " ++
    "consumers own one partition, so it must rejoin, not resume")

namespace LivenessTracker

/-- `join`. -/
def join (tracker : LivenessTracker) (name : String) (now : ℤ) : String × LivenessTracker :=
  (s!"{name} joined at generation {tracker.generation + 1}",
    { tracker with
      generation := tracker.generation + 1
      members := tracker.members.set name
        { name, lastHeartbeat := now, generation := tracker.generation + 1 }
      name_eq := Dict.forall_get?_set rfl fun k member _ => tracker.name_eq k member })

/-- `heartbeat`. -/
def heartbeat (tracker : LivenessTracker) (name : String) (now : ℤ) :
    Except RelayError String × LivenessTracker :=
  match h : tracker.members.get? name with
  | none => (.error (noMember name), tracker)
  | some member =>
    if member.evicted then (.error (mustRejoin name), tracker)
    else
      (.ok s!"{name} renewed at {now}",
        { tracker with
          members := tracker.members.set name { member with lastHeartbeat := now }
          name_eq := Dict.forall_get?_set (tracker.name_eq name member h) fun k member' _ =>
            tracker.name_eq k member' })

/-- The member has been silent for too long, and has not been evicted for it. -/
def Silent (tracker : LivenessTracker) (now : ℤ) (member : Member) : Prop :=
  member.evicted = false ∧ tracker.sessionTimeout < now - member.lastHeartbeat

instance (tracker : LivenessTracker) (now : ℤ) (member : Member) :
    Decidable (tracker.Silent now member) :=
  inferInstanceAs (Decidable (_ ∧ _))

/-- `sweep`. -/
def sweep (tracker : LivenessTracker) (now : ℤ) : List String × LivenessTracker :=
  let newlyDead := (tracker.members.values.filter fun m => tracker.Silent now m).map Member.name
  (newlyDead.mergeSort fun a b => a ≤ b,
    { tracker with
      members := tracker.members.mapValues fun _ member =>
        if tracker.Silent now member then { member with evicted := true } else member
      evictions := tracker.evictions + newlyDead.length
      generation := if newlyDead ≠ [] then tracker.generation + 1 else tracker.generation
      name_eq := fun name member h => by
        rw [Dict.get?_mapValues] at h
        obtain ⟨member', hget, rfl⟩ := Option.map_eq_some_iff.mp h
        have hname := tracker.name_eq name member' hget
        split <;> exact hname })

/-- `live_members`. -/
def liveMembers (tracker : LivenessTracker) : List String :=
  ((tracker.members.entries.filter fun e => e.2.evicted = false).map Prod.fst).mergeSort
    fun a b => a ≤ b

/-- `status`. -/
def status (tracker : LivenessTracker) (now : ℤ) : String :=
  let suspected := tracker.members.values.filter fun member =>
    member.evicted = false ∧ tracker.sessionTimeout / 2 < now - member.lastHeartbeat
  s!"{tracker.liveMembers.length} live, {suspected.length} suspected (silent past half the " ++
    s!"timeout), {tracker.evictions} evicted; a broker that treats every hiccup as death " ++
    "rebalances to a standstill"

end LivenessTracker

/-- A broker of a cluster. -/
structure ClusterMembership.Broker where
  brokerId : String
  rack : String
  lastHeartbeat : ℤ
  fenced : Bool := false
  deriving DecidableEq

/-- The brokers of a cluster. Every broker is kept under its id. -/
structure ClusterMembership where
  fenceAfter : ℤ
  brokers : Dict String ClusterMembership.Broker := ∅
  epoch : ℤ := 0
  /-- The constructor refuses other timeouts. -/
  fenceAfter_pos : 1 ≤ fenceAfter
  brokerId_eq : ∀ id broker, brokers.get? id = some broker → broker.brokerId = id

/-- What a heartbeat of a broker that never registered is refused with. -/
def notRegistered (brokerId : String) : RelayError := .missing s!"{brokerId} is not registered"

/-- What a heartbeat of a broker that was fenced is refused with. -/
def mustReregister (brokerId : String) : RelayError :=
  .invalid (s!"{brokerId} was fenced and must re-register, not resume, or the cluster holds two " ++
    "views of it")

namespace ClusterMembership

/-- `register`. -/
def register (cluster : ClusterMembership) (brokerId rack : String) (now : ℤ) :
    String × ClusterMembership :=
  (s!"{brokerId} joined rack {rack} at epoch {cluster.epoch + 1}",
    { cluster with
      epoch := cluster.epoch + 1
      brokers := cluster.brokers.set brokerId { brokerId, rack, lastHeartbeat := now }
      brokerId_eq := Dict.forall_get?_set rfl fun id broker _ => cluster.brokerId_eq id broker })

/-- `heartbeat`. -/
def heartbeat (cluster : ClusterMembership) (brokerId : String) (now : ℤ) :
    Except RelayError Unit × ClusterMembership :=
  match h : cluster.brokers.get? brokerId with
  | none => (.error (notRegistered brokerId), cluster)
  | some broker =>
    if broker.fenced then (.error (mustReregister brokerId), cluster)
    else
      (.ok (),
        { cluster with
          brokers := cluster.brokers.set brokerId { broker with lastHeartbeat := now }
          brokerId_eq := Dict.forall_get?_set (cluster.brokerId_eq brokerId broker h)
            fun id broker' _ => cluster.brokerId_eq id broker' })

/-- The broker has been silent for too long, and has not been fenced for it. -/
def Silent (cluster : ClusterMembership) (now : ℤ) (broker : Broker) : Prop :=
  broker.fenced = false ∧ cluster.fenceAfter < now - broker.lastHeartbeat

instance (cluster : ClusterMembership) (now : ℤ) (broker : Broker) :
    Decidable (cluster.Silent now broker) :=
  inferInstanceAs (Decidable (_ ∧ _))

/-- `fence_lapsed`. -/
def fenceLapsed (cluster : ClusterMembership) (now : ℤ) : List String × ClusterMembership :=
  let fenced := (cluster.brokers.values.filter fun b => cluster.Silent now b).map Broker.brokerId
  (fenced.mergeSort fun a b => a ≤ b,
    { cluster with
      brokers := cluster.brokers.mapValues fun _ broker =>
        if cluster.Silent now broker then { broker with fenced := true } else broker
      epoch := if fenced ≠ [] then cluster.epoch + 1 else cluster.epoch
      brokerId_eq := fun id broker h => by
        rw [Dict.get?_mapValues] at h
        obtain ⟨broker', hget, rfl⟩ := Option.map_eq_some_iff.mp h
        have hid := cluster.brokerId_eq id broker' hget
        split <;> exact hid })

/-- `live_brokers`. -/
def liveBrokers (cluster : ClusterMembership) : List String :=
  ((cluster.brokers.values.filter fun b => b.fenced = false).map Broker.brokerId).mergeSort
    fun a b => a ≤ b

/-- `racks_available`. -/
def racksAvailable (cluster : ClusterMembership) : Finset String :=
  ((cluster.brokers.values.filter fun b => b.fenced = false).map Broker.rack).toFinset

/-- What is said of a number of racks. -/
def rackNote (racks : ℕ) (replicationFactor : ℤ) : String :=
  if replicationFactor ≤ racks then
    s!"{racks} rack(s) for a factor of {replicationFactor}: replicas can span racks " ++
      "so one power failure cannot take a majority"
  else
    s!"only {racks} rack(s) for a factor of {replicationFactor}: some replicas " ++
      "must share a rack, and that shared switch is the outage waiting to happen"

/-- `rack_diverse_enough`. -/
def rackDiverseEnough (cluster : ClusterMembership) (replicationFactor : ℤ) : String :=
  rackNote cluster.racksAvailable.card replicationFactor

end ClusterMembership

/-! ## What a table of leases answers -/

/-- The answer to a heartbeat, by where the one that sends it stands. -/
def HeartbeatAnswers {ρ : Type} (events : List (LeaseEvent String ℤ)) (name : String)
    (renewed lapsed unknown answer : Except RelayError ρ) : Prop :=
  ((∃ time, Fresh name time events) → answer = renewed) ∧
    (Lapsed name events → answer = lapsed) ∧
    ((∀ time, ¬ Fresh name time events) → ¬ Lapsed name events → answer = unknown)

/-- The names are those whose leases are fresh since a time that meets a condition, in the order of
the alphabet. -/
def NamesFresh (events : List (LeaseEvent String ℤ)) (P : ℤ → Prop) (names : List String) : Prop :=
  names.Pairwise (· < ·) ∧ ∀ name, name ∈ names ↔ ∃ time, Fresh name time events ∧ P time

section Tables

variable {β : Type} {d : Dict String β}

/-- The names of some entries, in the order of the alphabet. -/
theorem sortedKeys_spec (d : Dict String β) (p : β → Bool) :
    (((d.entries.filter fun e => p e.2).map Prod.fst).mergeSort fun a b => a ≤ b).Pairwise (· < ·) ∧
      ∀ a, a ∈ (((d.entries.filter fun e => p e.2).map Prod.fst).mergeSort fun a b => a ≤ b) ↔
        ∃ b, d.get? a = some b ∧ p b := by
  have hnodup : ((d.entries.filter fun e => p e.2).map Prod.fst).Nodup :=
    (List.filter_sublist.map Prod.fst).nodup d.nodup
  have hperm := List.mergeSort_perm ((d.entries.filter fun e => p e.2).map Prod.fst)
    fun a b => a ≤ b
  have hsorted : (((d.entries.filter fun e => p e.2).map Prod.fst).mergeSort
      fun a b => a ≤ b).Pairwise (· ≤ ·) := List.pairwise_mergeSort' _ _
  refine ⟨(hsorted.and (hperm.nodup_iff.mpr hnodup)).imp fun h => lt_of_le_of_ne h.1 h.2, ?_⟩
  intro a
  rw [hperm.mem_iff, List.mem_map]
  constructor
  · rintro ⟨e, he, rfl⟩
    obtain ⟨hentry, hp⟩ := List.mem_filter.mp he
    exact ⟨e.2, d.mem_entries_iff.mp hentry, hp⟩
  · rintro ⟨b, hget, hp⟩
    exact ⟨(a, b), List.mem_filter.mpr ⟨d.mem_entries_iff.mpr hget, hp⟩, rfl⟩

/-- Records that are kept under their names have the names of their entries. -/
theorem map_filter_values {name : β → String} (hname : ∀ a b, d.get? a = some b → name b = a)
    (p : β → Bool) :
    (d.values.filter p).map name = (d.entries.filter fun e => p e.2).map Prod.fst := by
  rw [Dict.values, List.filter_map, List.map_map]
  refine List.map_congr_left fun e he => ?_
  exact hname e.1 e.2 (d.mem_entries_iff.mp (List.mem_filter.mp he).1)

variable {lease : β → ℤ × Bool} {events : List (LeaseEvent String ℤ)}

/-- The names of the entries whose leases are fresh since some time. -/
theorem namesFresh_of_table (h : LeaseTable (fun a => (d.get? a).map lease) events)
    {P : ℤ → Prop} {p : β → Bool} (hp : ∀ b, p b ↔ (lease b).2 = false ∧ P (lease b).1)
    {names : List String} (hsorted : names.Pairwise (· < ·))
    (hnames : ∀ a, a ∈ names ↔ ∃ b, d.get? a = some b ∧ p b) : NamesFresh events P names := by
  refine ⟨hsorted, fun a => ?_⟩
  rw [hnames]
  simp only [← h.fresh, Option.map_eq_some_iff]
  constructor
  · rintro ⟨b, hget, hb⟩
    obtain ⟨hfresh, hP⟩ := (hp b).mp hb
    exact ⟨(lease b).1, ⟨b, hget, by rw [← hfresh]⟩, hP⟩
  · rintro ⟨time, ⟨b, hget, hlease⟩, hP⟩
    exact ⟨b, hget, (hp b).mpr (by rw [hlease]; exact ⟨rfl, hP⟩)⟩

/-- A heartbeat is answered by what the table has for the name. -/
theorem heartbeatAnswers_of_table {ρ : Type}
    (h : LeaseTable (fun a => (d.get? a).map lease) events)
    {name : String} {renewed lapsed unknown answer : Except RelayError ρ}
    (hanswer : answer = match d.get? name with
      | none => unknown
      | some b => if (lease b).2 then lapsed else renewed) :
    HeartbeatAnswers events name renewed lapsed unknown answer := by
  refine ⟨?_, fun hlapsed => ?_, fun hnot hnot' => ?_⟩
  · rintro ⟨time, hfresh⟩
    obtain ⟨b, hget, hlease⟩ := Option.map_eq_some_iff.mp ((h.fresh name time).mpr hfresh)
    rw [hanswer, hget]
    simp [hlease]
  · obtain ⟨time, hlookup⟩ := (h.lapsed name).mpr hlapsed
    obtain ⟨b, hget, hlease⟩ := Option.map_eq_some_iff.mp hlookup
    rw [hanswer, hget]
    simp [hlease]
  · have hnone := (h.none_iff name).mpr ⟨hnot, hnot'⟩
    rw [Option.map_eq_none_iff] at hnone
    rw [hanswer, hnone]

end Tables

/-! ## The members of a group -/

/-- What is asked of the tracker. -/
inductive LivenessCall where
  | join (name : String) (now : ℤ)
  | heartbeat (name : String) (now : ℤ)
  | sweep (now : ℤ)
  | liveMembers
  deriving DecidableEq

/-- What the tracker answers. -/
inductive LivenessAnswer where
  | joined (text : String)
  | heartbeat (answer : Except RelayError String)
  | swept (names : List String)
  | live (names : List String)
  deriving DecidableEq

/-- The tracker as a component. -/
def liveness : Machine LivenessTracker LivenessCall LivenessAnswer where
  step tracker
    | .join name now => (.joined (tracker.join name now).1, (tracker.join name now).2)
    | .heartbeat name now =>
      (.heartbeat (tracker.heartbeat name now).1, (tracker.heartbeat name now).2)
    | .sweep now => (.swept (tracker.sweep now).1, (tracker.sweep now).2)
    | .liveMembers => (.live tracker.liveMembers, tracker)

/-- What an event does to the leases of the members. -/
def memberLease : LivenessCall × LivenessAnswer → Option (LeaseEvent String ℤ)
  | (.join name now, _) => some (.granted name now)
  | (.heartbeat name now, .heartbeat (.ok _)) => some (.renewed name now)
  | (_, .swept names) => some (.lapsed names)
  | _ => none

/-- The leases of the members, told from the events. -/
def memberLeases (events : List (LivenessCall × LivenessAnswer)) : List (LeaseEvent String ℤ) :=
  events.filterMap memberLease

/-- The generation after some events: every member that joins begins one, and every sweep that finds
somebody. -/
def generationAfter (events : List (LivenessCall × LivenessAnswer)) : ℕ :=
  events.countP fun
    | (.join _ _, _) => true
    | (_, .swept names) => names ≠ []
    | _ => false

/-- What is answered after some events. -/
def LivenessAnswers (sessionTimeout : ℤ) (past : List (LivenessCall × LivenessAnswer)) :
    LivenessCall × LivenessAnswer → Prop
  | (.join name _, answer) =>
    answer = .joined s!"{name} joined at generation {(generationAfter past : ℤ) + 1}"
  | (.heartbeat name now, answer) =>
    ∃ result, answer = .heartbeat result ∧ HeartbeatAnswers (memberLeases past) name
      (.ok s!"{name} renewed at {now}") (.error (mustRejoin name)) (.error (noMember name)) result
  | (.sweep now, answer) =>
    ∃ names, answer = .swept names ∧
      NamesFresh (memberLeases past) (fun time => sessionTimeout < now - time) names
  | (.liveMembers, answer) =>
    ∃ names, answer = .live names ∧ NamesFresh (memberLeases past) (fun _ => True) names

/-- What the tracker keeps of a member's lease. -/
def Member.lease (member : Member) : ℤ × Bool := (member.lastHeartbeat, member.evicted)

section Members

variable {tracker : LivenessTracker} {past : List (LivenessCall × LivenessAnswer)}

/-- The tracker keeps the leases that the events tell of, and the generation. -/
structure TracksMembers (past : List (LivenessCall × LivenessAnswer)) (tracker : LivenessTracker) :
    Prop where
  table : LeaseTable (fun name => (tracker.members.get? name).map Member.lease) (memberLeases past)
  generation_eq : tracker.generation = generationAfter past

/-- A sweep finds the silent members, each once and in order. -/
theorem sweep_spec (tracker : LivenessTracker) (now : ℤ) :
    (tracker.sweep now).1.Pairwise (· < ·) ∧ ∀ name, name ∈ (tracker.sweep now).1 ↔
      ∃ member, tracker.members.get? name = some member ∧ tracker.Silent now member := by
  rw [LivenessTracker.sweep]
  dsimp only
  rw [map_filter_values tracker.name_eq]
  have hspec := sortedKeys_spec tracker.members fun member => decide (tracker.Silent now member)
  simp only [decide_eq_true_eq] at hspec
  exact hspec

/-- What a heartbeat answers. -/
theorem heartbeat_fst (tracker : LivenessTracker) (name : String) (now : ℤ) :
    (tracker.heartbeat name now).1 = match tracker.members.get? name with
      | none => .error (noMember name)
      | some member =>
        if member.evicted then .error (mustRejoin name) else .ok s!"{name} renewed at {now}" := by
  rw [LivenessTracker.heartbeat]
  split
  · next hnone => rw [hnone]
  · next member hget => split <;> next hevicted => simp [hget, hevicted]

/-- A heartbeat that is refused leaves the tracker alone. -/
theorem heartbeat_error {name : String} (now : ℤ)
    (hnot : ∀ member, tracker.members.get? name = some member → member.evicted = true) :
    ∃ error, tracker.heartbeat name now = (.error error, tracker) := by
  rw [LivenessTracker.heartbeat]
  split
  · exact ⟨_, rfl⟩
  · next member hget => exact ⟨_, if_pos (hnot member hget)⟩

/-- A heartbeat of a live member renews its lease. -/
theorem heartbeat_ok {name : String} (now : ℤ) {member : Member}
    (hget : tracker.members.get? name = some member) (hlive : member.evicted = false) :
    (tracker.heartbeat name now).1 = .ok s!"{name} renewed at {now}" ∧
      (tracker.heartbeat name now).2.members =
        tracker.members.set name { member with lastHeartbeat := now } ∧
      (tracker.heartbeat name now).2.generation = tracker.generation := by
  rw [LivenessTracker.heartbeat]
  split
  · next hnone => rw [hnone] at hget; cases hget
  · next member' hget' =>
    obtain rfl := Option.some.inj (hget'.symm.trans hget)
    rw [if_neg (by rw [hlive]; exact Bool.false_ne_true)]
    exact ⟨rfl, rfl, rfl⟩

theorem memberLeases_append_singleton (past : List (LivenessCall × LivenessAnswer))
    (e : LivenessCall × LivenessAnswer) :
    memberLeases (past ++ [e]) = memberLeases past ++ (memberLease e).toList := by
  rw [memberLeases, List.filterMap_append]
  cases he : memberLease e <;> simp [memberLeases, he]

/-- The generation counts the events that raise it. -/
theorem generationAfter_append_singleton (past : List (LivenessCall × LivenessAnswer))
    (e : LivenessCall × LivenessAnswer) :
    (generationAfter (past ++ [e]) : ℤ) = generationAfter past + generationAfter [e] := by
  rw [generationAfter, List.countP_append, Nat.cast_add]
  rfl

/-- Every call does to the leases what its event says. -/
theorem TracksMembers.step (h : TracksMembers past tracker) (call : LivenessCall) :
    TracksMembers (past ++ [(call, (liveness.step tracker call).1)])
      (liveness.step tracker call).2 := by
  refine ⟨?_, ?_⟩
  · rw [memberLeases_append_singleton]
    cases call with
    | join name now =>
      refine h.table.granted fun b => ?_
      rw [show (liveness.step tracker (.join name now)).2.members = tracker.members.set name
        { name, lastHeartbeat := now, generation := tracker.generation + 1 } from rfl,
        Dict.get?_set]
      split <;> rfl
    | heartbeat name now =>
      by_cases hlive : ∃ member, tracker.members.get? name = some member ∧ member.evicted = false
      · obtain ⟨member, hget, hlive⟩ := hlive
        obtain ⟨hok, hmembers, -⟩ := heartbeat_ok now hget hlive
        rw [liveness]
        dsimp only
        rw [hok, hmembers]
        refine h.table.renewed (s := member.lastHeartbeat) ?_ fun b => ?_
        · rw [hget, Option.map_some, Member.lease, hlive]
        · rw [Dict.get?_set]
          split
          · rw [Option.map_some, Member.lease, hlive]
          · rfl
      · obtain ⟨error, herror⟩ := heartbeat_error now fun member hget => by
          by_contra hne
          exact hlive ⟨member, hget, Bool.eq_false_iff.mpr hne⟩
        rw [liveness]
        dsimp only
        have hnone : memberLease (.heartbeat name now, .heartbeat (.error error)) = none := rfl
        rw [herror, hnone, Option.toList_none, List.append_nil]
        exact h.table
    | sweep now =>
      exact h.table.sweep (tracker.Silent now)
        (fun member => { member with evicted := true }) (fun member hsilent => hsilent.1)
        (fun member => rfl) (sweep_spec tracker now).2
    | liveMembers =>
      rw [show memberLease (.liveMembers, (liveness.step tracker .liveMembers).1) = none from rfl,
        Option.toList_none, List.append_nil]
      exact h.table
  · rw [generationAfter_append_singleton, ← h.generation_eq]
    cases call with
    | join name now => rfl
    | heartbeat name now =>
      have hsame : (tracker.heartbeat name now).2.generation = tracker.generation := by
        rw [LivenessTracker.heartbeat]
        split
        · rfl
        · split <;> rfl
      exact hsame.trans (Int.add_zero _).symm
    | sweep now =>
      have hperm := List.mergeSort_perm ((tracker.members.values.filter fun m =>
        tracker.Silent now m).map Member.name) fun a b => a ≤ b
      change (tracker.sweep now).2.generation = tracker.generation +
        (generationAfter [(.sweep now, .swept (tracker.sweep now).1)] : ℤ)
      rw [LivenessTracker.sweep]
      dsimp only
      by_cases hnone : (tracker.members.values.filter fun m =>
          tracker.Silent now m).map Member.name = []
      · rw [if_neg (not_not.mpr hnone), hnone, List.mergeSort_nil]
        exact (Int.add_zero _).symm
      · have hsome : ((tracker.members.values.filter fun m =>
            tracker.Silent now m).map Member.name).mergeSort (fun a b => a ≤ b) ≠ [] :=
          fun hnil => hnone (List.perm_nil.mp (hnil ▸ hperm).symm)
        rw [if_pos hnone, generationAfter, List.countP_singleton, if_pos (decide_eq_true hsome)]
        rfl
    | liveMembers => exact (Int.add_zero _).symm

/-- A tracker that nobody has joined. -/
def newTracker (sessionTimeout : ℤ) (h : 1 ≤ sessionTimeout) : LivenessTracker where
  sessionTimeout := sessionTimeout
  sessionTimeout_pos := h
  name_eq _ _ hnone := by cases hnone

variable {sessionTimeout : ℤ} {h : 1 ≤ sessionTimeout}

theorem tracksMembers_final (calls : List LivenessCall) :
    TracksMembers (liveness.trace (newTracker sessionTimeout h) calls)
      (liveness.final (newTracker sessionTimeout h) calls) := by
  refine Machine.trace_always (P := TracksMembers) ⟨LeaseTable.nil, rfl⟩ ?_ calls
  exact fun past tracker call hpast => hpast.step call

theorem final_sessionTimeout (calls : List LivenessCall) :
    (liveness.final (newTracker sessionTimeout h) calls).sessionTimeout = sessionTimeout := by
  refine Machine.final_eq_of_step LivenessTracker.sessionTimeout (fun tracker call => ?_) _ calls
  cases call with
  | heartbeat name now =>
    change (tracker.heartbeat name now).2.sessionTimeout = _
    rw [LivenessTracker.heartbeat]
    split
    · rfl
    · split <;> rfl
  | join name now => rfl
  | sweep now => rfl
  | liveMembers => rfl

/-- **Silence and leases.** A heartbeat renews a lease that is fresh, and nothing else: a member
that was swept since it joined has to join again. A sweep finds exactly the members whose leases
have been fresh for longer than the timeout, and live are those with a fresh lease. -/
theorem liveness_answers (h : 1 ≤ sessionTimeout) (calls : List LivenessCall) :
    Justified (LivenessAnswers sessionTimeout)
      (liveness.trace (newTracker sessionTimeout h) calls) := by
  refine Machine.justified_trace (fun calls call => ?_) calls
  obtain ⟨htable, hgeneration⟩ := tracksMembers_final (h := h) calls
  have htimeout := final_sessionTimeout (h := h) calls
  revert htable hgeneration htimeout
  generalize liveness.final (newTracker sessionTimeout h) calls = tracker
  generalize liveness.trace (newTracker sessionTimeout h) calls = past
  intro htable hgeneration htimeout
  cases call with
  | join name now =>
    rw [LivenessAnswers, ← hgeneration]
    rfl
  | heartbeat name now =>
    refine ⟨_, rfl, heartbeatAnswers_of_table htable ?_⟩
    rw [heartbeat_fst]
    cases tracker.members.get? name <;> rfl
  | sweep now =>
    obtain ⟨hsorted, hnames⟩ := sweep_spec tracker now
    refine ⟨_, rfl, namesFresh_of_table htable (p := fun member => tracker.Silent now member)
      (fun member => ?_) hsorted fun name => ?_⟩
    · rw [decide_eq_true_eq, LivenessTracker.Silent, htimeout]
      rfl
    · rw [hnames]
      simp only [decide_eq_true_eq]
  | liveMembers =>
    obtain ⟨hsorted, hnames⟩ := sortedKeys_spec tracker.members fun member => member.evicted = false
    refine ⟨_, rfl, namesFresh_of_table htable (fun member => ?_) hsorted hnames⟩
    rw [decide_eq_true_eq, and_true]
    rfl

theorem liveness_answers_evicted :
    Justified (LivenessAnswers 5) (liveness.trace (newTracker 5 (by decide))
      [.join "a" 0, .sweep 10, .heartbeat "a" 11]) :=
  liveness_answers (by decide) _

end Members

/-! ## The brokers of a cluster -/

/-- What is asked of the cluster. -/
inductive ClusterCall where
  | register (brokerId rack : String) (now : ℤ)
  | heartbeat (brokerId : String) (now : ℤ)
  | fenceLapsed (now : ℤ)
  | liveBrokers
  | rackDiverseEnough (replicationFactor : ℤ)
  deriving DecidableEq

/-- What the cluster answers. -/
inductive ClusterAnswer where
  | joined (text : String)
  | heartbeat (answer : Except RelayError Unit)
  | fenced (ids : List String)
  | live (ids : List String)
  | racks (text : String)
  deriving DecidableEq

/-- The cluster as a component. -/
def clusterMembership : Machine ClusterMembership ClusterCall ClusterAnswer where
  step cluster
    | .register brokerId rack now =>
      (.joined (cluster.register brokerId rack now).1, (cluster.register brokerId rack now).2)
    | .heartbeat brokerId now =>
      (.heartbeat (cluster.heartbeat brokerId now).1, (cluster.heartbeat brokerId now).2)
    | .fenceLapsed now => (.fenced (cluster.fenceLapsed now).1, (cluster.fenceLapsed now).2)
    | .liveBrokers => (.live cluster.liveBrokers, cluster)
    | .rackDiverseEnough replicationFactor =>
      (.racks (cluster.rackDiverseEnough replicationFactor), cluster)

/-- What an event does to the leases of the brokers. -/
def brokerLease : ClusterCall × ClusterAnswer → Option (LeaseEvent String ℤ)
  | (.register brokerId _ now, _) => some (.granted brokerId now)
  | (.heartbeat brokerId now, .heartbeat (.ok _)) => some (.renewed brokerId now)
  | (_, .fenced ids) => some (.lapsed ids)
  | _ => none

/-- The leases of the brokers, told from the events. -/
def brokerLeases (events : List (ClusterCall × ClusterAnswer)) : List (LeaseEvent String ℤ) :=
  events.filterMap brokerLease

/-- The broker last registered with the rack. -/
def Registered (brokerId rack : String) (events : List (ClusterCall × ClusterAnswer)) : Prop :=
  Since (fun _ e => ∀ rack' now, e.1 ≠ .register brokerId rack' now)
    (fun _ e => ∃ now, e.1 = .register brokerId rack now) events

/-- The epoch after some events: every broker that registers begins one, and every sweep that finds
somebody. -/
def epochAfter (events : List (ClusterCall × ClusterAnswer)) : ℕ :=
  events.countP fun
    | (.register _ _ _, _) => true
    | (_, .fenced ids) => ids ≠ []
    | _ => false

/-- What is answered after some events. -/
def ClusterAnswers (fenceAfter : ℤ) (past : List (ClusterCall × ClusterAnswer)) :
    ClusterCall × ClusterAnswer → Prop
  | (.register brokerId rack _, answer) =>
    answer = .joined s!"{brokerId} joined rack {rack} at epoch {(epochAfter past : ℤ) + 1}"
  | (.heartbeat brokerId _, answer) =>
    ∃ result, answer = .heartbeat result ∧ HeartbeatAnswers (brokerLeases past) brokerId (.ok ())
      (.error (mustReregister brokerId)) (.error (notRegistered brokerId)) result
  | (.fenceLapsed now, answer) =>
    ∃ ids, answer = .fenced ids ∧
      NamesFresh (brokerLeases past) (fun time => fenceAfter < now - time) ids
  | (.liveBrokers, answer) =>
    ∃ ids, answer = .live ids ∧ NamesFresh (brokerLeases past) (fun _ => True) ids
  | (.rackDiverseEnough replicationFactor, answer) =>
    ∃ racks : Finset String, (∀ rack, rack ∈ racks ↔ ∃ brokerId time,
        Fresh brokerId time (brokerLeases past) ∧ Registered brokerId rack past) ∧
      answer = .racks (ClusterMembership.rackNote racks.card replicationFactor)

/-- What the cluster keeps of a broker's lease. -/
def ClusterMembership.Broker.lease (broker : ClusterMembership.Broker) : ℤ × Bool :=
  (broker.lastHeartbeat, broker.fenced)

section Brokers

variable {cluster : ClusterMembership} {past : List (ClusterCall × ClusterAnswer)}

/-- The cluster keeps the leases and the racks that the events tell of, and the epoch. -/
structure TracksBrokers (past : List (ClusterCall × ClusterAnswer)) (cluster : ClusterMembership) :
    Prop where
  table : LeaseTable (fun id => (cluster.brokers.get? id).map ClusterMembership.Broker.lease)
    (brokerLeases past)
  racks : ∀ id rack, (cluster.brokers.get? id).map ClusterMembership.Broker.rack = some rack ↔
    Registered id rack past
  epoch_eq : cluster.epoch = epochAfter past

/-- Fencing finds the silent brokers, each once and in order. -/
theorem fenceLapsed_spec (cluster : ClusterMembership) (now : ℤ) :
    (cluster.fenceLapsed now).1.Pairwise (· < ·) ∧ ∀ id, id ∈ (cluster.fenceLapsed now).1 ↔
      ∃ broker, cluster.brokers.get? id = some broker ∧ cluster.Silent now broker := by
  rw [ClusterMembership.fenceLapsed]
  dsimp only
  rw [map_filter_values cluster.brokerId_eq]
  have hspec := sortedKeys_spec cluster.brokers fun broker => decide (cluster.Silent now broker)
  simp only [decide_eq_true_eq] at hspec
  exact hspec

theorem heartbeat_broker_fst (cluster : ClusterMembership) (brokerId : String) (now : ℤ) :
    (cluster.heartbeat brokerId now).1 = match cluster.brokers.get? brokerId with
      | none => .error (notRegistered brokerId)
      | some broker => if broker.fenced then .error (mustReregister brokerId) else .ok () := by
  rw [ClusterMembership.heartbeat]
  split
  · next hnone => rw [hnone]
  · next broker hget => split <;> next hfenced => simp [hget, hfenced]

/-- A heartbeat that is refused leaves the cluster alone. -/
theorem heartbeat_broker_error {brokerId : String} (now : ℤ)
    (hnot : ∀ broker, cluster.brokers.get? brokerId = some broker → broker.fenced = true) :
    ∃ error, cluster.heartbeat brokerId now = (.error error, cluster) := by
  rw [ClusterMembership.heartbeat]
  split
  · exact ⟨_, rfl⟩
  · next broker hget => exact ⟨_, if_pos (hnot broker hget)⟩

/-- A heartbeat of a broker that is not fenced renews its lease. -/
theorem heartbeat_broker_ok {brokerId : String} (now : ℤ) {broker : ClusterMembership.Broker}
    (hget : cluster.brokers.get? brokerId = some broker) (hlive : broker.fenced = false) :
    (cluster.heartbeat brokerId now).1 = .ok () ∧
      (cluster.heartbeat brokerId now).2.brokers =
        cluster.brokers.set brokerId { broker with lastHeartbeat := now } ∧
      (cluster.heartbeat brokerId now).2.epoch = cluster.epoch := by
  rw [ClusterMembership.heartbeat]
  split
  · next hnone => rw [hnone] at hget; cases hget
  · next broker' hget' =>
    obtain rfl := Option.some.inj (hget'.symm.trans hget)
    rw [if_neg (by rw [hlive]; exact Bool.false_ne_true)]
    exact ⟨rfl, rfl, rfl⟩

theorem brokerLeases_append_singleton (past : List (ClusterCall × ClusterAnswer))
    (e : ClusterCall × ClusterAnswer) :
    brokerLeases (past ++ [e]) = brokerLeases past ++ (brokerLease e).toList := by
  rw [brokerLeases, List.filterMap_append]
  cases he : brokerLease e <;> simp [brokerLeases, he]

/-- What is not a registration leaves the racks as they are. -/
theorem registered_append_singleton {e : ClusterCall × ClusterAnswer} {id rack : String}
    (he : ∀ rack' now, e.1 ≠ .register id rack' now) :
    Registered id rack (past ++ [e]) ↔ Registered id rack past := by
  rw [Registered, since_append_singleton, ← Registered, and_iff_left he]
  exact or_iff_right fun ⟨now, heq⟩ => he rack now heq

theorem epochAfter_append_singleton (past : List (ClusterCall × ClusterAnswer))
    (e : ClusterCall × ClusterAnswer) :
    (epochAfter (past ++ [e]) : ℤ) = epochAfter past + epochAfter [e] := by
  rw [epochAfter, List.countP_append, Nat.cast_add]
  rfl

/-- What does nothing to the leases, the racks and the epoch. -/
theorem TracksBrokers.idle (h : TracksBrokers past cluster) {e : ClusterCall × ClusterAnswer}
    (hlease : brokerLease e = none) (hcall : ∀ id rack now, e.1 ≠ .register id rack now)
    (hepoch : epochAfter [e] = 0) : TracksBrokers (past ++ [e]) cluster where
  table := by
    rw [brokerLeases_append_singleton, hlease, Option.toList_none, List.append_nil]
    exact h.table
  racks id rack := by
    rw [registered_append_singleton fun rack' now => hcall id rack' now]
    exact h.racks id rack
  epoch_eq := by
    rw [epochAfter_append_singleton, hepoch, h.epoch_eq]
    exact (Int.add_zero _).symm

/-- A registration grants a lease and names the rack. -/
theorem TracksBrokers.register (h : TracksBrokers past cluster) (brokerId rack : String) (now : ℤ)
    (answer : ClusterAnswer) :
    TracksBrokers (past ++ [(.register brokerId rack now, answer)])
      (cluster.register brokerId rack now).2 where
  table := by
    rw [brokerLeases_append_singleton]
    refine h.table.granted fun b => ?_
    rw [ClusterMembership.register, Dict.get?_set]
    split <;> rfl
  racks id rack' := by
    rw [Registered, since_append_singleton, ← Registered, ← h.racks, ClusterMembership.register,
      Dict.get?_set]
    by_cases hid : id = brokerId
    · subst hid
      simp
    · simp [hid, Ne.symm hid]
  epoch_eq := by
    rw [epochAfter_append_singleton, ← h.epoch_eq]
    rfl

/-- A heartbeat renews a lease or does nothing. -/
theorem TracksBrokers.heartbeat (h : TracksBrokers past cluster) (brokerId : String) (now : ℤ) :
    TracksBrokers (past ++ [(.heartbeat brokerId now,
      .heartbeat (cluster.heartbeat brokerId now).1)]) (cluster.heartbeat brokerId now).2 := by
  by_cases hlive : ∃ broker, cluster.brokers.get? brokerId = some broker ∧ broker.fenced = false
  · obtain ⟨broker, hget, hlive⟩ := hlive
    obtain ⟨hok, hbrokers, hepoch⟩ := heartbeat_broker_ok now hget hlive
    refine ⟨?_, fun id rack => ?_, ?_⟩
    · rw [brokerLeases_append_singleton, hok, hbrokers]
      refine h.table.renewed (s := broker.lastHeartbeat) ?_ fun b => ?_
      · rw [hget, Option.map_some, ClusterMembership.Broker.lease, hlive]
      · rw [Dict.get?_set]
        split
        · rw [Option.map_some, ClusterMembership.Broker.lease, hlive]
        · rfl
    · rw [registered_append_singleton (fun rack' now heq => by cases heq), ← h.racks, hbrokers,
        Dict.get?_set]
      by_cases hid : id = brokerId
      · rw [if_pos hid, hid, hget]
        rfl
      · rw [if_neg hid]
    · rw [epochAfter_append_singleton, hepoch, h.epoch_eq]
      exact (Int.add_zero _).symm
  · obtain ⟨error, herror⟩ := heartbeat_broker_error now fun broker hget => by
      by_contra hne
      exact hlive ⟨broker, hget, Bool.eq_false_iff.mpr hne⟩
    rw [herror]
    exact h.idle rfl (fun id rack now => nofun) rfl

/-- Fencing ends the leases of the silent brokers. -/
theorem TracksBrokers.fenceLapsed (h : TracksBrokers past cluster) (now : ℤ) :
    TracksBrokers (past ++ [(.fenceLapsed now, .fenced (cluster.fenceLapsed now).1)])
      (cluster.fenceLapsed now).2 where
  table := by
    rw [brokerLeases_append_singleton]
    exact h.table.sweep (cluster.Silent now)
      (fun broker => { broker with fenced := true }) (fun broker hsilent => hsilent.1)
      (fun broker => rfl) (fenceLapsed_spec cluster now).2
  racks id rack := by
    rw [registered_append_singleton (fun rack' now heq => by cases heq), ← h.racks,
      ClusterMembership.fenceLapsed]
    dsimp only
    rw [Dict.get?_mapValues]
    cases cluster.brokers.get? id with
    | none => rfl
    | some broker =>
      rw [Option.map_some, Option.map_some, Option.map_some]
      split <;> rfl
  epoch_eq := by
    have hperm := List.mergeSort_perm ((cluster.brokers.values.filter fun b =>
      cluster.Silent now b).map ClusterMembership.Broker.brokerId) fun a b => a ≤ b
    rw [epochAfter_append_singleton, ← h.epoch_eq, ClusterMembership.fenceLapsed]
    dsimp only
    by_cases hnone : (cluster.brokers.values.filter fun b =>
        cluster.Silent now b).map ClusterMembership.Broker.brokerId = []
    · rw [if_neg (not_not.mpr hnone), hnone, List.mergeSort_nil]
      exact (Int.add_zero _).symm
    · have hsome : ((cluster.brokers.values.filter fun b =>
          cluster.Silent now b).map ClusterMembership.Broker.brokerId).mergeSort
            (fun a b => a ≤ b) ≠ [] :=
        fun hnil => hnone (List.perm_nil.mp (hnil ▸ hperm).symm)
      rw [if_pos hnone, epochAfter, List.countP_singleton, if_pos (decide_eq_true hsome)]
      rfl

theorem TracksBrokers.step (h : TracksBrokers past cluster) (call : ClusterCall) :
    TracksBrokers (past ++ [(call, (clusterMembership.step cluster call).1)])
      (clusterMembership.step cluster call).2 := by
  cases call with
  | register brokerId rack now => exact h.register brokerId rack now _
  | heartbeat brokerId now => exact h.heartbeat brokerId now
  | fenceLapsed now => exact h.fenceLapsed now
  | liveBrokers => exact h.idle rfl (fun id rack now => nofun) rfl
  | rackDiverseEnough replicationFactor => exact h.idle rfl (fun id rack now => nofun) rfl

/-- A cluster that no broker has registered with. -/
def newCluster (fenceAfter : ℤ) (h : 1 ≤ fenceAfter) : ClusterMembership where
  fenceAfter := fenceAfter
  fenceAfter_pos := h
  brokerId_eq _ _ hnone := by cases hnone

variable {fenceAfter : ℤ} {h : 1 ≤ fenceAfter}

theorem tracksBrokers_final (calls : List ClusterCall) :
    TracksBrokers (clusterMembership.trace (newCluster fenceAfter h) calls)
      (clusterMembership.final (newCluster fenceAfter h) calls) := by
  refine Machine.trace_always (P := TracksBrokers) ⟨LeaseTable.nil, fun id rack => ?_, rfl⟩ ?_ calls
  · exact iff_of_false nofun not_since_nil
  · exact fun past cluster call hpast => hpast.step call

theorem final_fenceAfter (calls : List ClusterCall) :
    (clusterMembership.final (newCluster fenceAfter h) calls).fenceAfter = fenceAfter := by
  refine Machine.final_eq_of_step ClusterMembership.fenceAfter (fun cluster call => ?_) _ calls
  cases call with
  | heartbeat brokerId now =>
    change (cluster.heartbeat brokerId now).2.fenceAfter = _
    rw [ClusterMembership.heartbeat]
    split
    · rfl
    · split <;> rfl
  | register brokerId rack now => rfl
  | fenceLapsed now => rfl
  | liveBrokers => rfl
  | rackDiverseEnough replicationFactor => rfl

/-- **Brokers and their racks.** A heartbeat renews a lease that is fresh, and nothing else: a
broker that was fenced since it registered has to register again. A sweep fences exactly the brokers
whose leases have been fresh for longer than the timeout, live are those with a fresh lease, and the
racks that count are the ones these last registered with. -/
theorem cluster_answers (h : 1 ≤ fenceAfter) (calls : List ClusterCall) :
    Justified (ClusterAnswers fenceAfter)
      (clusterMembership.trace (newCluster fenceAfter h) calls) := by
  refine Machine.justified_trace (fun calls call => ?_) calls
  obtain ⟨htable, hracks, hepoch⟩ := tracksBrokers_final (h := h) calls
  have htimeout := final_fenceAfter (h := h) calls
  revert htable hracks hepoch htimeout
  generalize clusterMembership.final (newCluster fenceAfter h) calls = cluster
  generalize clusterMembership.trace (newCluster fenceAfter h) calls = past
  intro htable hracks hepoch htimeout
  cases call with
  | register brokerId rack now =>
    rw [ClusterAnswers, ← hepoch]
    rfl
  | heartbeat brokerId now =>
    refine ⟨_, rfl, heartbeatAnswers_of_table htable ?_⟩
    rw [heartbeat_broker_fst]
    cases cluster.brokers.get? brokerId <;> rfl
  | fenceLapsed now =>
    obtain ⟨hsorted, hids⟩ := fenceLapsed_spec cluster now
    refine ⟨_, rfl, namesFresh_of_table htable (p := fun broker => cluster.Silent now broker)
      (fun broker => ?_) hsorted fun id => ?_⟩
    · rw [decide_eq_true_eq, ClusterMembership.Silent, htimeout]
      rfl
    · rw [hids]
      simp only [decide_eq_true_eq]
  | liveBrokers =>
    obtain ⟨hsorted, hids⟩ := sortedKeys_spec cluster.brokers fun broker => broker.fenced = false
    rw [← map_filter_values cluster.brokerId_eq fun broker => decide (broker.fenced = false)]
      at hsorted hids
    refine ⟨_, rfl, namesFresh_of_table htable (fun broker => ?_) hsorted hids⟩
    rw [decide_eq_true_eq, and_true]
    rfl
  | rackDiverseEnough replicationFactor =>
    refine ⟨cluster.racksAvailable, fun rack => ?_, rfl⟩
    rw [ClusterMembership.racksAvailable, List.mem_toFinset, List.mem_map]
    simp only [← htable.fresh, ← hracks, Option.map_eq_some_iff]
    constructor
    · rintro ⟨broker, hbroker, rfl⟩
      obtain ⟨hvalue, hlive⟩ := List.mem_filter.mp hbroker
      obtain ⟨id, hget⟩ := cluster.brokers.mem_values_iff.mp hvalue
      refine ⟨id, broker.lastHeartbeat, ⟨broker, hget, ?_⟩, broker, hget, rfl⟩
      rw [ClusterMembership.Broker.lease, of_decide_eq_true hlive]
    · rintro ⟨id, time, ⟨broker, hget, hlease⟩, broker', hget', rfl⟩
      obtain rfl := Option.some.inj (hget.symm.trans hget')
      refine ⟨broker, List.mem_filter.mpr ⟨cluster.brokers.mem_values_iff.mpr ⟨id, hget⟩, ?_⟩, rfl⟩
      exact decide_eq_true (Prod.mk.inj hlease).2

theorem cluster_answers_fenced :
    Justified (ClusterAnswers 5) (clusterMembership.trace (newCluster 5 (by decide))
      [.register "a" "r" 0, .fenceLapsed 10, .heartbeat "a" 11, .rackDiverseEnough 1]) :=
  cluster_answers (by decide) _

end Brokers

end Relay
