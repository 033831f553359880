import Relay.ConsumerGroup
import Relay.Retention
import Mathlib.Data.Fintype.Basic

/-!
# Retention never loses unread committed data

Any number of partitions, any number of consumer groups, and the four calls that move them:
appends, watermark advances, commits and retention runs, interleaved in any order. The one thing
asked of the caller is what retention asks for: a committed floor that no group is still
below on the partition it is applied to.

The floor is compared with whole segments while groups commit single offsets. What carries the
argument across is the start of the window: it never passes a floor, a floor never passes a
group's position, and positions only grow.

## Scope

The run of the source over one fixed log is left out: the statement here is about every run.

## Main definitions

* `Broker`, `BrokerCall`, `brokerMachine`
* `Broker.FloorRespected`: the condition on retention calls

## Main results

* `BrokerInvariant`, with `BrokerInvariant.step`
* `consume_unread_committed`: the record a group has not read and the watermark promises is there
-/

namespace Relay

variable {π γ : Type*}

/-- Partitions and consumer groups, each addressed by an index of any type. -/
structure Broker (π γ : Type*) where
  partitions : π → Partition
  groups : γ → ConsumerGroup

/-- A call on one partition, or on one group and one partition. -/
inductive BrokerCall (π γ : Type*) where
  | append (p : π) (record : Record)
  | advanceWatermark (p : π) (toOffset : ℤ)
  | commit (g : γ) (p : π) (offset : ℤ)
  | retain (p : π) (run : RetentionRun) (segmentLastTick : Dict ℤ ℤ) (now committedFloor : ℤ)

/-- What the calls answer. -/
inductive BrokerAnswer where
  | appended (answer : Except RelayError ℤ)
  | advanced (answer : Except RelayError String)
  | committed (answer : Except RelayError String)
  | retained (report : String) (run : RetentionRun)

namespace Broker

/-- Empty partitions, and groups that have committed nothing. -/
def fresh (number : π → ℤ) (name : γ → String) (contract : γ → Contract) : Broker π γ where
  partitions p := { number := number p }
  groups g := { name := name g, contract := contract g }

/-- The group's position on the partition. -/
def position (broker : Broker π γ) (g : γ) (p : π) : ℤ :=
  (broker.groups g).position (broker.partitions p).number

/-- Change one partition. -/
def setPartition [DecidableEq π] (broker : Broker π γ) (p : π) (partition : Partition) :
    Broker π γ :=
  { broker with partitions := Function.update broker.partitions p partition }

/-- Change one group. -/
def setGroup [DecidableEq γ] (broker : Broker π γ) (g : γ) (group : ConsumerGroup) : Broker π γ :=
  { broker with groups := Function.update broker.groups g group }

/-- A retention call is made with a floor no group is below. -/
def FloorRespected (broker : Broker π γ) : BrokerCall π γ → Prop
  | .retain p _ _ _ committedFloor => ∀ g, committedFloor ≤ broker.position g p
  | _ => True

instance [Fintype γ] (broker : Broker π γ) : ∀ call, Decidable (broker.FloorRespected call)
  | .append _ _ => inferInstanceAs (Decidable True)
  | .advanceWatermark _ _ => inferInstanceAs (Decidable True)
  | .commit _ _ _ => inferInstanceAs (Decidable True)
  | .retain p _ _ _ committedFloor =>
    inferInstanceAs (Decidable (∀ g, committedFloor ≤ broker.position g p))

end Broker

/-- The broker under any order of calls. -/
def brokerMachine [DecidableEq π] [DecidableEq γ] :
    Machine (Broker π γ) (BrokerCall π γ) BrokerAnswer where
  step broker
    | .append p record =>
      let result := (broker.partitions p).append record
      (.appended result.1, broker.setPartition p result.2)
    | .advanceWatermark p toOffset =>
      let result := (broker.partitions p).advanceWatermark toOffset
      (.advanced result.1, broker.setPartition p result.2)
    | .commit g p offset =>
      let result := (broker.groups g).commit (broker.partitions p) offset
      (.committed result.1, broker.setGroup g result.2)
    | .retain p run segmentLastTick now committedFloor =>
      let result := run.apply (broker.partitions p).log segmentLastTick now committedFloor
      (.retained result.1 result.2.1,
        broker.setPartition p { broker.partitions p with log := result.2.2 })

/-- The records appended to one partition in a trace, each with what its append answered. -/
def appendsTo [DecidableEq π] (p : π) (past : List (BrokerCall π γ × BrokerAnswer)) :
    List (Record × Except RelayError ℤ) :=
  past.filterMap fun
    | (.append q record, .appended answer) => if q = p then some (record, answer) else none
    | _ => none

theorem appendsTo_append [DecidableEq π] (p : π)
    (past later : List (BrokerCall π γ × BrokerAnswer)) :
    appendsTo p (past ++ later) = appendsTo p past ++ appendsTo p later :=
  List.filterMap_append

/-! ## The invariant -/

/-- Partition `p` stores the abstract log `l`, with its watermark inside what was written and
every group at or past the start of the window. -/
structure Keeps (broker : Broker π γ) (p : π) (l : OffsetLog Record) : Prop where
  represents : Represents (broker.partitions p).log.segments l
  highWatermark_le : (broker.partitions p).highWatermark ≤ l.written.length
  start_le_position : ∀ g, (l.start : ℤ) ≤ broker.position g p

/-- Every partition stores exactly what was appended to it, in order. -/
def BrokerInvariant [DecidableEq π] (past : List (BrokerCall π γ × BrokerAnswer))
    (broker : Broker π γ) : Prop :=
  ∀ p, ∃ l, Keeps broker p l ∧ appendsTo p past = numberedAppends l.written

theorem brokerInvariant_fresh [DecidableEq π] (number : π → ℤ) (name : γ → String)
    (contract : γ → Contract) :
    BrokerInvariant [] (Broker.fresh number name contract) := by
  intro p
  refine ⟨OffsetLog.empty, ⟨represents_fresh, by simp [Broker.fresh, OffsetLog.empty], ?_⟩, rfl⟩
  intro g
  rw [Broker.position, ConsumerGroup.position_of_committed_empty rfl]
  simp [OffsetLog.empty]

section Frame

variable {broker : Broker π γ} {p q : π} {l : OffsetLog Record}

/-- A partition that a call does not touch keeps what it stores. -/
theorem Keeps.setPartition_of_ne [DecidableEq π] (h : Keeps broker q l) (hne : q ≠ p)
    (partition : Partition) : Keeps (broker.setPartition p partition) q l := by
  have hq : (broker.setPartition p partition).partitions q = broker.partitions q :=
    Function.update_of_ne hne _ _
  refine ⟨by rw [hq]; exact h.represents, by rw [hq]; exact h.highWatermark_le, fun g => ?_⟩
  rw [Broker.position, hq]
  exact h.start_le_position g

/-- A touched partition stores `l` if its new log and watermark do and it keeps its number. -/
theorem keeps_setPartition_self [DecidableEq π] {partition : Partition}
    (hnumber : partition.number = (broker.partitions p).number)
    (hrep : Represents partition.log.segments l)
    (hwatermark : partition.highWatermark ≤ l.written.length)
    (hstart : ∀ g, (l.start : ℤ) ≤ broker.position g p) :
    Keeps (broker.setPartition p partition) p l := by
  have hp : (broker.setPartition p partition).partitions p = partition :=
    Function.update_self _ _ _
  refine ⟨by rw [hp]; exact hrep, by rw [hp]; exact hwatermark, fun g => ?_⟩
  rw [Broker.position, hp, hnumber]
  exact hstart g

/-- A group that only moves forward stays past the start of every window. -/
theorem Keeps.setGroup [DecidableEq γ] (h : Keeps broker q l) {g : γ} {group : ConsumerGroup}
    (hle : ∀ n, (broker.groups g).position n ≤ group.position n) :
    Keeps (broker.setGroup g group) q l := by
  refine ⟨h.represents, h.highWatermark_le, fun g' => (h.start_le_position g').trans ?_⟩
  by_cases hg : g' = g
  · subst hg
    simpa [Broker.position, Broker.setGroup] using hle _
  · simp [Broker.position, Broker.setGroup, hg]

end Frame

/-- A call that appends nothing to `q` leaves its record of appends as it was. -/
theorem exists_keeps_of_appendsTo_nil [DecidableEq π] 
    {past : List (BrokerCall π γ × BrokerAnswer)} {event : BrokerCall π γ × BrokerAnswer}
    {broker : Broker π γ} {q : π} {l l' : OffsetLog Record}
    (hpast : appendsTo q past = numberedAppends l.written) (hkeeps : Keeps broker q l')
    (hwritten : l'.written = l.written) (hnil : appendsTo q [event] = []) :
    ∃ l', Keeps broker q l' ∧ appendsTo q (past ++ [event]) = numberedAppends l'.written :=
  ⟨l', hkeeps, by rw [appendsTo_append, hnil, List.append_nil, hpast, hwritten]⟩

/-- What the broker promises about partitions and groups, given everything that was done. -/
structure BrokerContract [DecidableEq π] (past : List (BrokerCall π γ × BrokerAnswer))
    (broker : Broker π γ) : Prop where
  /-- A committed record that some group has not read yet can be consumed, and is the record
  that was appended at that offset. -/
  consume_ok : ∀ g p o, broker.position g p ≤ o → o < (broker.partitions p).highWatermark →
    ∃ record, (broker.partitions p).consume o = .ok record ∧ (record, .ok o) ∈ appendsTo p past
  /-- No watermark is past the end of its log. -/
  highWatermark_le : ∀ p,
    (broker.partitions p).highWatermark ≤ (broker.partitions p).log.nextOffset

theorem BrokerInvariant.contract [DecidableEq π] {past : List (BrokerCall π γ × BrokerAnswer)}
    {broker : Broker π γ} (h : BrokerInvariant past broker) : BrokerContract past broker := by
  constructor
  case consume_ok =>
    intro g p o hposition hwatermark
    obtain ⟨l, hkeeps, hpast⟩ := h p
    have hstart : (l.start : ℤ) ≤ o := (hkeeps.start_le_position g).trans hposition
    have hlt : o < l.written.length := hwatermark.trans_le hkeeps.highWatermark_le
    obtain ⟨record, hfound⟩ := OffsetLog.exists_read_eq_found hstart hlt
    obtain ⟨-, hget⟩ := OffsetLog.read_eq_found_iff.mp hfound
    refine ⟨record, ?_, ?_⟩
    · rw [Partition.consume_of_lt hwatermark, hkeeps.represents.read_eq, hfound]
    · rw [hpast, mem_numberedAppends]
      exact ⟨by omega, hget⟩
  case highWatermark_le =>
    intro p
    obtain ⟨l, hkeeps, -⟩ := h p
    rw [hkeeps.represents.nextOffset]
    exact hkeeps.highWatermark_le

section Run

variable [DecidableEq π] [DecidableEq γ]

/-- **One call keeps the invariant.** -/
theorem BrokerInvariant.step {past : List (BrokerCall π γ × BrokerAnswer)} {broker : Broker π γ}
    (h : BrokerInvariant past broker) (call : BrokerCall π γ)
    (hfloor : broker.FloorRespected call) :
    BrokerInvariant (past ++ [(call, (brokerMachine.step broker call).1)])
      (brokerMachine.step broker call).2 := by
  intro q
  obtain ⟨l, hkeeps, hpast⟩ := h q
  cases call with
  | append p record =>
    by_cases hq : q = p
    · subst hq
      obtain ⟨hanswer, hrep⟩ := hkeeps.represents.append record
      refine ⟨l.append record, keeps_setPartition_self rfl hrep ?_ hkeeps.start_le_position, ?_⟩
      · show (broker.partitions q).highWatermark ≤ ((l.append record).written.length : ℤ)
        have hle := hkeeps.highWatermark_le
        rw [OffsetLog.append_written, List.length_append, List.length_singleton]
        omega
      · rw [appendsTo_append, hpast, OffsetLog.append_written, numberedAppends_append_singleton]
        simp [appendsTo, brokerMachine, Partition.append, hanswer]
    · exact exists_keeps_of_appendsTo_nil hpast (hkeeps.setPartition_of_ne hq _) rfl
        (by simp [appendsTo, brokerMachine, Ne.symm hq])
  | advanceWatermark p toOffset =>
    have hstep : Keeps
        (broker.setPartition p ((broker.partitions p).advanceWatermark toOffset).2) q l := by
      by_cases hq : q = p
      · subst hq
        obtain hsame | ⟨-, hle, hmoved⟩ :=
          (broker.partitions q).advanceWatermark_cases toOffset
        · rw [hsame]
          exact keeps_setPartition_self rfl hkeeps.represents hkeeps.highWatermark_le
            hkeeps.start_le_position
        · rw [hmoved]
          rw [hkeeps.represents.nextOffset] at hle
          exact keeps_setPartition_self rfl hkeeps.represents hle hkeeps.start_le_position
      · exact hkeeps.setPartition_of_ne hq _
    exact exists_keeps_of_appendsTo_nil hpast hstep rfl rfl
  | commit g p offset =>
    exact exists_keeps_of_appendsTo_nil hpast
      (hkeeps.setGroup ((broker.groups g).position_le_commit _ offset)) rfl rfl
  | retain p run segmentLastTick now committedFloor =>
    by_cases hq : q = p
    · subst hq
      obtain ⟨l', hrep, hwritten, hstart⟩ :=
        hkeeps.represents.applyLoop segmentLastTick now committedFloor run
      refine exists_keeps_of_appendsTo_nil hpast (keeps_setPartition_self rfl hrep ?_ ?_)
        hwritten rfl
      · rw [hwritten]; exact hkeeps.highWatermark_le
      · intro g
        rcases hstart with hstart | hstart
        · rw [hstart]; exact hkeeps.start_le_position g
        · exact hstart.trans (hfloor g)
    · exact exists_keeps_of_appendsTo_nil hpast (hkeeps.setPartition_of_ne hq _) rfl rfl

/-- **Watermarks never retreat**, whatever the call. -/
theorem highWatermark_le_step (broker : Broker π γ) (call : BrokerCall π γ) (q : π) :
    (broker.partitions q).highWatermark ≤
      ((brokerMachine.step broker call).2.partitions q).highWatermark := by
  have hset : ∀ p partition, (broker.partitions p).highWatermark ≤ partition.highWatermark →
      (broker.partitions q).highWatermark ≤
        ((broker.setPartition p partition).partitions q).highWatermark := by
    intro p partition hle
    by_cases hq : q = p
    · subst hq; simpa [Broker.setPartition] using hle
    · simp [Broker.setPartition, hq]
  cases call with
  | append p record => exact hset p _ le_rfl
  | advanceWatermark p toOffset =>
    refine hset p ((broker.partitions p).advanceWatermark toOffset).2 ?_
    obtain hsame | ⟨hle, -, hmoved⟩ := (broker.partitions p).advanceWatermark_cases toOffset
    · rw [hsame]
    · rw [hmoved]; exact hle
  | commit g p offset => exact le_rfl
  | retain p run segmentLastTick now committedFloor => exact hset p _ le_rfl

/-- **Retention never loses unread committed data.** In every interleaving in which retention is
called with a floor that no group is below, every committed record that some group has yet to
read is still there; and watermarks never retreat from one point of the run to a later one. -/
theorem consume_unread_committed (number : π → ℤ) (name : γ → String) (contract : γ → Contract)
    (calls : List (BrokerCall π γ))
    (hfloor : brokerMachine.Guarded Broker.FloorRespected (Broker.fresh number name contract)
      calls) :
    BrokerContract (brokerMachine.trace (Broker.fresh number name contract) calls)
        (brokerMachine.final (Broker.fresh number name contract) calls) ∧
      ∀ earlier later, calls = earlier ++ later → ∀ p,
        ((brokerMachine.final (Broker.fresh number name contract) earlier).partitions
            p).highWatermark ≤
          ((brokerMachine.final (Broker.fresh number name contract) calls).partitions
            p).highWatermark := by
  constructor
  · refine BrokerInvariant.contract ?_
    exact Machine.trace_induction (brokerInvariant_fresh number name contract)
      (fun past broker call h hcall => h.step call hcall) hfloor
  · rintro earlier later rfl p
    rw [Machine.final_append]
    exact Machine.monotone (f := fun broker => (broker.partitions p).highWatermark)
      (fun broker call _ => highWatermark_le_step broker call p)
      (brokerMachine.guarded_true _ later)

end Run

/-- A record so large that no two fit in one segment. -/
def bulkyRecord : Record where
  value := List.replicate 4000 7
  value_ne_nil := mt (List.replicate_eq_nil_iff 7).mp (by decide)
  value_le := by rw [List.length_replicate]; decide

/-- Three records in three segments, all committed; the one group reads two of them, and
retention is run with the floor at the group's position. -/
def billingRun : List (BrokerCall Unit Unit) :=
  [.append () bulkyRecord, .append () bulkyRecord, .append () bulkyRecord,
    .advanceWatermark () 3, .commit () () 2,
    .retain () { policy := { maxAgeTicks := some 1 } } (Dict.ofList [(0, 0), (1, 0)]) 100 2]

/-- The run drops the two segments the group has read, and the third record is still there. -/
theorem consume_unread_committed_billingRun :
    brokerMachine.Guarded Broker.FloorRespected
        (Broker.fresh (fun _ => 0) (fun _ => "billing") fun _ => .atLeastOnce) billingRun ∧
      ((brokerMachine.final (Broker.fresh (fun _ => 0) (fun _ : Unit => "billing")
        fun _ => .atLeastOnce) billingRun).partitions ()).log.firstOffset = 2 ∧
      ∃ record, ((brokerMachine.final (Broker.fresh (fun _ => 0) (fun _ : Unit => "billing")
        fun _ => .atLeastOnce) billingRun).partitions ()).consume 2 = .ok record := by
  have hfloor : brokerMachine.Guarded Broker.FloorRespected
      (Broker.fresh (fun _ => 0) (fun _ => "billing") fun _ => .atLeastOnce) billingRun := by
    decide +kernel
  refine ⟨hfloor, by decide +kernel, ?_⟩
  obtain ⟨record, hok, -⟩ := (consume_unread_committed (fun _ => 0) (fun _ => "billing")
    (fun _ => .atLeastOnce) billingRun hfloor).1.consume_ok () () 2
    (by decide +kernel) (by decide +kernel)
  exact ⟨record, hok⟩

end Relay
