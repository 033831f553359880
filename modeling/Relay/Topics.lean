import Mathlib.Algebra.Order.Ring.Int
import Relay.Lib.Dict
import Relay.Lib.Machine
import Relay.Partition

/-!
# Topics

A topic is a name over a fixed number of partitions. A record with a key goes to the partition its
key hashes to, a record without one to the next partition in turn, and the partition gives it the
next offset of its log. The registry creates topics, finds them by name, and refuses to change the
number of partitions of one.

The broker as a whole is the registry together with what is done to the partitions it hands out:
watermarks advance, retention drops old segments, and consumers read below the watermark. A run of
the broker is any interleaving of these over any number of topics.

## Scope

`audit_key` is left out, a text that names the partition of a key. What is routed is records, and
topics are not removed, as in the source.

## Main definitions

* `Topic`, with `route` and `append`
* `TopicRegistry`, with `create`, `get` and `resize`
* `topicBroker`: the registry and its partitions as a component

## Main results

* `append_answers`: where the records of a run go. Offsets count up in every partition, the records
  of a key stay in one partition in the order they were sent, and the others take turns; and which
  calls are refused
* `consume_answers`: what a consumer reads was appended at that offset and is committed, and what
  was committed is read until retention drops it
-/

namespace Relay

/-- `_key_slot`. The digest of the key, read as a number, is a parameter. -/
def keySlot (digest : Bytes → ℕ) (key : Bytes) (partitions : ℕ) : ℕ := digest key % partitions

theorem fresh_segments_ne_nil : [({ baseOffset := 0 } : Segment)] ≠ [] := by decide

/-- `Partition(number)`. -/
def freshPartition (number : ℤ) : Partition where
  number := number
  log := { segments_ne_nil := fresh_segments_ne_nil }

/-- A topic. The next slot in turn is the slot of a partition, so there is at least one. -/
structure Topic where
  name : String
  partitions : List Partition
  roundRobinNext : ℕ := 0
  roundRobinNext_lt : roundRobinNext < partitions.length

namespace Topic

variable (digest : Bytes → ℕ)

theorem length_pos (topic : Topic) : 0 < topic.partitions.length :=
  Nat.zero_lt_of_lt topic.roundRobinNext_lt

/-- `route`. -/
def route (topic : Topic) (record : Record) : Fin topic.partitions.length × Topic :=
  match record.key with
  | some key => (⟨keySlot digest key topic.partitions.length, Nat.mod_lt _ topic.length_pos⟩, topic)
  | none => (⟨topic.roundRobinNext, topic.roundRobinNext_lt⟩,
      { topic with
        roundRobinNext := (topic.roundRobinNext + 1) % topic.partitions.length
        roundRobinNext_lt := Nat.mod_lt _ topic.length_pos })

/-- The topic after something was done to one of its partitions. -/
def setPartition (topic : Topic) (slot : ℕ) (partition : Partition) : Topic :=
  { topic with
    partitions := topic.partitions.set slot partition
    roundRobinNext_lt := by
      rw [List.length_set]
      exact topic.roundRobinNext_lt }

/-- `append`. -/
def append (topic : Topic) (record : Record) : Except RelayError (ℕ × ℤ) × Topic :=
  let (slot, routed) := topic.route digest record
  let (answer, partition) := (topic.partitions.get slot).append record
  (answer.map fun offset => (slot.val, offset), routed.setPartition slot partition)

theorem partitions_setPartition (topic : Topic) (slot : ℕ) (partition : Partition) :
    (topic.setPartition slot partition).partitions = topic.partitions.set slot partition := rfl

/-- Routing leaves the partitions alone. -/
theorem partitions_route (topic : Topic) (record : Record) :
    (topic.route digest record).2.partitions = topic.partitions := by
  rw [route]
  split <;> rfl

end Topic

/-- The topics by name. -/
structure TopicRegistry where
  topics : Dict String Topic := ∅

namespace TopicRegistry

/-- `create`. -/
def create (registry : TopicRegistry) (name : String) (partitionCount : ℤ) :
    Except RelayError Topic × TopicRegistry :=
  if isBlank name ∨ '/' ∈ name.toList then
    (.error (.invalid "topic names are single path-free words"), registry)
  else if (registry.topics.get? name).isSome then
    (.error (.invalid s!"topic {name} already exists"), registry)
  else if hcount : partitionCount < 1 then
    (.error (.invalid "a topic needs at least one partition"), registry)
  else
    let topic : Topic :=
      { name
        partitions :=
          (List.range partitionCount.toNat).map fun (number : ℕ) => freshPartition number
        roundRobinNext_lt := by
          rw [List.length_map, List.length_range]
          omega }
    (.ok topic, { topics := registry.topics.set name topic })

/-- `get`. -/
def get (registry : TopicRegistry) (name : String) : Except RelayError Topic :=
  match registry.topics.get? name with
  | some topic => .ok topic
  | none => .error (.missing s!"topic {name} does not exist")

/-- `resize`: always refused. -/
def resize (registry : TopicRegistry) (name : String) (newCount : ℤ) : RelayError :=
  match registry.get name with
  | .error error => error
  | .ok topic => .invalid (s!"{name} has {topic.partitions.length} partition(s) "
      ++ s!"and will keep them: resizing to {newCount} "
      ++ "reshuffles every key's home and breaks per-key "
      ++ "order silently; create a new topic and migrate, "
      ++ "which is the same work done honestly")

/-- `get(name).append(record)`. -/
def append (digest : Bytes → ℕ) (registry : TopicRegistry) (name : String) (record : Record) :
    Except RelayError (ℕ × ℤ) × TopicRegistry :=
  match registry.get name with
  | .error error => (.error error, registry)
  | .ok topic =>
    let (answer, topic) := topic.append digest record
    (answer, { topics := registry.topics.set name topic })

/-- `get(name).partitions[slot]`, and something done to it. There is no answer when the list of
partitions has no such index. -/
def onPartition {α : Type*} (registry : TopicRegistry) (name : String) (slot : ℕ)
    (act : Partition → Except RelayError α × Partition) :
    Option (Except RelayError α) × TopicRegistry :=
  match registry.get name with
  | .error error => (some (.error error), registry)
  | .ok topic =>
    match topic.partitions[slot]? with
    | none => (none, registry)
    | some partition =>
      let (answer, partition) := act partition
      (some answer, { topics := registry.topics.set name (topic.setPartition slot partition) })

end TopicRegistry

/-! ## The broker -/

/-- What is asked of the broker. -/
inductive TopicCall where
  | create (name : String) (partitionCount : ℤ)
  | resize (name : String) (newCount : ℤ)
  | append (name : String) (record : Record)
  | advanceWatermark (name : String) (slot : ℕ) (toOffset : ℤ)
  | dropSealedBefore (name : String) (slot : ℕ) (offset : ℤ)
  | consume (name : String) (slot : ℕ) (offset : ℤ)

/-- What the broker answers. -/
inductive TopicAnswer where
  | created (answer : Except RelayError Topic)
  | refused (error : RelayError)
  | appended (answer : Except RelayError (ℕ × ℤ))
  | advanced (answer : Option (Except RelayError String))
  | dropped (answer : Option (Except RelayError ℕ))
  | consumed (answer : Option (Except RelayError Record))

/-- The broker as a component. -/
def topicBroker (digest : Bytes → ℕ) : Machine TopicRegistry TopicCall TopicAnswer where
  step registry
    | .create name partitionCount => (registry.create name partitionCount).map .created id
    | .resize name newCount => (.refused (registry.resize name newCount), registry)
    | .append name record => (registry.append digest name record).map .appended id
    | .advanceWatermark name slot toOffset =>
      (registry.onPartition name slot fun partition =>
        partition.advanceWatermark toOffset).map .advanced id
    | .dropSealedBefore name slot offset =>
      (registry.onPartition name slot fun partition =>
        ((.ok (partition.log.dropSealedBefore offset).1 : Except RelayError ℕ),
          { partition with log := (partition.log.dropSealedBefore offset).2 })).map .dropped id
    | .consume name slot offset =>
      (registry.onPartition name slot fun partition =>
        (partition.consume offset, partition)).map .consumed id

/-- An event of a run. -/
abbrev TopicEvent := TopicCall × TopicAnswer

/-- A record was appended to a partition of a topic, at an offset. -/
abbrev appendEvent (name : String) (record : Record) (slot : ℕ) (offset : ℤ) : TopicEvent :=
  (.append name record, .appended (.ok (slot, offset)))

/-- The record that an event appended to a partition, with its offset, if it appended one there. -/
def appendedAt (name : String) (slot : ℕ) : TopicEvent → Option (ℤ × Record)
  | (.append name' record, .appended (.ok (slot', offset))) =>
    if name' = name ∧ slot' = slot then some (offset, record) else none
  | _ => none

/-- The records appended to a partition, with their offsets, oldest first. -/
def appended (name : String) (slot : ℕ) (past : List TopicEvent) : List (ℤ × Record) :=
  past.filterMap (appendedAt name slot)

/-- The slot that an event gave to a record without a key, if it did. -/
def turnOf (name : String) : TopicEvent → Option ℕ
  | (.append name' record, .appended (.ok (slot, _))) =>
    if name' = name ∧ record.key = none then some slot else none
  | _ => none

/-- The watermark of a partition has been advanced past an offset. -/
def Committed (name : String) (slot : ℕ) (past : List TopicEvent) (offset : ℤ) : Prop :=
  ∃ toOffset message, offset < toOffset ∧
    (TopicCall.advanceWatermark name slot toOffset, TopicAnswer.advanced (some (.ok message))) ∈
      past

/-- The number of partitions that a call creates a topic with, unless it can only be refused. -/
def createdCount (name : String) : TopicCall → Option ℕ
  | .create name' partitionCount =>
    if name' = name ∧ ¬ (isBlank name ∨ '/' ∈ name.toList) ∧ 1 ≤ partitionCount then
      some partitionCount.toNat
    else none
  | _ => none

/-- The number of partitions of a topic, if it is created: what the first such call asks for. -/
def countIn (name : String) (calls : List TopicCall) : Option ℕ :=
  calls.findSome? (createdCount name)

/-- Retention has been asked to drop old segments of a partition up to beyond an offset. -/
def Dropped (name : String) (slot : ℕ) (past : List TopicEvent) (offset : ℤ) : Prop :=
  ∃ bound count, offset < bound ∧
    (TopicCall.dropSealedBefore name slot bound, TopicAnswer.dropped (some (.ok count))) ∈ past

namespace TopicRegistry

/-! ### What a call does to the partitions -/

/-- The partition of a topic at a slot. One that does not exist yet is an empty one. -/
def partitionAt (registry : TopicRegistry) (name : String) (slot : ℕ) : Partition :=
  ((registry.topics.get? name).bind fun topic => topic.partitions[slot]?).getD (freshPartition slot)

theorem partitionAt_eq {registry : TopicRegistry} {name : String} {topic : Topic} {slot : ℕ}
    {partition : Partition} (htopic : registry.topics.get? name = some topic)
    (hslot : topic.partitions[slot]? = some partition) :
    registry.partitionAt name slot = partition := by
  rw [partitionAt, htopic, Option.bind_some, hslot, Option.getD_some]

/-- A topic set under its name, with one partition replaced. -/
theorem partitionAt_set {registry after : TopicRegistry} {name : String} {topic changed : Topic}
    {slot : ℕ} {partition : Partition} (htopic : registry.topics.get? name = some topic)
    (hslot : slot < topic.partitions.length)
    (hchanged : changed.partitions = topic.partitions.set slot partition)
    (hafter : after.topics = registry.topics.set name changed) (name' : String) (slot' : ℕ) :
    after.partitionAt name' slot' =
      if name' = name ∧ slot' = slot then partition else registry.partitionAt name' slot' := by
  rw [partitionAt, hafter, Dict.get?_set]
  by_cases hname : name' = name
  · subst hname
    rw [if_pos rfl, Option.bind_some, hchanged, List.getElem?_set, if_pos hslot, partitionAt,
      htopic]
    by_cases hs : slot = slot'
    · rw [if_pos hs, if_pos ⟨rfl, hs.symm⟩, Option.getD_some]
    · rw [if_neg hs, if_neg fun h => hs h.2.symm, Option.bind_some]
  · rw [if_neg hname, if_neg fun h => hname h.1, partitionAt]

/-- Creating a topic makes empty partitions where there were none. -/
theorem partitionAt_create (registry : TopicRegistry) (name : String) (partitionCount : ℤ)
    (name' : String) (slot : ℕ) :
    (registry.create name partitionCount).2.partitionAt name' slot =
      registry.partitionAt name' slot := by
  rw [create]
  split
  · rfl
  split
  · rfl
  · next hfresh =>
    split
    · rfl
    · rw [partitionAt, partitionAt, Dict.get?_set]
      split
      · next hname =>
        rw [hname, Option.not_isSome_iff_eq_none.mp hfresh, Option.bind_some, Option.bind_none,
          List.getElem?_map]
        by_cases hslot : slot < partitionCount.toNat
        · rw [List.getElem?_range hslot]
          rfl
        · rw [List.getElem?_eq_none (by rw [List.length_range]; omega)]
          rfl
      · rfl

/-- Everything an append can do: fail for want of the topic, or append to the partition that the
record is routed to. -/
theorem append_cases (digest : Bytes → ℕ) (registry : TopicRegistry) (name : String)
    (record : Record) :
    (registry.topics.get? name = none ∧
        ∃ error, registry.append digest name record = (.error error, registry)) ∨
      ∃ topic, registry.topics.get? name = some topic ∧
        (registry.append digest name record).1 =
          ((registry.partitionAt name (topic.route digest record).1).append record).1.map
            (fun offset => ((topic.route digest record).1.val, offset)) ∧
        (registry.append digest name record).2.topics =
          registry.topics.set name ((topic.route digest record).2.setPartition
            (topic.route digest record).1
            ((registry.partitionAt name (topic.route digest record).1).append record).2) := by
  rw [append, get]
  cases htopic : registry.topics.get? name with
  | none => exact Or.inl ⟨rfl, _, rfl⟩
  | some topic =>
    refine Or.inr ⟨topic, rfl, ?_⟩
    have hat : registry.partitionAt name (topic.route digest record).1 =
        topic.partitions.get (topic.route digest record).1 :=
      partitionAt_eq htopic (List.getElem?_eq_getElem (topic.route digest record).1.isLt)
    rw [hat]
    exact ⟨rfl, rfl⟩

/-- Everything that can be done to a partition: nothing for want of it, or the act. -/
theorem onPartition_cases {α : Type*} (registry : TopicRegistry) (name : String) (slot : ℕ)
    (act : Partition → Except RelayError α × Partition) :
    (registry.partitionAt name slot = freshPartition slot ∧
        (∀ answer, (registry.onPartition name slot act).1 ≠ some (.ok answer)) ∧
        (registry.onPartition name slot act).2 = registry) ∨
      ∃ topic, registry.topics.get? name = some topic ∧ slot < topic.partitions.length ∧
        (registry.onPartition name slot act).1 =
          some (act (registry.partitionAt name slot)).1 ∧
        (registry.onPartition name slot act).2.topics =
          registry.topics.set name
            (topic.setPartition slot (act (registry.partitionAt name slot)).2) := by
  rw [onPartition, get]
  cases htopic : registry.topics.get? name with
  | none => exact Or.inl ⟨by simp [partitionAt, htopic], fun _ h => by simp at h, rfl⟩
  | some topic =>
    cases hslot : topic.partitions[slot]? with
    | none =>
      exact Or.inl ⟨by simp [partitionAt, htopic, hslot], fun _ h => by simp [hslot] at h,
        by simp [hslot]⟩
    | some partition =>
      obtain ⟨hlt, -⟩ := List.getElem?_eq_some_iff.mp hslot
      refine Or.inr ⟨topic, rfl, hlt, ?_⟩
      rw [partitionAt_eq htopic hslot]
      simp [hslot]

end TopicRegistry

/-! ### What the events say about a partition -/

theorem filterMap_append_singleton {ε α : Type*} (f : ε → Option α) (past : List ε) (e : ε) :
    (past ++ [e]).filterMap f = past.filterMap f ++ (f e).toList := by
  rw [List.filterMap_append]
  cases h : f e with
  | none => rw [List.filterMap_cons_none h, List.filterMap_nil, Option.toList_none]
  | some a => rw [List.filterMap_cons_some h, List.filterMap_nil, Option.toList_some]

theorem appended_append_singleton (name : String) (slot : ℕ) (past : List TopicEvent)
    (e : TopicEvent) :
    appended name slot (past ++ [e]) = appended name slot past ++ (appendedAt name slot e).toList :=
  filterMap_append_singleton _ past e

theorem committed_append_singleton {name : String} {slot : ℕ} {past : List TopicEvent}
    {e : TopicEvent} {offset : ℤ} : Committed name slot (past ++ [e]) offset ↔
      Committed name slot past offset ∨ Committed name slot [e] offset := by
  simp only [Committed, List.mem_append, and_or_left, exists_or]

theorem dropped_append_singleton {name : String} {slot : ℕ} {past : List TopicEvent}
    {e : TopicEvent} {offset : ℤ} : Dropped name slot (past ++ [e]) offset ↔
      Dropped name slot past offset ∨ Dropped name slot [e] offset := by
  simp only [Dropped, List.mem_append, and_or_left, exists_or]

/-- A partition stores what the events of a run appended to it, and its watermark is where the
events advanced it to. -/
structure Stored (past : List TopicEvent) (name : String) (slot : ℕ) (partition : Partition) :
    Prop where
  log : ∃ l : OffsetLog Record, Represents partition.log.segments l ∧
    l.written = (appended name slot past).map Prod.snd ∧
    ∀ offset : ℤ, 0 ≤ offset → ¬ Dropped name slot past offset → (l.start : ℤ) ≤ offset
  counts : Counts ((appended name slot past).map Prod.fst)
  committed : ∀ offset : ℤ, 0 ≤ offset →
    (offset < partition.highWatermark ↔ Committed name slot past offset)

namespace Stored

variable {past : List TopicEvent} {name : String} {slot : ℕ} {partition : Partition}

theorem fresh (name : String) (slot : ℕ) (number : ℤ) :
    Stored [] name slot (freshPartition number) where
  log := ⟨OffsetLog.empty, represents_fresh, rfl, fun _ h _ => h⟩
  counts := counts_nil
  committed offset hoffset := by
    refine iff_of_false (fun h => ?_) fun ⟨_, _, _, h⟩ => List.not_mem_nil h
    have hlt : offset < 0 := h
    omega

/-- An event that is not about the partition. -/
theorem frame (h : Stored past name slot partition) {e : TopicEvent}
    (happended : appendedAt name slot e = none)
    (hcommitted : ∀ offset, ¬ Committed name slot [e] offset) :
    Stored (past ++ [e]) name slot partition := by
  have happended : appended name slot (past ++ [e]) = appended name slot past := by
    rw [appended_append_singleton, happended, Option.toList_none, List.append_nil]
  refine ⟨?_, happended ▸ h.counts, fun offset hoffset => ?_⟩
  · obtain ⟨l, hl, hwritten, hstart⟩ := h.log
    exact ⟨l, hl, happended ▸ hwritten, fun offset hoffset hnot =>
      hstart offset hoffset fun hd => hnot (dropped_append_singleton.mpr (Or.inl hd))⟩
  · rw [committed_append_singleton, or_iff_left (hcommitted offset)]
    exact h.committed offset hoffset

/-- The next offset of the partition is the number of records appended to it. -/
theorem nextOffset (h : Stored past name slot partition) :
    partition.log.nextOffset = (appended name slot past).length := by
  obtain ⟨l, hl, hwritten, -⟩ := h.log
  rw [hl.nextOffset, hwritten, List.length_map]

/-- A record is appended at the next offset. -/
theorem append (h : Stored past name slot partition) (record : Record) :
    (partition.append record).1 = .ok ((appended name slot past).length : ℤ) ∧
      Stored (past ++ [appendEvent name record slot (appended name slot past).length]) name slot
        (partition.append record).2 := by
  obtain ⟨l, hl, hwritten, hstart⟩ := h.log
  obtain ⟨hanswer, hrep⟩ := hl.append record
  rw [hwritten, List.length_map] at hanswer
  refine ⟨hanswer, ?_⟩
  have happended : appended name slot
      (past ++ [appendEvent name record slot (appended name slot past).length]) =
      appended name slot past ++ [(((appended name slot past).length : ℤ), record)] := by
    rw [appended_append_singleton, appendedAt, if_pos ⟨rfl, rfl⟩, Option.toList_some]
  refine ⟨⟨_, hrep, ?_, fun offset hoffset hnot => ?_⟩, ?_, fun offset hoffset => ?_⟩
  · rw [OffsetLog.append_written, hwritten, happended, List.map_append]
    rfl
  · exact hstart offset hoffset fun hd => hnot (dropped_append_singleton.mpr (Or.inl hd))
  · rw [happended, List.map_append, List.map_singleton, counts_append_singleton, List.length_map]
    exact ⟨h.counts, rfl⟩
  · rw [committed_append_singleton, or_iff_left (by simp [Committed])]
    exact h.committed offset hoffset

/-- An accepted advance commits the offsets below where it leads. -/
theorem advanceWatermark (h : Stored past name slot partition) (toOffset : ℤ) :
    Stored (past ++ [(.advanceWatermark name slot toOffset,
        .advanced (some (partition.advanceWatermark toOffset).1))]) name slot
      (partition.advanceWatermark toOffset).2 := by
  rw [Partition.advanceWatermark]
  split
  · exact h.frame rfl (by simp [Committed])
  · next hback =>
    split
    · exact h.frame rfl (by simp [Committed])
    · have happended : ∀ message : String, appended name slot (past ++
          [(.advanceWatermark name slot toOffset, .advanced (some (.ok message)))]) =
          appended name slot past := fun message => by
        rw [appended_append_singleton, appendedAt, Option.toList_none, List.append_nil]
        rintro _ _ _ _ ⟨⟩
      refine ⟨?_, happended _ ▸ h.counts, fun offset hoffset => ?_⟩
      · obtain ⟨l, hl, hwritten, hstart⟩ := h.log
        exact ⟨l, hl, happended _ ▸ hwritten, fun offset hoffset hnot =>
          hstart offset hoffset fun hd => hnot (dropped_append_singleton.mpr (Or.inl hd))⟩
      · rw [committed_append_singleton, ← h.committed offset hoffset]
        show offset < toOffset ↔ _
        constructor
        · exact fun hlt => Or.inr ⟨toOffset, _, hlt, List.mem_singleton.mpr rfl⟩
        · rintro (hlt | ⟨_, _, hlt, hmem⟩)
          · omega
          · obtain ⟨⟨-, -, rfl⟩, -⟩ := Prod.mk.inj (List.mem_singleton.mp hmem)
            exact hlt

/-- Dropping old segments loses only offsets below the bound. -/
theorem dropSealedBefore (h : Stored past name slot partition) (bound : ℤ) (count : ℕ) :
    Stored (past ++ [(.dropSealedBefore name slot bound, .dropped (some (.ok count)))]) name slot
      { partition with log := (partition.log.dropSealedBefore bound).2 } := by
  obtain ⟨l, hl, hwritten, hstart⟩ := h.log
  obtain ⟨l', hl', hwritten', hstart'⟩ := hl.dropLoop bound
  have happended : appended name slot (past ++
      [(.dropSealedBefore name slot bound, .dropped (some (.ok count)))]) =
      appended name slot past := by
    rw [appended_append_singleton, appendedAt, Option.toList_none, List.append_nil]
    rintro _ _ _ _ ⟨⟩
  refine ⟨⟨l', hl', happended ▸ hwritten'.trans hwritten, fun offset hoffset hnot => ?_⟩,
    happended ▸ h.counts, fun offset hoffset => ?_⟩
  · rw [dropped_append_singleton, not_or] at hnot
    have hle : bound ≤ offset := by
      by_contra hlt
      exact hnot.2 ⟨bound, count, by omega, List.mem_singleton.mpr rfl⟩
    have hbefore := hstart offset hoffset hnot.1
    rcases hstart' with heq | hle'
    · omega
    · omega
  · rw [committed_append_singleton, or_iff_left (by simp [Committed])]
    exact h.committed offset hoffset

end Stored

/-- **What one call does to the partitions.** Each of them stores what the events with this one
added say. -/
theorem stored_step {digest : Bytes → ℕ} {past : List TopicEvent} {registry : TopicRegistry}
    (h : ∀ name slot, Stored past name slot (registry.partitionAt name slot)) (call : TopicCall)
    (name : String) (slot : ℕ) :
    Stored (past ++ [(call, ((topicBroker digest).step registry call).1)]) name slot
      (((topicBroker digest).step registry call).2.partitionAt name slot) := by
  have h' := h name slot
  cases call with
  | create name' partitionCount =>
    show Stored _ name slot ((registry.create name' partitionCount).2.partitionAt name slot)
    rw [TopicRegistry.partitionAt_create]
    exact h'.frame rfl (by simp [Committed])
  | resize name' newCount => exact h'.frame rfl (by simp [Committed])
  | append name' record =>
    rcases registry.append_cases digest name' record with
      ⟨-, error, hfail⟩ | ⟨topic, htopic, hanswer, hafter⟩
    · simp only [topicBroker, hfail]
      exact h'.frame rfl (by simp [Committed])
    · obtain ⟨hoffset, hstored⟩ := (h name' (topic.route digest record).1).append record
      rw [hoffset] at hanswer
      show Stored (past ++ [(.append name' record,
          .appended (registry.append digest name' record).1)]) name slot
        ((registry.append digest name' record).2.partitionAt name slot)
      rw [hanswer, TopicRegistry.partitionAt_set htopic (topic.route digest record).1.isLt
        (by rw [Topic.partitions_setPartition, Topic.partitions_route]) hafter]
      split
      · next heq =>
        obtain ⟨rfl, rfl⟩ := heq
        exact hstored
      · next hne =>
        refine h'.frame ?_ (by simp [Committed])
        show (if name' = name ∧ _ then _ else none) = none
        exact if_neg fun heq => hne ⟨heq.1.symm, heq.2.symm⟩
  | advanceWatermark name' slot' toOffset =>
    rcases registry.onPartition_cases name' slot' (fun partition =>
        partition.advanceWatermark toOffset) with
      ⟨-, hanswer, hafter⟩ | ⟨topic, htopic, hslot, hanswer, hafter⟩
    · simp only [topicBroker, Prod.map, hafter]
      exact h'.frame rfl fun offset ⟨_, message, _, hmem⟩ => hanswer message
        (TopicAnswer.advanced.inj (Prod.mk.inj (List.mem_singleton.mp hmem)).2).symm
    · simp only [topicBroker, Prod.map, hanswer]
      rw [id, TopicRegistry.partitionAt_set htopic hslot rfl hafter]
      split
      · next heq =>
        obtain ⟨rfl, rfl⟩ := heq
        exact h'.advanceWatermark toOffset
      · next hne =>
        refine h'.frame rfl fun offset ⟨_, message, _, hmem⟩ => hne ?_
        obtain ⟨hname, hslot, -⟩ := TopicCall.advanceWatermark.inj
          (Prod.mk.inj (List.mem_singleton.mp hmem)).1
        exact ⟨hname, hslot⟩
  | dropSealedBefore name' slot' bound =>
    rcases registry.onPartition_cases name' slot' (fun partition =>
        ((.ok (partition.log.dropSealedBefore bound).1 : Except RelayError ℕ),
          { partition with log := (partition.log.dropSealedBefore bound).2 })) with
      ⟨-, -, hafter⟩ | ⟨topic, htopic, hslot, hanswer, hafter⟩
    · simp only [topicBroker, Prod.map, hafter]
      exact h'.frame rfl (by simp [Committed])
    · simp only [topicBroker, Prod.map, hanswer]
      rw [id, TopicRegistry.partitionAt_set htopic hslot rfl hafter]
      split
      · next heq =>
        obtain ⟨rfl, rfl⟩ := heq
        exact h'.dropSealedBefore bound _
      · exact h'.frame rfl (by simp [Committed])
  | consume name' slot' offset =>
    rcases registry.onPartition_cases name' slot' (fun partition =>
        (partition.consume offset, partition)) with
      ⟨-, -, hafter⟩ | ⟨topic, htopic, hslot, -, hafter⟩
    · simp only [topicBroker, Prod.map, hafter]
      exact h'.frame rfl (by simp [Committed])
    · simp only [topicBroker, Prod.map]
      rw [id, TopicRegistry.partitionAt_set htopic hslot rfl hafter]
      split
      · next heq =>
        obtain ⟨rfl, rfl⟩ := heq
        exact h'.frame rfl (by simp [Committed])
      · exact h'.frame rfl (by simp [Committed])

/-- Every partition stores what the events of the run say. -/
theorem stored_trace (digest : Bytes → ℕ) (calls : List TopicCall) (name : String) (slot : ℕ) :
    Stored ((topicBroker digest).trace {} calls) name slot
      (((topicBroker digest).final {} calls).partitionAt name slot) := by
  refine Machine.trace_always
    (P := fun past (registry : TopicRegistry) =>
      ∀ name slot, Stored past name slot (registry.partitionAt name slot))
    (fun name slot => ?_) (fun _ _ call h => stored_step h call) calls name slot
  exact Stored.fresh name slot slot

/-! ### Where the records of a topic go -/

/-- The partition and the offset that an event gave to a record with a key, if it did. -/
def placeOf (name : String) (key : Bytes) : TopicEvent → Option (ℕ × ℤ)
  | (.append name' record, .appended (.ok place)) =>
    if name' = name ∧ record.key = some key then some place else none
  | _ => none

theorem turnOf_appendEvent (name : String) (record : Record) (slot : ℕ) (offset : ℤ) :
    turnOf name (appendEvent name record slot offset) =
      if record.key = none then some slot else none := by
  rw [turnOf]
  simp only [true_and]

theorem placeOf_appendEvent (name : String) (key : Bytes) (record : Record) (slot : ℕ)
    (offset : ℤ) : placeOf name key (appendEvent name record slot offset) =
      if record.key = some key then some (slot, offset) else none := by
  rw [placeOf]
  simp only [true_and]

/-- The places of the records of a key: one partition, with rising offsets. -/
def RisingPlaces (places : List (ℕ × ℤ)) : Prop :=
  places.Pairwise fun earlier later => earlier.1 = later.1 ∧ earlier.2 < later.2

/-- The number of partitions of a topic, and the next slot in turn. -/
def Topic.shape (topic : Topic) : ℕ × ℕ := (topic.partitions.length, topic.roundRobinNext)

theorem Topic.shape_setPartition (topic : Topic) (slot : ℕ) (partition : Partition) :
    (topic.setPartition slot partition).shape = topic.shape := by
  rw [shape, partitions_setPartition, List.length_set]
  rfl

/-- What the events of a run say about a topic of a shape, if there is one. -/
structure Routed (digest : Bytes → ℕ) (past : List TopicEvent) (name : String)
    (shape : Option (ℕ × ℕ)) : Prop where
  absent : shape = none → past.filterMap (turnOf name) = [] ∧
    ∀ key, past.filterMap (placeOf name key) = []
  turns : ∀ count next, shape = some (count, next) → ∃ n, next = n % count ∧
    past.filterMap (turnOf name) = (List.range n).map (· % count)
  places : ∀ count next, shape = some (count, next) →
    ∀ key, ∀ place ∈ past.filterMap (placeOf name key), place.1 = keySlot digest key count ∧
      place.2 < (appended name place.1 past).length
  inOrder : ∀ key, RisingPlaces (past.filterMap (placeOf name key))

namespace Routed

variable {digest : Bytes → ℕ} {past : List TopicEvent} {name : String} {shape : Option (ℕ × ℕ)}

theorem fresh (digest : Bytes → ℕ) (name : String) : Routed digest [] name none where
  absent _ := ⟨rfl, fun _ => rfl⟩
  turns _ _ h := by cases h
  places _ _ h := by cases h
  inOrder _ := List.Pairwise.nil

theorem length_appended_le (name : String) (slot : ℕ) (past : List TopicEvent) (e : TopicEvent) :
    (appended name slot past).length ≤ (appended name slot (past ++ [e])).length := by
  rw [appended_append_singleton, List.length_append]
  exact Nat.le_add_right _ _

/-- An event that appends nothing to the topic. -/
theorem frame (h : Routed digest past name shape) {e : TopicEvent} (hturn : turnOf name e = none)
    (hplace : ∀ key, placeOf name key e = none) : Routed digest (past ++ [e]) name shape := by
  have hturns : (past ++ [e]).filterMap (turnOf name) = past.filterMap (turnOf name) := by
    rw [filterMap_append_singleton, hturn, Option.toList_none, List.append_nil]
  have hplaces (key : Bytes) :
      (past ++ [e]).filterMap (placeOf name key) = past.filterMap (placeOf name key) := by
    rw [filterMap_append_singleton, hplace, Option.toList_none, List.append_nil]
  refine ⟨fun hnone => ?_, fun count next hshape => ?_, fun count next hshape key place hmem => ?_,
    fun key => ?_⟩
  · exact ⟨hturns.trans (h.absent hnone).1, fun key => (hplaces key).trans ((h.absent hnone).2 key)⟩
  · rw [hturns]
    exact h.turns count next hshape
  · rw [hplaces] at hmem
    obtain ⟨hslot, hlt⟩ := h.places count next hshape key place hmem
    refine ⟨hslot, hlt.trans_le ?_⟩
    exact_mod_cast length_appended_le name place.1 past e
  · rw [hplaces]
    exact h.inOrder key

/-- A new topic starts its turns at the first partition. -/
theorem create (h : Routed digest past name none) (count : ℕ) :
    Routed digest past name (some (count, 0)) where
  absent hnone := by cases hnone
  turns _ _ hshape := by
    obtain ⟨rfl, rfl⟩ := Prod.mk.inj (Option.some.inj hshape)
    exact ⟨0, (Nat.zero_mod count).symm, (h.absent rfl).1⟩
  places _ _ _ key place hmem := by
    rw [(h.absent rfl).2 key] at hmem
    exact absurd hmem List.not_mem_nil
  inOrder := h.inOrder

/-- A record with a key goes behind the records of its key. -/
theorem append_keyed {count next : ℕ} (h : Routed digest past name (some (count, next)))
    {record : Record} {key : Bytes} (hkey : record.key = some key) {slot : ℕ}
    (hslot : slot = keySlot digest key count) :
    Routed digest (past ++ [appendEvent name record slot (appended name slot past).length]) name
      (some (count, next)) := by
  have hturns : (past ++ [appendEvent name record slot (appended name slot past).length]).filterMap
      (turnOf name) = past.filterMap (turnOf name) := by
    rw [filterMap_append_singleton, turnOf_appendEvent, hkey, if_neg (Option.some_ne_none key),
      Option.toList_none, List.append_nil]
  have hplaces (key' : Bytes) :
      (past ++ [appendEvent name record slot (appended name slot past).length]).filterMap
        (placeOf name key') = past.filterMap (placeOf name key') ++
          if key' = key then [(slot, ((appended name slot past).length : ℤ))] else [] := by
    rw [filterMap_append_singleton, placeOf_appendEvent, hkey]
    by_cases heq : key' = key
    · rw [if_pos heq, if_pos (congrArg some heq.symm), Option.toList_some]
    · rw [if_neg heq, if_neg fun hsome => heq (Option.some.inj hsome).symm, Option.toList_none]
  have hlength : (appended name slot
      (past ++ [appendEvent name record slot (appended name slot past).length])).length =
      (appended name slot past).length + 1 := by
    rw [appended_append_singleton, appendedAt, if_pos ⟨rfl, rfl⟩, List.length_append]
    rfl
  refine ⟨fun hnone => absurd hnone (Option.some_ne_none _), fun count' next' hshape => ?_,
    fun count' next' hshape key' place hmem => ?_, fun key' => ?_⟩
  · rw [hturns]
    exact h.turns count' next' hshape
  · rw [hplaces, List.mem_append] at hmem
    rcases hmem with hmem | hmem
    · obtain ⟨hslot, hlt⟩ := h.places count' next' hshape key' place hmem
      refine ⟨hslot, hlt.trans_le ?_⟩
      exact_mod_cast length_appended_le name place.1 past _
    · split at hmem
      · next heq =>
        obtain rfl := List.mem_singleton.mp hmem
        obtain ⟨rfl, rfl⟩ := Prod.mk.inj (Option.some.inj hshape)
        refine ⟨by rw [heq, hslot], ?_⟩
        show ((appended name slot past).length : ℤ) < _
        rw [hlength]
        exact_mod_cast Nat.lt_succ_self _
      · exact absurd hmem List.not_mem_nil
  · rw [hplaces, RisingPlaces]
    split
    · next heq =>
      refine pairwise_append_singleton.mpr ⟨h.inOrder key', fun place hmem => ?_⟩
      obtain ⟨hplace, hlt⟩ := h.places count next rfl key' place hmem
      rw [heq, ← hslot] at hplace
      exact ⟨hplace, hplace ▸ hlt⟩
    · rw [List.append_nil]
      exact h.inOrder key'

/-- A record without a key takes the next turn. -/
theorem append_unkeyed {count next : ℕ} (h : Routed digest past name (some (count, next)))
    {record : Record} (hkey : record.key = none) (offset : ℤ) :
    Routed digest (past ++ [appendEvent name record next offset]) name
      (some (count, (next + 1) % count)) := by
  have hplaces (key : Bytes) :
      (past ++ [appendEvent name record next offset]).filterMap (placeOf name key) =
        past.filterMap (placeOf name key) := by
    rw [filterMap_append_singleton, placeOf_appendEvent, hkey,
      if_neg (Option.some_ne_none key).symm, Option.toList_none, List.append_nil]
  refine ⟨fun hnone => absurd hnone (Option.some_ne_none _), fun count' next' hshape => ?_,
    fun count' next' hshape key place hmem => ?_, fun key => ?_⟩
  · obtain ⟨rfl, rfl⟩ := Prod.mk.inj (Option.some.inj hshape)
    obtain ⟨n, hnext, hturns⟩ := h.turns count next rfl
    refine ⟨n + 1, by rw [hnext, Nat.mod_add_mod], ?_⟩
    rw [filterMap_append_singleton, turnOf_appendEvent, if_pos hkey, hturns, hnext,
      List.range_succ, List.map_append, List.map_singleton, Option.toList_some]
  · obtain ⟨rfl, rfl⟩ := Prod.mk.inj (Option.some.inj hshape)
    rw [hplaces] at hmem
    obtain ⟨hslot, hlt⟩ := h.places count next rfl key place hmem
    refine ⟨hslot, hlt.trans_le ?_⟩
    exact_mod_cast length_appended_le name place.1 past _
  · rw [hplaces]
    exact h.inOrder key

end Routed

/-- The shape of a topic of the registry, if there is one. -/
def TopicRegistry.shape (registry : TopicRegistry) (name : String) : Option (ℕ × ℕ) :=
  (registry.topics.get? name).map Topic.shape

/-- Setting a topic of the same shape. -/
theorem TopicRegistry.shape_set {registry after : TopicRegistry} {name : String}
    {topic changed : Topic} (htopic : registry.topics.get? name = some topic)
    (hchanged : changed.shape = topic.shape)
    (hafter : after.topics = registry.topics.set name changed) (name' : String) :
    after.shape name' = registry.shape name' := by
  rw [shape, shape, hafter, Dict.get?_set]
  split
  · next heq => rw [heq, htopic, Option.map_some, Option.map_some, hchanged]
  · rfl

theorem TopicRegistry.shape_onPartition {α : Type*} (registry : TopicRegistry) (name : String)
    (slot : ℕ) (act : Partition → Except RelayError α × Partition) (name' : String) :
    (registry.onPartition name slot act).2.shape name' = registry.shape name' := by
  rcases registry.onPartition_cases name slot act with
    ⟨-, -, hafter⟩ | ⟨topic, htopic, -, -, hafter⟩
  · rw [hafter]
  · exact shape_set htopic (topic.shape_setPartition _ _) hafter name'

/-- A topic is created with its turns at the first partition, or nothing changes. -/
theorem TopicRegistry.shape_create (registry : TopicRegistry) (name : String) (partitionCount : ℤ)
    (name' : String) :
    (registry.create name partitionCount).2.shape name' = registry.shape name' ∨
      registry.shape name' = none ∧ ∃ count,
        (registry.create name partitionCount).2.shape name' = some (count, 0) := by
  rw [create]
  split
  · exact Or.inl rfl
  split
  · exact Or.inl rfl
  · next hfresh =>
    split
    · exact Or.inl rfl
    · simp only [shape, Dict.get?_set]
      split
      · next heq =>
        rw [heq, Option.not_isSome_iff_eq_none.mp hfresh]
        exact Or.inr ⟨rfl, _, rfl⟩
      · exact Or.inl rfl

/-- **What one call says about where records go.** -/
theorem routed_step {digest : Bytes → ℕ} {past : List TopicEvent} {registry : TopicRegistry}
    (hstored : ∀ name slot, Stored past name slot (registry.partitionAt name slot)) {name : String}
    (h : Routed digest past name (registry.shape name)) (call : TopicCall) :
    Routed digest (past ++ [(call, ((topicBroker digest).step registry call).1)]) name
      (((topicBroker digest).step registry call).2.shape name) := by
  cases call with
  | create name' partitionCount =>
    have hframe := h.frame
      (e := (.create name' partitionCount, .created (registry.create name' partitionCount).1)) rfl
      fun _ => rfl
    rcases registry.shape_create name' partitionCount name with hsame | ⟨hnone, count, hcreated⟩
    · show Routed digest _ name ((registry.create name' partitionCount).2.shape name)
      rw [hsame]
      exact hframe
    · show Routed digest _ name ((registry.create name' partitionCount).2.shape name)
      rw [hcreated]
      rw [hnone] at hframe
      exact hframe.create count
  | resize name' newCount => exact h.frame rfl fun _ => rfl
  | append name' record =>
    rcases registry.append_cases digest name' record with
      ⟨-, error, hfail⟩ | ⟨topic, htopic, hanswer, hafter⟩
    · simp only [topicBroker, hfail]
      exact h.frame rfl fun _ => rfl
    · obtain ⟨hoffset, -⟩ := (hstored name' (topic.route digest record).1).append record
      rw [hoffset] at hanswer
      show Routed digest (past ++ [(.append name' record,
          .appended (registry.append digest name' record).1)]) name
        ((registry.append digest name' record).2.shape name)
      rw [hanswer, TopicRegistry.shape, hafter, Dict.get?_set]
      by_cases heq : name = name'
      · subst heq
        rw [TopicRegistry.shape, htopic] at h
        rw [if_pos rfl, Option.map_some, Topic.shape_setPartition]
        cases hkey : record.key with
        | none =>
          rw [Topic.route, hkey]
          exact h.append_unkeyed hkey _
        | some key =>
          have hroute : topic.route digest record = (⟨keySlot digest key topic.partitions.length,
              Nat.mod_lt _ topic.length_pos⟩, topic) := by
            rw [Topic.route, hkey]
          rw [hroute]
          exact h.append_keyed hkey rfl
      · rw [if_neg heq]
        refine h.frame (if_neg fun hand => heq hand.1.symm) fun key => ?_
        exact if_neg fun hand => heq hand.1.symm
  | advanceWatermark name' slot toOffset =>
    simp only [topicBroker, Prod.map, id, TopicRegistry.shape_onPartition]
    exact h.frame rfl fun _ => rfl
  | dropSealedBefore name' slot bound =>
    simp only [topicBroker, Prod.map, id, TopicRegistry.shape_onPartition]
    exact h.frame rfl fun _ => rfl
  | consume name' slot offset =>
    simp only [topicBroker, Prod.map, id, TopicRegistry.shape_onPartition]
    exact h.frame rfl fun _ => rfl

theorem routed_trace (digest : Bytes → ℕ) (calls : List TopicCall) (name : String) :
    Routed digest ((topicBroker digest).trace {} calls) name
      (((topicBroker digest).final {} calls).shape name) := by
  refine (Machine.trace_always
    (P := fun past (registry : TopicRegistry) =>
      (∀ name slot, Stored past name slot (registry.partitionAt name slot)) ∧
        Routed digest past name (registry.shape name))
    ⟨fun name slot => ?_, ?_⟩
    (fun _ _ call h => ⟨stored_step h.1 call, routed_step h.1 h.2 call⟩) calls).2
  · exact Stored.fresh name slot slot
  · exact Routed.fresh digest name

/-! ### Which calls are accepted -/

/-- Everything a create can do: be refused, or make a new topic. -/
theorem TopicRegistry.create_cases (registry : TopicRegistry) (name : String)
    (partitionCount : ℤ) :
    ((registry.topics.get? name).isSome ∨
        createdCount name (.create name partitionCount) = none) ∧
      (∃ error, registry.create name partitionCount = (.error error, registry)) ∨
    (registry.topics.get? name = none ∧ ∃ topic, topic.partitions.length = partitionCount.toNat ∧
      createdCount name (.create name partitionCount) = some partitionCount.toNat ∧
      registry.create name partitionCount =
        (.ok topic, { topics := registry.topics.set name topic })) := by
  rw [create, createdCount]
  by_cases hname : isBlank name ∨ '/' ∈ name.toList
  · rw [if_pos hname, if_neg fun hgood => hgood.2.1 hname]
    exact Or.inl ⟨Or.inr rfl, _, rfl⟩
  rw [if_neg hname]
  by_cases hexists : (registry.topics.get? name).isSome
  · rw [if_pos hexists]
    exact Or.inl ⟨Or.inl hexists, _, rfl⟩
  rw [if_neg hexists]
  by_cases hcount : partitionCount < 1
  · rw [dif_pos hcount, if_neg fun hgood => hgood.2.2.not_gt hcount]
    exact Or.inl ⟨Or.inr rfl, _, rfl⟩
  · rw [dif_neg hcount, if_pos ⟨rfl, hname, not_lt.mp hcount⟩]
    refine Or.inr ⟨Option.not_isSome_iff_eq_none.mp hexists, _, ?_, rfl, rfl⟩
    rw [List.length_map, List.length_range]

/-- How many partitions a topic of the registry has, if there is one. -/
def TopicRegistry.partitionCount (registry : TopicRegistry) (name : String) : Option ℕ :=
  (registry.topics.get? name).map fun topic => topic.partitions.length

theorem TopicRegistry.partitionCount_eq_shape (registry : TopicRegistry) (name : String) :
    registry.partitionCount name = (registry.shape name).map Prod.fst := by
  rw [partitionCount, shape, Option.map_map]
  rfl

theorem TopicRegistry.partitionCount_onPartition {α : Type*} (registry : TopicRegistry)
    (name : String) (slot : ℕ) (act : Partition → Except RelayError α × Partition)
    (name' : String) :
    (registry.onPartition name slot act).2.partitionCount name' =
      registry.partitionCount name' := by
  rw [partitionCount_eq_shape, shape_onPartition, partitionCount_eq_shape]

/-- Creating a topic gives it its partitions if there is none of that name yet. -/
theorem TopicRegistry.partitionCount_create (registry : TopicRegistry) (name' : String) (count : ℤ)
    (name : String) :
    (registry.create name' count).2.partitionCount name =
      (registry.partitionCount name).or (createdCount name (.create name' count)) := by
  by_cases hname : name' = name
  · subst hname
    rcases registry.create_cases name' count with
      ⟨hrefused, error, heq⟩ | ⟨hnone, topic, hlength, hcount, heq⟩
    · rw [heq]
      rcases hrefused with hexists | hcount
      · obtain ⟨topic, htopic⟩ := Option.isSome_iff_exists.mp hexists
        rw [partitionCount, htopic]
        rfl
      · rw [hcount, Option.or_none]
    · rw [heq, hcount, partitionCount, partitionCount, hnone, Dict.get?_set, if_pos rfl,
        Option.map_some, hlength]
      rfl
  · rw [createdCount, if_neg fun hgood => hname hgood.1, Option.or_none]
    rcases registry.create_cases name' count with ⟨-, error, heq⟩ | ⟨-, topic, -, -, heq⟩
    · rw [heq]
    · rw [heq, partitionCount, Dict.get?_set, if_neg (Ne.symm hname)]
      rfl

theorem TopicRegistry.partitionCount_append (registry : TopicRegistry) (digest : Bytes → ℕ)
    (name' : String) (record : Record) (name : String) :
    (registry.append digest name' record).2.partitionCount name = registry.partitionCount name := by
  rcases registry.append_cases digest name' record with
    ⟨-, error, hfail⟩ | ⟨topic, htopic, -, hafter⟩
  · rw [hfail]
  · rw [partitionCount, partitionCount, hafter, Dict.get?_set]
    split
    · next hname =>
      rw [hname, htopic, Option.map_some, Option.map_some, Topic.partitions_setPartition,
        List.length_set, Topic.partitions_route]
    · rfl

/-- A topic is there once it is created, with the partitions it was created with. -/
theorem partitionCount_step (digest : Bytes → ℕ) (registry : TopicRegistry) (call : TopicCall)
    (name : String) :
    ((topicBroker digest).step registry call).2.partitionCount name =
      (registry.partitionCount name).or (createdCount name call) := by
  cases call with
  | create name' count => exact registry.partitionCount_create name' count name
  | append name' record =>
    exact (registry.partitionCount_append digest name' record name).trans Option.or_none.symm
  | resize name' newCount => exact Option.or_none.symm
  | advanceWatermark name' slot toOffset =>
    simp only [topicBroker, Prod.map, id, TopicRegistry.partitionCount_onPartition]
    exact Option.or_none.symm
  | dropSealedBefore name' slot bound =>
    simp only [topicBroker, Prod.map, id, TopicRegistry.partitionCount_onPartition]
    exact Option.or_none.symm
  | consume name' slot offset =>
    simp only [topicBroker, Prod.map, id, TopicRegistry.partitionCount_onPartition]
    exact Option.or_none.symm

theorem partitionCount_final (digest : Bytes → ℕ) (calls : List TopicCall) (name : String) :
    ((topicBroker digest).final {} calls).partitionCount name = countIn name calls := by
  induction calls using List.reverseRecOn with
  | nil => rfl
  | append_singleton calls call ih =>
    rw [Machine.final_append_singleton, partitionCount_step, ih, countIn, countIn,
      List.findSome?_append, List.findSome?_singleton]

/-- Which calls are accepted after some others: a topic is created once, by the first call that asks
for it with a proper name and a positive number of partitions, and from then on every append to it
goes through. -/
def Accepts (past : List TopicEvent) : TopicEvent → Prop
  | (.create name partitionCount, answer) =>
    (∃ topic, answer = .created (.ok topic)) ↔
      countIn name (past.map Prod.fst) = none ∧
        (createdCount name (.create name partitionCount)).isSome
  | (.append name _, answer) =>
    (∃ place, answer = .appended (.ok place)) ↔ (countIn name (past.map Prod.fst)).isSome
  | _ => True

theorem TopicRegistry.exists_create_eq_ok_iff (registry : TopicRegistry) (name : String)
    (count : ℤ) :
    (∃ topic, (registry.create name count).1 = .ok topic) ↔
      registry.partitionCount name = none ∧ (createdCount name (.create name count)).isSome := by
  rw [partitionCount, Option.map_eq_none_iff]
  rcases registry.create_cases name count with
    ⟨hrefused, error, heq⟩ | ⟨hnone, topic, -, hcount, heq⟩
  · refine iff_of_false (by simp [heq]) ?_
    rintro ⟨hnone, hsome⟩
    rcases hrefused with hexists | hcount
    · simp [hnone] at hexists
    · simp [hcount] at hsome
  · exact iff_of_true ⟨topic, by rw [heq]⟩ ⟨hnone, by rw [hcount]; rfl⟩

/-- An append goes through if there is the topic: its partitions have no gaps. -/
theorem exists_append_eq_ok_iff {past : List TopicEvent} {registry : TopicRegistry} {name : String}
    (h : ∀ slot, Stored past name slot (registry.partitionAt name slot)) (digest : Bytes → ℕ)
    (record : Record) :
    (∃ place, (registry.append digest name record).1 = .ok place) ↔
      (registry.partitionCount name).isSome := by
  rw [TopicRegistry.partitionCount, Option.isSome_map]
  rcases registry.append_cases digest name record with
    ⟨hnone, error, hfail⟩ | ⟨topic, htopic, hanswer, -⟩
  · exact iff_of_false (by simp [hfail]) (by simp [hnone])
  · obtain ⟨hoffset, -⟩ := (h (topic.route digest record).1).append record
    rw [hoffset] at hanswer
    exact iff_of_true ⟨_, hanswer⟩ (by rw [htopic]; rfl)

theorem accepts_trace (digest : Bytes → ℕ) (calls : List TopicCall) :
    Justified Accepts ((topicBroker digest).trace {} calls) := by
  refine Machine.justified_trace (fun calls call => ?_) calls
  cases call with
  | create name count =>
    rw [Accepts, Machine.map_fst_trace, ← partitionCount_final digest calls name,
      ← TopicRegistry.exists_create_eq_ok_iff]
    exact exists_congr fun topic => TopicAnswer.created.injEq _ _ ▸ Iff.rfl
  | append name record =>
    rw [Accepts, Machine.map_fst_trace, ← partitionCount_final digest calls name,
      ← exists_append_eq_ok_iff (stored_trace digest calls name) digest record]
    exact exists_congr fun place => TopicAnswer.appended.injEq _ _ ▸ Iff.rfl
  | resize name newCount => trivial
  | advanceWatermark name slot toOffset => trivial
  | dropSealedBefore name slot bound => trivial
  | consume name slot offset => trivial

/-- **Where the records of a topic go.** In every run of the broker the offsets of a partition count
up from zero, the records of a key all go to one partition and get rising offsets in the order they
were sent, and the records without a key take the partitions in turn. There are as many partitions
as the first call asked for that created the topic, and an append is refused only before that
call. -/
theorem append_answers (digest : Bytes → ℕ) (calls : List TopicCall) (name : String) :
    (∀ slot, Counts ((appended name slot ((topicBroker digest).trace {} calls)).map Prod.fst)) ∧
      (∀ key, RisingPlaces (((topicBroker digest).trace {} calls).filterMap (placeOf name key))) ∧
      (∀ topic, ((topicBroker digest).final {} calls).topics.get? name = some topic →
        (∀ key, ∀ place ∈ ((topicBroker digest).trace {} calls).filterMap (placeOf name key),
          place.1 = keySlot digest key topic.partitions.length) ∧
        ∃ n, ((topicBroker digest).trace {} calls).filterMap (turnOf name) =
          (List.range n).map (· % topic.partitions.length)) ∧
      ((topicBroker digest).final {} calls).partitionCount name = countIn name calls ∧
      Justified Accepts ((topicBroker digest).trace {} calls) := by
  have hrouted := routed_trace digest calls name
  refine ⟨fun slot => (stored_trace digest calls name slot).counts, hrouted.inOrder,
    fun topic htopic => ?_, partitionCount_final digest calls name, accepts_trace digest calls⟩
  have hshape : ((topicBroker digest).final {} calls).shape name =
      some (topic.partitions.length, topic.roundRobinNext) := by
    rw [TopicRegistry.shape, htopic]
    rfl
  refine ⟨fun key place hplace => (hrouted.places _ _ hshape key place hplace).1, ?_⟩
  obtain ⟨n, -, hturns⟩ := hrouted.turns _ _ hshape
  exact ⟨n, hturns⟩

/-! ### What consumers read -/

/-- Entries whose numbers count up are numbered by their positions. -/
theorem eq_numbered_of_counts {α : Type*} {l : List (ℤ × α)} (h : Counts (l.map Prod.fst)) :
    l = numbered (l.map Prod.snd) := by
  induction l using List.reverseRecOn with
  | nil => rfl
  | append_singleton l entry ih =>
    rw [List.map_append, List.map_singleton, counts_append_singleton] at h
    rw [List.map_append, List.map_singleton, numbered_append_singleton, ← ih h.1, List.length_map,
      ← List.length_map, ← h.2]

/-- A record is read from a partition only where it was appended and once it is committed, and from
then on until retention is asked to drop beyond it. -/
theorem Stored.consume {past : List TopicEvent} {name : String} {slot : ℕ} {partition : Partition}
    (h : Stored past name slot partition) (offset : ℤ) (record : Record) :
    (partition.consume offset = .ok record →
        Committed name slot past offset ∧ (offset, record) ∈ appended name slot past) ∧
      (Committed name slot past offset → (offset, record) ∈ appended name slot past →
        ¬ Dropped name slot past offset → partition.consume offset = .ok record) := by
  obtain ⟨l, hl, hwritten, hstart⟩ := h.log
  have hmem : (offset, record) ∈ appended name slot past ↔
      0 ≤ offset ∧ l.written[offset.toNat]? = some record := by
    rw [eq_numbered_of_counts h.counts, mem_numbered, hwritten]
  rw [hmem]
  constructor
  · intro hok
    have hlt : offset < partition.highWatermark := by
      by_contra hge
      rw [Partition.consume, if_pos (by omega)] at hok
      cases hok
    rw [Partition.consume_of_lt hlt, hl.read_eq] at hok
    cases hread : l.read offset with
    | lagging => rw [hread] at hok; cases hok
    | missing => rw [hread] at hok; cases hok
    | found found =>
      rw [hread] at hok
      obtain rfl := Except.ok.inj hok
      obtain ⟨hle, hget⟩ := OffsetLog.read_eq_found_iff.mp hread
      have hnonneg : 0 ≤ offset := by omega
      exact ⟨(h.committed offset hnonneg).mp hlt, hnonneg, hget⟩
  · rintro hcommitted ⟨hnonneg, hget⟩ hkept
    have hread := OffsetLog.read_eq_found_iff.mpr ⟨hstart offset hnonneg hkept, hget⟩
    rw [Partition.consume_of_lt ((h.committed offset hnonneg).mpr hcommitted), hl.read_eq, hread]

/-- What a consumer is answered, given the events before: a record it reads was appended at that
offset and is committed, and a committed record is read as long as retention has not been asked to
drop beyond it. -/
def Answered (past : List TopicEvent) (e : TopicEvent) : Prop :=
  ∀ name slot offset record, e.1 = .consume name slot offset →
    (e.2 = .consumed (some (.ok record)) →
      Committed name slot past offset ∧ (offset, record) ∈ appended name slot past) ∧
    (Committed name slot past offset → (offset, record) ∈ appended name slot past →
      ¬ Dropped name slot past offset → e.2 = .consumed (some (.ok record)))

theorem answered_step {digest : Bytes → ℕ} {past : List TopicEvent} {registry : TopicRegistry}
    (h : ∀ name slot, Stored past name slot (registry.partitionAt name slot)) (call : TopicCall) :
    Answered past (call, ((topicBroker digest).step registry call).1) := by
  rintro name slot offset record rfl
  obtain ⟨hsound, hcomplete⟩ := (h name slot).consume offset record
  simp only [topicBroker, Prod.map, TopicAnswer.consumed.injEq]
  rcases registry.onPartition_cases name slot (fun partition =>
      (partition.consume offset, partition)) with
    ⟨hfresh, hanswer, -⟩ | ⟨topic, htopic, hslot, hanswer, -⟩
  · -- a partition that does not exist is as good as an empty one
    have hempty : (registry.partitionAt name slot).consume offset ≠ .ok record := by
      rw [hfresh]
      intro hok
      obtain ⟨⟨_, _, -, hmem⟩, -⟩ := ((Stored.fresh name slot slot).consume offset record).1 hok
      exact List.not_mem_nil hmem
    exact ⟨fun hok => absurd hok (hanswer record), fun hcommitted hmem hkept =>
      absurd (hcomplete hcommitted hmem hkept) hempty⟩
  · rw [hanswer, Option.some.injEq]
    exact ⟨hsound, hcomplete⟩

/-- **What consumers read.** In every run of the broker, whatever a consumer reads was appended to
that partition at that offset and the watermark was advanced past it; and whatever was appended and
committed is read, and read unchanged, until retention is asked to drop beyond it. -/
theorem consume_answers (digest : Bytes → ℕ) (calls : List TopicCall) :
    Justified Answered ((topicBroker digest).trace {} calls) := by
  refine (Machine.trace_always
    (P := fun past (registry : TopicRegistry) =>
      (∀ name slot, Stored past name slot (registry.partitionAt name slot)) ∧
        Justified Answered past)
    ⟨fun name slot => ?_, justified_nil _⟩
    (fun past registry call h => ⟨stored_step h.1 call,
      justified_append_singleton.mpr ⟨h.2, answered_step h.1 call⟩⟩) calls).2
  exact Stored.fresh name slot slot

end Relay
