import Mathlib.Algebra.Order.Ring.Int
import Mathlib.Data.Finset.Card
import Mathlib.Order.Bounds.Basic
import Relay.Errors
import Relay.Lib.Dict
import Relay.Lib.Machine

/-!
# Callback order

Acknowledgements of sends arrive in any order, and the callbacks of a partition have to fire in the
order of its offsets. The dispatcher buffers what arrives ahead of the next offset to fire and
drains the buffer as far as it has no gap.

The dispatcher keeps one dictionary for each of its three fields, with the partitions as keys.
`Lane` is what it keeps for one partition, and every call is a step of the lane it names and of no
other (`view_acknowledge_self`, `view_acknowledge_of_ne`). So a run of the dispatcher is a run of
each lane, and what a lane keeps is said once, without the dictionaries (`Lane.InOrder`).

## Scope

The number of the callbacks that wait, and the note made from it, are left out.

## Main definitions

* `CallbackDispatcher`, with `acknowledge`, `drain` and its loop `drainLoop`
* `Lane`: one partition of a dispatcher
* `callbacks`: the offsets fired for a partition in a run
* `Acknowledged`: the offsets acknowledged for a partition in a run

## Main results

* `callbacks_eq_range`: callbacks fire once, in order and as far as they can, and partitions do not
  interfere; and which calls are refused
-/

namespace Relay

/-- The dispatcher, with its fields by partition. -/
structure CallbackDispatcher where
  nextToFire : Dict String ℤ := ∅
  buffered : Dict String (Finset ℤ) := ∅
  fired : Dict String (Finset ℤ) := ∅

/-- The part of a dispatcher that belongs to one partition. -/
structure Lane where
  nextToFire : ℤ := 0
  buffered : Finset ℤ := ∅
  fired : Finset ℤ := ∅

/-- The loop of `_drain`: what it fires, and the partition afterwards. -/
def drainLoop (lane : Lane) : List ℤ × Lane :=
  if lane.nextToFire ∈ lane.buffered then
    let rest := drainLoop {
      nextToFire := lane.nextToFire + 1
      buffered := lane.buffered.erase lane.nextToFire
      fired := insert lane.nextToFire lane.fired }
    (lane.nextToFire :: rest.1, rest.2)
  else ([], lane)
termination_by lane.buffered.card
decreasing_by exact Finset.card_erase_lt_of_mem ‹_›

namespace CallbackDispatcher

/-- What a dispatcher has for a partition. -/
def view (dispatcher : CallbackDispatcher) (partition : String) : Lane where
  nextToFire := dispatcher.nextToFire.getD partition 0
  buffered := dispatcher.buffered.getD partition ∅
  fired := dispatcher.fired.getD partition ∅

/-- `_drain`. -/
def drain (dispatcher : CallbackDispatcher) (partition : String) :
    List ℤ × CallbackDispatcher :=
  let result := drainLoop (dispatcher.view partition)
  (result.1, {
    nextToFire := dispatcher.nextToFire.set partition result.2.nextToFire
    buffered := dispatcher.buffered.set partition result.2.buffered
    fired := dispatcher.fired.set partition result.2.fired })

/-- The two `setdefault` calls of `acknowledge`. -/
def setDefaults (dispatcher : CallbackDispatcher) (partition : String) : CallbackDispatcher :=
  { dispatcher with
    fired := dispatcher.fired.setDefault partition ∅
    buffered := dispatcher.buffered.setDefault partition ∅ }

/-- `self.buffered[partition].add(offset)`. -/
def addBuffered (dispatcher : CallbackDispatcher) (partition : String) (offset : ℤ) :
    CallbackDispatcher :=
  { dispatcher with
    buffered := dispatcher.buffered.set partition
      (insert offset (dispatcher.view partition).buffered) }

/-- The refusal of an offset that was acknowledged before. -/
def doubleFire (partition : String) (offset : ℤ) : RelayError :=
  .invalid (s!"offset {offset} on '{partition}' already acknowledged; a "
    ++ "double-fire a retry could cause")

/-- The refusal of an offset behind the next one to fire. -/
def behindExpected (partition : String) (offset expected : ℤ) : RelayError :=
  .invalid (s!"offset {offset} is behind the next expected {expected} on "
    ++ s!"'{partition}'; its callback already fired")

/-- `acknowledge`. -/
def acknowledge (dispatcher : CallbackDispatcher) (partition : String) (offset : ℤ) :
    Except RelayError (List ℤ) × CallbackDispatcher :=
  let dispatcher := dispatcher.setDefaults partition
  let lane := dispatcher.view partition
  if offset ∈ lane.fired ∨ offset ∈ lane.buffered then
    (.error (doubleFire partition offset), dispatcher)
  else if offset < lane.nextToFire then
    (.error (behindExpected partition offset lane.nextToFire), dispatcher)
  else
    let result := (dispatcher.addBuffered partition offset).drain partition
    (.ok result.1, result.2)

end CallbackDispatcher

/-- `acknowledge`, for the one partition it is about. -/
def Lane.acknowledge (lane : Lane) (partition : String) (offset : ℤ) :
    Except RelayError (List ℤ) × Lane :=
  if offset ∈ lane.fired ∨ offset ∈ lane.buffered then
    (.error (CallbackDispatcher.doubleFire partition offset), lane)
  else if offset < lane.nextToFire then
    (.error (CallbackDispatcher.behindExpected partition offset lane.nextToFire), lane)
  else
    let result := drainLoop { lane with buffered := insert offset lane.buffered }
    (.ok result.1, result.2)

/-! ## Lanes -/

namespace CallbackDispatcher

variable (dispatcher : CallbackDispatcher) {partition other : String}

/-- Filling in the defaults changes nothing that is looked up. -/
@[simp] theorem view_setDefaults (partition other : String) :
    (dispatcher.setDefaults partition).view other = dispatcher.view other := by
  simp only [view, setDefaults, Dict.getD_setDefault]

theorem view_addBuffered_self (partition : String) (offset : ℤ) :
    (dispatcher.addBuffered partition offset).view partition =
      { dispatcher.view partition with
        buffered := insert offset (dispatcher.view partition).buffered } := by
  simp only [view, addBuffered, Dict.getD_set, if_true]

theorem view_addBuffered_of_ne (h : other ≠ partition) (offset : ℤ) :
    (dispatcher.addBuffered partition offset).view other = dispatcher.view other := by
  simp only [view, addBuffered, Dict.getD_set, if_neg h]

theorem view_drain_self (partition : String) :
    (dispatcher.drain partition).2.view partition =
      (drainLoop (dispatcher.view partition)).2 := by
  simp only [view, drain, Dict.getD_set, if_true]

theorem view_drain_of_ne (h : other ≠ partition) :
    (dispatcher.drain partition).2.view other = dispatcher.view other := by
  simp only [view, drain, Dict.getD_set, if_neg h]

/-- A call is a step of its partition's lane. -/
theorem view_acknowledge_self (partition : String) (offset : ℤ) :
    ((dispatcher.view partition).acknowledge partition offset).1 =
        (dispatcher.acknowledge partition offset).1 ∧
      ((dispatcher.view partition).acknowledge partition offset).2 =
        (dispatcher.acknowledge partition offset).2.view partition := by
  simp only [Lane.acknowledge, acknowledge, view_setDefaults]
  split_ifs
  · exact ⟨rfl, (dispatcher.view_setDefaults partition partition).symm⟩
  · exact ⟨rfl, (dispatcher.view_setDefaults partition partition).symm⟩
  · rw [view_drain_self, drain, view_addBuffered_self, view_setDefaults]
    exact ⟨rfl, rfl⟩

/-- A call leaves the other lanes alone. -/
theorem view_acknowledge_of_ne (h : other ≠ partition) (offset : ℤ) :
    (dispatcher.acknowledge partition offset).2.view other = dispatcher.view other := by
  simp only [acknowledge]
  split_ifs
  · exact dispatcher.view_setDefaults partition other
  · exact dispatcher.view_setDefaults partition other
  · rw [view_drain_of_ne _ h, view_addBuffered_of_ne _ h, view_setDefaults]

end CallbackDispatcher


/-! ## One lane -/

/-- The offsets fired so far are those from zero on, in order, and what is buffered is not behind
them. -/
structure Lane.InOrder (out : List ℤ) (lane : Lane) : Prop where
  nextToFire : lane.nextToFire = out.length
  out : out = (List.range out.length).map Nat.cast
  fired : ∀ o, o ∈ lane.fired ↔ 0 ≤ o ∧ o < lane.nextToFire
  buffered : ∀ o ∈ lane.buffered, lane.nextToFire ≤ o

/-- The offset is fired or buffered. -/
def Lane.Has (lane : Lane) (o : ℤ) : Prop := o ∈ lane.fired ∨ o ∈ lane.buffered

/-- The loop fires in order until the next offset is missing, and loses nothing. -/
theorem Lane.InOrder.drainLoop {out : List ℤ} {lane : Lane} (h : lane.InOrder out) :
    (Relay.drainLoop lane).2.InOrder (out ++ (Relay.drainLoop lane).1) ∧
      (Relay.drainLoop lane).2.nextToFire ∉ (Relay.drainLoop lane).2.buffered ∧
      ∀ o, (Relay.drainLoop lane).2.Has o ↔ lane.Has o := by
  induction lane using drainLoop.induct generalizing out with
  | case1 lane hmem ih =>
    rw [Relay.drainLoop, if_pos hmem]
    have hnext : Lane.InOrder (out ++ [lane.nextToFire]) {
        nextToFire := lane.nextToFire + 1
        buffered := lane.buffered.erase lane.nextToFire
        fired := insert lane.nextToFire lane.fired } := by
      refine ⟨?_, ?_, fun o => ?_, fun o ho => ?_⟩
      · rw [List.length_append, h.nextToFire]
        rfl
      · rw [List.length_append, List.length_singleton, List.range_succ, List.map_append, ← h.out,
          List.map_singleton, h.nextToFire]
      · have hnonneg : 0 ≤ lane.nextToFire := by
          rw [h.nextToFire]
          exact Int.natCast_nonneg _
        show _ ↔ 0 ≤ o ∧ o < lane.nextToFire + 1
        rw [Finset.mem_insert, h.fired]
        omega
      · obtain ⟨hne, ho⟩ := Finset.mem_erase.mp ho
        exact Int.add_one_le_of_lt (lt_of_le_of_ne (h.buffered o ho) (Ne.symm hne))
    obtain ⟨hinOrder, hquiet, hhas⟩ := ih hnext
    rw [List.append_assoc] at hinOrder
    refine ⟨hinOrder, hquiet, fun o => (hhas o).trans ?_⟩
    -- the offset that is fired was buffered
    simp only [Lane.Has, Finset.mem_insert, Finset.mem_erase]
    by_cases ho : o = lane.nextToFire
    · subst ho
      exact iff_of_true (Or.inl (Or.inl rfl)) (Or.inr hmem)
    · simp only [ho, false_or, ne_eq, not_false_eq_true, true_and]
  | case2 lane hmem =>
    rw [Relay.drainLoop, if_neg hmem, List.append_nil]
    exact ⟨h, hmem, fun _ => Iff.rfl⟩

/-- What a call fired. -/
def firedBy : Except RelayError (List ℤ) → List ℤ
  | .ok fired => fired
  | .error _ => []

/-- A lane after some events: it fired in order, it has what was acknowledged, which is every offset
that was asked for and is not negative, and its next offset is not among them. -/
structure Lane.Follows (past : List ((String × ℤ) × Except RelayError (List ℤ))) (lane : Lane) :
    Prop where
  inOrder : lane.InOrder (past.flatMap fun e => firedBy e.2)
  not_mem : lane.nextToFire ∉ lane.buffered
  has_iff : ∀ o, lane.Has o ↔ ∃ partition fired, ((partition, o), Except.ok fired) ∈ past
  has_iff_asked : ∀ o, lane.Has o ↔ 0 ≤ o ∧ ∃ partition, (partition, o) ∈ past.map Prod.fst

theorem Lane.InOrder.nextToFire_nonneg {out : List ℤ} {lane : Lane} (h : lane.InOrder out) :
    0 ≤ lane.nextToFire := by
  rw [h.nextToFire]
  exact Int.natCast_nonneg _

/-- What a lane has is not negative. -/
theorem Lane.InOrder.nonneg_of_has {out : List ℤ} {lane : Lane} (h : lane.InOrder out) {o : ℤ}
    (ho : lane.Has o) : 0 ≤ o := by
  rcases ho with hfired | hbuffered
  · exact ((h.fired o).mp hfired).1
  · exact h.nextToFire_nonneg.trans (h.buffered o hbuffered)

/-- A call is refused if the lane has the offset already, or the offset is negative. -/
theorem Lane.InOrder.acknowledge_eq {out : List ℤ} {lane : Lane} (h : lane.InOrder out)
    (partition : String) (offset : ℤ) :
    (0 ≤ offset → lane.Has offset) ∧ (∃ error, lane.acknowledge partition offset =
        (.error error, lane)) ∨
      (0 ≤ offset ∧ ¬ lane.Has offset ∧ lane.nextToFire ≤ offset) ∧
        lane.acknowledge partition offset =
          (.ok (Relay.drainLoop { lane with buffered := insert offset lane.buffered }).1,
            (Relay.drainLoop { lane with buffered := insert offset lane.buffered }).2) := by
  rw [Lane.acknowledge]
  split_ifs with hdouble hbehind
  · exact Or.inl ⟨fun _ => hdouble, _, rfl⟩
  · -- an offset that is behind and was not fired is negative
    refine Or.inl ⟨fun hnonneg => Or.inl ((h.fired offset).mpr ⟨hnonneg, hbehind⟩), _, rfl⟩
  · have hle := not_lt.mp hbehind
    exact Or.inr ⟨⟨h.nextToFire_nonneg.trans hle, hdouble, hle⟩, rfl⟩

/-- Which calls are accepted. -/
theorem Lane.Follows.exists_ok_iff
    {past : List ((String × ℤ) × Except RelayError (List ℤ))} {lane : Lane}
    (h : lane.Follows past) (partition : String) (offset : ℤ) :
    (∃ fired, (lane.acknowledge partition offset).1 = .ok fired) ↔
      0 ≤ offset ∧ ∀ partition', (partition', offset) ∉ past.map Prod.fst := by
  rcases h.inOrder.acknowledge_eq partition offset with
    ⟨hhas, error, heq⟩ | ⟨⟨hnonneg, hnot, -⟩, heq⟩
  · rw [heq]
    refine iff_of_false nofun ?_
    rintro ⟨hnonneg, hnew⟩
    obtain ⟨-, partition', hmem⟩ := (h.has_iff_asked offset).mp (hhas hnonneg)
    exact hnew partition' hmem
  · rw [heq]
    refine iff_of_true ⟨_, rfl⟩ ⟨hnonneg, fun partition' hmem => hnot ?_⟩
    exact (h.has_iff_asked offset).mpr ⟨hnonneg, partition', hmem⟩

/-- A call that is refused changes nothing. -/
theorem Lane.Follows.refuse {past : List ((String × ℤ) × Except RelayError (List ℤ))} {lane : Lane}
    (h : lane.Follows past) {call : String × ℤ} (hhas : 0 ≤ call.2 → lane.Has call.2)
    (error : RelayError) : lane.Follows (past ++ [(call, .error error)]) := by
  refine ⟨?_, h.not_mem, fun o => ?_, fun o => ?_⟩
  · rw [List.flatMap_append, List.flatMap_singleton, firedBy, List.append_nil]
    exact h.inOrder
  · rw [h.has_iff]
    simp
  · simp only [List.map_append, List.map_singleton, List.mem_append, List.mem_singleton]
    constructor
    · intro ho
      obtain ⟨hnonneg, partition, hmem⟩ := (h.has_iff_asked o).mp ho
      exact ⟨hnonneg, partition, Or.inl hmem⟩
    · rintro ⟨hnonneg, partition, hmem | rfl⟩
      · exact (h.has_iff_asked o).mpr ⟨hnonneg, partition, hmem⟩
      · exact hhas hnonneg

theorem Lane.Follows.step {past : List ((String × ℤ) × Except RelayError (List ℤ))} {lane : Lane}
    (h : lane.Follows past) (partition : String) (offset : ℤ) :
    (lane.acknowledge partition offset).2.Follows
      (past ++ [((partition, offset), (lane.acknowledge partition offset).1)]) := by
  rcases h.inOrder.acknowledge_eq partition offset with
    ⟨hhas, error, heq⟩ | ⟨⟨hnonneg, -, hle⟩, heq⟩
  · rw [heq]
    exact h.refuse hhas error
  · rw [heq]
    have hbuffered : Lane.InOrder (past.flatMap fun e => firedBy e.2)
        { lane with buffered := insert offset lane.buffered } := by
      refine ⟨h.inOrder.nextToFire, h.inOrder.out, h.inOrder.fired, fun o ho => ?_⟩
      rcases Finset.mem_insert.mp ho with rfl | ho
      · exact hle
      · exact h.inOrder.buffered o ho
    obtain ⟨hinOrder, hquiet, hhas⟩ := hbuffered.drainLoop
    refine ⟨?_, hquiet, fun o => ?_, fun o => ?_⟩
    · rw [List.flatMap_append, List.flatMap_singleton]
      exact hinOrder
    · have hold := h.has_iff o
      rw [Lane.Has] at hold
      rw [hhas, Lane.Has, Finset.mem_insert, or_left_comm, hold]
      constructor
      · rintro (rfl | ⟨partition', fired, hmem⟩)
        · exact ⟨_, _, List.mem_append_right _ (List.mem_singleton_self _)⟩
        · exact ⟨_, _, List.mem_append_left _ hmem⟩
      · rintro ⟨partition', fired, hmem⟩
        rcases List.mem_append.mp hmem with hmem | hmem
        · exact Or.inr ⟨_, _, hmem⟩
        · exact Or.inl (congrArg (fun e => e.1.2) (List.mem_singleton.mp hmem))
    · have hold := h.has_iff_asked o
      rw [Lane.Has] at hold
      rw [hhas, Lane.Has, Finset.mem_insert, or_left_comm, hold]
      simp only [List.map_append, List.map_singleton, List.mem_append, List.mem_singleton]
      constructor
      · rintro (rfl | ⟨ho, partition', hmem⟩)
        · exact ⟨hnonneg, partition, Or.inr rfl⟩
        · exact ⟨ho, partition', Or.inl hmem⟩
      · rintro ⟨ho, partition', hmem | heq⟩
        · exact Or.inr ⟨ho, partition', hmem⟩
        · exact Or.inl (congrArg Prod.snd heq)

/-! ## Runs -/

/-- The dispatcher as a component; a call is a partition and an offset. -/
def callbackDispatcher :
    Machine CallbackDispatcher (String × ℤ) (Except RelayError (List ℤ)) where
  step dispatcher call := dispatcher.acknowledge call.1 call.2

/-- A lane as a component. -/
def callbackLane : Machine Lane (String × ℤ) (Except RelayError (List ℤ)) where
  step lane call := lane.acknowledge call.1 call.2

/-- The callbacks of a partition that were fired in a run, in order. -/
def callbacks (calls : List (String × ℤ)) (partition : String) : List ℤ :=
  ((callbackDispatcher.trace {} calls).filter fun e => e.1.1 = partition).flatMap
    fun e => firedBy e.2

/-- The offset was acknowledged in a run, by a call that was not refused. -/
def Acknowledged (calls : List (String × ℤ)) (partition : String) (offset : ℤ) : Prop :=
  ∃ fired, ((partition, offset), Except.ok fired) ∈ callbackDispatcher.trace {} calls

theorem follows_run (calls : List (String × ℤ)) :
    (callbackLane.final {} calls).Follows (callbackLane.trace {} calls) := by
  refine Machine.trace_always (P := fun past (lane : Lane) => lane.Follows past) ?_
    (fun past lane call h => h.step call.1 call.2) calls
  refine ⟨⟨rfl, rfl, fun o => ?_, ?_⟩, ?_, fun o => ?_, fun o => ?_⟩
  · show o ∈ (∅ : Finset ℤ) ↔ 0 ≤ o ∧ o < 0
    simp
  · exact fun o ho => absurd ho (Finset.notMem_empty o)
  · exact Finset.notMem_empty _
  · simp [Lane.Has]
  · simp [Lane.Has]

section Lanes

variable (partition : String)

/-- A call with the partition is a step of its lane, and a call with another leaves the lane
alone. -/
theorem callbackLane_isLane :
    callbackDispatcher.IsLane Prod.fst partition callbackLane (·.view partition) := by
  constructor
  · rintro dispatcher ⟨_, offset⟩ rfl
    exact dispatcher.view_acknowledge_self _ offset
  · rintro dispatcher ⟨partition', offset⟩ h
    exact dispatcher.view_acknowledge_of_ne (Ne.symm h) offset

/-- A call is refused exactly if its offset is negative or it was made before. -/
theorem exists_ok_iff_final (calls : List (String × ℤ)) (offset : ℤ) :
    (∃ fired, (callbackDispatcher.step (callbackDispatcher.final {} calls)
        (partition, offset)).1 = .ok fired) ↔ 0 ≤ offset ∧ (partition, offset) ∉ calls := by
  have hview := (callbackLane_isLane partition).view_final_eq {} calls
  have h := follows_run (calls.filter fun call => call.1 = partition)
  rw [← ((callbackLane_isLane partition).own _ (partition, offset) rfl).1, hview]
  refine (h.exists_ok_iff partition offset).trans (and_congr_right fun _ => ?_)
  rw [Machine.map_fst_trace]
  constructor
  · exact fun hnew hmem => hnew partition (List.mem_filter.mpr ⟨hmem, decide_eq_true rfl⟩)
  · intro hnew partition' hmem
    obtain ⟨hmem, heq⟩ := List.mem_filter.mp hmem
    have hsame : partition' = partition := of_decide_eq_true heq
    exact hnew (hsame ▸ hmem)

end Lanes

/-- **Callbacks fire once and in order.** Whatever is acknowledged, in whatever order and however
often, the callbacks fired for a partition are those of the offsets from zero up to the first that
was not acknowledged; and the calls for a partition are answered as if there were no others. A call
is refused exactly if its offset is negative or it was made before. -/
theorem callbacks_eq_range (calls : List (String × ℤ)) (partition : String) :
    (∃ k : ℕ, IsLeast {n : ℕ | ¬ Acknowledged calls partition n} k ∧
        callbacks calls partition = (List.range k).map Nat.cast) ∧
      (callbackDispatcher.trace {} calls).filter (fun e => e.1.1 = partition) =
        callbackDispatcher.trace {} (calls.filter fun call => call.1 = partition) ∧
      Justified (fun past e => (∃ fired, e.2 = .ok fired) ↔ 0 ≤ e.1.2 ∧ e.1 ∉ past.map Prod.fst)
        (callbackDispatcher.trace {} calls) := by
  have hisLane := callbackLane_isLane partition
  refine ⟨?_, hisLane.filter_trace_eq_trace_filter {} calls, ?_⟩
  · -- along the partition, the run is one of its lane
    have hlane : (callbackDispatcher.trace {} calls).filter (fun e => e.1.1 = partition) =
        callbackLane.trace {} (calls.filter fun call => call.1 = partition) :=
      hisLane.filter_trace_eq {} calls
    have h := follows_run (calls.filter fun call => call.1 = partition)
    rw [← hlane] at h
    have hhas : ∀ o, (callbackLane.final {} (calls.filter fun call => call.1 = partition)).Has o ↔
        Acknowledged calls partition o := by
      intro o
      rw [h.has_iff, Acknowledged]
      constructor
      · rintro ⟨partition', fired, hmem⟩
        obtain ⟨htrace, hpartition⟩ := List.mem_filter.mp hmem
        obtain rfl : partition' = partition := of_decide_eq_true hpartition
        exact ⟨fired, htrace⟩
      · rintro ⟨fired, hmem⟩
        exact ⟨partition, fired, List.mem_filter.mpr ⟨hmem, decide_eq_true rfl⟩⟩
    refine ⟨(callbacks calls partition).length, ⟨?_, fun n hn => ?_⟩, h.inOrder.out⟩
    · show ¬ Acknowledged calls partition _
      have hnext := h.inOrder.nextToFire
      rw [← hhas]
      rintro (hfired | hbuffered)
      · have hlt := ((h.inOrder.fired _).mp hfired).2
        rw [hnext] at hlt
        exact lt_irrefl _ hlt
      · exact h.not_mem (hnext ▸ hbuffered)
    · by_contra hlt
      refine hn ((hhas n).mp (Or.inl ((h.inOrder.fired n).mpr ⟨Int.natCast_nonneg n, ?_⟩)))
      rw [h.inOrder.nextToFire]
      exact Int.ofNat_lt.mpr (not_le.mp hlt)
  · refine Machine.justified_trace (fun calls call => ?_) calls
    rw [Machine.map_fst_trace]
    exact exists_ok_iff_final call.1 calls call.2

end Relay
