import Mathlib.Data.Prod.Lex
import Relay.Lib.Causal

/-!
# Hybrid logical clocks

A timestamp is a wall reading with a counter behind it, and timestamps are compared by the reading
first. A node reads its wall clock once at every event. The readings are whatever they are: a
node's wall clock is the sequence of its readings, with no assumption on how they follow each
other or how they compare between nodes.

What carries both halves of the guarantee is that a node's clock is at or above the stamp of every
event it has heard of, and that its physical component was read off some wall clock at one of
them (`Tracks`). A step then only has to go strictly above the clock and the message it is given.

## Scope

The note on drift is left out.

## Main definitions

* `HybridLogicalClock`, with `tick`, `onReceive` and `compare`
* `hybridClock`: a clock at every node, as a replicated object
* `timestampAt`, `readingAt`: what an event returned, and the wall reading it was made with

## Main results

* `timestampAt_lt_and_physical_le`: stamps grow along cause and effect, and stay within the wall
  readings that the event can have heard of
* `compare_timestampAt_of_happensBefore`: so `compare` puts causes before effects
-/

namespace Relay

/-- `(physical, counter)`, compared as physical, then counter. -/
abbrev Timestamp := ℤ ×ₗ ℤ

/-- The larger timestamp has the larger physical component. -/
theorem Timestamp.physical_max (t t' : Timestamp) :
    (ofLex (max t t')).1 = max (ofLex t).1 (ofLex t').1 := by
  have hmono : Monotone fun t : Timestamp => (ofLex t).1 := Prod.Lex.monotone_fst_ofLex
  exact hmono.map_max

/-- A node's clock. -/
structure HybridLogicalClock where
  physical : ℤ := 0
  counter : ℤ := 0
  deriving DecidableEq

namespace HybridLogicalClock

/-- The timestamp a clock shows. -/
def timestamp (clock : HybridLogicalClock) : Timestamp := toLex (clock.physical, clock.counter)

/-- `tick`. -/
def tick (clock : HybridLogicalClock) (wallNow : ℤ) : Timestamp × HybridLogicalClock :=
  let next : HybridLogicalClock :=
    if wallNow > clock.physical then { physical := wallNow, counter := 0 }
    -- the clock did not advance: bump the counter
    else { clock with counter := clock.counter + 1 }
  (next.timestamp, next)

/-- `on_receive`. -/
def onReceive (clock : HybridLogicalClock) (wallNow : ℤ) (msg : Timestamp) :
    Timestamp × HybridLogicalClock :=
  let msgPhysical := (ofLex msg).1
  let msgCounter := (ofLex msg).2
  let newPhysical := max (max clock.physical msgPhysical) wallNow
  let counter :=
    if newPhysical = clock.physical ∧ clock.physical = msgPhysical then
      max clock.counter msgCounter + 1
    else if newPhysical = clock.physical then clock.counter + 1
    else if newPhysical = msgPhysical then msgCounter + 1
    else 0
  let next : HybridLogicalClock := { physical := newPhysical, counter }
  (next.timestamp, next)

/-- `compare`. -/
def compare (a b : Timestamp) : ℤ := if a < b then -1 else if a > b then 1 else 0

theorem timestamp_lt_iff {clock clock' : HybridLogicalClock} :
    clock.timestamp < clock'.timestamp ↔ clock.physical < clock'.physical ∨
      clock.physical = clock'.physical ∧ clock.counter < clock'.counter :=
  Prod.Lex.toLex_lt_toLex

/-- A tick goes above the clock. -/
theorem timestamp_lt_tick (clock : HybridLogicalClock) (wallNow : ℤ) :
    clock.timestamp < (clock.tick wallNow).2.timestamp := by
  rw [timestamp_lt_iff]
  simp only [tick]
  split
  · next hwall => exact Or.inl hwall
  · exact Or.inr ⟨rfl, lt_add_one _⟩

theorem physical_tick (clock : HybridLogicalClock) (wallNow : ℤ) :
    (clock.tick wallNow).2.physical = max clock.physical wallNow := by
  simp only [tick]
  split
  · next hwall => exact (max_eq_right hwall.le).symm
  · next hwall => exact (max_eq_left (not_lt.mp hwall)).symm

theorem physical_onReceive (clock : HybridLogicalClock) (wallNow : ℤ) (msg : Timestamp) :
    (clock.onReceive wallNow msg).2.physical =
      max (max clock.physical (ofLex msg).1) wallNow := rfl

/-- A receipt goes above the clock. The larger of the three readings either is the clock's, and
then both branches for that raise its counter, or it is larger. -/
theorem timestamp_lt_onReceive (clock : HybridLogicalClock) (wallNow : ℤ) (msg : Timestamp) :
    clock.timestamp < (clock.onReceive wallNow msg).2.timestamp := by
  rw [timestamp_lt_iff, physical_onReceive]
  rcases (le_max_of_le_left (le_max_left _ _) :
    clock.physical ≤ max (max clock.physical (ofLex msg).1) wallNow).lt_or_eq with hlt | heq
  · exact Or.inl hlt
  · refine Or.inr ⟨heq, ?_⟩
    simp only [onReceive]
    rw [← heq]
    split_ifs with hboth hself
    · exact Int.lt_add_one_of_le (le_max_left _ _)
    · exact lt_add_one _
    · exact absurd rfl hself
    · exact absurd rfl hself

/-- A receipt goes above the message. -/
theorem msg_lt_onReceive (clock : HybridLogicalClock) (wallNow : ℤ) (msg : Timestamp) :
    msg < (clock.onReceive wallNow msg).2.timestamp := by
  rw [Prod.Lex.lt_iff]
  show (ofLex msg).1 < (clock.onReceive wallNow msg).2.physical ∨
    (ofLex msg).1 = (clock.onReceive wallNow msg).2.physical ∧
      (ofLex msg).2 < (clock.onReceive wallNow msg).2.counter
  rw [physical_onReceive]
  rcases (le_max_of_le_left (le_max_right _ _) :
    (ofLex msg).1 ≤ max (max clock.physical (ofLex msg).1) wallNow).lt_or_eq with hlt | heq
  · exact Or.inl hlt
  · refine Or.inr ⟨heq, ?_⟩
    simp only [onReceive]
    rw [← heq]
    split_ifs with hboth hself
    · exact Int.lt_add_one_of_le (le_max_right _ _)
    -- the clock's own reading is the message's: the first branch was meant for this
    · exact absurd ⟨hself, hself.symm⟩ hboth
    · exact lt_add_one _
    · next hmsg => exact absurd rfl hmsg

end HybridLogicalClock

/-! ## Runs -/

section Runs

variable {ι : Type*} [DecidableEq ι]

/-- A node with its clock and the number of times it has read its wall clock. -/
structure ClockNode where
  clock : HybridLogicalClock := {}
  readings : ℕ := 0

/-- A clock at every node, where `wall i k` is what node `i` reads the `k`-th time. A receipt takes
the timestamp of an earlier event. The answer is the wall reading and the timestamp. -/
def hybridClock (wall : ι → ℕ → ℤ) : Replicated ι ClockNode Unit (ℤ × Timestamp) where
  init _ := {}
  update i node _ :=
    let wallNow := wall i node.readings
    let result := node.clock.tick wallNow
    ((wallNow, result.1), { clock := result.2, readings := node.readings + 1 })
  merge i node sender :=
    let wallNow := wall i node.readings
    let result := node.clock.onReceive wallNow sender.clock.timestamp
    ((wallNow, result.1), { clock := result.2, readings := node.readings + 1 })

/-- The wall reading at an event of the run. -/
def readingAt (wall : ι → ℕ → ℤ) (acts : List (Action ι Unit)) (a : ℕ) : ℤ :=
  (((hybridClock wall).events acts)[a]?.map fun e => e.2.1).getD 0

/-- The timestamp returned at an event of the run. -/
def timestampAt (wall : ι → ℕ → ℤ) (acts : List (Action ι Unit)) (a : ℕ) : Timestamp :=
  (((hybridClock wall).events acts)[a]?.map fun e => e.2.2).getD (toLex (0, 0))

variable {wall : ι → ℕ → ℤ} {acts : List (Action ι Unit)}

theorem readingAt_append {x : Action ι Unit} {a : ℕ} (ha : a < acts.length) :
    readingAt wall (acts ++ [x]) a = readingAt wall acts a := by
  rw [readingAt, Replicated.getElem?_events_of_lt _ x ha, readingAt]

theorem timestampAt_append {x : Action ι Unit} {a : ℕ} (ha : a < acts.length) :
    timestampAt wall (acts ++ [x]) a = timestampAt wall acts a := by
  rw [timestampAt, Replicated.getElem?_events_of_lt _ x ha, timestampAt]

theorem readingAt_length (x : Action ι Unit) : readingAt wall (acts ++ [x]) acts.length =
    (((hybridClock wall).machine.step ((hybridClock wall).run acts) x).1).1 := by
  rw [readingAt, Replicated.getElem?_events_length]
  rfl

theorem timestampAt_length (x : Action ι Unit) : timestampAt wall (acts ++ [x]) acts.length =
    (((hybridClock wall).machine.step ((hybridClock wall).run acts) x).1).2 := by
  rw [timestampAt, Replicated.getElem?_events_length]
  rfl

/-- The timestamp `t` is at or above every stamp in `H`, its physical component is the initial one
or was read at an event in `H`, and the stamps in `H` are above those in their pasts. -/
structure Tracks (wall : ι → ℕ → ℤ) (acts : List (Action ι Unit)) (H : Finset ℕ)
    (t : Timestamp) : Prop where
  le : ∀ a ∈ H, timestampAt wall acts a ≤ t
  physical : (ofLex t).1 ≤ 0 ∨ ∃ a ∈ H, (ofLex t).1 ≤ readingAt wall acts a
  lt : ∀ b ∈ H, ∀ a ∈ causalPast acts b, a ≠ b → timestampAt wall acts a < timestampAt wall acts b

namespace Tracks

variable {H H' : Finset ℕ} {t t' : Timestamp}

theorem extend (hH : ∀ a ∈ H, a < acts.length) (h : Tracks wall acts H t) (x : Action ι Unit) :
    Tracks wall (acts ++ [x]) H t where
  le a ha := by
    rw [timestampAt_append (hH a ha)]
    exact h.le a ha
  physical := by
    refine h.physical.imp_right ?_
    rintro ⟨a, ha, hle⟩
    refine ⟨a, ha, ?_⟩
    rwa [readingAt_append (hH a ha)]
  lt b hb a ha hne := by
    rw [causalPast_append_singleton, if_neg (hH b hb).ne] at ha
    rw [timestampAt_append ((isPast_causalPast acts b).lt a ha), timestampAt_append (hH b hb)]
    exact h.lt b hb a ha hne

/-- What two timestamps track, the larger one tracks. -/
theorem union (h : Tracks wall acts H t) (h' : Tracks wall acts H' t') :
    Tracks wall acts (H ∪ H') (max t t') where
  le a ha := by
    rcases Finset.mem_union.mp ha with ha | ha
    · exact le_max_of_le_left (h.le a ha)
    · exact le_max_of_le_right (h'.le a ha)
  physical := by
    rcases max_choice t t' with heq | heq
    · rw [heq]
      refine h.physical.imp_right ?_
      rintro ⟨a, ha, hle⟩
      exact ⟨a, Finset.mem_union_left _ ha, hle⟩
    · rw [heq]
      refine h'.physical.imp_right ?_
      rintro ⟨a, ha, hle⟩
      exact ⟨a, Finset.mem_union_right _ ha, hle⟩
  lt b hb := (Finset.mem_union.mp hb).elim (h.lt b) (h'.lt b)

/-- The stamp of a new event, if it is above `t` and physically no further than `t` or the wall,
tracks the event and its past. -/
theorem grow (hH : ∀ a ∈ H, a < acts.length) (h : Tracks wall acts H t) {x : Action ι Unit}
    (hpast : pastOfNext acts x = insert acts.length H)
    (hstamp : timestampAt wall (acts ++ [x]) acts.length = t') (hlt : t < t')
    (hphysical : (ofLex t').1 ≤ max (ofLex t).1 (readingAt wall (acts ++ [x]) acts.length)) :
    Tracks wall (acts ++ [x]) (insert acts.length H) t' := by
  have h' := h.extend hH x
  refine ⟨?_, ?_, ?_⟩
  · intro a ha
    rcases Finset.mem_insert.mp ha with rfl | ha
    · exact hstamp.le
    · exact (h'.le a ha).trans hlt.le
  · rcases le_max_iff.mp hphysical with hle | hle
    · refine h'.physical.imp hle.trans ?_
      rintro ⟨a, ha, ha'⟩
      exact ⟨a, Finset.mem_insert_of_mem ha, hle.trans ha'⟩
    · exact Or.inr ⟨acts.length, Finset.mem_insert_self _ _, hle⟩
  · intro b hb a ha hne
    rcases Finset.mem_insert.mp hb with rfl | hb
    · rw [causalPast_append_singleton, if_pos rfl, hpast] at ha
      rw [hstamp]
      exact (h'.le a (Finset.mem_of_mem_insert_of_ne ha hne)).trans_lt hlt
    · exact h'.lt b hb a ha hne

end Tracks

theorem tracks_run (wall : ι → ℕ → ℤ) (acts : List (Action ι Unit)) :
    (∀ i, Tracks wall acts (causalHistory acts i)
        (((hybridClock wall).run acts).replica i).clock.timestamp) ∧
      ∀ b node, ((hybridClock wall).run acts).snapshots[b]? = some node →
        ∃ _j : ι, Tracks wall acts (causalPast acts b) node.clock.timestamp := by
  refine Replicated.run_induction (O := hybridClock wall)
    (P := fun acts _ H node => Tracks wall acts H node.clock.timestamp) ?_ ?_ ?_ ?_ acts
  · intro acts i
    exact ⟨by simp, Or.inl le_rfl, by simp⟩
  · intro acts x i H node hH h
    exact h.extend hH x
  · intro acts i op h
    refine h.grow (isPast_causalHistory acts i).lt ?_ (timestampAt_length _)
      (HybridLogicalClock.timestamp_lt_tick _ _) ?_
    · rw [pastOfNext]
      simp [Action.source, Action.site]
    · rw [readingAt_length]
      exact (HybridLogicalClock.physical_tick _ _).le
  · rintro acts i source j _ rfl h hsender
    have hH := (isPast_causalHistory acts i).union (isPast_causalPast acts source)
    refine (h.union hsender).grow hH.lt rfl (timestampAt_length _) ?_ ?_
    · exact max_lt (HybridLogicalClock.timestamp_lt_onReceive _ _ _)
        (HybridLogicalClock.msg_lt_onReceive _ _ _)
    · rw [readingAt_length, Timestamp.physical_max]
      exact (HybridLogicalClock.physical_onReceive _ _ _).le

/-- The timestamp of an event is the one its node is left with, and tracks the event's past. -/
theorem tracks_timestampAt {b : ℕ} (hb : b < acts.length) :
    Tracks wall acts (causalPast acts b) (timestampAt wall acts b) := by
  have hlength : b < ((hybridClock wall).run acts).snapshots.length := by
    rwa [(hybridClock wall).length_snapshots_run]
  have hsnapshot := List.getElem?_eq_getElem hlength
  obtain ⟨-, h⟩ := (tracks_run wall acts).2 b _ hsnapshot
  have hanswers := (hybridClock wall).map_events_eq_map_snapshots (f := Prod.snd)
    (g := fun node => node.clock.timestamp) (fun _ _ _ => rfl) (fun _ _ _ => rfl) acts
  rw [timestampAt, ← List.getElem?_map, hanswers, List.getElem?_map, hsnapshot]
  exact h

theorem timestampAt_lt_of_happensBefore {a b : ℕ} (h : HappensBefore acts a b) :
    timestampAt wall acts a < timestampAt wall acts b := by
  have hb := h.lt_length
  exact (tracks_timestampAt hb).lt b (mem_causalPast_self hb) a
    ((mem_causalPast_iff_happensBefore hb).mpr (Or.inr h)) h.lt.ne

/-- The comparison of the source puts causes before their effects, from either side. -/
theorem compare_timestampAt_of_happensBefore {a b : ℕ} (h : HappensBefore acts a b) :
    HybridLogicalClock.compare (timestampAt wall acts a) (timestampAt wall acts b) = -1 ∧
      HybridLogicalClock.compare (timestampAt wall acts b) (timestampAt wall acts a) = 1 := by
  have hlt : timestampAt wall acts a < timestampAt wall acts b := timestampAt_lt_of_happensBefore h
  rw [HybridLogicalClock.compare, HybridLogicalClock.compare, if_pos hlt, if_neg hlt.not_gt,
    if_pos hlt]
  exact ⟨rfl, rfl⟩

/-- **Hybrid clocks track causality and stay near the wall.** In every run of any nodes, whatever
their wall clocks read and in whatever order timestamps are received, the timestamp of an event is
above those of all events that happened before it, and its physical component is no larger than
the largest wall reading among the event and those before it, or than the initial one. -/
theorem timestampAt_lt_and_physical_le (wall : ι → ℕ → ℤ) (acts : List (Action ι Unit)) :
    (∀ a b, HappensBefore acts a b → timestampAt wall acts a < timestampAt wall acts b) ∧
      ∀ b : Fin acts.length, (ofLex (timestampAt wall acts b)).1 ≤ 0 ∨
        ∃ a, (a = b.val ∨ HappensBefore acts a b) ∧
          (ofLex (timestampAt wall acts b)).1 ≤ readingAt wall acts a := by
  refine ⟨fun a b hab => timestampAt_lt_of_happensBefore hab, fun b => ?_⟩
  refine (tracks_timestampAt b.isLt).physical.imp_right ?_
  rintro ⟨a, ha, hle⟩
  exact ⟨a, (mem_causalPast_iff_happensBefore b.isLt).mp ha, hle⟩

end Runs

end Relay
