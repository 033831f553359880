import Relay.Lib.Causal
import Relay.Lib.Counters

/-!
# Vector clocks

Every event of a run is stamped with the vector that `tick` or `merge` returned. The entry of a
stamp for a node is the number of events at that node which the stamped event knows of, itself
included (`CountsEvents`). So a stamp is below another at every node exactly when the event is
known to the other one: if it is not, the other event knows of fewer events at this event's own
node.

## Scope

The test for a conflict is left out, which compares two clocks and asks for one of the four answers.

## Main definitions

* `VectorClock`, with `tick`, `merge` and `compare`
* `vectorClock`: a clock at every node, as a replicated object
* `stamp`: what an event of a run is stamped with

## Main results

* `compare_stamp`: comparing stamps decides the order of cause and effect
-/

namespace Relay

/-- A node's clock. -/
structure VectorClock where
  nodeId : String
  vector : Dict String ℤ := ∅
  deriving DecidableEq

/-- What `compare` returns: `BEFORE`, `AFTER`, `EQUAL` or `CONCURRENT`. -/
inductive ClockOrder where
  | before
  | after
  | equal
  | concurrent
  deriving DecidableEq

namespace VectorClock

/-- `tick`. -/
def tick (clock : VectorClock) : Dict String ℤ × VectorClock :=
  let vector := clock.vector.set clock.nodeId (clock.vector.count clock.nodeId + 1)
  (vector, { clock with vector })

/-- `merge`: the larger counts, then a tick. -/
def merge (clock : VectorClock) (other : Dict String ℤ) : Dict String ℤ × VectorClock :=
  tick { clock with vector := clock.vector.mergeMax other }

/-- The loop of `compare`, with `a_less` and `a_greater` so far. -/
def compareLoop (a b : Dict String ℤ) (aLess aGreater : Bool) : List String → Bool × Bool
  | [] => (aLess, aGreater)
  | n :: nodes =>
    if a.count n < b.count n then compareLoop a b true aGreater nodes
    else if a.count n > b.count n then compareLoop a b aLess true nodes
    else compareLoop a b aLess aGreater nodes

/-- `compare`. The nodes are a set, and the loop does not depend on the order it gives them in. -/
def compare (a b : Dict String ℤ) : ClockOrder :=
  let nodes := a.keys ∪ b.keys
  let (aLess, aGreater) := compareLoop a b false false nodes
  if aLess && aGreater then .concurrent
  else if aLess then .before
  else if aGreater then .after
  else .equal

theorem compareLoop_fst {a b : Dict String ℤ} {aLess aGreater : Bool} {nodes : List String} :
    (compareLoop a b aLess aGreater nodes).1 = true ↔
      aLess = true ∨ ∃ n ∈ nodes, a.count n < b.count n := by
  induction nodes generalizing aLess aGreater with
  | nil => simp [compareLoop]
  | cons n nodes ih =>
    rw [compareLoop]
    split_ifs with hless hgreater <;> rw [ih] <;> grind

theorem compareLoop_snd {a b : Dict String ℤ} {aLess aGreater : Bool} {nodes : List String} :
    (compareLoop a b aLess aGreater nodes).2 = true ↔
      aGreater = true ∨ ∃ n ∈ nodes, b.count n < a.count n := by
  induction nodes generalizing aLess aGreater with
  | nil => simp [compareLoop]
  | cons n nodes ih =>
    rw [compareLoop]
    split_ifs with hless hgreater <;> rw [ih] <;> grind

/-- A node that is smaller in `a` is found among the keys. -/
theorem exists_mem_count_lt_iff {a b : Dict String ℤ} {nodes : List String}
    (hnodes : ∀ n, n ∉ nodes → a.count n = 0 ∧ b.count n = 0) :
    (∃ n ∈ nodes, a.count n < b.count n) ↔ ¬ ∀ n, b.count n ≤ a.count n := by
  simp only [not_forall, not_le]
  constructor
  · rintro ⟨n, -, hlt⟩
    exact ⟨n, hlt⟩
  · rintro ⟨n, hlt⟩
    refine ⟨n, ?_, hlt⟩
    by_contra hmem
    obtain ⟨ha, hb⟩ := hnodes n hmem
    omega

/-- What the four answers say. -/
theorem compare_iff (a b : Dict String ℤ) :
    (compare a b = .before ↔
        (∀ n, a.count n ≤ b.count n) ∧ ¬ ∀ n, b.count n ≤ a.count n) ∧
      (compare a b = .after ↔
        (∀ n, b.count n ≤ a.count n) ∧ ¬ ∀ n, a.count n ≤ b.count n) ∧
      (compare a b = .equal ↔
        (∀ n, a.count n ≤ b.count n) ∧ ∀ n, b.count n ≤ a.count n) ∧
      (compare a b = .concurrent ↔
        (¬ ∀ n, a.count n ≤ b.count n) ∧ ¬ ∀ n, b.count n ≤ a.count n) := by
  have hnodes : ∀ n, n ∉ a.keys ∪ b.keys → a.count n = 0 ∧ b.count n = 0 := by
    intro n hn
    rw [List.mem_union_iff, not_or] at hn
    exact ⟨Dict.count_of_not_mem_keys hn.1, Dict.count_of_not_mem_keys hn.2⟩
  have hless : (compareLoop a b false false (a.keys ∪ b.keys)).1 = true ↔
      ¬ ∀ n, b.count n ≤ a.count n := by
    rw [compareLoop_fst, or_iff_right Bool.false_ne_true, exists_mem_count_lt_iff hnodes]
  have hgreater : (compareLoop a b false false (a.keys ∪ b.keys)).2 = true ↔
      ¬ ∀ n, a.count n ≤ b.count n := by
    rw [compareLoop_snd, or_iff_right Bool.false_ne_true,
      exists_mem_count_lt_iff fun n hn => (hnodes n hn).symm]
  simp only [compare]
  by_cases hab : ∀ n, a.count n ≤ b.count n
  · rw [Bool.eq_false_iff.mpr fun h => hgreater.mp h hab]
    by_cases hba : ∀ n, b.count n ≤ a.count n
    · rw [Bool.eq_false_iff.mpr fun h => hless.mp h hba]
      simp [hab, hba]
    · rw [hless.mpr hba]
      simp [hab, hba]
  · rw [hgreater.mpr hab]
    by_cases hba : ∀ n, b.count n ≤ a.count n
    · rw [Bool.eq_false_iff.mpr fun h => hless.mp h hba]
      simp [hab, hba]
    · rw [hless.mpr hba]
      simp [hab, hba]

end VectorClock

/-! ## Stamps -/

/-- A clock at every node. A merge takes the stamp of an earlier event. -/
def vectorClock : Replicated String VectorClock Unit (Dict String ℤ) where
  init nodeId := { nodeId }
  update _ clock _ := clock.tick
  merge _ clock sender := clock.merge sender.vector

/-- The vector returned at an event of the run. -/
def stamp (acts : List (Action String Unit)) (a : ℕ) : Dict String ℤ :=
  ((vectorClock.events acts)[a]?.map Prod.snd).getD ∅

/-- The entries count the events among `H`. -/
structure CountsEvents (acts : List (Action String Unit)) (node : String) (H : Finset ℕ)
    (clock : VectorClock) : Prop where
  nodeId : clock.nodeId = node
  tallies : Tallies acts (fun _ => 1) H clock.vector

namespace CountsEvents

variable {acts : List (Action String Unit)} {node : String} {H : Finset ℕ} {clock : VectorClock}

/-- A tick counts the new event. -/
theorem tick (hH : ∀ a ∈ H, a < acts.length) (h : CountsEvents acts node H clock)
    (x : Action String Unit) (hx : x.site = node) :
    CountsEvents (acts ++ [x]) node (insert acts.length H) clock.tick.2 := by
  have hgrow := h.tallies.grow hH x fun _ _ => rfl
  rw [hx, ← h.nodeId] at hgrow
  exact ⟨h.nodeId, hgrow⟩

end CountsEvents

theorem countsEvents_run (acts : List (Action String Unit)) :
    (∀ i, CountsEvents acts i (causalHistory acts i) ((vectorClock.run acts).replica i)) ∧
      ∀ b clock, (vectorClock.run acts).snapshots[b]? = some clock →
        ∃ j, CountsEvents acts j (causalPast acts b) clock := by
  refine Replicated.run_induction (O := vectorClock) (P := CountsEvents) ?_ ?_ ?_ ?_ acts
  · intro acts i
    exact ⟨rfl, Tallies.empty acts _⟩
  · intro acts x i H clock hH h
    exact ⟨h.nodeId, h.tallies.extend hH x fun _ _ => rfl⟩
  · intro acts i op h
    exact h.tick (isPast_causalHistory acts i).lt _ rfl
  · intro acts i source j sender _ h hsender
    have hH := isPast_causalHistory acts i
    have hH' := isPast_causalPast acts source
    have hmerged : CountsEvents acts i (causalHistory acts i ∪ causalPast acts source)
        { (vectorClock.run acts).replica i with
          vector := ((vectorClock.run acts).replica i).vector.mergeMax sender.vector } :=
      ⟨h.nodeId, h.tallies.merge hsender.tallies hH hH' fun _ => Int.one_nonneg⟩
    exact hmerged.tick (hH.union hH').lt (.merge i source) rfl

/-- The stamp of an event is the vector its node is left with. -/
theorem map_snd_events_vectorClock (acts : List (Action String Unit)) :
    (vectorClock.events acts).map Prod.snd =
      (vectorClock.run acts).snapshots.map VectorClock.vector :=
  vectorClock.map_events_eq_map_snapshots (f := id) (fun _ _ _ => rfl) (fun _ _ _ => rfl) acts

/-- A stamp counts the events in the past of its event. -/
theorem count_stamp {acts : List (Action String Unit)} {b : ℕ} (hb : b < acts.length)
    (n : String) : (stamp acts b).count n = tally acts (fun _ => 1) (causalPast acts b) n := by
  have hlength : b < (vectorClock.run acts).snapshots.length := by
    rwa [vectorClock.length_snapshots_run]
  have hsnapshot := List.getElem?_eq_getElem hlength
  obtain ⟨j, h⟩ := (countsEvents_run acts).2 b _ hsnapshot
  rw [stamp, ← List.getElem?_map, map_snd_events_vectorClock, List.getElem?_map, hsnapshot]
  exact h.tallies n

/-- **Vector clocks characterise causality.** In every run of ticks and merges at any nodes, where
stamps may arrive late, out of order and repeatedly, comparing the stamps of two events says
whether one happened before the other, they are one event, or neither caused the other. -/
theorem compare_stamp (acts : List (Action String Unit)) (a b : Fin acts.length) :
    (VectorClock.compare (stamp acts a) (stamp acts b) = .before ↔ HappensBefore acts a b) ∧
      (VectorClock.compare (stamp acts a) (stamp acts b) = .after ↔ HappensBefore acts b a) ∧
      (VectorClock.compare (stamp acts a) (stamp acts b) = .equal ↔ a = b) ∧
      (VectorClock.compare (stamp acts a) (stamp acts b) = .concurrent ↔
        a ≠ b ∧ ¬ HappensBefore acts a b ∧ ¬ HappensBefore acts b a) := by
  have hle : ∀ c d : Fin acts.length, (∀ n, (stamp acts c).count n ≤ (stamp acts d).count n) ↔
      c = d ∨ HappensBefore acts c d := by
    intro c d
    simp only [count_stamp c.isLt, count_stamp d.isLt]
    rw [forall_tally_le_iff (fun _ => Int.one_pos) c.isLt,
      mem_causalPast_iff_happensBefore d.isLt, Fin.val_inj]
  have hasymm : HappensBefore acts a b → ¬ HappensBefore acts b a := fun hab hba =>
    lt_irrefl _ (hab.lt.trans hba.lt)
  have hirrefl : ∀ c d : Fin acts.length, c = d → ¬ HappensBefore acts c d := by
    rintro c _ rfl h
    exact lt_irrefl _ h.lt
  obtain ⟨hbefore, hafter, hequal, hconcurrent⟩ :=
    VectorClock.compare_iff (stamp acts a) (stamp acts b)
  refine ⟨hbefore.trans ?_, hafter.trans ?_, hequal.trans ?_, hconcurrent.trans ?_⟩
  all_goals
    rw [hle a b, hle b a]
    grind

end Relay
