import Mathlib.Algebra.Order.Ring.Int
import Mathlib.Data.Finset.Card
import Mathlib.Data.Finset.Dedup
import Relay.Errors
import Relay.Lib.Dict
import Relay.Lib.Machine

/-!
# Checkpoint barriers

A checkpoint is a cut through all inputs of an operator, drawn by a barrier on each. The operator
takes its snapshot once the barrier has arrived on every input, and holds back what comes behind
the barrier in the meantime.

The first barrier to arrive says which checkpoint it is, and its id must exceed the last one's. The
ids of the barriers that follow are not looked at. So the ids of the snapshots increase, but an
input may be counted as aligned that has sent the barrier of another checkpoint. The cuts are
consistent, however the alignments are completed, exactly when an input that is still awaited only
sends the barrier of the checkpoint under way (`Matches`).

## Main definitions

* `BarrierAligner`, with `receiveBarrier`, `bufferRecord` and `snapshot`
* `BarrierAligner.ConsistentCuts`: what a run promises of its snapshots

## Main results

* `matches_iff_consistentCuts`: exactly which runs keep that promise
-/

namespace Relay

/-- An operator that aligns the barriers of its inputs. -/
structure BarrierAligner where
  inputs : Finset String
  lastCheckpoint : ℤ := -1
  /-- The checkpoint under way, or a negative number. -/
  current : ℤ := -1
  arrived : Finset String := ∅
  /-- How many records are held back, by their inputs. -/
  buffered : Dict String ℤ := ∅
  inputs_nonempty : inputs.Nonempty

/-- What a snapshot reports. -/
structure CheckpointReport where
  checkpoint : ℤ
  released : ℤ
  deriving DecidableEq

/-- The text of a report. -/
def CheckpointReport.text (report : CheckpointReport) : String :=
  s!"checkpoint {report.checkpoint} snapshotted after alignment; {report.released} "
    ++ "buffered record(s) released to the correct side of the cut"

namespace BarrierAligner

/-- `awaiting`. -/
def awaiting (aligner : BarrierAligner) : ℤ :=
  aligner.inputs.card - aligner.arrived.card

/-- `receive_barrier`. -/
def receiveBarrier (aligner : BarrierAligner) (channel : String) (checkpointId : ℤ) :
    Except RelayError String × BarrierAligner :=
  if channel ∉ aligner.inputs then
    (.error (.invalid s!"barrier on unknown input '{channel}'"), aligner)
  else if aligner.current < 0 ∧ checkpointId ≤ aligner.lastCheckpoint then
    (.error (.invalid (s!"checkpoint {checkpointId} does not exceed the last "
      ++ s!"{aligner.lastCheckpoint}; barrier ids are monotonic")), aligner)
  else
    let next := { aligner with
      current := if aligner.current < 0 then checkpointId else aligner.current
      arrived := insert channel aligner.arrived }
    (.ok s!"barrier {checkpointId} on '{channel}', {next.awaiting} awaited", next)

/-- `buffer_record`. -/
def bufferRecord (aligner : BarrierAligner) (channel : String) : BarrierAligner :=
  if channel ∈ aligner.arrived then
    { aligner with
      buffered := aligner.buffered.set channel (aligner.buffered.getD channel 0 + 1) }
  else aligner

/-- `snapshot`. -/
def snapshot (aligner : BarrierAligner) : Except RelayError CheckpointReport × BarrierAligner :=
  if aligner.arrived ≠ aligner.inputs then
    (.error (.invalid (s!"cannot snapshot with {aligner.awaiting} input(s) not yet "
      ++ "aligned; snapshotting now captures records after the cut on "
      ++ "the faster inputs, an inconsistent snapshot")), aligner)
  else
    (.ok ⟨aligner.current, aligner.buffered.values.sum⟩,
      { aligner with
        lastCheckpoint := aligner.current
        current := -1
        arrived := ∅
        buffered := ∅ })

end BarrierAligner

/-! ## Runs -/

/-- A call to an aligner. -/
inductive AlignerCall where
  | receiveBarrier (channel : String) (checkpointId : ℤ)
  | bufferRecord (channel : String)
  | snapshot
  deriving DecidableEq

/-- What a call answers. -/
inductive AlignerAnswer where
  | received (answer : Except RelayError String)
  | buffered
  | snapshotted (answer : Except RelayError CheckpointReport)

/-- The aligner as a component. -/
def barrierAligner : Machine BarrierAligner AlignerCall AlignerAnswer where
  step aligner
    | .receiveBarrier channel checkpointId =>
      (aligner.receiveBarrier channel checkpointId).map .received id
    | .bufferRecord channel => (.buffered, aligner.bufferRecord channel)
    | .snapshot => aligner.snapshot.map .snapshotted id

/-- The checkpoint that a call took a snapshot of. -/
def checkpointOf : AlignerCall × AlignerAnswer → Option ℤ
  | (_, .snapshotted (.ok report)) => some report.checkpoint
  | _ => none

/-- The barriers delivered since the last snapshot, with one more event. -/
def deliver (delivered : List (String × ℤ)) : AlignerCall × AlignerAnswer → List (String × ℤ)
  | (.receiveBarrier channel checkpointId, .received (.ok _)) =>
    delivered ++ [(channel, checkpointId)]
  | (_, .snapshotted (.ok _)) => []
  | _ => delivered

namespace BarrierAligner

/-- The barriers delivered since the last snapshot of a run. -/
def delivered (aligner : BarrierAligner) (calls : List AlignerCall) : List (String × ℤ) :=
  (barrierAligner.trace aligner calls).foldl deliver []

/-- The checkpoints of a run, oldest first. -/
def checkpoints (aligner : BarrierAligner) (calls : List AlignerCall) : List ℤ :=
  (barrierAligner.trace aligner calls).filterMap checkpointOf

/-- Before each snapshot all inputs have delivered its barrier, and the checkpoints increase. -/
structure ConsistentCuts (aligner : BarrierAligner) (calls : List AlignerCall) : Prop where
  cut : ∀ past future, calls = past ++ .snapshot :: future → ∀ checkpoint,
    checkpointOf (.snapshot, (barrierAligner.step (barrierAligner.final aligner past)
      .snapshot).1) = some checkpoint →
    ∀ channel ∈ aligner.inputs, (channel, checkpoint) ∈ aligner.delivered past
  increasing : (aligner.checkpoints calls).Pairwise (· < ·)

/-- An input that is still awaited only delivers the barrier of the checkpoint under way. -/
def Matches (aligner : BarrierAligner) (call : AlignerCall) : Prop :=
  ∀ channel checkpointId, call = .receiveBarrier channel checkpointId →
    channel ∈ aligner.inputs → channel ∉ aligner.arrived → 0 ≤ aligner.current →
    checkpointId = aligner.current

/-- An aligner that no barrier has arrived at since its last checkpoint. -/
structure Fresh (aligner : BarrierAligner) : Prop where
  lastCheckpoint : -1 ≤ aligner.lastCheckpoint
  current : aligner.current = -1
  arrived : aligner.arrived = ∅

/-! ## One call -/

/-- What a call does, as far as barriers go. -/
inductive Effect (aligner : BarrierAligner) (call : AlignerCall) (answer : AlignerAnswer)
    (next : BarrierAligner) : Prop where
  /-- Nothing. -/
  | none (hcall : aligner.Matches call) (hdeliver : ∀ d, deliver d (call, answer) = d)
      (hcheckpoint : checkpointOf (call, answer) = .none)
      (hnext : ∃ buffered, next = { aligner with buffered := buffered })
  /-- A barrier is taken. -/
  | took (channel : String) (checkpointId : ℤ) (hcall : call = .receiveBarrier channel checkpointId)
      (hmem : channel ∈ aligner.inputs)
      (hexceeds : aligner.current < 0 → aligner.lastCheckpoint < checkpointId)
      (hdeliver : ∀ d, deliver d (call, answer) = d ++ [(channel, checkpointId)])
      (hcheckpoint : checkpointOf (call, answer) = .none)
      (hnext : next = { aligner with
        current := if aligner.current < 0 then checkpointId else aligner.current
        arrived := insert channel aligner.arrived })
  /-- A snapshot is taken. -/
  | cut (hcall : call = .snapshot) (haligned : aligner.arrived = aligner.inputs)
      (hdeliver : ∀ d, deliver d (call, answer) = [])
      (hcheckpoint : checkpointOf (call, answer) = some aligner.current)
      (hnext : next = { aligner with
        lastCheckpoint := aligner.current
        current := -1
        arrived := ∅
        buffered := ∅ })

theorem step_effect (aligner : BarrierAligner) (call : AlignerCall) :
    Effect aligner call (barrierAligner.step aligner call).1
      (barrierAligner.step aligner call).2 := by
  cases call with
  | receiveBarrier channel checkpointId =>
    have hstep : barrierAligner.step aligner (.receiveBarrier channel checkpointId) =
        (aligner.receiveBarrier channel checkpointId).map .received id := rfl
    rw [hstep, receiveBarrier]
    split
    · next hunknown =>
      refine .none ?_ (fun _ => rfl) rfl ⟨_, rfl⟩
      rintro _ _ heq hmem
      obtain ⟨rfl, -⟩ := AlignerCall.receiveBarrier.inj heq
      exact absurd hmem hunknown
    · next hknown =>
      split
      · next hbehind =>
        refine .none ?_ (fun _ => rfl) rfl ⟨_, rfl⟩
        exact fun _ _ _ _ _ hcurrent => absurd hbehind.1 (not_lt.mpr hcurrent)
      · next htaken =>
        exact .took channel checkpointId rfl (not_not.mp hknown)
          (fun hcurrent => not_le.mp fun hle => htaken ⟨hcurrent, hle⟩) (fun _ => rfl) rfl rfl
  | bufferRecord channel =>
    refine .none (fun _ _ heq => (by cases heq)) (fun _ => rfl) rfl ?_
    show ∃ buffered, aligner.bufferRecord channel = { aligner with buffered := buffered }
    rw [bufferRecord]
    split
    · exact ⟨_, rfl⟩
    · exact ⟨_, rfl⟩
  | snapshot =>
    have hstep : barrierAligner.step aligner .snapshot = aligner.snapshot.map .snapshotted id := rfl
    rw [hstep, snapshot]
    split
    · exact .none (fun _ _ heq => (by cases heq)) (fun _ => rfl) rfl ⟨_, rfl⟩
    · next haligned => exact .cut rfl (not_not.mp haligned) (fun _ => rfl) rfl rfl

/-! ## Runs of a new aligner -/

variable {aligner : BarrierAligner} {calls : List AlignerCall} {call : AlignerCall}

theorem delivered_append_singleton (aligner : BarrierAligner) (calls : List AlignerCall)
    (call : AlignerCall) :
    aligner.delivered (calls ++ [call]) = deliver (aligner.delivered calls)
      (call, (barrierAligner.step (barrierAligner.final aligner calls) call).1) := by
  rw [delivered, Machine.trace_append_singleton, List.foldl_append]
  rfl

theorem checkpoints_append_singleton (aligner : BarrierAligner) (calls : List AlignerCall)
    (call : AlignerCall) :
    aligner.checkpoints (calls ++ [call]) = aligner.checkpoints calls ++
      (checkpointOf (call,
        (barrierAligner.step (barrierAligner.final aligner calls) call).1)).toList :=
  barrierAligner.filterMap_trace_append_singleton checkpointOf aligner calls call

/-- What the state says of the run that led to it. -/
structure Books (start : BarrierAligner) (calls : List AlignerCall) : Prop where
  inputs : (barrierAligner.final start calls).inputs = start.inputs
  subset : (barrierAligner.final start calls).arrived ⊆ start.inputs
  lastCheckpoint : -1 ≤ (barrierAligner.final start calls).lastCheckpoint
  current : (barrierAligner.final start calls).current = -1 ∨
    (barrierAligner.final start calls).lastCheckpoint < (barrierAligner.final start calls).current
  idle : (barrierAligner.final start calls).current < 0 →
    (barrierAligner.final start calls).arrived = ∅
  arrived : ∀ channel, channel ∈ (barrierAligner.final start calls).arrived ↔
    ∃ checkpointId, (channel, checkpointId) ∈ start.delivered calls
  increasing : (start.checkpoints calls).Pairwise (· < ·)
  le_last : ∀ c ∈ start.checkpoints calls, c ≤ (barrierAligner.final start calls).lastCheckpoint

/-- **One call.** -/
theorem Books.step (h : aligner.Books calls) (call : AlignerCall) :
    aligner.Books (calls ++ [call]) := by
  have hdelivered := aligner.delivered_append_singleton calls call
  have hcheckpoints := aligner.checkpoints_append_singleton calls call
  have hfinal := barrierAligner.final_append_singleton aligner calls call
  cases (barrierAligner.final aligner calls).step_effect call with
  | none hcall hdeliver hcheckpoint hnext =>
    obtain ⟨buffered, hnext⟩ := hnext
    rw [hdeliver] at hdelivered
    rw [hcheckpoint, Option.toList_none, List.append_nil] at hcheckpoints
    constructor <;> simp only [hfinal, hnext, hdelivered, hcheckpoints]
    exacts [h.inputs, h.subset, h.lastCheckpoint, h.current, h.idle, h.arrived, h.increasing,
      h.le_last]
  | took channel checkpointId hcall hmem hexceeds hdeliver hcheckpoint hnext =>
    rw [hdeliver] at hdelivered
    rw [hcheckpoint, Option.toList_none, List.append_nil] at hcheckpoints
    have hlast := h.lastCheckpoint
    constructor <;> simp only [hfinal, hnext, hdelivered, hcheckpoints]
    · exact h.inputs
    · exact Finset.insert_subset (h.inputs ▸ hmem) h.subset
    · exact h.lastCheckpoint
    · split
      · next hidle => exact .inr (hexceeds hidle)
      · next hbusy => exact h.current
    · intro hnegative
      split at hnegative
      · next hidle =>
        have hexceeds := hexceeds hidle
        omega
      · next hbusy => exact absurd hnegative hbusy
    · intro c
      rw [Finset.mem_insert, h.arrived]
      simp only [List.mem_append, List.mem_singleton, Prod.mk.injEq, exists_or, exists_eq_right]
      exact or_comm
    · exact h.increasing
    · exact h.le_last
  | cut hcall haligned hdeliver hcheckpoint hnext =>
    rw [hdeliver] at hdelivered
    rw [hcheckpoint, Option.toList_some] at hcheckpoints
    have hbusy : (barrierAligner.final aligner calls).lastCheckpoint <
        (barrierAligner.final aligner calls).current := by
      refine h.current.resolve_left fun hidle => ?_
      have hnone := h.idle (by rw [hidle]; decide)
      obtain ⟨channel, hchannel⟩ := (barrierAligner.final aligner calls).inputs_nonempty
      rw [← haligned, hnone] at hchannel
      exact Finset.notMem_empty channel hchannel
    constructor <;> simp only [hfinal, hnext, hdelivered, hcheckpoints]
    · exact h.inputs
    · exact Finset.empty_subset _
    · exact h.lastCheckpoint.trans hbusy.le
    · exact .inl trivial
    · exact fun _ => trivial
    · intro c
      exact iff_of_false (Finset.notMem_empty c) fun ⟨_, hmem⟩ => List.not_mem_nil hmem
    · exact pairwise_append_singleton.mpr
        ⟨h.increasing, fun c hc => (h.le_last c hc).trans_lt hbusy⟩
    · exact forall_mem_append_singleton.mpr
        ⟨fun c hc => (h.le_last c hc).trans hbusy.le, le_rfl⟩

theorem Fresh.books (h : aligner.Fresh) (calls : List AlignerCall) : aligner.Books calls := by
  induction calls using List.reverseRecOn with
  | nil =>
    refine ⟨rfl, h.arrived.trans_subset (Finset.empty_subset _), h.lastCheckpoint,
      .inl h.current, fun _ => h.arrived, fun channel => ?_, List.Pairwise.nil,
      List.forall_mem_nil _⟩
    rw [Machine.final_nil, h.arrived]
    exact iff_of_false (Finset.notMem_empty channel) fun ⟨_, hmem⟩ => List.not_mem_nil hmem
  | append_singleton calls call ih => exact ih.step call

/-! ## Alignment -/

/-- Every input that counts as arrived has delivered the barrier of the checkpoint under way. -/
def OnCourse (aligner : BarrierAligner) (calls : List AlignerCall) : Prop :=
  ∀ channel ∈ (barrierAligner.final aligner calls).arrived,
    (channel, (barrierAligner.final aligner calls).current) ∈ aligner.delivered calls

/-- **One call.** An alignment on course stays so exactly when the barrier matches. -/
theorem Books.matches_iff (h : aligner.Books calls) (hcourse : aligner.OnCourse calls) :
    (barrierAligner.final aligner calls).Matches call ↔ aligner.OnCourse (calls ++ [call]) := by
  have hdelivered := aligner.delivered_append_singleton calls call
  have hfinal := barrierAligner.final_append_singleton aligner calls call
  rw [OnCourse, hdelivered, hfinal]
  cases (barrierAligner.final aligner calls).step_effect call with
  | none hcall hdeliver hcheckpoint hnext =>
    obtain ⟨buffered, hnext⟩ := hnext
    rw [hdeliver, hnext]
    exact iff_of_true hcall hcourse
  | took channel checkpointId hcall hmem hexceeds hdeliver hcheckpoint hnext =>
    rw [hdeliver, hnext]
    have hold {c : String} (hc : c ∈ (barrierAligner.final aligner calls).arrived) :
        (c, (barrierAligner.final aligner calls).current) ∈
          aligner.delivered calls ++ [(channel, checkpointId)] :=
      List.mem_append_left _ (hcourse c hc)
    by_cases hidle : (barrierAligner.final aligner calls).current < 0
    · refine iff_of_true (fun _ _ _ _ _ hbusy => absurd hidle (not_lt.mpr hbusy)) ?_
      simp only [if_pos hidle, h.idle hidle, Finset.forall_mem_insert]
      exact ⟨List.mem_append_right _ (List.mem_singleton_self _),
        fun c hc => absurd hc (Finset.notMem_empty c)⟩
    · simp only [if_neg hidle, Finset.forall_mem_insert]
      by_cases harrived : channel ∈ (barrierAligner.final aligner calls).arrived
      · refine iff_of_true ?_ ⟨hold harrived, fun c hc => hold hc⟩
        rintro _ _ heq - hawaited
        obtain ⟨rfl, -⟩ := AlignerCall.receiveBarrier.inj (hcall.symm.trans heq)
        exact absurd harrived hawaited
      · constructor
        · intro hmatches
          obtain rfl := hmatches channel checkpointId hcall hmem harrived (not_lt.mp hidle)
          exact ⟨List.mem_append_right _ (List.mem_singleton_self _), fun c hc => hold hc⟩
        · rintro ⟨hdelivered, -⟩ _ _ heq - - -
          obtain ⟨rfl, rfl⟩ := AlignerCall.receiveBarrier.inj (hcall.symm.trans heq)
          rcases List.mem_append.mp hdelivered with hbefore | hnow
          · exact absurd ((h.arrived channel).mpr ⟨_, hbefore⟩) harrived
          · exact (Prod.mk.inj (List.mem_singleton.mp hnow)).2.symm
  | cut hcall haligned hdeliver hcheckpoint hnext =>
    rw [hdeliver, hnext]
    exact iff_of_true (fun _ _ heq => (by cases hcall.symm.trans heq))
      fun channel hchannel => absurd hchannel (Finset.notMem_empty channel)

theorem Fresh.guarded_iff (h : aligner.Fresh) (calls : List AlignerCall) :
    barrierAligner.Guarded Matches aligner calls ↔
      ∀ past, past <+: calls → aligner.OnCourse past := by
  rw [Machine.guarded_iff_justified]
  refine justified_iff_forall_past (fun channel hchannel => ?_)
    fun past call _ hcourse => (h.books past).matches_iff hcourse
  rw [Machine.final_nil, h.arrived] at hchannel
  exact absurd hchannel (Finset.notMem_empty channel)

/-- A snapshot is a cut through what has been delivered, if the alignment is on course. -/
theorem Fresh.consistentCuts (h : aligner.Fresh)
    (hcourse : ∀ past, past <+: calls → aligner.OnCourse past) : aligner.ConsistentCuts calls := by
  refine ⟨?_, (h.books calls).increasing⟩
  rintro past future rfl checkpoint hcheckpoint channel hchannel
  cases (barrierAligner.final aligner past).step_effect .snapshot with
  | none hcall hdeliver hnone => cases hnone.symm.trans hcheckpoint
  | took channel' checkpointId hcall => cases hcall
  | cut hcall haligned hdeliver hcurrent =>
    obtain rfl := Option.some.inj (hcurrent.symm.trans hcheckpoint)
    refine hcourse past (List.prefix_append past _) channel ?_
    rwa [haligned, (h.books past).inputs]

/-! ## Completing an alignment -/

/-- The calls deliver the barrier of the checkpoint under way. -/
def Completes (aligner : BarrierAligner) (rest : List AlignerCall) : Prop :=
  ∀ call ∈ rest, ∃ channel, call = .receiveBarrier channel aligner.current

/-- Barriers of the checkpoint under way match, and it stays the one under way. -/
theorem Completes.guarded {rest : List AlignerCall} (h : aligner.Completes rest) :
    barrierAligner.Guarded Matches aligner rest := by
  induction rest generalizing aligner with
  | nil => trivial
  | cons call rest ih =>
    obtain ⟨channel, rfl⟩ := h _ List.mem_cons_self
    have hcurrent : (barrierAligner.step aligner
        (.receiveBarrier channel aligner.current)).2.current = aligner.current := by
      cases aligner.step_effect (.receiveBarrier channel aligner.current) with
      | none hcall hdeliver hcheckpoint hnext =>
        obtain ⟨buffered, hnext⟩ := hnext
        rw [hnext]
      | took channel' checkpointId hcall hmem hexceeds hdeliver hcheckpoint hnext =>
        obtain ⟨-, rfl⟩ := AlignerCall.receiveBarrier.inj hcall
        rw [hnext]
        exact ite_self _
      | cut hcall => cases hcall
    refine ⟨?_, ih fun call hcall => ?_⟩
    · rintro _ _ heq - - -
      exact (AlignerCall.receiveBarrier.inj heq).2.symm
    · rw [hcurrent]
      exact h call (List.mem_cons_of_mem _ hcall)

/-- While a checkpoint is under way, every barrier of an input is taken. -/
theorem step_of_busy (aligner : BarrierAligner) {channel : String} (hmem : channel ∈ aligner.inputs)
    (hbusy : 0 ≤ aligner.current) (checkpointId : ℤ) :
    ∃ report, barrierAligner.step aligner (.receiveBarrier channel checkpointId) =
      (.received (.ok report), { aligner with arrived := insert channel aligner.arrived }) := by
  have hstep : barrierAligner.step aligner (.receiveBarrier channel checkpointId) =
      (aligner.receiveBarrier channel checkpointId).map .received id := rfl
  have hnot : ¬ aligner.current < 0 := not_lt.mpr hbusy
  rw [hstep, receiveBarrier, if_neg (not_not.mpr hmem), if_neg fun h => hnot h.1]
  simp only [if_neg hnot]
  exact ⟨_, rfl⟩

/-- What the barriers of the checkpoint under way add to an alignment. -/
theorem final_append_barriers (hbusy : 0 ≤ (barrierAligner.final aligner calls).current)
    {channels : List String}
    (hchannels : ∀ c ∈ channels, c ∈ (barrierAligner.final aligner calls).inputs) :
    barrierAligner.final aligner (calls ++ channels.map (AlignerCall.receiveBarrier ·
        (barrierAligner.final aligner calls).current)) =
      { barrierAligner.final aligner calls with
        arrived := (barrierAligner.final aligner calls).arrived ∪ channels.toFinset } ∧
    aligner.delivered (calls ++ channels.map (AlignerCall.receiveBarrier ·
        (barrierAligner.final aligner calls).current)) =
      aligner.delivered calls ++
        channels.map (·, (barrierAligner.final aligner calls).current) := by
  induction channels using List.reverseRecOn with
  | nil => simp
  | append_singleton channels channel ih =>
    obtain ⟨hbefore, hchannel⟩ := forall_mem_append_singleton.mp hchannels
    obtain ⟨hfinal, hdelivered⟩ := ih hbefore
    have hunion : (barrierAligner.final aligner calls).arrived ∪ (channels ++ [channel]).toFinset =
        insert channel ((barrierAligner.final aligner calls).arrived ∪ channels.toFinset) := by
      rw [List.toFinset_append, ← Finset.union_assoc, Finset.union_comm, Finset.insert_eq]
      rfl
    rw [List.map_append, List.map_singleton, ← List.append_assoc,
      Machine.final_append_singleton, delivered_append_singleton, hfinal, hdelivered, hunion]
    obtain ⟨report, hstep⟩ := step_of_busy { barrierAligner.final aligner calls with
      arrived := (barrierAligner.final aligner calls).arrived ∪ channels.toFinset }
      hchannel hbusy (barrierAligner.final aligner calls).current
    rw [hstep, List.map_append, List.map_singleton, ← List.append_assoc]
    exact ⟨rfl, rfl⟩

/-- A run is on course if a snapshot at the end of it is consistent, however it is completed. -/
theorem Fresh.onCourse_of_consistentCuts (h : aligner.Fresh)
    (hcuts : ∀ rest, (barrierAligner.final aligner calls).Completes rest →
      aligner.ConsistentCuts (calls ++ rest ++ [.snapshot])) : aligner.OnCourse calls := by
  intro channel hchannel
  have hbooks := h.books calls
  have hbusy : 0 ≤ (barrierAligner.final aligner calls).current := by
    by_contra hidle
    rw [hbooks.idle (not_le.mp hidle)] at hchannel
    exact Finset.notMem_empty channel hchannel
  -- the inputs that are still awaited deliver the barrier of the checkpoint under way
  obtain ⟨channels, hchannels⟩ : ∃ channels : List String, channels.toFinset =
      (barrierAligner.final aligner calls).inputs \ (barrierAligner.final aligner calls).arrived :=
    ⟨Finset.toList _, Finset.toList_toFinset _⟩
  have hawaited {c : String} (hc : c ∈ channels) :
      c ∈ (barrierAligner.final aligner calls).inputs ∧
        c ∉ (barrierAligner.final aligner calls).arrived :=
    Finset.mem_sdiff.mp (hchannels ▸ List.mem_toFinset.mpr hc)
  obtain ⟨hfinal, hdelivered⟩ := final_append_barriers hbusy fun c hc => (hawaited hc).1
  rw [hchannels, Finset.union_sdiff_of_subset (hbooks.inputs ▸ hbooks.subset)] at hfinal
  have hcut := (hcuts (channels.map (AlignerCall.receiveBarrier ·
    (barrierAligner.final aligner calls).current)) ?_).cut _ [] rfl
      (barrierAligner.final aligner calls).current ?_ channel (hbooks.subset hchannel)
  · rw [hdelivered] at hcut
    rcases List.mem_append.mp hcut with hbefore | hlate
    · exact hbefore
    · obtain ⟨c, hc, heq⟩ := List.mem_map.mp hlate
      obtain ⟨rfl, -⟩ := Prod.mk.inj heq
      exact absurd hchannel (hawaited hc).2
  · intro call hcall
    obtain ⟨c, -, rfl⟩ := List.mem_map.mp hcall
    exact ⟨c, rfl⟩
  · have hsnapshot : ∀ s : BarrierAligner, s.arrived = s.inputs →
        checkpointOf (.snapshot, (barrierAligner.step s .snapshot).1) = some s.current := by
      intro s haligned
      have hstep : barrierAligner.step s .snapshot = s.snapshot.map .snapshotted id := rfl
      rw [hstep, snapshot, if_neg (not_not.mpr haligned)]
      rfl
    rw [hfinal]
    exact hsnapshot _ rfl

/-- **When checkpoints are consistent.** In every run of a new aligner, and however the alignment
under way is completed at any moment, all inputs have delivered the barrier of a snapshot since the
one before, and the ids of the snapshots increase, if and only if no input that is still awaited
delivers the barrier of another checkpoint than the one under way. -/
theorem matches_iff_consistentCuts (h : aligner.Fresh) (calls : List AlignerCall) :
    barrierAligner.Guarded Matches aligner calls ↔
      ∀ past, past <+: calls → ∀ rest, (barrierAligner.final aligner past).Completes rest →
        aligner.ConsistentCuts (past ++ rest ++ [.snapshot]) := by
  constructor
  · rintro hguarded past ⟨later, rfl⟩ rest hrest
    have hpast := ((Machine.guarded_append _ _ _ _ _).mp hguarded).1
    refine h.consistentCuts ((h.guarded_iff _).mp ?_)
    rw [Machine.guarded_append, Machine.guarded_append]
    exact ⟨⟨hpast, hrest.guarded⟩, fun _ _ heq => (by cases heq), trivial⟩
  · intro hcuts
    exact (h.guarded_iff calls).mpr fun past hpast =>
      h.onCourse_of_consistentCuts (hcuts past hpast)

/-- Two inputs, and two checkpoints. -/
theorem matches_iff_consistentCuts_two :
    barrierAligner.Guarded Matches { inputs := {"a", "b"}, inputs_nonempty := ⟨"a", by decide⟩ }
        [.receiveBarrier "a" 1, .bufferRecord "a", .receiveBarrier "b" 1, .snapshot,
          .receiveBarrier "b" 2] ↔
      ∀ past, past <+: [.receiveBarrier "a" 1, .bufferRecord "a", .receiveBarrier "b" 1,
          .snapshot, .receiveBarrier "b" 2] →
        ∀ rest, (barrierAligner.final
          { inputs := {"a", "b"}, inputs_nonempty := ⟨"a", by decide⟩ } past).Completes rest →
        ConsistentCuts { inputs := {"a", "b"}, inputs_nonempty := ⟨"a", by decide⟩ }
          (past ++ rest ++ [.snapshot]) :=
  matches_iff_consistentCuts ⟨by decide, rfl, rfl⟩ _

/-- A snapshot of checkpoint 1 is taken although one input has only delivered the barrier of
checkpoint 2. -/
theorem snapshot_of_mixed_barriers :
    checkpoints { inputs := {"a", "b"}, inputs_nonempty := ⟨"a", by decide⟩ }
        [.receiveBarrier "a" 1, .receiveBarrier "b" 2, .snapshot] = [1] ∧
      ¬ ConsistentCuts { inputs := {"a", "b"}, inputs_nonempty := ⟨"a", by decide⟩ }
        [.receiveBarrier "a" 1, .receiveBarrier "b" 2, .snapshot] := by
  refine ⟨rfl, fun h => ?_⟩
  have hdelivered : ("b", (1 : ℤ)) ∈ [("a", (1 : ℤ)), ("b", 2)] :=
    h.cut [.receiveBarrier "a" 1, .receiveBarrier "b" 2] [] rfl 1 rfl "b" (by decide)
  exact absurd hdelivered (by decide)

end BarrierAligner

end Relay
