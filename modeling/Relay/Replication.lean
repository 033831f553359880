import Mathlib.Algebra.Order.Ring.Int
import Mathlib.Data.Prod.Lex
import Mathlib.Data.String.Basic
import Relay.Errors
import Relay.Lib.Dict
import Relay.Lib.Machine

/-!
# Replication and clean election

A partition has a leader and followers that fetch from it. What is committed is the least offset
over the replicas in sync, and nothing is committed when there are fewer of them than the floor. A
follower too far behind the leader is taken out of the in-sync set, and nothing here takes it back.

When the leader is gone, one of the replicas that are left is elected. A clean election considers
only replicas that are in sync and hold everything committed, and prefers the longest log; the epoch
of the elector rises with every election. An unclean election, which has to be asked for, takes
whatever there is.

The two halves are written apart, and they meet in what a watermark promises: every replica in sync
when it was returned holds it, and a replica that is in sync later was in sync then. So the filter
of the election, which compares with the largest watermark, never turns away a replica in sync.

## Scope

The report on the slowest follower is left out.

## Main definitions

* `ReplicationSet`, with `evictLaggards` and `committableWatermark`
* `PartitionElector`, with `elect` and `acceptFrom`
* `ReplicationSet.candidates`: the replicas as an election sees them

## Main results

* `PartitionElector.elect_clean`: when a clean election succeeds, and whom it elects
* `watermarks_le_and_elect_iff`: watermarks do not decrease, and a clean election among any of the
  replicas loses none of what they committed
-/

namespace Relay

/-! ## Election -/

/-- A replica that stands for election. -/
structure Candidate where
  name : String
  logEndOffset : ℤ
  inSync : Bool

/-- What an election answers. -/
structure ElectionResult where
  leader : String
  epoch : ℤ
  truncationNote : String
  unclean : Bool

/-- The elector of a partition. -/
structure PartitionElector where
  epoch : ℤ := 0
  committedOffset : ℤ := 0

namespace PartitionElector

/-- The sort key of a candidate. -/
def rank (c : Candidate) : ℤ ×ₗ String := toLex (-c.logEndOffset, c.name)

instance : Std.Total fun a b : Candidate => rank a ≤ rank b :=
  ⟨fun a b => le_total (rank a) (rank b)⟩

instance : IsTrans Candidate fun a b => rank a ≤ rank b := ⟨fun _ _ _ => le_trans⟩

/-- The candidates, longest log first, and by name among logs of one length. -/
def ranked (candidates : List Candidate) : List Candidate :=
  candidates.mergeSort fun a b => rank a ≤ rank b

theorem mem_ranked {candidates : List Candidate} {c : Candidate} :
    c ∈ ranked candidates ↔ c ∈ candidates :=
  List.mem_mergeSort

theorem ranked_ne_nil {candidates : List Candidate} (h : candidates ≠ []) :
    ranked candidates ≠ [] := by
  rw [← List.length_pos_iff, ranked, List.length_mergeSort]
  exact List.length_pos_iff.mpr h

/-- The candidates that a clean election considers. -/
def eligible (elector : PartitionElector) (candidates : List Candidate) : List Candidate :=
  candidates.filter fun c => c.inSync && decide (elector.committedOffset ≤ c.logEndOffset)

/-- The end of `elect`: the first of the eligible candidates becomes the leader of a new term. -/
def promote (elector : PartitionElector) (candidates eligible : List Candidate)
    (hcandidates : candidates ≠ []) (heligible : eligible ≠ []) (unclean : Bool) :
    ElectionResult × PartitionElector :=
  let winner := (ranked eligible).head (ranked_ne_nil heligible)
  let maxEnd := (candidates.map Candidate.logEndOffset).max
    (List.map_eq_nil_iff.not.mpr hcandidates)
  let elected := { elector with epoch := elector.epoch + 1 }
  ({ leader := winner.name
     epoch := elected.epoch
     truncationNote := s!"followers truncate to {winner.logEndOffset}; "
       ++ s!"{maxEnd - winner.logEndOffset} record(s) beyond the new leader are discarded"
     unclean := unclean }, elected)

/-- `elect`. -/
def elect (elector : PartitionElector) (candidates : List Candidate) (allowUnclean : Bool) :
    Except RelayError ElectionResult × PartitionElector :=
  if hcandidates : candidates = [] then
    (.error (.invalid "no candidates; the partition is dark"), elector)
  else if heligible : elector.eligible candidates = [] then
    if allowUnclean then
      (elector.promote candidates (ranked candidates) hcandidates (ranked_ne_nil hcandidates)
        true).map .ok id
    else
      (.error (.invalid ("no in-sync replica holds the committed "
        ++ "offset; promoting an out-of-sync replica "
        ++ "loses acknowledged data and must be an "
        ++ "explicit unclean election, never a default")), elector)
  else
    (elector.promote candidates (elector.eligible candidates) hcandidates heligible
      false).map .ok id

/-- `accept_from`. -/
def acceptFrom (elector : PartitionElector) (epoch : ℤ) : Except RelayError Unit :=
  if epoch < elector.epoch then
    .error (.fenced (s!"message from epoch {epoch} rejected; the "
      ++ s!"current term is {elector.epoch}, and a deposed "
      ++ "leader waking from a pause is the split-brain that diverges"))
  else .ok ()

/-- The first of the ranked candidates has the longest log. -/
theorem le_logEndOffset_head_ranked {candidates : List Candidate} (h : ranked candidates ≠ []) :
    ∀ c ∈ candidates, c.logEndOffset ≤ ((ranked candidates).head h).logEndOffset := by
  intro c hc
  have hsorted : (ranked candidates).Pairwise fun a b => rank a ≤ rank b :=
    List.pairwise_mergeSort' (fun a b => rank a ≤ rank b) candidates
  have hc := mem_ranked.mpr hc
  obtain ⟨first, rest, hranked⟩ := List.exists_cons_of_ne_nil h
  simp only [hranked] at hsorted hc ⊢
  rcases List.mem_cons.mp hc with rfl | hc
  · exact le_rfl
  · have hle := (List.pairwise_cons.mp hsorted).1 c hc
    rcases Prod.Lex.toLex_le_toLex.mp hle with hlt | ⟨heq, -⟩
    · exact (neg_lt_neg_iff.mp hlt).le
    · exact (neg_inj.mp heq).ge

/-- **Clean election.** It succeeds exactly when some candidate is in sync and holds everything
committed. Whoever is elected is such a candidate, none of them has a longer log, and the term is a
new one, from which on messages of the term before are fenced. -/
theorem elect_clean (elector : PartitionElector) (candidates : List Candidate) :
    ((∃ result, (elector.elect candidates false).1 = .ok result) ↔
        ∃ c ∈ candidates, c.inSync ∧ elector.committedOffset ≤ c.logEndOffset) ∧
      ∀ result, (elector.elect candidates false).1 = .ok result →
        (∃ winner ∈ candidates, winner.name = result.leader ∧ winner.inSync ∧
          elector.committedOffset ≤ winner.logEndOffset ∧
          ∀ c ∈ elector.eligible candidates, c.logEndOffset ≤ winner.logEndOffset) ∧
        elector.epoch < result.epoch ∧ (elector.elect candidates false).2.epoch = result.epoch ∧
        ∃ message, (elector.elect candidates false).2.acceptFrom elector.epoch =
          .error (.fenced message) := by
  have hmem : ∀ c, c ∈ elector.eligible candidates ↔
      c ∈ candidates ∧ c.inSync ∧ elector.committedOffset ≤ c.logEndOffset := by
    intro c
    rw [eligible, List.mem_filter, Bool.and_eq_true, decide_eq_true_eq]
  rw [elect]
  by_cases hcandidates : candidates = []
  · subst hcandidates
    exact ⟨by simp, by simp⟩
  rw [dif_neg hcandidates]
  by_cases heligible : elector.eligible candidates = []
  · rw [dif_pos heligible, if_neg (by decide)]
    refine ⟨iff_of_false (fun ⟨_, h⟩ => by cases h) ?_, fun _ h => by cases h⟩
    rintro ⟨c, hc, hok⟩
    have hin := (hmem c).mpr ⟨hc, hok⟩
    rw [heligible] at hin
    exact List.not_mem_nil hin
  · rw [dif_neg heligible]
    have hwinner := (hmem _).mp (mem_ranked.mp (List.head_mem (ranked_ne_nil heligible)))
    refine ⟨iff_of_true ⟨_, rfl⟩ ⟨_, hwinner⟩, ?_⟩
    rintro result hresult
    obtain rfl := Except.ok.inj hresult
    refine ⟨⟨_, hwinner.1, rfl, hwinner.2.1, hwinner.2.2, le_logEndOffset_head_ranked _⟩,
      lt_add_one _, rfl, ?_⟩
    exact ⟨_, if_pos (lt_add_one _)⟩

end PartitionElector

/-! ## The replication set -/

/-- A follower. -/
structure ReplicaState where
  name : String
  fetchedOffset : ℤ
  inSync : Bool := true

/-- The follower as an election sees it. -/
def ReplicaState.candidate (state : ReplicaState) : Candidate where
  name := state.name
  logEndOffset := state.fetchedOffset
  inSync := state.inSync

/-- A leader and its followers. -/
structure ReplicationSet where
  leader : String
  followers : Dict String ReplicaState
  minInSync : ℤ
  maxLag : ℤ
  leaderEndOffset : ℤ := 0
  /-- The constructor refuses other floors. -/
  minInSync_pos : 1 ≤ minInSync

namespace ReplicationSet

/-- `_in_sync_offsets`. -/
def inSyncOffsets (replicas : ReplicationSet) : List ℤ :=
  replicas.leaderEndOffset ::
    (replicas.followers.values.filter ReplicaState.inSync).map ReplicaState.fetchedOffset

/-- `in_sync_count`. -/
def inSyncCount (replicas : ReplicationSet) : ℤ :=
  1 + ((replicas.followers.values.filter ReplicaState.inSync).length : ℤ)

/-- A follower in sync that is too far behind. -/
def Laggard (replicas : ReplicationSet) (state : ReplicaState) : Prop :=
  state.inSync ∧ replicas.maxLag < replicas.leaderEndOffset - state.fetchedOffset

instance (replicas : ReplicationSet) (state : ReplicaState) : Decidable (replicas.Laggard state) :=
  inferInstanceAs (Decidable (_ ∧ _))

/-- `evict_laggards`. -/
def evictLaggards (replicas : ReplicationSet) : List String × ReplicationSet :=
  ((replicas.followers.values.filter fun state => replicas.Laggard state).map ReplicaState.name,
    { replicas with
      followers := replicas.followers.mapValues fun _ state =>
        if replicas.Laggard state then { state with inSync := false } else state })

/-- `committable_watermark`. -/
def committableWatermark (replicas : ReplicationSet) : Except RelayError ℤ :=
  if replicas.inSyncCount < replicas.minInSync then
    .error (.invalid (s!"in-sync set is {replicas.inSyncCount}, below "
      ++ s!"the floor of {replicas.minInSync}; the broker "
      ++ "chooses unavailability over acknowledging writes one crash would erase"))
  else .ok (replicas.inSyncOffsets.min (List.cons_ne_nil _ _))

/-- The leader's log has grown to an offset. -/
def append (replicas : ReplicationSet) (endOffset : ℤ) : ReplicationSet :=
  { replicas with leaderEndOffset := endOffset }

/-- A follower has fetched up to an offset. -/
def fetch (replicas : ReplicationSet) (follower : String) (offset : ℤ) : ReplicationSet :=
  match replicas.followers.get? follower with
  | none => replicas
  | some state =>
    { replicas with
      followers := replicas.followers.set follower { state with fetchedOffset := offset } }

/-- The replicas as an election sees them: the leader, which is in sync, and the followers. -/
def candidates (replicas : ReplicationSet) : List Candidate :=
  ⟨replicas.leader, replicas.leaderEndOffset, true⟩ ::
    replicas.followers.values.map ReplicaState.candidate

theorem mem_candidates {replicas : ReplicationSet} {c : Candidate} :
    c ∈ replicas.candidates ↔ c = ⟨replicas.leader, replicas.leaderEndOffset, true⟩ ∨
      ∃ follower state, replicas.followers.get? follower = some state ∧ state.candidate = c := by
  rw [candidates, List.mem_cons, List.mem_map]
  refine or_congr_right ⟨?_, ?_⟩
  · rintro ⟨state, hstate, hc⟩
    obtain ⟨follower, hfollower⟩ := (Dict.mem_values_iff _).mp hstate
    exact ⟨follower, state, hfollower, hc⟩
  · rintro ⟨follower, state, hfollower, hc⟩
    exact ⟨state, (Dict.mem_values_iff _).mpr ⟨follower, hfollower⟩, hc⟩

/-- The offsets in sync are the log ends of the candidates in sync. -/
theorem inSyncOffsets_eq (replicas : ReplicationSet) : replicas.inSyncOffsets =
    (replicas.candidates.filter Candidate.inSync).map Candidate.logEndOffset := by
  rw [inSyncOffsets, candidates, List.filter_cons_of_pos rfl, List.map_cons, List.filter_map,
    List.map_map]
  rfl

theorem mem_inSyncOffsets {replicas : ReplicationSet} {offset : ℤ} :
    offset ∈ replicas.inSyncOffsets ↔
      ∃ c ∈ replicas.candidates, c.inSync ∧ c.logEndOffset = offset := by
  simp only [inSyncOffsets_eq, List.mem_map, List.mem_filter, and_assoc]

/-- A watermark is the log end of a replica in sync, and every replica in sync holds it. -/
theorem committableWatermark_eq_ok {replicas : ReplicationSet} {watermark : ℤ}
    (h : replicas.committableWatermark = .ok watermark) :
    (∃ c ∈ replicas.candidates, c.inSync ∧ c.logEndOffset = watermark) ∧
      ∀ c ∈ replicas.candidates, c.inSync → watermark ≤ c.logEndOffset := by
  rw [committableWatermark] at h
  split at h
  · cases h
  · obtain rfl := Except.ok.inj h
    refine ⟨mem_inSyncOffsets.mp (List.min_mem _), fun c hc hsync => ?_⟩
    exact List.min_le_of_mem (mem_inSyncOffsets.mpr ⟨c, hc, hsync, rfl⟩)

end ReplicationSet

/-! ## Runs -/

/-- What happens to a replication set. -/
inductive ReplicationCall where
  | append (endOffset : ℤ)
  | fetch (follower : String) (offset : ℤ)
  | evictLaggards
  | committableWatermark

/-- The logs only grow. -/
def ReplicationCall.Grows (replicas : ReplicationSet) : ReplicationCall → Prop
  | .append endOffset => replicas.leaderEndOffset ≤ endOffset
  | .fetch follower offset => ∀ state, replicas.followers.get? follower = some state →
      state.fetchedOffset ≤ offset
  | .evictLaggards | .committableWatermark => True

/-- What is answered. -/
inductive ReplicationAnswer where
  | moved
  | evicted (names : List String)
  | watermark (answer : Except RelayError ℤ)

/-- The replication set as a component. -/
def replicationSet : Machine ReplicationSet ReplicationCall ReplicationAnswer where
  step replicas
    | .append endOffset => (.moved, replicas.append endOffset)
    | .fetch follower offset => (.moved, replicas.fetch follower offset)
    | .evictLaggards => replicas.evictLaggards.map .evicted id
    | .committableWatermark => (.watermark replicas.committableWatermark, replicas)

/-- The watermark that a call returned, if it returned one. -/
def watermarkOfEvent : ReplicationCall × ReplicationAnswer → Option ℤ
  | (_, .watermark (.ok watermark)) => some watermark
  | _ => none

/-- The watermarks of a run, in the order they were returned. -/
def watermarks (replicas : ReplicationSet) (calls : List ReplicationCall) : List ℤ :=
  (replicationSet.trace replicas calls).filterMap watermarkOfEvent

/-- The replicas before and after: every log is at least as long as it was, and a replica in sync
was in sync before. -/
def OnlyGrows (before after : ReplicationSet) : Prop :=
  ∀ c' ∈ after.candidates, ∃ c ∈ before.candidates,
    c.logEndOffset ≤ c'.logEndOffset ∧ (c'.inSync → c.inSync)

theorem OnlyGrows.refl (replicas : ReplicationSet) : OnlyGrows replicas replicas :=
  fun c hc => ⟨c, hc, le_rfl, id⟩

/-- It is enough to compare the leader, and each follower with the one of its name. -/
theorem onlyGrows_of_followers {before after : ReplicationSet}
    (hleader : before.leaderEndOffset ≤ after.leaderEndOffset)
    (hfollowers : ∀ follower state', after.followers.get? follower = some state' →
      ∃ state, before.followers.get? follower = some state ∧
        state.fetchedOffset ≤ state'.fetchedOffset ∧ (state'.inSync → state.inSync)) :
    OnlyGrows before after := by
  intro c' hc'
  rcases ReplicationSet.mem_candidates.mp hc' with rfl | ⟨follower, state', hstate', rfl⟩
  · exact ⟨_, ReplicationSet.mem_candidates.mpr (Or.inl rfl), hleader, fun _ => rfl⟩
  · obtain ⟨state, hstate, hle, hsync⟩ := hfollowers follower state' hstate'
    exact ⟨_, ReplicationSet.mem_candidates.mpr (Or.inr ⟨follower, state, hstate, rfl⟩), hle, hsync⟩

/-- Evicting takes replicas out of sync and moves no log. -/
theorem onlyGrows_evictLaggards (replicas : ReplicationSet) :
    OnlyGrows replicas replicas.evictLaggards.2 := by
  refine onlyGrows_of_followers le_rfl fun follower state' hstate' => ?_
  simp only [ReplicationSet.evictLaggards, Dict.get?_mapValues, Option.map_eq_some_iff] at hstate'
  obtain ⟨state, hstate, rfl⟩ := hstate'
  refine ⟨state, hstate, ?_⟩
  split
  · exact ⟨le_rfl, fun hsync => by cases hsync⟩
  · exact ⟨le_rfl, id⟩

theorem onlyGrows_fetch {replicas : ReplicationSet} {follower : String} {offset : ℤ}
    (h : ∀ state, replicas.followers.get? follower = some state → state.fetchedOffset ≤ offset) :
    OnlyGrows replicas (replicas.fetch follower offset) := by
  rw [ReplicationSet.fetch]
  split
  · exact OnlyGrows.refl replicas
  · next state hstate =>
    refine onlyGrows_of_followers le_rfl (Dict.forall_get?_set ?_ fun k state' _ hstate' => ?_)
    · exact ⟨state, hstate, h state hstate, id⟩
    · exact ⟨state', hstate', le_rfl, id⟩

theorem onlyGrows_step {replicas : ReplicationSet} {call : ReplicationCall}
    (hcall : call.Grows replicas) : OnlyGrows replicas (replicationSet.step replicas call).2 := by
  cases call with
  | append endOffset =>
    exact onlyGrows_of_followers hcall fun follower state hstate => ⟨state, hstate, le_rfl, id⟩
  | fetch follower offset => exact onlyGrows_fetch hcall
  | evictLaggards => exact onlyGrows_evictLaggards replicas
  | committableWatermark => exact OnlyGrows.refl replicas

/-- The watermarks returned so far, oldest first, and the replicas: they do not decrease, and every
replica in sync holds all of them. -/
structure Promises (returned : List ℤ) (replicas : ReplicationSet) : Prop where
  nonneg : ∀ c ∈ replicas.candidates, 0 ≤ c.logEndOffset
  le : ∀ c ∈ replicas.candidates, c.inSync → ∀ w ∈ returned, w ≤ c.logEndOffset
  pairwise : returned.Pairwise (· ≤ ·)

theorem Promises.advance {returned : List ℤ} {before after : ReplicationSet}
    (h : Promises returned before) (hgrows : OnlyGrows before after) : Promises returned after where
  nonneg c' hc' := by
    obtain ⟨c, hc, hle, -⟩ := hgrows c' hc'
    exact (h.nonneg c hc).trans hle
  le c' hc' hsync' w hw := by
    obtain ⟨c, hc, hle, hsync⟩ := hgrows c' hc'
    exact (h.le c hc (hsync hsync') w hw).trans hle
  pairwise := h.pairwise

/-- A new watermark is the log end of a replica in sync, which holds all the earlier ones. -/
theorem Promises.commit {returned : List ℤ} {replicas : ReplicationSet} {watermark : ℤ}
    (h : Promises returned replicas) (hok : replicas.committableWatermark = .ok watermark) :
    Promises (returned ++ [watermark]) replicas := by
  obtain ⟨⟨c, hc, hsync, hend⟩, hall⟩ := ReplicationSet.committableWatermark_eq_ok hok
  refine ⟨h.nonneg, fun c' hc' hsync' => ?_, ?_⟩
  · exact forall_mem_append_singleton.mpr ⟨h.le c' hc' hsync', hall c' hc' hsync'⟩
  · refine pairwise_append_singleton.mpr ⟨h.pairwise, fun w hw => ?_⟩
    exact (h.le c hc hsync w hw).trans hend.le

theorem Promises.step {past : List (ReplicationCall × ReplicationAnswer)}
    {replicas : ReplicationSet} {call : ReplicationCall}
    (h : Promises (past.filterMap watermarkOfEvent) replicas) (hcall : call.Grows replicas) :
    Promises ((past ++ [(call, (replicationSet.step replicas call).1)]).filterMap watermarkOfEvent)
      (replicationSet.step replicas call).2 := by
  rw [List.filterMap_append]
  have hgrown := h.advance (onlyGrows_step hcall)
  cases call with
  | append | fetch | evictLaggards =>
    show Promises (_ ++ []) _
    rwa [List.append_nil]
  | committableWatermark =>
    show Promises (_ ++ [(ReplicationCall.committableWatermark, ReplicationAnswer.watermark
      replicas.committableWatermark)].filterMap watermarkOfEvent) replicas
    cases hok : replicas.committableWatermark with
    | error e =>
      show Promises (_ ++ []) _
      rwa [List.append_nil]
    | ok watermark => exact h.commit hok

theorem promises_run {replicas : ReplicationSet} {calls : List ReplicationCall}
    (hstart : ∀ c ∈ replicas.candidates, 0 ≤ c.logEndOffset)
    (hcalls : replicationSet.Guarded (fun replicas call => call.Grows replicas) replicas calls) :
    Promises (watermarks replicas calls) (replicationSet.final replicas calls) :=
  Machine.trace_induction
    (P := fun past replicas => Promises (past.filterMap watermarkOfEvent) replicas)
    ⟨hstart, by simp, List.Pairwise.nil⟩ (fun _ _ _ h hcall => h.step hcall) hcalls

/-- The largest watermark returned, 0 if there is none. -/
def committed (returned : List ℤ) : ℤ := returned.max?.getD 0

theorem committed_mem_or_eq_zero (returned : List ℤ) :
    committed returned ∈ returned ∨ committed returned = 0 := by
  cases hmax : returned.max? with
  | none =>
    rw [committed, hmax]
    exact Or.inr rfl
  | some largest =>
    rw [committed, hmax]
    exact Or.inl (List.max?_eq_some_iff.mp hmax).1

/-- A replica in sync is never turned away by the filter of a clean election. -/
theorem Promises.committed_le {returned : List ℤ} {replicas : ReplicationSet}
    (h : Promises returned replicas) {c : Candidate} (hc : c ∈ replicas.candidates)
    (hsync : c.inSync) : committed returned ≤ c.logEndOffset := by
  rcases committed_mem_or_eq_zero returned with hmem | hzero
  · exact h.le c hc hsync _ hmem
  · rw [hzero]
    exact h.nonneg c hc

/-- **A clean election loses nothing committed.** Let the offsets of a leader and its followers
start at 0 or above and only grow. Then the watermarks returned never decrease, and at every point,
an elector that knows the largest of them, asked to elect one of any of the replicas, succeeds
exactly when one of these is in sync; and then the leader it names is one of them, in sync, with a
log that reaches every watermark there has been, in a term above all before. -/
theorem watermarks_le_and_elect_iff (replicas : ReplicationSet) (calls : List ReplicationCall)
    (hstart : ∀ c ∈ replicas.candidates, 0 ≤ c.logEndOffset)
    (hcalls : replicationSet.Guarded (fun replicas call => call.Grows replicas) replicas calls) :
    (watermarks replicas calls).Pairwise (· ≤ ·) ∧
      ∀ (elector : PartitionElector) (candidates : List Candidate),
        elector.committedOffset = committed (watermarks replicas calls) →
        candidates ⊆ (replicationSet.final replicas calls).candidates →
          ((∃ result, (elector.elect candidates false).1 = .ok result) ↔
            ∃ c ∈ candidates, c.inSync) ∧
          ∀ result, (elector.elect candidates false).1 = .ok result →
            (∃ winner ∈ candidates, winner.name = result.leader ∧ winner.inSync ∧
              ∀ w ∈ watermarks replicas calls, w ≤ winner.logEndOffset) ∧
            elector.epoch < result.epoch ∧
            (elector.elect candidates false).2.epoch = result.epoch := by
  have h := promises_run hstart hcalls
  refine ⟨h.pairwise, fun elector candidates hcommitted hsubset => ?_⟩
  obtain ⟨hsucceeds, helected⟩ := elector.elect_clean candidates
  refine ⟨?_, fun result hresult => ?_⟩
  · rw [hsucceeds, hcommitted]
    constructor
    · rintro ⟨c, hc, hsync, -⟩
      exact ⟨c, hc, hsync⟩
    · rintro ⟨c, hc, hsync⟩
      exact ⟨c, hc, hsync, h.committed_le (hsubset hc) hsync⟩
  · obtain ⟨⟨winner, hwinner, hname, hsync, -, -⟩, hepoch, hepoch', -⟩ := helected result hresult
    exact ⟨⟨winner, hwinner, hname, hsync, h.le winner (hsubset hwinner) hsync⟩, hepoch, hepoch'⟩

/-- A follower that is 60 records behind is evicted after a watermark of 40, and the next watermark
is 100. The other follower can then be elected, and the one behind cannot. -/
theorem watermarks_le_and_elect_iff_evicted :
    watermarks
        ⟨"l", .ofList [("f", ⟨"f", 100, true⟩), ("g", ⟨"g", 40, true⟩)], 2, 50, 100, by decide⟩
        [.committableWatermark, .evictLaggards, .committableWatermark] = [40, 100] ∧
      (∃ result, (PartitionElector.elect ⟨3, 100⟩ [⟨"f", 100, true⟩, ⟨"g", 40, false⟩] false).1 =
        .ok result) ∧
      ¬ ∃ result, (PartitionElector.elect ⟨3, 100⟩ [⟨"g", 40, false⟩] false).1 = .ok result := by
  have h := watermarks_le_and_elect_iff
    ⟨"l", .ofList [("f", ⟨"f", 100, true⟩), ("g", ⟨"g", 40, true⟩)], 2, 50, 100, by decide⟩
    [.committableWatermark, .evictLaggards, .committableWatermark] (by decide)
    ⟨trivial, trivial, trivial, trivial⟩
  refine ⟨by decide, (h.2 ⟨3, 100⟩ _ (by decide) ?_).1.mpr ?_,
    (h.2 ⟨3, 100⟩ _ (by decide) ?_).1.not.mpr ?_⟩
  · exact List.subset_cons_self _ _
  · exact ⟨_, List.mem_cons_self, rfl⟩
  · exact fun c hc => List.mem_cons_of_mem _ (List.mem_cons_of_mem _ hc)
  · simp

end Relay
