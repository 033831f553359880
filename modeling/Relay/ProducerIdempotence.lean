import Mathlib.Data.Int.Order.Basic
import Relay.Errors
import Relay.Lib.Dict
import Relay.Lib.Machine
import Relay.Lib.OffsetLog

/-!
# Producer idempotence

For each producer and partition the tracker remembers the epoch and the last sequence it
accepted. The next sequence is accepted, one at or below the last is acknowledged as a duplicate,
a gap is refused, and so is an older epoch.

A newer epoch is accepted with whatever sequence it starts at, and a duplicate is recognised by
its sequence alone. So a restarted producer whose first batch was lost leaves a gap, and from then
on the batches in the gap are acknowledged though nothing was written; and a negative sequence is
acknowledged too. `gapFree_iff_guarded` says that a run is free of both exactly when every newer
epoch starts at `0` and no batch of the epoch held has a negative sequence.

## Scope

The note on how many producers are tracked is left out.

## Main definitions

* `ProducerIdempotence`, with `accept`
* `AcceptStep`: what one call can do
* `GapFree`: what a run should promise
* `SafeBatch`: the batches that keep the promise

## Main results

* `gapFree_iff_guarded`: when a run keeps the promise
* `highSequence_of_guarded`: what the tracker then reports
-/

namespace Relay

/-- `_State`: the last that was accepted. -/
structure SequenceState where
  epoch : ℤ
  lastSequence : ℤ
  deriving DecidableEq

/-- A batch, as its producer stamps it. -/
structure Batch where
  producerId : String
  partition : ℤ
  epoch : ℤ
  sequence : ℤ
  deriving DecidableEq

/-- What the tracker files a batch under. -/
def Batch.key (batch : Batch) : String × ℤ := (batch.producerId, batch.partition)

/-- The answers of `accept` that are not refusals. -/
inductive BatchAnswer where
  | firstBatch
  | newEpoch
  | accepted
  | duplicate
  deriving DecidableEq

/-- What the producer is told. -/
def BatchAnswer.text : BatchAnswer → String
  | .firstBatch => "accepted (first batch)"
  | .newEpoch => "accepted (new epoch)"
  | .accepted => "accepted"
  | .duplicate => "duplicate (already written; the retry is harmless)"

/-- The last accepted state by producer and partition. -/
structure ProducerIdempotence where
  seen : Dict (String × ℤ) SequenceState := ∅
  deriving DecidableEq

namespace ProducerIdempotence

/-- Remember a batch as the last accepted of its producer and partition. -/
def remember (tracker : ProducerIdempotence) (batch : Batch) : ProducerIdempotence :=
  ⟨tracker.seen.set batch.key ⟨batch.epoch, batch.sequence⟩⟩

/-- `accept`. -/
def accept (tracker : ProducerIdempotence) (batch : Batch) :
    Except RelayError BatchAnswer × ProducerIdempotence :=
  match tracker.seen.get? batch.key with
  | none =>
    if batch.sequence ≠ 0 then
      (.error (.invalid (s!"first batch from '{batch.producerId}' on partition {batch.partition} "
        ++ s!"has sequence {batch.sequence}, not 0; a batch before it was lost")), tracker)
    else (.ok .firstBatch, tracker.remember { batch with sequence := 0 })
  | some state =>
    if batch.epoch < state.epoch then
      (.error (.fenced (s!"epoch {batch.epoch} from '{batch.producerId}' is below the current "
        ++ s!"{state.epoch}; this is a zombie instance, a newer producer "
        ++ "took over, so the write is refused")), tracker)
    else if batch.epoch > state.epoch then
      (.ok .newEpoch, tracker.remember batch)
    else
      let expected := state.lastSequence + 1
      if batch.sequence = expected then
        (.ok .accepted,
          ⟨tracker.seen.set batch.key { state with lastSequence := batch.sequence }⟩)
      else if batch.sequence ≤ state.lastSequence then (.ok .duplicate, tracker)
      else
        (.error (.invalid (s!"sequence {batch.sequence} from '{batch.producerId}' is past the "
          ++ s!"expected {expected}; a batch in between was lost, accepting this would "
          ++ "leave a gap and silently drop the missing batch")), tracker)

/-- `high_sequence`. -/
def highSequence (tracker : ProducerIdempotence) (producerId : String) (partition : ℤ) :
    Except RelayError ℤ :=
  match tracker.seen.get? (producerId, partition) with
  | none => .error (.invalid s!"no batches seen from '{producerId}' on {partition}")
  | some state => .ok state.lastSequence

end ProducerIdempotence

/-- The tracker as a component; a call is the batch it is made with. -/
def acceptMachine : Machine ProducerIdempotence Batch (Except RelayError BatchAnswer) where
  step tracker batch := tracker.accept batch

/-- The tracker takes the batch as a new one: it is the first of its producer and partition, has
a newer epoch than the one held, or goes on where the last one left. -/
def IsNew (tracker : ProducerIdempotence) (batch : Batch) : Prop :=
  (tracker.seen.get? batch.key = none ∧ batch.sequence = 0) ∨
    ∃ state, tracker.seen.get? batch.key = some state ∧
      (state.epoch < batch.epoch ∨
        state.epoch = batch.epoch ∧ batch.sequence = state.lastSequence + 1)

theorem IsNew.epoch_le {tracker : ProducerIdempotence} {batch : Batch} {state : SequenceState}
    (h : IsNew tracker batch) (hheld : tracker.seen.get? batch.key = some state) :
    state.epoch ≤ batch.epoch := by
  rcases h with ⟨hnone, -⟩ | ⟨state', hheld', hcase⟩
  · rw [hnone] at hheld
    cases hheld
  · obtain rfl : state = state' := Option.some.inj (hheld.symm.trans hheld')
    exact hcase.elim (·.le) (·.1.le)

/-- What one call to the tracker can do. -/
inductive AcceptStep (tracker : ProducerIdempotence) (batch : Batch) :
    Except RelayError BatchAnswer → ProducerIdempotence → Prop
  /-- Refuse an older epoch or a gap, and change nothing. -/
  | refused {e : RelayError} (h : ∀ state ∈ tracker.seen.get? batch.key,
      batch.epoch < state.epoch ∨
        state.epoch = batch.epoch ∧ state.lastSequence + 1 < batch.sequence) :
      AcceptStep tracker batch (.error e) tracker
  /-- Write a new batch and remember it as the last. -/
  | written {answer : BatchAnswer} (hanswer : answer ≠ .duplicate) (hnew : IsNew tracker batch) :
      AcceptStep tracker batch (.ok answer) (tracker.remember batch)
  /-- Acknowledge without writing. -/
  | duplicate {state : SequenceState} (hheld : tracker.seen.get? batch.key = some state)
      (hepoch : state.epoch = batch.epoch) (hle : batch.sequence ≤ state.lastSequence) :
      AcceptStep tracker batch (.ok .duplicate) tracker

theorem acceptStep (tracker : ProducerIdempotence) (batch : Batch) :
    AcceptStep tracker batch (acceptMachine.step tracker batch).1
      (acceptMachine.step tracker batch).2 := by
  simp only [acceptMachine, ProducerIdempotence.accept]
  split
  · next hnone =>
    split
    · exact .refused (by simp [hnone])
    · next hzero =>
      have hzero : batch.sequence = 0 := not_not.mp hzero
      have hbatch : { batch with sequence := 0 } = batch := by rw [← hzero]
      rw [hbatch]
      exact .written (by decide) (.inl ⟨hnone, hzero⟩)
  next state hheld =>
  split
  · next hlt => exact .refused (by simp [hheld, hlt])
  next hge =>
  split
  · next hgt => exact .written (by decide) (.inr ⟨state, hheld, .inl hgt⟩)
  next hle =>
  have hepoch : state.epoch = batch.epoch := le_antisymm (not_lt.mp hge) (not_lt.mp hle)
  split
  · next hnext =>
    rw [show ({ state with lastSequence := batch.sequence } : SequenceState) =
      ⟨batch.epoch, batch.sequence⟩ by rw [hepoch]]
    exact .written (by decide) (.inr ⟨state, hheld, .inr ⟨hepoch, hnext⟩⟩)
  next hne =>
  split
  · next hold => exact .duplicate hheld hepoch hold
  · next hnot => exact .refused (by simp [hheld, hepoch]; omega)

/-! ## What a run wrote -/

/-- The answer says that the batch was written. -/
def wrote : Except RelayError BatchAnswer → Bool
  | .error _ => false
  | .ok answer => answer ≠ .duplicate

/-- The batches that were written, oldest first. -/
def written (past : List (Batch × Except RelayError BatchAnswer)) : List Batch :=
  (past.filter fun event => wrote event.2).map Prod.fst

/-- The sequences written for one producer and partition under one epoch, oldest first. -/
def sequencesOf (key : String × ℤ) (epoch : ℤ)
    (past : List (Batch × Except RelayError BatchAnswer)) : List ℤ :=
  ((written past).filter fun batch => batch.key = key ∧ batch.epoch = epoch).map (·.sequence)

/-- Each producer's batches were written without a gap, partition by partition and epoch by epoch,
and only what was written before is acknowledged as a duplicate. -/
structure GapFree (past : List (Batch × Except RelayError BatchAnswer)) : Prop where
  counts : ∀ key epoch, Counts (sequencesOf key epoch past)
  duplicate_written :
    Justified (fun past event => event.2 = .ok .duplicate → event.1 ∈ written past) past

section Written

variable {past : List (Batch × Except RelayError BatchAnswer)} {batch : Batch}
  {answer : Except RelayError BatchAnswer}

theorem written_append_of_wrote (h : wrote answer = true) :
    written (past ++ [(batch, answer)]) = written past ++ [batch] := by
  simp [written, h]

theorem written_append_of_not (h : wrote answer = false) :
    written (past ++ [(batch, answer)]) = written past := by
  simp [written, h]

theorem sequencesOf_append_of_wrote (h : wrote answer = true) (key : String × ℤ) (epoch : ℤ) :
    sequencesOf key epoch (past ++ [(batch, answer)]) =
      if batch.key = key ∧ batch.epoch = epoch then sequencesOf key epoch past ++ [batch.sequence]
      else sequencesOf key epoch past := by
  rw [sequencesOf, written_append_of_wrote h, List.filter_append]
  split
  · next hsame => simp [sequencesOf, hsame]
  · next hother => simp [sequencesOf, hother]

theorem sequencesOf_append_of_not (h : wrote answer = false) (key : String × ℤ) (epoch : ℤ) :
    sequencesOf key epoch (past ++ [(batch, answer)]) = sequencesOf key epoch past := by
  rw [sequencesOf, written_append_of_not h, sequencesOf]

theorem mem_sequencesOf {sequence : ℤ} {key : String × ℤ} {epoch : ℤ} :
    sequence ∈ sequencesOf key epoch past ↔ ⟨key.1, key.2, epoch, sequence⟩ ∈ written past := by
  simp only [sequencesOf, List.mem_map, List.mem_filter, decide_eq_true_eq]
  constructor
  · rintro ⟨batch, ⟨hmem, rfl, rfl⟩, rfl⟩
    exact hmem
  · intro hmem
    exact ⟨_, ⟨hmem, rfl, rfl⟩, rfl⟩

theorem gapFree_nil : GapFree [] := ⟨fun _ _ => counts_nil, justified_nil _⟩

/-- One more batch written has to be the next of its producer, partition and epoch. -/
theorem gapFree_append_of_wrote (h : wrote answer = true) :
    GapFree (past ++ [(batch, answer)]) ↔
      GapFree past ∧ batch.sequence = (sequencesOf batch.key batch.epoch past).length := by
  have hne : answer ≠ .ok .duplicate := by
    rintro rfl
    cases h
  constructor
  · rintro ⟨hcounts, hdup⟩
    have hbatch := hcounts batch.key batch.epoch
    rw [sequencesOf_append_of_wrote h, if_pos ⟨rfl, rfl⟩, counts_append_singleton] at hbatch
    refine ⟨⟨fun key epoch => ?_, (justified_append_singleton.mp hdup).1⟩, hbatch.2⟩
    have hother := hcounts key epoch
    rw [sequencesOf_append_of_wrote h] at hother
    split at hother
    · exact (counts_append_singleton.mp hother).1
    · exact hother
  · rintro ⟨⟨hcounts, hdup⟩, hnext⟩
    refine ⟨fun key epoch => ?_,
      justified_append_singleton.mpr ⟨hdup, fun heq => absurd heq hne⟩⟩
    rw [sequencesOf_append_of_wrote h]
    split
    · next hsame =>
      obtain ⟨rfl, rfl⟩ := hsame
      exact counts_append_singleton.mpr ⟨hcounts _ _, hnext⟩
    · exact hcounts key epoch

/-- One more batch not written has to be one that was, if it is acknowledged. -/
theorem gapFree_append_of_not (h : wrote answer = false) :
    GapFree (past ++ [(batch, answer)]) ↔
      GapFree past ∧ (answer = .ok .duplicate → batch ∈ written past) := by
  constructor
  · rintro ⟨hcounts, hdup⟩
    rw [justified_append_singleton] at hdup
    exact ⟨⟨fun key epoch => sequencesOf_append_of_not h key epoch ▸ hcounts key epoch, hdup.1⟩,
      hdup.2⟩
  · rintro ⟨⟨hcounts, hdup⟩, hback⟩
    refine ⟨fun key epoch => ?_, justified_append_singleton.mpr ⟨hdup, hback⟩⟩
    rw [sequencesOf_append_of_not h]
    exact hcounts key epoch

theorem GapFree.of_append (h : GapFree (past ++ [(batch, answer)])) : GapFree past := by
  cases hwrote : wrote answer with
  | true => exact ((gapFree_append_of_wrote hwrote).mp h).1
  | false => exact ((gapFree_append_of_not hwrote).mp h).1

end Written

/-! ## When a run leaves no gap -/

/-- A batch ahead of the epoch held starts that epoch at `0`, and a batch of the epoch held does
not have a negative sequence. -/
def SafeBatch (tracker : ProducerIdempotence) (batch : Batch) : Prop :=
  ∀ state ∈ tracker.seen.get? batch.key,
    (state.epoch < batch.epoch → batch.sequence = 0) ∧
      (state.epoch = batch.epoch → 0 ≤ batch.sequence)

instance (tracker : ProducerIdempotence) (batch : Batch) : Decidable (SafeBatch tracker batch) :=
  inferInstanceAs (Decidable (∀ state ∈ tracker.seen.get? batch.key,
    (state.epoch < batch.epoch → batch.sequence = 0) ∧
      (state.epoch = batch.epoch → 0 ≤ batch.sequence)))

/-- The tracker holds the newest epoch written, and how much was written under it. -/
structure Tracked (past : List (Batch × Except RelayError BatchAnswer))
    (tracker : ProducerIdempotence) : Prop where
  gapFree : GapFree past
  epoch_le : ∀ batch ∈ written past,
    ∃ state, tracker.seen.get? batch.key = some state ∧ batch.epoch ≤ state.epoch
  length_eq : ∀ key state, tracker.seen.get? key = some state →
    0 ≤ state.lastSequence ∧
      ((sequencesOf key state.epoch past).length : ℤ) = state.lastSequence + 1

section Step

variable {past : List (Batch × Except RelayError BatchAnswer)}
  {tracker tracker' : ProducerIdempotence} {batch : Batch} {answer : Except RelayError BatchAnswer}

/-- Nothing was written under an epoch that the tracker has not reached. -/
theorem Tracked.sequencesOf_eq_nil (h : Tracked past tracker)
    (hahead : ∀ state ∈ tracker.seen.get? batch.key, state.epoch < batch.epoch) :
    sequencesOf batch.key batch.epoch past = [] := by
  rw [List.eq_nil_iff_forall_not_mem]
  intro sequence hmem
  obtain ⟨state, hheld, hle⟩ := h.epoch_le _ (mem_sequencesOf.mp hmem)
  exact absurd hle (not_le.mpr (hahead state hheld))

/-- A new batch is safe exactly when it is the next of its epoch. -/
theorem Tracked.safeBatch_iff_of_isNew (h : Tracked past tracker) (hnew : IsNew tracker batch) :
    SafeBatch tracker batch ↔
      batch.sequence = (sequencesOf batch.key batch.epoch past).length := by
  rcases hnew with ⟨hnone, hzero⟩ | ⟨state, hheld, hahead | ⟨hepoch, hnext⟩⟩
  · rw [h.sequencesOf_eq_nil (by simp [hnone])]
    simp [SafeBatch, hnone, hzero]
  · rw [h.sequencesOf_eq_nil (by simpa [hheld] using hahead)]
    simp [SafeBatch, hheld, hahead, hahead.ne]
  · obtain ⟨hnonneg, hlength⟩ := h.length_eq _ state hheld
    rw [← hepoch, hlength, hnext]
    refine iff_of_true ?_ rfl
    simp only [SafeBatch, hheld, Option.mem_some_iff, forall_eq', hepoch, lt_irrefl, hnext]
    exact ⟨False.elim, fun _ => by omega⟩

/-- A batch acknowledged as a duplicate is safe exactly when it was written. -/
theorem Tracked.safeBatch_iff_mem_written (h : Tracked past tracker) {state : SequenceState}
    (hheld : tracker.seen.get? batch.key = some state) (hepoch : state.epoch = batch.epoch)
    (hle : batch.sequence ≤ state.lastSequence) :
    SafeBatch tracker batch ↔ batch ∈ written past := by
  obtain ⟨hnonneg, hlength⟩ := h.length_eq _ state hheld
  have hmem : batch ∈ written past ↔ batch.sequence ∈ sequencesOf batch.key state.epoch past := by
    rw [mem_sequencesOf, hepoch]
    exact Iff.rfl
  rw [hmem, (h.gapFree.counts _ _).mem_iff, hlength]
  simp only [SafeBatch, hheld, Option.mem_some_iff, forall_eq', hepoch, lt_irrefl]
  constructor
  · rintro ⟨-, hsafe⟩
    exact ⟨hsafe trivial, by omega⟩
  · rintro ⟨hsafe, -⟩
    exact ⟨False.elim, fun _ => hsafe⟩

/-- A batch that is refused is safe. -/
theorem Tracked.safeBatch_of_refused (h : Tracked past tracker)
    (hrefused : ∀ state ∈ tracker.seen.get? batch.key, batch.epoch < state.epoch ∨
      state.epoch = batch.epoch ∧ state.lastSequence + 1 < batch.sequence) :
    SafeBatch tracker batch := by
  intro state hheld
  have hnonneg := (h.length_eq _ state hheld).1
  rcases hrefused state hheld with hlt | ⟨hepoch, hgap⟩
  · exact ⟨fun hgt => absurd hlt hgt.not_gt, fun heq => absurd heq hlt.ne'⟩
  · exact ⟨fun hlt => absurd hepoch hlt.ne, fun _ => by omega⟩

theorem wrote_ok {answer : BatchAnswer} (h : answer ≠ .duplicate) : wrote (.ok answer) = true :=
  decide_eq_true h

/-- One more call is safe exactly when it leaves no gap. -/
theorem Tracked.safeBatch_iff (h : Tracked past tracker)
    (hstep : AcceptStep tracker batch answer tracker') :
    SafeBatch tracker batch ↔ GapFree (past ++ [(batch, answer)]) := by
  cases hstep with
  | refused hrefused =>
    rw [gapFree_append_of_not rfl]
    exact iff_of_true (h.safeBatch_of_refused hrefused) ⟨h.gapFree, fun hc => by cases hc⟩
  | written hanswer hnew =>
    rw [gapFree_append_of_wrote (wrote_ok hanswer), h.safeBatch_iff_of_isNew hnew]
    exact (and_iff_right h.gapFree).symm
  | duplicate hheld hepoch hle =>
    rw [gapFree_append_of_not rfl, h.safeBatch_iff_mem_written hheld hepoch hle]
    exact ⟨fun hmem => ⟨h.gapFree, fun _ => hmem⟩, fun hfree => hfree.2 rfl⟩

/-- A call that writes nothing leaves the tracker in step with what was written. -/
theorem Tracked.append_of_not (h : Tracked past tracker) (hwrote : wrote answer = false)
    (hfree : GapFree (past ++ [(batch, answer)])) :
    Tracked (past ++ [(batch, answer)]) tracker := by
  refine ⟨hfree, ?_, fun key state hheld => ?_⟩
  · rw [written_append_of_not hwrote]
    exact h.epoch_le
  · rw [sequencesOf_append_of_not hwrote]
    exact h.length_eq key state hheld

/-- A call that leaves no gap keeps the tracker in step with what was written. -/
theorem Tracked.step (h : Tracked past tracker)
    (hstep : AcceptStep tracker batch answer tracker')
    (hfree : GapFree (past ++ [(batch, answer)])) :
    Tracked (past ++ [(batch, answer)]) tracker' := by
  cases hstep with
  | refused => exact h.append_of_not rfl hfree
  | duplicate => exact h.append_of_not rfl hfree
  | @written answer hanswer hnew =>
    have hwrote := wrote_ok hanswer
    have hnext := ((gapFree_append_of_wrote hwrote).mp hfree).2
    refine ⟨hfree, fun other hmem => ?_, fun key state hheld => ?_⟩
    · rw [written_append_of_wrote hwrote, List.mem_append, List.mem_singleton] at hmem
      simp only [ProducerIdempotence.remember, Dict.get?_set]
      split
      · next hsame =>
        refine ⟨_, rfl, ?_⟩
        rcases hmem with hmem | rfl
        · obtain ⟨state, hheld, hle⟩ := h.epoch_le other hmem
          exact hle.trans (hnew.epoch_le (hsame ▸ hheld))
        · exact le_rfl
      · next hother =>
        rcases hmem with hmem | rfl
        · exact h.epoch_le other hmem
        · exact absurd rfl hother
    · simp only [ProducerIdempotence.remember, Dict.get?_set] at hheld
      rw [sequencesOf_append_of_wrote hwrote]
      split at hheld
      · next hsame =>
        obtain rfl := Option.some.inj hheld
        subst hsame
        rw [if_pos ⟨rfl, rfl⟩, List.length_append, List.length_singleton, hnext]
        exact ⟨Int.natCast_nonneg _, Int.natCast_succ _⟩
      · next hother =>
        rw [if_neg fun hc => hother hc.1.symm]
        exact h.length_eq key state hheld

end Step

theorem tracked_fresh : Tracked [] {} := ⟨gapFree_nil, by simp [written], by simp⟩

/-- A safe call keeps the tracker in step with what was written. -/
theorem Tracked.step_of_safeBatch {past : List (Batch × Except RelayError BatchAnswer)}
    {tracker : ProducerIdempotence} {batch : Batch} (h : Tracked past tracker)
    (hsafe : SafeBatch tracker batch) :
    Tracked (past ++ [(batch, (acceptMachine.step tracker batch).1)])
      (acceptMachine.step tracker batch).2 :=
  h.step (acceptStep tracker batch) ((h.safeBatch_iff (acceptStep tracker batch)).mp hsafe)

/-- **When a run leaves no gap.** Every producer's batches are written without a gap, and only
written batches are acknowledged as duplicates, exactly when every batch of the run is safe. -/
theorem gapFree_iff_guarded (batches : List Batch) :
    GapFree (acceptMachine.trace {} batches) ↔ acceptMachine.Guarded SafeBatch {} batches := by
  refine (Machine.guarded_iff_trace (P := Tracked) (Q := GapFree) tracked_fresh gapFree_nil
    ?_ ?_ ?_).symm
  · exact fun past event h => h.of_append
  · exact fun past tracker batch h => h.safeBatch_iff (acceptStep tracker batch)
  · exact fun past tracker batch h hsafe => h.step_of_safeBatch hsafe

/-- A producer restarts under epoch `1` and the first batches of the new epoch are lost: the tracker
takes sequence `5`, and then acknowledges sequence `3`, which was never written. -/
theorem not_gapFree_lost_batches :
    ¬ GapFree (acceptMachine.trace {} [⟨"p", 0, 0, 0⟩, ⟨"p", 0, 1, 5⟩, ⟨"p", 0, 1, 3⟩]) :=
  fun h => absurd (h.counts ("p", 0) 1) (by decide)

/-- After a safe run the tracker reports, for a producer it has seen, how far the newest epoch it
wrote under has come. -/
theorem highSequence_of_guarded {batches : List Batch}
    (h : acceptMachine.Guarded SafeBatch {} batches) {producerId : String} {partition last : ℤ}
    (hlast : (acceptMachine.final {} batches).highSequence producerId partition = .ok last) :
    ∃ epoch, last + 1 =
      (sequencesOf (producerId, partition) epoch (acceptMachine.trace {} batches)).length := by
  have htracked : Tracked (acceptMachine.trace {} batches) (acceptMachine.final {} batches) :=
    Machine.trace_induction tracked_fresh (fun _ _ _ h hsafe => h.step_of_safeBatch hsafe) h
  rw [ProducerIdempotence.highSequence] at hlast
  split at hlast
  · cases hlast
  · next state hheld =>
    obtain rfl := Except.ok.inj hlast
    exact ⟨state.epoch, (htracked.length_eq _ state hheld).2.symm⟩

end Relay
