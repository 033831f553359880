import Relay.Lib.Dict
import Relay.OffsetTranslation

/-!
# Mirroring, and moving over to the mirror

A link copies the records of a topic to another cluster, one after the other, and keeps for each the
offset it has there. Now and then the two offsets of a record are written down as a checkpoint, and
when the cluster is lost a consumer has only the checkpoints: it translates its offset by them and
goes on reading on the mirror.

The table of the link would tell the offset that the consumer really stopped at. The two together
show what the translation costs: it is never past that offset, and it is behind it by just as many
records as it says will be read again.

## Scope

The name of the source topic is left out, which nothing reads. Taking checkpoints from the link is
no function of the source: its documentation has them taken as records are mirrored.

## Main definitions

* `MirrorLink`, with `copy`, `translate` and `status`
* `MirroredTopic`: a link and the checkpoints that are taken from it
* `mirroredTopic`: the two as a component

## Main results

* `mirroredTopic_answers`: what every call of a run answers, and what a consumer that moves over
  reads again
-/

namespace Relay

/-- A link that copies a topic, with the offset on the mirror of every record that was copied. -/
structure MirrorLink where
  destTopic : String
  translation : Dict ℤ ℤ := ∅
  destNextOffset : ℤ := 0
  lastSourceCopied : ℤ := -1

/-- What the copy of a record is refused with that does not come after the last one. -/
def mirrorReorders (sourceOffset lastSourceCopied : ℤ) : RelayError :=
  .invalid (s!"source offset {sourceOffset} is not after " ++
    s!"the last copied {lastSourceCopied}; a " ++
    "mirror that reorders broke the source's only guarantee")

/-- What the copy of a record is refused with if some before it were not copied. -/
def mirrorHasHole (expected sourceOffset : ℤ) : RelayError :=
  .invalid (s!"gap: expected source offset {expected}, got " ++
    s!"{sourceOffset}; a mirror with holes is not a mirror")

/-- What is answered for a record that was not copied. -/
def notMirrored (sourceOffset : ℤ) : RelayError :=
  .missing (s!"source offset {sourceOffset} has not been " ++
    "mirrored yet; failing over to it would skip unmirrored records")

/-- How far the mirror is behind. -/
def mirrorStatus (destTopic : String) (behind : ℤ) : String :=
  if behind = 0 then
    s!"{destTopic} is caught up to the source " ++
      "at this instant, which async mirroring cannot promise for the next one"
  else
    s!"{destTopic} trails by {behind} record(s); a " ++
      "mirror believed current when it trails is a DR " ++
      "plan that loses that gap and calls it zero"

namespace MirrorLink

/-- `copy`. -/
def copy (link : MirrorLink) (sourceOffset : ℤ) : Except RelayError ℤ × MirrorLink :=
  if sourceOffset ≤ link.lastSourceCopied then
    (.error (mirrorReorders sourceOffset link.lastSourceCopied), link)
  else if sourceOffset ≠ link.lastSourceCopied + 1 then
    (.error (mirrorHasHole (link.lastSourceCopied + 1) sourceOffset), link)
  else
    (.ok link.destNextOffset,
      { link with
        translation := link.translation.set sourceOffset link.destNextOffset
        destNextOffset := link.destNextOffset + 1
        lastSourceCopied := sourceOffset })

/-- `translate`. -/
def translate (link : MirrorLink) (sourceOffset : ℤ) : Except RelayError ℤ :=
  match link.translation.get? sourceOffset with
  | none => .error (notMirrored sourceOffset)
  | some dest => .ok dest

/-- `lag`. -/
def lag (link : MirrorLink) (sourceEnd : ℤ) : ℤ := sourceEnd - (link.lastSourceCopied + 1)

/-- `status`. -/
def status (link : MirrorLink) (sourceEnd : ℤ) : String :=
  mirrorStatus link.destTopic (link.lag sourceEnd)

end MirrorLink

/-- A link, and a translator that is given checkpoints from it. -/
structure MirroredTopic where
  link : MirrorLink
  translator : OffsetTranslator := {}

/-- A checkpoint is taken of a record that was copied. -/
def MirroredTopic.checkpoint (mirror : MirroredTopic) (sourceOffset : ℤ) :
    Except RelayError Unit × MirroredTopic :=
  match mirror.link.translate sourceOffset with
  | .error error => (.error error, mirror)
  | .ok dest =>
    ((mirror.translator.addCheckpoint sourceOffset dest).1,
      { mirror with translator := (mirror.translator.addCheckpoint sourceOffset dest).2 })

/-- What is asked. -/
inductive MirrorCall where
  | copy (sourceOffset : ℤ)
  | translate (sourceOffset : ℤ)
  | status (sourceEnd : ℤ)
  | checkpoint (sourceOffset : ℤ)
  | resume (sourceOffset : ℤ)
  | reprocessing (sourceOffset : ℤ)
  deriving DecidableEq

/-- What is answered. -/
inductive MirrorAnswer where
  | offset (answer : Except RelayError ℤ)
  | checkpoint (answer : Except RelayError Unit)
  | report (answer : Except RelayError String)

/-- The mirror as a component. -/
def mirroredTopic : Machine MirroredTopic MirrorCall MirrorAnswer where
  step mirror
    | .copy sourceOffset =>
      (.offset (mirror.link.copy sourceOffset).1,
        { mirror with link := (mirror.link.copy sourceOffset).2 })
    | .translate sourceOffset => (.offset (mirror.link.translate sourceOffset), mirror)
    | .status sourceEnd => (.report (.ok (mirror.link.status sourceEnd)), mirror)
    | .checkpoint sourceOffset =>
      (.checkpoint (mirror.checkpoint sourceOffset).1, (mirror.checkpoint sourceOffset).2)
    | .resume sourceOffset => (.offset (mirror.translator.translate sourceOffset), mirror)
    | .reprocessing sourceOffset => (.report (mirror.translator.reprocessing sourceOffset), mirror)

/-! ## What the calls say -/

/-- The event copied a record. -/
def copies : MirrorCall × MirrorAnswer → Bool
  | (.copy _, .offset (.ok _)) => true
  | _ => false

/-- How many records were copied. -/
def copied (past : List (MirrorCall × MirrorAnswer)) : ℤ := past.countP copies

/-- The checkpoints that were taken, in order. -/
def checkpointed (start : ℤ) (past : List (MirrorCall × MirrorAnswer)) : List (ℤ × ℤ) :=
  past.filterMap fun
    | (.checkpoint sourceOffset, .checkpoint (.ok _)) => some (sourceOffset, start + sourceOffset)
    | _ => none

/-- The offset of a record on the mirror, whose first record has the offset `start` there. -/
def mirroredAt (start n sourceOffset : ℤ) : Except RelayError ℤ :=
  if 0 ≤ sourceOffset ∧ sourceOffset < n then .ok (start + sourceOffset)
  else .error (notMirrored sourceOffset)

/-- What is answered after some events. -/
def MirrorAnswers (destTopic : String) (start : ℤ) (past : List (MirrorCall × MirrorAnswer)) :
    MirrorCall × MirrorAnswer → Prop
  | (.copy sourceOffset, answer) =>
    answer = .offset (if sourceOffset < copied past then
        .error (mirrorReorders sourceOffset (copied past - 1))
      else if sourceOffset ≠ copied past then .error (mirrorHasHole (copied past) sourceOffset)
      else .ok (start + sourceOffset))
  | (.translate sourceOffset, answer) =>
    answer = .offset (mirroredAt start (copied past) sourceOffset)
  | (.status sourceEnd, answer) =>
    answer = .report (.ok (mirrorStatus destTopic (sourceEnd - copied past)))
  | (.checkpoint sourceOffset, answer) =>
    answer = .checkpoint (if ¬ (0 ≤ sourceOffset ∧ sourceOffset < copied past) then
        .error (notMirrored sourceOffset)
      else if ∃ checkpoint ∈ checkpointed start past, sourceOffset ≤ checkpoint.1 then
        .error checkpointOutOfOrder
      else .ok ())
  | (.resume sourceOffset, answer) =>
    LooksUp (checkpointed start past) sourceOffset
      (fun checkpoint => .offset (.ok (start + checkpoint.1)))
      (.offset (.error (offsetTooOld sourceOffset))) answer
  | (.reprocessing sourceOffset, answer) =>
    LooksUp (checkpointed start past) sourceOffset
      (fun checkpoint => .report
        (.ok (reprocessingReport checkpoint.1 (sourceOffset - checkpoint.1))))
      (.report (.error noCheckpoint)) answer

/-! ## Every run -/

section Runs

variable {destTopic : String} {start : ℤ} {past : List (MirrorCall × MirrorAnswer)}
  {mirror : MirroredTopic}

theorem copied_append_singleton (e : MirrorCall × MirrorAnswer) :
    copied (past ++ [e]) = copied past + if copies e = true then 1 else 0 := by
  rw [copied, List.countP_append, List.countP_singleton, copied]
  push_cast
  rfl

theorem checkpointed_append_singleton (e : MirrorCall × MirrorAnswer) :
    checkpointed start (past ++ [e]) = checkpointed start past ++ checkpointed start [e] :=
  List.filterMap_append

/-- The link has copied so many records without a hole, and the checkpoints are those that were
taken. -/
structure Mirrored (destTopic : String) (start : ℤ) (past : List (MirrorCall × MirrorAnswer))
    (mirror : MirroredTopic) : Prop where
  destTopic_eq : mirror.link.destTopic = destTopic
  last : mirror.link.lastSourceCopied + 1 = copied past
  next : mirror.link.destNextOffset = start + copied past
  translate sourceOffset : mirror.link.translate sourceOffset =
    mirroredAt start (copied past) sourceOffset
  checkpoints : mirror.translator.checkpoints = checkpointed start past
  rise : mirror.translator.checkpoints.Pairwise Past

theorem copied_nonneg (past : List (MirrorCall × MirrorAnswer)) : 0 ≤ copied past :=
  Int.natCast_nonneg _

/-- A checkpoint is a record and its offset on the mirror. -/
theorem snd_eq_of_mem_checkpointed {checkpoint : ℤ × ℤ}
    (h : checkpoint ∈ checkpointed start past) : checkpoint.2 = start + checkpoint.1 := by
  obtain ⟨⟨call, answer⟩, -, hsome⟩ := List.mem_filterMap.mp h
  split at hsome
  · obtain rfl := Option.some.inj hsome
    rfl
  · cases hsome

/-- An event that neither copies a record nor takes a checkpoint. -/
theorem Mirrored.read (h : Mirrored destTopic start past mirror) {e : MirrorCall × MirrorAnswer}
    (hcopies : copies e = false) (hchecks : checkpointed start [e] = []) :
    Mirrored destTopic start (past ++ [e]) mirror := by
  have hcopied : copied (past ++ [e]) = copied past := by
    rw [copied_append_singleton, hcopies]
    exact add_zero _
  refine ⟨h.destTopic_eq, hcopied ▸ h.last, hcopied ▸ h.next, hcopied ▸ h.translate, ?_, h.rise⟩
  rw [checkpointed_append_singleton, hchecks, List.append_nil, h.checkpoints]

/-- What a copy answers. -/
theorem Mirrored.copy_eq (h : Mirrored destTopic start past mirror) (sourceOffset : ℤ) :
    (mirror.link.copy sourceOffset).1 =
      if sourceOffset < copied past then .error (mirrorReorders sourceOffset (copied past - 1))
      else if sourceOffset ≠ copied past then .error (mirrorHasHole (copied past) sourceOffset)
      else .ok (start + sourceOffset) := by
  have hlast : mirror.link.lastSourceCopied = copied past - 1 := by
    have := h.last
    omega
  rw [MirrorLink.copy, hlast, h.next]
  by_cases hlt : sourceOffset < copied past
  · rw [if_pos hlt, if_pos (by omega)]
  · rw [if_neg hlt, if_neg (by omega), sub_add_cancel]
    by_cases hne : sourceOffset = copied past
    · rw [if_neg (not_not.mpr hne), if_neg (not_not.mpr hne), hne]
    · rw [if_pos hne, if_pos hne]

theorem mirroredAt_succ (start n sourceOffset : ℤ) (hn : 0 ≤ n) :
    mirroredAt start (n + 1) sourceOffset =
      if sourceOffset = n then .ok (start + n) else mirroredAt start n sourceOffset := by
  rw [mirroredAt, mirroredAt]
  by_cases heq : sourceOffset = n
  · rw [if_pos heq, if_pos (by omega), heq]
  · rw [if_neg heq]
    refine if_congr ?_ rfl rfl
    omega

theorem Mirrored.copy (h : Mirrored destTopic start past mirror) (sourceOffset : ℤ) :
    Mirrored destTopic start
      (past ++ [(.copy sourceOffset, .offset (mirror.link.copy sourceOffset).1)])
      { mirror with link := (mirror.link.copy sourceOffset).2 } := by
  have hlast := h.last
  by_cases heq : sourceOffset = copied past
  · -- the next record is copied
    have hcopy : mirror.link.copy sourceOffset = (.ok mirror.link.destNextOffset,
        { mirror.link with
          translation := mirror.link.translation.set sourceOffset mirror.link.destNextOffset
          destNextOffset := mirror.link.destNextOffset + 1
          lastSourceCopied := sourceOffset }) := by
      rw [MirrorLink.copy, if_neg (by omega), if_neg (by omega)]
    rw [hcopy]
    have hcopied : copied (past ++ [(MirrorCall.copy sourceOffset,
        MirrorAnswer.offset (.ok mirror.link.destNextOffset))]) = copied past + 1 :=
      copied_append_singleton _
    refine ⟨h.destTopic_eq, ?_, ?_, fun x => ?_, ?_, h.rise⟩
    · rw [hcopied, heq]
    · rw [hcopied, ← add_assoc, ← h.next]
    · rw [hcopied, mirroredAt_succ start _ x (copied_nonneg past), ← h.translate,
        MirrorLink.translate, Dict.get?_set, heq, h.next]
      by_cases hx : x = copied past
      · rw [if_pos hx, if_pos hx]
      · rw [if_neg hx, if_neg hx]
        rfl
    · rw [checkpointed_append_singleton, h.checkpoints]
      exact (List.append_nil _).symm
  · -- the link is left alone
    have hcopy : ∃ error, mirror.link.copy sourceOffset = (.error error, mirror.link) := by
      rw [MirrorLink.copy]
      split
      · exact ⟨_, rfl⟩
      · rw [if_pos (by omega)]
        exact ⟨_, rfl⟩
    obtain ⟨error, hcopy⟩ := hcopy
    rw [hcopy]
    exact h.read rfl rfl

/-- Of two records the later one is past the earlier one on the mirror as well. -/
theorem past_mirrored_iff {checkpoint : ℤ × ℤ} (h : checkpoint ∈ checkpointed start past)
    (sourceOffset : ℤ) :
    Past checkpoint (sourceOffset, start + sourceOffset) ↔ checkpoint.1 < sourceOffset := by
  rw [Past, snd_eq_of_mem_checkpointed h]
  omega

/-- A checkpoint is taken of a record that was copied, if it comes after all others. -/
theorem Mirrored.checkpoint_eq (h : Mirrored destTopic start past mirror) (sourceOffset : ℤ) :
    (¬ (0 ≤ sourceOffset ∧ sourceOffset < copied past) ∧
        mirror.checkpoint sourceOffset = (.error (notMirrored sourceOffset), mirror)) ∨
      (0 ≤ sourceOffset ∧ sourceOffset < copied past) ∧
        ((∃ checkpoint ∈ checkpointed start past, sourceOffset ≤ checkpoint.1) ∧
            mirror.checkpoint sourceOffset = (.error checkpointOutOfOrder, mirror) ∨
          (∀ checkpoint ∈ checkpointed start past,
              Past checkpoint (sourceOffset, start + sourceOffset)) ∧
            mirror.checkpoint sourceOffset = (.ok (),
              { mirror with
                translator :=
                  { checkpoints := mirror.translator.checkpoints ++
                      [(sourceOffset, start + sourceOffset)] } })) := by
  rw [MirroredTopic.checkpoint, h.translate, mirroredAt]
  by_cases hin : 0 ≤ sourceOffset ∧ sourceOffset < copied past
  · rw [if_pos hin]
    refine Or.inr ⟨hin, ?_⟩
    dsimp only
    rcases OffsetTranslator.addCheckpoint_eq h.rise sourceOffset (start + sourceOffset) with
      ⟨hall, heq⟩ | ⟨⟨checkpoint, hmem, hnot⟩, heq⟩
    · rw [h.checkpoints] at hall
      exact Or.inr ⟨hall, by rw [heq]⟩
    · rw [h.checkpoints] at hmem
      rw [past_mirrored_iff hmem, not_lt] at hnot
      exact Or.inl ⟨⟨checkpoint, hmem, hnot⟩, by rw [heq]⟩
  · rw [if_neg hin]
    exact Or.inl ⟨hin, rfl⟩

theorem Mirrored.checkpoint (h : Mirrored destTopic start past mirror) (sourceOffset : ℤ) :
    Mirrored destTopic start
      (past ++ [(.checkpoint sourceOffset, .checkpoint (mirror.checkpoint sourceOffset).1)])
      (mirror.checkpoint sourceOffset).2 := by
  rcases h.checkpoint_eq sourceOffset with ⟨-, heq⟩ | ⟨-, ⟨-, heq⟩ | ⟨hall, heq⟩⟩
  · rw [heq]
    exact h.read rfl rfl
  · rw [heq]
    exact h.read rfl rfl
  · rw [heq]
    have hcopied : copied (past ++ [(MirrorCall.checkpoint sourceOffset,
        MirrorAnswer.checkpoint (.ok ()))]) = copied past := by
      rw [copied_append_singleton]
      exact add_zero _
    refine ⟨h.destTopic_eq, hcopied ▸ h.last, hcopied ▸ h.next, hcopied ▸ h.translate, ?_, ?_⟩
    · rw [checkpointed_append_singleton, ← h.checkpoints]
      rfl
    · refine pairwise_append_singleton.mpr ⟨h.rise, ?_⟩
      rw [h.checkpoints]
      exact hall

/-- Nothing was copied yet. -/
def newMirror (destTopic : String) (start : ℤ) : MirroredTopic where
  link := { destTopic, destNextOffset := start }

theorem mirrored_trace (destTopic : String) (start : ℤ) (calls : List MirrorCall) :
    Mirrored destTopic start (mirroredTopic.trace (newMirror destTopic start) calls)
      (mirroredTopic.final (newMirror destTopic start) calls) := by
  refine Machine.trace_always (P := Mirrored destTopic start) ⟨rfl, rfl, (add_zero start).symm,
    fun x => ?_, rfl, List.Pairwise.nil⟩ (fun past mirror call h => ?_) calls
  · rw [mirroredAt, if_neg (by rw [copied]; simp)]
    rfl
  · cases call with
    | copy sourceOffset => exact h.copy sourceOffset
    | translate sourceOffset =>
      refine h.read ?_ rfl
      rfl
    | status sourceEnd => exact h.read rfl rfl
    | checkpoint sourceOffset => exact h.checkpoint sourceOffset
    | resume sourceOffset => exact h.read rfl rfl
    | reprocessing sourceOffset => exact h.read rfl rfl

/-- What every call answers that is made in such a state. -/
theorem Mirrored.answers (h : Mirrored destTopic start past mirror) (call : MirrorCall) :
    MirrorAnswers destTopic start past (call, (mirroredTopic.step mirror call).1) := by
  have hdated : Dated mirror.translator.checkpoints := h.rise.imp And.left
  cases call with
  | copy sourceOffset => exact congrArg MirrorAnswer.offset (h.copy_eq sourceOffset)
  | translate sourceOffset => exact congrArg MirrorAnswer.offset (h.translate sourceOffset)
  | status sourceEnd =>
    change MirrorAnswer.report (.ok (mirror.link.status sourceEnd)) = _
    rw [MirrorLink.status, MirrorLink.lag, h.last, h.destTopic_eq]
  | checkpoint sourceOffset =>
    change MirrorAnswer.checkpoint (mirror.checkpoint sourceOffset).1 = _
    rcases h.checkpoint_eq sourceOffset with ⟨hout, heq⟩ | ⟨hin, ⟨hlate, heq⟩ | ⟨hall, heq⟩⟩
    · rw [heq, if_pos hout]
    · rw [heq, if_neg (not_not.mpr hin), if_pos hlate]
    · rw [heq, if_neg (not_not.mpr hin), if_neg]
      rintro ⟨checkpoint, hmem, hle⟩
      exact (hall checkpoint hmem).1.not_ge hle
  | resume sourceOffset =>
    rcases OffsetTranslator.translate_eq hdated sourceOffset with ⟨hnone, heq⟩ | ⟨c, hc, heq⟩
    · rw [h.checkpoints] at hnone
      exact Or.inl ⟨hnone, congrArg MirrorAnswer.offset heq⟩
    · rw [h.checkpoints] at hc
      have hok : mirror.translator.translate sourceOffset = .ok (start + c.1) :=
        heq.trans (congrArg Except.ok (snd_eq_of_mem_checkpointed hc.1))
      exact Or.inr ⟨c, hc, congrArg MirrorAnswer.offset hok⟩
  | reprocessing sourceOffset =>
    have hreport := (OffsetTranslator.reprocessing_eq hdated sourceOffset).map MirrorAnswer.report
    rw [h.checkpoints] at hreport
    exact hreport

/-- The mirror has the record of every checkpoint where the checkpoint says. -/
theorem Mirrored.mirrors (h : Mirrored destTopic start past mirror) :
    Mirrors mirror.translator.checkpoints (start + ·) where
  le_of_le hle := Int.add_le_add_left hle start
  checkpoint := by
    rw [h.checkpoints]
    exact fun checkpoint hmem => (snd_eq_of_mem_checkpointed hmem).symm

/-- What moving over by the checkpoints costs, seen from the table of the link. -/
theorem Mirrored.cost (h : Mirrored destTopic start past mirror) {sourceOffset dest target : ℤ}
    (hdest : mirror.link.translate sourceOffset = .ok dest)
    (htarget : mirror.translator.translate sourceOffset = .ok target) :
    target ≤ dest ∧ mirror.translator.reprocessing sourceOffset =
      .ok (reprocessingReport (sourceOffset - (dest - target)) (dest - target)) := by
  have hdated : Dated mirror.translator.checkpoints := h.rise.imp And.left
  obtain ⟨c, hc, rfl⟩ := OffsetTranslator.exists_of_translate_eq_ok hdated htarget
  rw [h.translate, mirroredAt] at hdest
  split at hdest
  · obtain rfl := Except.ok.inj hdest
    rw [← h.mirrors.checkpoint c hc.1]
    refine ⟨h.mirrors.le_of_le hc.2.1, ?_⟩
    rw [add_sub_add_left_eq_sub, sub_sub_cancel]
    refine hdated.looksUp_unique (OffsetTranslator.reprocessing_eq hdated sourceOffset) ?_
    exact Or.inr ⟨c, hc, rfl⟩
  · cases hdest

/-- **Moving over to the mirror.** Records are copied in order and without a hole, each to the
offset after the one before it, and checkpoints are taken of copied records only, each past the one
before. A consumer that moves over by them does not get past the record it stopped at, and what it
reads again is what it is told. -/
theorem mirroredTopic_answers (destTopic : String) (start : ℤ) (calls : List MirrorCall) :
    Justified (MirrorAnswers destTopic start)
        (mirroredTopic.trace (newMirror destTopic start) calls) ∧
      ∀ sourceOffset dest target,
        (mirroredTopic.final (newMirror destTopic start) calls).link.translate sourceOffset =
          .ok dest →
        (mirroredTopic.final (newMirror destTopic start) calls).translator.translate sourceOffset =
          .ok target →
        target ≤ dest ∧
          (mirroredTopic.final (newMirror destTopic start) calls).translator.reprocessing
            sourceOffset =
          .ok (reprocessingReport (sourceOffset - (dest - target)) (dest - target)) :=
  ⟨Machine.justified_trace (fun calls call => (mirrored_trace destTopic start calls).answers call)
    calls, fun _ _ _ => (mirrored_trace destTopic start calls).cost⟩

end Runs

end Relay
