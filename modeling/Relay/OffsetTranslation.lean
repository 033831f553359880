import Mathlib.Algebra.Order.Ring.Int
import Relay.Errors
import Relay.Lib.AsOf
import Relay.Lib.Since

/-!
# Offset translation

A record has another offset on the mirror of a cluster than on the cluster. Checkpoints are pairs of
the two offsets of one record, and an offset is translated by the last checkpoint that is not past
it.

The mirror keeps the order of the records, so whatever the offset of a record there really is, the
translation is not past it: a consumer that moves over reads some records again and misses none. No
checkpoint that comes later takes that back.

## Main definitions

* `OffsetTranslator`, with `addCheckpoint`, `translate` and `reprocessing`
* `offsetTranslator`: the translator as a component
* `checkpointsIn`: the checkpoints that were accepted

## Main results

* `offsetTranslator_answers`: what every call of a run answers, that translations keep the order of
  the offsets, and that none skips a record
-/

namespace Relay

/-- The checkpoints, each with the offset on the cluster and the one on the mirror. -/
structure OffsetTranslator where
  checkpoints : List (ℤ × ℤ) := []

/-- What a checkpoint is refused with. -/
def checkpointOutOfOrder : RelayError :=
  .invalid ("checkpoints must increase in both offsets; mirroring " ++
    "preserves order, so a non-monotonic one is corruption")

/-- What an offset before the first checkpoint is refused with. -/
def offsetTooOld (sourceOffset : ℤ) : RelayError :=
  .missing (s!"source offset {sourceOffset} predates the earliest " ++
    "checkpoint; the mirror has no mapping that old, reset on " ++
    "the target rather than resume at a guess")

/-- What a report on such an offset is refused with. -/
def noCheckpoint : RelayError := .missing "no checkpoint at or before that offset"

/-- How many records are read again. -/
def reprocessingReport (src gap : ℤ) : String :=
  s!"translating from checkpoint at source {src} reprocesses " ++
    s!"{gap} record(s); at-least-once across the failover"

namespace OffsetTranslator

/-- `add_checkpoint`. -/
def addCheckpoint (translator : OffsetTranslator) (sourceOffset targetOffset : ℤ) :
    Except RelayError Unit × OffsetTranslator :=
  if translator.checkpoints.getLast?.any fun last =>
      sourceOffset ≤ last.1 ∨ targetOffset ≤ last.2 then
    (.error checkpointOutOfOrder, translator)
  else (.ok (), { checkpoints := translator.checkpoints ++ [(sourceOffset, targetOffset)] })

/-- `translate`. -/
def translate (translator : OffsetTranslator) (sourceOffset : ℤ) : Except RelayError ℤ :=
  match translator.checkpoints with
  | [] => .error (offsetTooOld sourceOffset)
  | first :: rest =>
    if sourceOffset < first.1 then .error (offsetTooOld sourceOffset)
    else .ok (floorFrom Prod.snd sourceOffset first.2 (first :: rest))

/-- `reprocessing`. -/
def reprocessing (translator : OffsetTranslator) (sourceOffset : ℤ) : Except RelayError String :=
  match translator.checkpoints.reverse.find? fun checkpoint => checkpoint.1 ≤ sourceOffset with
  | some checkpoint => .ok (reprocessingReport checkpoint.1 (sourceOffset - checkpoint.1))
  | none => .error noCheckpoint

end OffsetTranslator

/-- What is asked. -/
inductive TranslatorCall where
  | addCheckpoint (sourceOffset targetOffset : ℤ)
  | translate (sourceOffset : ℤ)
  | reprocessing (sourceOffset : ℤ)
  deriving DecidableEq

/-- What is answered. -/
inductive TranslatorAnswer where
  | addCheckpoint (answer : Except RelayError Unit)
  | translate (answer : Except RelayError ℤ)
  | reprocessing (answer : Except RelayError String)

/-- The translator as a component. -/
def offsetTranslator : Machine OffsetTranslator TranslatorCall TranslatorAnswer where
  step translator
    | .addCheckpoint sourceOffset targetOffset =>
      (.addCheckpoint (translator.addCheckpoint sourceOffset targetOffset).1,
        (translator.addCheckpoint sourceOffset targetOffset).2)
    | .translate sourceOffset => (.translate (translator.translate sourceOffset), translator)
    | .reprocessing sourceOffset =>
      (.reprocessing (translator.reprocessing sourceOffset), translator)

/-! ## What the calls say -/

/-- The checkpoints that were accepted, in order. -/
def checkpointsIn (past : List (TranslatorCall × TranslatorAnswer)) : List (ℤ × ℤ) :=
  past.filterMap fun
    | (.addCheckpoint sourceOffset targetOffset, .addCheckpoint (.ok _)) =>
      some (sourceOffset, targetOffset)
    | _ => none

/-- One checkpoint is past another in both offsets. -/
def Past (checkpoint checkpoint' : ℤ × ℤ) : Prop :=
  checkpoint.1 < checkpoint'.1 ∧ checkpoint.2 < checkpoint'.2

/-- The mirror has the records of the checkpoints at the offsets they say, and keeps the order. -/
structure Mirrors (checkpoints : List (ℤ × ℤ)) (mirrored : ℤ → ℤ) : Prop where
  le_of_le {sourceOffset sourceOffset' : ℤ} : sourceOffset ≤ sourceOffset' →
    mirrored sourceOffset ≤ mirrored sourceOffset'
  checkpoint : ∀ checkpoint ∈ checkpoints, mirrored checkpoint.1 = checkpoint.2

/-- What is answered after some events. -/
def TranslatorAnswers (past : List (TranslatorCall × TranslatorAnswer)) :
    TranslatorCall × TranslatorAnswer → Prop
  | (.addCheckpoint sourceOffset targetOffset, answer) =>
    (∀ checkpoint ∈ checkpointsIn past, Past checkpoint (sourceOffset, targetOffset)) ∧
        answer = .addCheckpoint (.ok ()) ∨
      (∃ checkpoint ∈ checkpointsIn past, ¬ Past checkpoint (sourceOffset, targetOffset)) ∧
        answer = .addCheckpoint (.error checkpointOutOfOrder)
  | (.translate sourceOffset, answer) =>
    LooksUp (checkpointsIn past) sourceOffset (fun checkpoint => .translate (.ok checkpoint.2))
      (.translate (.error (offsetTooOld sourceOffset))) answer
  | (.reprocessing sourceOffset, answer) =>
    LooksUp (checkpointsIn past) sourceOffset
      (fun checkpoint => .reprocessing
        (.ok (reprocessingReport checkpoint.1 (sourceOffset - checkpoint.1))))
      (.reprocessing (.error noCheckpoint)) answer

/-! ## Every run -/

section Runs

variable {past : List (TranslatorCall × TranslatorAnswer)} {translator : OffsetTranslator}

theorem checkpointsIn_append (past later : List (TranslatorCall × TranslatorAnswer)) :
    checkpointsIn (past ++ later) = checkpointsIn past ++ checkpointsIn later :=
  List.filterMap_append

/-- The translator has the checkpoints that were accepted, and both their offsets rise. -/
structure Checkpoints (past : List (TranslatorCall × TranslatorAnswer))
    (translator : OffsetTranslator) : Prop where
  checkpoints : translator.checkpoints = checkpointsIn past
  rise : translator.checkpoints.Pairwise Past

theorem Checkpoints.dated (h : Checkpoints past translator) : Dated translator.checkpoints :=
  h.rise.imp And.left

/-- Of two checkpoints, the one with the larger offset has the larger offset on the mirror. -/
theorem Checkpoints.target_le (h : Checkpoints past translator) {c d : ℤ × ℤ}
    (hc : c ∈ translator.checkpoints) (hd : d ∈ translator.checkpoints) (hle : c.1 ≤ d.1) :
    c.2 ≤ d.2 := by
  rcases hle.eq_or_lt with heq | hlt
  · rw [h.dated.eq_of_fst_eq hc hd heq]
  · by_contra hnot
    have hsymm : Std.Symm fun c d : ℤ × ℤ => Past c d ∨ Past d c := ⟨fun _ _ => Or.symm⟩
    have hpair : translator.checkpoints.Pairwise fun c d => Past c d ∨ Past d c := h.rise.imp Or.inl
    rcases hpair.forall hc hd fun heq => hlt.ne (congrArg Prod.fst heq) with hpast | hpast
    · exact hnot hpast.2.le
    · exact hlt.not_gt hpast.1

/-- A checkpoint is accepted if it is past all the others. -/
theorem OffsetTranslator.addCheckpoint_eq (h : translator.checkpoints.Pairwise Past)
    (sourceOffset targetOffset : ℤ) :
    (∀ checkpoint ∈ translator.checkpoints, Past checkpoint (sourceOffset, targetOffset)) ∧
        translator.addCheckpoint sourceOffset targetOffset =
          (.ok (), { checkpoints := translator.checkpoints ++ [(sourceOffset, targetOffset)] }) ∨
      (∃ checkpoint ∈ translator.checkpoints, ¬ Past checkpoint (sourceOffset, targetOffset)) ∧
        translator.addCheckpoint sourceOffset targetOffset =
          (.error checkpointOutOfOrder, translator) := by
  have hany := any_getLast?_eq_true_iff (x := (sourceOffset, targetOffset))
    (p := fun last => sourceOffset ≤ last.1 ∨ targetOffset ≤ last.2)
    (fun hab hbx => ⟨lt_trans hab.1 hbx.1, lt_trans hab.2 hbx.2⟩)
    (fun last => by rw [decide_eq_true_eq, Past, not_and_or, not_lt, not_lt]) h
  rw [OffsetTranslator.addCheckpoint]
  split
  · next hlast => exact Or.inr ⟨hany.mp hlast, rfl⟩
  · next hlast =>
    refine Or.inl ⟨fun checkpoint hcheckpoint => ?_, rfl⟩
    by_contra hnot
    exact hlast (hany.mpr ⟨checkpoint, hcheckpoint, hnot⟩)

/-- A translation looks up the target of the checkpoint in force. -/
theorem OffsetTranslator.translate_eq (h : Dated translator.checkpoints) (sourceOffset : ℤ) :
    LooksUp translator.checkpoints sourceOffset (fun checkpoint => .ok checkpoint.2)
      (.error (offsetTooOld sourceOffset)) (translator.translate sourceOffset) := by
  rw [OffsetTranslator.translate]
  split
  · next hnil =>
    rw [hnil]
    exact Or.inl ⟨List.forall_mem_nil _, rfl⟩
  · next first rest hcons =>
    rw [hcons] at h ⊢
    exact h.looksUp_of_head Prod.snd first.2 Except.ok _

theorem OffsetTranslator.reprocessing_eq (h : Dated translator.checkpoints) (sourceOffset : ℤ) :
    LooksUp translator.checkpoints sourceOffset
      (fun checkpoint => .ok (reprocessingReport checkpoint.1 (sourceOffset - checkpoint.1)))
      (.error noCheckpoint) (translator.reprocessing sourceOffset) := by
  rw [OffsetTranslator.reprocessing]
  rcases h.looksUp_find? (t := sourceOffset) with ⟨hnone, heq⟩ | ⟨checkpoint, hin, heq⟩
  · exact Or.inl ⟨hnone, by rw [heq]⟩
  · exact Or.inr ⟨checkpoint, hin, by rw [heq]⟩

/-- The checkpoint that an offset was translated by. -/
theorem OffsetTranslator.exists_of_translate_eq_ok (h : Dated translator.checkpoints)
    {sourceOffset target : ℤ} (hok : translator.translate sourceOffset = .ok target) :
    ∃ checkpoint, InForce translator.checkpoints sourceOffset checkpoint ∧
      checkpoint.2 = target := by
  have hlook := translate_eq h sourceOffset
  rw [hok] at hlook
  rcases hlook with ⟨-, hne⟩ | ⟨checkpoint, hin, heq⟩
  · cases hne
  · exact ⟨checkpoint, hin, (Except.ok.inj heq).symm⟩

theorem Checkpoints.addCheckpoint (h : Checkpoints past translator)
    (sourceOffset targetOffset : ℤ) :
    Checkpoints (past ++ [(.addCheckpoint sourceOffset targetOffset,
        .addCheckpoint (translator.addCheckpoint sourceOffset targetOffset).1)])
      (translator.addCheckpoint sourceOffset targetOffset).2 := by
  rcases OffsetTranslator.addCheckpoint_eq h.rise sourceOffset targetOffset with
    ⟨hall, heq⟩ | ⟨-, heq⟩
  · rw [heq]
    refine ⟨?_, pairwise_append_singleton.mpr ⟨h.rise, hall⟩⟩
    rw [checkpointsIn_append, ← h.checkpoints]
    rfl
  · rw [heq]
    refine ⟨?_, h.rise⟩
    rw [checkpointsIn_append, ← h.checkpoints]
    exact (List.append_nil _).symm

theorem Checkpoints.read (h : Checkpoints past translator) {e : TranslatorCall × TranslatorAnswer}
    (he : checkpointsIn [e] = []) : Checkpoints (past ++ [e]) translator where
  checkpoints := by rw [checkpointsIn_append, he, List.append_nil, h.checkpoints]
  rise := h.rise

theorem checkpoints_trace (calls : List TranslatorCall) :
    Checkpoints (offsetTranslator.trace {} calls) (offsetTranslator.final {} calls) := by
  refine Machine.trace_always (P := Checkpoints) ⟨rfl, List.Pairwise.nil⟩
    (fun past translator call h => ?_) calls
  cases call with
  | addCheckpoint sourceOffset targetOffset => exact h.addCheckpoint sourceOffset targetOffset
  | translate sourceOffset => exact h.read rfl
  | reprocessing sourceOffset => exact h.read rfl

/-- A translation keeps the order of the offsets, also when the second is made later. -/
theorem translate_le (calls later : List TranslatorCall) {sourceOffset sourceOffset' target : ℤ}
    (hle : sourceOffset ≤ sourceOffset')
    (hok : (offsetTranslator.final {} calls).translate sourceOffset = .ok target) :
    ∃ target', (offsetTranslator.final {} (calls ++ later)).translate sourceOffset' = .ok target' ∧
      target ≤ target' := by
  have hnow := checkpoints_trace calls
  have hthen := checkpoints_trace (calls ++ later)
  obtain ⟨c, hc, rfl⟩ := OffsetTranslator.exists_of_translate_eq_ok hnow.dated hok
  have hmem : c ∈ (offsetTranslator.final {} (calls ++ later)).checkpoints := by
    rw [hthen.checkpoints, Machine.trace_append, checkpointsIn_append, ← hnow.checkpoints]
    exact List.mem_append_left _ hc.1
  have hle' : c.1 ≤ sourceOffset' := hc.2.1.trans hle
  rcases OffsetTranslator.translate_eq hthen.dated sourceOffset' with ⟨hnone, -⟩ | ⟨d, hd, heq⟩
  · exact absurd hle' (hnone c hmem).not_ge
  · exact ⟨d.2, heq, hthen.target_le hmem hd.1 (hd.2.2 c hmem hle')⟩

/-- No record is skipped: whatever the offset of a record on the mirror, the translation is not past
it. -/
theorem translate_le_mirrored (calls : List TranslatorCall) {mirrored : ℤ → ℤ}
    (hmirrors : Mirrors (checkpointsIn (offsetTranslator.trace {} calls)) mirrored)
    {sourceOffset target : ℤ}
    (hok : (offsetTranslator.final {} calls).translate sourceOffset = .ok target) :
    target ≤ mirrored sourceOffset := by
  have hnow := checkpoints_trace calls
  obtain ⟨c, hc, rfl⟩ := OffsetTranslator.exists_of_translate_eq_ok hnow.dated hok
  rw [← hmirrors.checkpoint c (hnow.checkpoints ▸ hc.1)]
  exact hmirrors.le_of_le hc.2.1

/-- **Translations.** An offset is translated by the last checkpoint that is not past it. What is
translated once can be translated ever after, and neither a larger offset nor more checkpoints make
the answer smaller. It is never past the record's own offset on the mirror. -/
theorem offsetTranslator_answers (calls : List TranslatorCall) :
    Justified TranslatorAnswers (offsetTranslator.trace {} calls) ∧
      ∀ sourceOffset target,
        (offsetTranslator.final {} calls).translate sourceOffset = .ok target →
        (∀ later, ∀ sourceOffset' ≥ sourceOffset, ∃ target' ≥ target,
          (offsetTranslator.final {} (calls ++ later)).translate sourceOffset' = .ok target') ∧
        ∀ mirrored, Mirrors (checkpointsIn (offsetTranslator.trace {} calls)) mirrored →
          target ≤ mirrored sourceOffset := by
  refine ⟨Machine.justified_trace (fun calls call => ?_) calls, fun sourceOffset target hok => ?_⟩
  · have hcheckpoints := checkpoints_trace calls
    revert hcheckpoints
    generalize offsetTranslator.final {} calls = translator
    generalize offsetTranslator.trace {} calls = past
    intro hcheckpoints
    cases call with
    | addCheckpoint sourceOffset targetOffset =>
      rcases OffsetTranslator.addCheckpoint_eq hcheckpoints.rise sourceOffset targetOffset with
        ⟨hall, heq⟩ | ⟨hsome, heq⟩
      · refine Or.inl ⟨hcheckpoints.checkpoints ▸ hall, ?_⟩
        rw [offsetTranslator]
        dsimp only
        rw [heq]
      · refine Or.inr ⟨hcheckpoints.checkpoints ▸ hsome, ?_⟩
        rw [offsetTranslator]
        dsimp only
        rw [heq]
    | translate sourceOffset =>
      have htranslate := (OffsetTranslator.translate_eq hcheckpoints.dated sourceOffset).map
        TranslatorAnswer.translate
      rw [hcheckpoints.checkpoints] at htranslate
      exact htranslate
    | reprocessing sourceOffset =>
      have hreport := (OffsetTranslator.reprocessing_eq hcheckpoints.dated sourceOffset).map
        TranslatorAnswer.reprocessing
      rw [hcheckpoints.checkpoints] at hreport
      exact hreport
  · refine ⟨fun later sourceOffset' hle => ?_, fun mirrored hmirrors => ?_⟩
    · obtain ⟨target', hok', hle'⟩ := translate_le calls later hle hok
      exact ⟨target', hle', hok'⟩
    · exact translate_le_mirrored calls hmirrors hok

end Runs

end Relay
