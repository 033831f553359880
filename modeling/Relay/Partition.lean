import Relay.SegmentLog

/-!
# The partition

A partition wraps one segment log and adds the high watermark, the offset below which records
are committed and may be consumed. Producers append past it freely; it only advances, and never
past the end of the log.

## Scope

The text on the records that exist and are not committed is left out.

## Main definitions

* `Partition`, with `append`, `advanceWatermark`, `consume` and `lagOf`

## Main results

* `advanceWatermark_cases`: the watermark advances within the log, or stays
-/

namespace Relay

/-- A segment log with the line its consumers may not cross. -/
structure Partition where
  number : ℤ
  log : SegmentLog := {}
  highWatermark : ℤ := 0
  deriving DecidableEq

namespace Partition

/-- `append`. -/
def append (partition : Partition) (record : Record) : Except RelayError ℤ × Partition :=
  let (answer, log) := partition.log.append record
  (answer, { partition with log })

/-- `advance_watermark`: refused backwards, and past the end of the log. -/
def advanceWatermark (partition : Partition) (toOffset : ℤ) :
    Except RelayError String × Partition :=
  if toOffset < partition.highWatermark then
    (.error (.invalid (s!"the watermark only advances: {toOffset} is "
      ++ s!"behind {partition.highWatermark}, and a retreating "
      ++ "watermark un-promises delivered records")), partition)
  else if toOffset > partition.log.nextOffset then
    (.error (.invalid (s!"cannot commit through {toOffset}: the log "
      ++ s!"ends at {partition.log.nextOffset - 1}, and a "
      ++ "watermark past the end is a bookkeeping lie")), partition)
  else
    (.ok s!"partition {partition.number} committed through {toOffset - 1}",
      { partition with highWatermark := toOffset })

/-- `consume`: refused at and above the watermark. -/
def consume (partition : Partition) (offset : ℤ) : Except RelayError Record :=
  if offset ≥ partition.highWatermark then
    .error (.missing (s!"offset {offset} is not yet committed "
      ++ s!"(watermark {partition.highWatermark}); an unreplicated record served now could "
      ++ "un-happen, and that bug wears the consumer's name"))
  else partition.log.read offset

/-- `lag_of`. -/
def lagOf (partition : Partition) (committedOffset : ℤ) : Except RelayError ℤ :=
  if committedOffset > partition.highWatermark then
    .error (.invalid "a consumer cannot be ahead of the watermark")
  else .ok (partition.highWatermark - committedOffset)

theorem consume_of_lt {partition : Partition} {offset : ℤ}
    (h : offset < partition.highWatermark) :
    partition.consume offset = partition.log.read offset := by
  rw [consume, if_neg (by omega)]

/-- Everything `advance_watermark` can do: nothing, or move the watermark up inside the log. -/
theorem advanceWatermark_cases (partition : Partition) (toOffset : ℤ) :
    (partition.advanceWatermark toOffset).2 = partition ∨
      partition.highWatermark ≤ toOffset ∧ toOffset ≤ partition.log.nextOffset ∧
        (partition.advanceWatermark toOffset).2 = { partition with highWatermark := toOffset } := by
  rw [advanceWatermark]
  split
  · exact Or.inl rfl
  · split
    · exact Or.inl rfl
    · exact Or.inr ⟨by omega, by omega, rfl⟩

end Partition

end Relay
