import Relay.Lib.Dict
import Relay.Lib.Machine
import Relay.SegmentLog

/-!
# Retention, and the log under every order of calls

Retention deletes whole sealed segments from the front of a log, by age or by size, whichever
condemns first, and never one that holds a record at or above the committed floor. Together with
`append` and `drop_sealed_before` these are the calls that change a log.

## Main definitions

* `RetentionPolicy`, `RetentionRun`, with `RetentionRun.apply`
* `LogCall`, `logMachine`: a log under any order of its three mutating calls

## Main results

* `Represents.applyLoop`: what a retention run leaves holds everything from the floor on
* `Represents.logMachine_step`: every call keeps the representation
* `logMachine_spec`: the chain, the offsets handed out, and what every read gives, after any run
-/

namespace Relay

/-- A policy the constructor accepted: at least one limit, and every limit positive. -/
structure RetentionPolicy where
  maxAgeTicks : Option ℤ := none
  maxBytes : Option ℤ := none
  limited : maxAgeTicks ≠ none ∨ maxBytes ≠ none := by decide
  age_pos : ∀ a ∈ maxAgeTicks, 1 ≤ a := by decide
  bytes_pos : ∀ b ∈ maxBytes, 1 ≤ b := by decide
  deriving DecidableEq

/-- `RetentionPolicy(max_age_ticks, max_bytes)`. -/
def RetentionPolicy.create (maxAgeTicks maxBytes : Option ℤ) :
    Except RelayError RetentionPolicy :=
  if hlimited : maxAgeTicks ≠ none ∨ maxBytes ≠ none then
    if hage : ∀ a ∈ maxAgeTicks, 1 ≤ a then
      if hbytes : ∀ b ∈ maxBytes, 1 ≤ b then
        .ok ⟨maxAgeTicks, maxBytes, hlimited, hage, hbytes⟩
      else .error (.invalid "the size cap must be positive")
    else .error (.invalid "the age window must be positive")
  else
    .error (.invalid ("a retention policy with no limit keeps "
      ++ "everything forever, which is not retention"))

/-- A retention run and what it reclaimed so far. -/
structure RetentionRun where
  policy : RetentionPolicy
  reclaimedSegments : ℕ := 0
  reclaimedBytes : ℕ := 0
  deriving DecidableEq

namespace RetentionRun

/-- `_age_condemns`. -/
def AgeCondemns (run : RetentionRun) (segmentLastTick now : ℤ) : Prop :=
  ∃ maxAge ∈ run.policy.maxAgeTicks, now - segmentLastTick > maxAge

instance (run : RetentionRun) (segmentLastTick now : ℤ) :
    Decidable (run.AgeCondemns segmentLastTick now) :=
  inferInstanceAs (Decidable (∃ maxAge ∈ _, _))

/-- The size cap condemns a log of `totalBytes`. -/
def SizeCondemns (run : RetentionRun) (totalBytes : ℕ) : Prop :=
  ∃ maxBytes ∈ run.policy.maxBytes, (totalBytes : ℤ) > maxBytes

instance (run : RetentionRun) (totalBytes : ℕ) : Decidable (run.SizeCondemns totalBytes) :=
  inferInstanceAs (Decidable (∃ maxBytes ∈ _, _))

/-- The loop of `apply`: the run's counters, the segments it leaves, and the reason it stopped
early, if it did. -/
def applyLoop (segmentLastTick : Dict ℤ ℤ) (now committedFloor : ℤ) (run : RetentionRun) :
    List Segment → RetentionRun × List Segment × Option String
  | oldest :: next :: rest =>
    if oldest.sealed = false then
      (run, oldest :: next :: rest, some "the oldest segment is still active")
    else if oldest.nextOffset > committedFloor then
      (run, oldest :: next :: rest,
        some (s!"kept: segment holds records above the committed floor {committedFloor}, and "
          ++ "dropping unread data is loss with a schedule"))
    else
      let lastTick := (segmentLastTick.get? oldest.baseOffset).getD now
      let totalBytes := ((oldest :: next :: rest).map Segment.sizeBytes).sum
      if run.AgeCondemns lastTick now ∨ run.SizeCondemns totalBytes then
        applyLoop segmentLastTick now committedFloor
          { run with
            reclaimedBytes := run.reclaimedBytes + oldest.sizeBytes
            reclaimedSegments := run.reclaimedSegments + 1 }
          (next :: rest)
      else
        (run, oldest :: next :: rest,
          some "kept: within both the age window and the size cap")
  | segments => (run, segments, none)

theorem applyLoop_ne_nil (segmentLastTick : Dict ℤ ℤ) (now committedFloor : ℤ)
    (run : RetentionRun) {segments : List Segment} (h : segments ≠ []) :
    (run.applyLoop segmentLastTick now committedFloor segments).2.1 ≠ [] := by
  fun_induction applyLoop segmentLastTick now committedFloor run segments with
  | case1 => simp
  | case2 => simp
  | case3 run oldest next rest _ _ lastTick totalBytes _ ih => exact ih (by simp)
  | case4 => simp
  | case5 => exact h

/-- `apply`: the report, the run with its counters moved on, and the log it leaves. -/
def apply (run : RetentionRun) (log : SegmentLog) (segmentLastTick : Dict ℤ ℤ)
    (now committedFloor : ℤ) : String × RetentionRun × SegmentLog :=
  let (after, _, spared) := run.applyLoop segmentLastTick now committedFloor log.segments
  let head := s!"reclaimed {after.reclaimedSegments} segment(s), {after.reclaimedBytes} byte(s)"
  let report := match spared with
    | some reason => s!"{head}; stopped: {reason}"
    | none => head
  (report, after,
    { segments := (run.applyLoop segmentLastTick now committedFloor log.segments).2.1
      rolls := log.rolls
      segments_ne_nil :=
        run.applyLoop_ne_nil segmentLastTick now committedFloor log.segments_ne_nil })

end RetentionRun

/-- **What a retention run leaves** still holds everything from the committed floor on. -/
theorem Represents.applyLoop {segments : List Segment} {l : OffsetLog Record}
    (segmentLastTick : Dict ℤ ℤ) (now committedFloor : ℤ) (run : RetentionRun)
    (h : Represents segments l) :
    ∃ l' : OffsetLog Record,
      Represents (run.applyLoop segmentLastTick now committedFloor segments).2.1 l' ∧
      l'.written = l.written ∧ (l'.start = l.start ∨ (l'.start : ℤ) ≤ committedFloor) := by
  fun_induction RetentionRun.applyLoop segmentLastTick now committedFloor run segments
    generalizing l with
  | case1 => exact ⟨l, h, rfl, Or.inl rfl⟩
  | case2 => exact ⟨l, h, rfl, Or.inl rfl⟩
  | case3 run oldest next rest hsealed hfloor lastTick totalBytes hc =>
    rename_i ih
    obtain ⟨l', hrep, hwritten, hstart⟩ := ih h.tail
    refine ⟨l', hrep, hwritten, Or.inr ?_⟩
    have hnext := h.nextOffset_head.1
    rcases hstart with hstart | hstart
    · rw [OffsetLog.trim_start] at hstart
      omega
    · exact hstart
  | case4 => exact ⟨l, h, rfl, Or.inl rfl⟩
  | case5 => exact ⟨l, h, rfl, Or.inl rfl⟩

/-! ## Runs of a log -/

/-- The calls that change a log. A retention run is passed as it stands when the call is made,
counters included, so one run used many times is covered. -/
inductive LogCall where
  | append (record : Record)
  | dropSealedBefore (offset : ℤ)
  | retain (run : RetentionRun) (segmentLastTick : Dict ℤ ℤ) (now committedFloor : ℤ)
  deriving DecidableEq

/-- What they answer. -/
inductive LogAnswer where
  | appended (answer : Except RelayError ℤ)
  | dropped (count : ℕ)
  | retained (report : String) (run : RetentionRun)
  deriving DecidableEq

/-- A log under any order of its mutating calls. -/
def logMachine : Machine SegmentLog LogCall LogAnswer where
  step log
    | .append record => (.appended (log.append record).1, (log.append record).2)
    | .dropSealedBefore offset =>
      (.dropped (log.dropSealedBefore offset).1, (log.dropSealedBefore offset).2)
    | .retain run segmentLastTick now committedFloor =>
      let result := run.apply log segmentLastTick now committedFloor
      (.retained result.1 result.2.1, result.2.2)

/-- The records appended in a trace, each with what its append answered. -/
def appends (past : List (LogCall × LogAnswer)) : List (Record × Except RelayError ℤ) :=
  past.filterMap fun
    | (.append record, .appended answer) => some (record, answer)
    | _ => none

/-- Records appended in order, with no answer but the next offset. -/
def numberedAppends (records : List Record) : List (Record × Except RelayError ℤ) :=
  (numbered records).map fun entry => (entry.2, .ok entry.1)

theorem numberedAppends_append_singleton (records : List Record) (record : Record) :
    numberedAppends (records ++ [record]) =
      numberedAppends records ++ [(record, .ok (records.length : ℤ))] := by
  rw [numberedAppends, numbered_append_singleton, List.map_append]
  rfl

theorem mem_numberedAppends {records : List Record} {record : Record} {o : ℤ} :
    (record, .ok o) ∈ numberedAppends records ↔ 0 ≤ o ∧ records[o.toNat]? = some record := by
  simp [numberedAppends, ← mem_numbered]

/-- **One call keeps the representation**, whichever it is: an append extends what was written,
and the two ways of dropping segments only move the start of the window. -/
theorem Represents.logMachine_step {log : SegmentLog} {l : OffsetLog Record}
    (h : Represents log.segments l) (call : LogCall) :
    ∃ l', Represents (logMachine.step log call).2.segments l' ∧
      numberedAppends l'.written =
        numberedAppends l.written ++ appends [(call, (logMachine.step log call).1)] := by
  cases call with
  | append record =>
    obtain ⟨hanswer, hrep⟩ := h.append record
    refine ⟨_, hrep, ?_⟩
    simp only [logMachine, hanswer, OffsetLog.append_written,
      numberedAppends_append_singleton]
    rfl
  | dropSealedBefore offset =>
    obtain ⟨l', hrep, hwritten, -⟩ := h.dropLoop offset
    exact ⟨l', hrep, by rw [hwritten]; exact (List.append_nil _).symm⟩
  | retain run segmentLastTick now committedFloor =>
    obtain ⟨l', hrep, hwritten, -⟩ := h.applyLoop segmentLastTick now committedFloor run
    exact ⟨l', hrep, by rw [hwritten]; exact (List.append_nil _).symm⟩

/-- After any run the log stores exactly the records appended in it, numbered in order. -/
theorem exists_represents_final (calls : List LogCall) :
    ∃ l, Represents (logMachine.final {} calls).segments l ∧
      appends (logMachine.trace {} calls) = numberedAppends l.written := by
  refine Machine.trace_always
    (P := fun past (log : SegmentLog) =>
      ∃ l, Represents log.segments l ∧ appends past = numberedAppends l.written)
    ⟨OffsetLog.empty, represents_fresh, rfl⟩ ?_ calls
  rintro past log call ⟨l, hrep, hpast⟩
  obtain ⟨l', hrep', hstep⟩ := hrep.logMachine_step call
  refine ⟨l', hrep', ?_⟩
  rw [hstep, ← hpast, appends, List.filterMap_append]
  rfl

/-- What a log promises, given everything that was done to it. -/
structure LogContract (past : List (LogCall × LogAnswer)) (log : SegmentLog) : Prop where
  /-- Each segment starts where the one before it ends. -/
  contiguous : log.segments.IsChain fun s t => t.baseOffset = s.nextOffset
  /-- Every segment but the last is sealed, and the last is not. -/
  sealed_of_mem_dropLast : ∀ s ∈ log.segments.dropLast, s.sealed = true
  active_unsealed : log.active.sealed = false
  /-- Successive appends answered `0`, `1`, `2`, and so on. -/
  appends_answers :
    (appends past).map Prod.snd = (List.range (appends past).length).map fun n : ℕ => .ok (n : ℤ)
  /-- A read lags exactly below the window. -/
  read_lagging_iff : ∀ o, (∃ m, log.read o = .error (.lagging m)) ↔ o < log.firstOffset
  /-- A read misses exactly past the end. -/
  read_missing_iff : ∀ o, (∃ m, log.read o = .error (.missing m)) ↔ log.nextOffset ≤ o
  /-- Otherwise it returns the record whose append answered that offset. -/
  read_ok : ∀ o, log.firstOffset ≤ o → o < log.nextOffset →
    ∃ record, log.read o = .ok record ∧ (record, .ok o) ∈ appends past
  /-- The chain never has a hole. -/
  read_ne_hole : ∀ o, log.read o ≠ .error (.invalid "the segment chain has a hole")

/-- **The log keeps its contract** after every run of appends, drops and retention runs, of any
length and in any order. -/
theorem logMachine_spec (calls : List LogCall) :
    LogContract (logMachine.trace {} calls) (logMachine.final {} calls) := by
  obtain ⟨l, hrep, happends⟩ := exists_represents_final calls
  have hfirst := hrep.firstOffset
  have hnext := hrep.nextOffset
  constructor
  case contiguous => exact hrep.contiguous
  case sealed_of_mem_dropLast => exact hrep.sealed_of_mem_dropLast
  case active_unsealed =>
    exact hrep.unsealed_of_mem_getLast _ (List.getLast_mem_getLast? _)
  case appends_answers =>
    rw [happends, numberedAppends, List.map_map, List.length_map, length_numbered]
    rw [show (Prod.snd ∘ fun entry : ℤ × Record => (entry.2, (.ok entry.1 : Except RelayError ℤ))) =
      Except.ok ∘ Prod.fst from rfl, ← List.map_map, map_fst_numbered, List.map_map]
    rfl
  case read_lagging_iff =>
    intro o
    rw [hfirst, ← OffsetLog.read_eq_lagging_iff, hrep.read_eq]
    cases l.read o <;> simp
  case read_missing_iff =>
    intro o
    rw [hnext, ← OffsetLog.read_eq_missing_iff, hrep.read_eq]
    cases l.read o <;> simp
  case read_ok =>
    intro o hge hlt
    rw [hfirst] at hge
    rw [hnext] at hlt
    obtain ⟨record, hfound⟩ := OffsetLog.exists_read_eq_found hge hlt
    obtain ⟨-, hget⟩ := OffsetLog.read_eq_found_iff.mp hfound
    refine ⟨record, by rw [hrep.read_eq, hfound], ?_⟩
    rw [happends, mem_numberedAppends]
    exact ⟨by omega, hget⟩
  case read_ne_hole =>
    intro o
    rw [hrep.read_eq]
    cases l.read o <;> simp

end Relay
