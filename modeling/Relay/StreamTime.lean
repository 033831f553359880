import Relay.Errors
import Relay.Lib.Counters
import Relay.Lib.Machine

/-!
# Stream time

Events are added up in windows of event time, and the watermark says up to which time everything is
believed to have been seen. A window is open to stragglers for the allowed lateness after its end.
When the watermark passes that, the window is closed and its sum is emitted as final.

A closed window takes no more events: they are dropped, and counted. So what was emitted does not
change, and what is not in the sums is in the count (`emitsFinal`). But a window can only be closed
if it exists, so an event past the grace of a window that has had none opens the window instead of
being dropped. Events past the grace are dropped, and they alone, exactly when none of them is for
such a window (`OnlyKnown`).

## Scope

The report on lateness is left out. What it counts is counted.

## Main definitions

* `WindowedStream`, with `advanceWatermark`, `add` and `result`
* `WindowedStream.EmitsFinal`: what a run promises of the windows it emits

## Main results

* `emitsFinal`: every run keeps that promise
* `onlyKnown_iff_dropsPastGrace`: exactly which runs drop the events past the grace
-/

namespace Relay

/-- A stream aggregated into windows of event time. -/
structure WindowedStream where
  windowSize : ℤ
  allowedLateness : ℤ
  watermark : ℤ := 0
  /-- The sums of the windows, by their starts. -/
  windows : Dict ℤ ℤ := ∅
  closed : Finset ℤ := ∅
  droppedLate : ℤ := 0
  windowSize_pos : 1 ≤ windowSize
  allowedLateness_nonneg : 0 ≤ allowedLateness

namespace WindowedStream

/-- `_window_start`. -/
def windowStart (stream : WindowedStream) (eventTime : ℤ) : ℤ :=
  eventTime / stream.windowSize * stream.windowSize

/-- The window that starts there has no more grace at the given watermark. -/
def Due (stream : WindowedStream) (watermark start : ℤ) : Prop :=
  start + stream.windowSize + stream.allowedLateness ≤ watermark

instance (stream : WindowedStream) (watermark start : ℤ) :
    Decidable (stream.Due watermark start) :=
  inferInstanceAs (Decidable (_ ≤ _))

/-- The loop of `advance_watermark`. -/
def closeLoop (stream : WindowedStream) (watermark : ℤ) :
    List ℤ → Finset ℤ → List ℤ → Finset ℤ × List ℤ
  | [], closed, newlyClosed => (closed, newlyClosed)
  | start :: starts, closed, newlyClosed =>
    if start ∉ closed ∧ stream.Due watermark start then
      closeLoop stream watermark starts (insert start closed) (newlyClosed ++ [start])
    else closeLoop stream watermark starts closed newlyClosed

/-- `advance_watermark`. -/
def advanceWatermark (stream : WindowedStream) (toTime : ℤ) :
    Except RelayError (List ℤ) × WindowedStream :=
  if toTime < stream.watermark then
    (.error (.invalid (s!"the watermark only advances: {toTime} is "
      ++ s!"behind {stream.watermark}, and reopening emitted "
      ++ "windows breaks every downstream that trusted "
      ++ "the emission")), stream)
  else
    let outcome := stream.closeLoop toTime (stream.windows.keys.mergeSort fun a b => a ≤ b)
      stream.closed []
    (.ok outcome.2, { stream with watermark := toTime, closed := outcome.1 })

/-- The stream with the value added to its window. -/
def addTo (stream : WindowedStream) (start value : ℤ) : WindowedStream :=
  { stream with windows := stream.windows.set start (stream.windows.getD start 0 + value) }

/-- `add`. -/
def add (stream : WindowedStream) (eventTime value : ℤ) : String × WindowedStream :=
  let start := stream.windowStart eventTime
  let windowEnd := start + stream.windowSize
  if start ∈ stream.closed then
    (s!"dropped: event at {eventTime} is past its "
      ++ "closed window and the grace; counted as late, "
      ++ "not swallowed", { stream with droppedLate := stream.droppedLate + 1 })
  else if windowEnd ≤ stream.watermark then
    (s!"late but in grace: event at {eventTime} "
      ++ s!"reopened window [{start},{windowEnd})", stream.addTo start value)
  else (s!"on time: added to window [{start},{windowEnd})", stream.addTo start value)

/-- `result`. -/
def result (stream : WindowedStream) (start : ℤ) : Except RelayError ℤ :=
  match stream.windows.get? start with
  | none => .error (.invalid s!"no window at {start}")
  | some sum => .ok sum

/-- No window has had an event yet. -/
structure Fresh (stream : WindowedStream) : Prop where
  windows : stream.windows = ∅
  closed : stream.closed = ∅

end WindowedStream

/-! ## Runs -/

/-- A call to a stream. -/
inductive StreamCall where
  | advanceWatermark (toTime : ℤ)
  | add (eventTime value : ℤ)
  deriving DecidableEq

/-- What a call answers. -/
inductive StreamAnswer where
  | advanced (answer : Except RelayError (List ℤ))
  | added (report : String)

/-- The stream as a component. -/
def windowedStream : Machine WindowedStream StreamCall StreamAnswer where
  step stream
    | .advanceWatermark toTime => (stream.advanceWatermark toTime).map .advanced id
    | .add eventTime value => (stream.add eventTime value).map .added id

/-- The windows that a call returned as newly closed. -/
def emittedBy : StreamCall × StreamAnswer → List ℤ
  | (_, .advanced (.ok newlyClosed)) => newlyClosed
  | _ => []

namespace WindowedStream

/-- The windows that a run returned as newly closed, oldest first. -/
def emitted (stream : WindowedStream) (calls : List StreamCall) : List ℤ :=
  (windowedStream.trace stream calls).flatMap emittedBy

/-- The value of a call that adds one, unless it is counted as dropped. -/
def kept (stream : WindowedStream) : StreamCall → ℤ
  | .advanceWatermark _ => 0
  | .add eventTime value =>
    if (stream.add eventTime value).2.droppedLate = stream.droppedLate then value else 0

/-- The values added in a run that were not counted as dropped. -/
def keptSum (stream : WindowedStream) : List StreamCall → ℤ
  | [] => 0
  | call :: calls => stream.kept call + keptSum (windowedStream.step stream call).2 calls

/-- Each window is emitted at most once, its sum is never touched again, and what was added is in
the sums unless it was counted as dropped. -/
structure EmitsFinal (stream : WindowedStream) (calls : List StreamCall) : Prop where
  once : (stream.emitted calls).Nodup
  final : ∀ before after, calls = before ++ after → ∀ start ∈ stream.emitted before, ∃ sum,
    (windowedStream.final stream before).result start = .ok sum ∧
      (windowedStream.final stream calls).result start = .ok sum
  total : (windowedStream.final stream calls).windows.values.sum = stream.keptSum calls

/-- What is added past the grace is for windows that exist. -/
def OnlyKnown (stream : WindowedStream) (call : StreamCall) : Prop :=
  ∀ eventTime value, call = .add eventTime value →
    stream.Due stream.watermark (stream.windowStart eventTime) →
    stream.windowStart eventTime ∈ stream.windows.keys

/-- What is added past the grace is dropped and counted, and all else goes to its window. -/
def DropsPastGrace (stream : WindowedStream) (call : StreamCall) : Prop :=
  ∀ eventTime value, call = .add eventTime value →
    (windowedStream.step stream call).2 =
      if stream.Due stream.watermark (stream.windowStart eventTime) then
        { stream with droppedLate := stream.droppedLate + 1 }
      else stream.addTo (stream.windowStart eventTime) value

/-! ## One call -/

variable {stream : WindowedStream} {calls : List StreamCall} {call : StreamCall}

/-- The loop closes and returns the windows that are due and not closed. -/
theorem closeLoop_eq (stream : WindowedStream) (watermark : ℤ) {starts : List ℤ}
    (hstarts : starts.Nodup) (closed : Finset ℤ) (newlyClosed : List ℤ) :
    (stream.closeLoop watermark starts closed newlyClosed).2 =
        newlyClosed ++ starts.filter (fun w => w ∉ closed ∧ stream.Due watermark w) ∧
      (stream.closeLoop watermark starts closed newlyClosed).1 =
        closed ∪ (starts.filter fun w => w ∉ closed ∧ stream.Due watermark w).toFinset := by
  induction starts generalizing closed newlyClosed with
  | nil => exact ⟨(List.append_nil _).symm, (Finset.union_empty _).symm⟩
  | cons start starts ih =>
    obtain ⟨hnew, hnodup⟩ := List.nodup_cons.mp hstarts
    rw [closeLoop]
    split
    · next hdue =>
      -- the windows to come are other ones, so it makes no difference to them
      have hrest : (starts.filter fun w => w ∉ insert start closed ∧ stream.Due watermark w) =
          starts.filter fun w => w ∉ closed ∧ stream.Due watermark w := by
        refine List.filter_congr fun w hw => ?_
        have hne : w ≠ start := fun heq => hnew (heq ▸ hw)
        simp [hne]
      obtain ⟨hreturned, hclosed⟩ := ih hnodup (insert start closed) (newlyClosed ++ [start])
      rw [hrest] at hreturned hclosed
      rw [hreturned, hclosed, List.filter_cons_of_pos (by simpa using hdue), List.append_assoc,
        List.toFinset_cons, Finset.insert_union, Finset.union_insert]
      exact ⟨rfl, rfl⟩
    · next hnot =>
      rw [List.filter_cons_of_neg (by simpa using hnot)]
      exact ih hnodup closed newlyClosed

/-- What a call does: an advance that is refused changes nothing; one that is not closes and returns
the windows that are due; an event is dropped if its window is closed, and else it is added. -/
theorem step_cases (stream : WindowedStream) (call : StreamCall) :
    (emittedBy (call, (windowedStream.step stream call).1) = [] ∧
        (windowedStream.step stream call).2 = stream ∧ ∀ t v, call ≠ .add t v) ∨
      (∃ toTime newlyClosed, call = .advanceWatermark toTime ∧ stream.watermark ≤ toTime ∧
        emittedBy (call, (windowedStream.step stream call).1) = newlyClosed ∧
        (windowedStream.step stream call).2 =
          { stream with
            watermark := toTime
            closed := stream.closed ∪ newlyClosed.toFinset } ∧
        newlyClosed.Nodup ∧ ∀ w, w ∈ newlyClosed ↔
          w ∈ stream.windows.keys ∧ w ∉ stream.closed ∧ stream.Due toTime w) ∨
      ∃ eventTime value, call = .add eventTime value ∧
        emittedBy (call, (windowedStream.step stream call).1) = [] ∧
        (windowedStream.step stream call).2 =
          if stream.windowStart eventTime ∈ stream.closed then
            { stream with droppedLate := stream.droppedLate + 1 }
          else stream.addTo (stream.windowStart eventTime) value := by
  cases call with
  | advanceWatermark toTime =>
    have hstep : windowedStream.step stream (.advanceWatermark toTime) =
        (stream.advanceWatermark toTime).map .advanced id := rfl
    rw [hstep, advanceWatermark]
    split
    · exact .inl ⟨rfl, rfl, nofun⟩
    · next hadvances =>
      have hnodup : (stream.windows.keys.mergeSort fun a b => a ≤ b).Nodup :=
        (List.mergeSort_perm _ _).nodup_iff.mpr stream.windows.nodup
      obtain ⟨hreturned, hclosed⟩ := stream.closeLoop_eq toTime hnodup stream.closed []
      refine .inr (.inl ⟨toTime, _, rfl, not_lt.mp hadvances, hreturned, ?_, hnodup.filter _,
        fun w => ?_⟩)
      · exact congrArg (fun closed => { stream with watermark := toTime, closed := closed }) hclosed
      · rw [List.nil_append, List.mem_filter, List.mem_mergeSort, decide_eq_true_eq]
  | add eventTime value =>
    have hstep : windowedStream.step stream (.add eventTime value) =
        (stream.add eventTime value).map .added id := rfl
    refine .inr (.inr ⟨eventTime, value, rfl, ?_, ?_⟩)
    · rw [hstep]
      rfl
    · rw [hstep, add]
      split
      · rfl
      · split <;> rfl

/-- The windows that are closed exist, and they are past their grace. -/
structure Books (stream : WindowedStream) : Prop where
  closed_known : ∀ w ∈ stream.closed, w ∈ stream.windows.keys
  closed_due : ∀ w ∈ stream.closed, stream.Due stream.watermark w

theorem Due.mono {watermark watermark' w : ℤ} (h : stream.Due watermark w)
    (hle : watermark ≤ watermark') : stream.Due watermark' w :=
  le_trans h hle

theorem Books.step (h : stream.Books) (call : StreamCall) :
    (windowedStream.step stream call).2.Books := by
  rcases stream.step_cases call with
    ⟨-, hsame, -⟩ | ⟨toTime, newlyClosed, -, hle, -, hnext, -, hnew⟩ | ⟨t, v, -, -, hnext⟩
  · rw [hsame]
    exact h
  · rw [hnext]
    constructor
    · intro w hw
      rcases Finset.mem_union.mp hw with hw | hw
      · exact h.closed_known w hw
      · exact ((hnew w).mp (List.mem_toFinset.mp hw)).1
    · intro w hw
      rcases Finset.mem_union.mp hw with hw | hw
      · exact (h.closed_due w hw).mono hle
      · exact ((hnew w).mp (List.mem_toFinset.mp hw)).2.2
  · rw [hnext]
    split
    · exact ⟨h.closed_known, h.closed_due⟩
    · exact ⟨fun w hw => Dict.mem_keys_set.mpr (.inr (h.closed_known w hw)), h.closed_due⟩

/-! ## What was emitted is final -/

theorem Fresh.books (h : stream.Fresh) : stream.Books := by
  constructor <;> rw [h.closed] <;> exact fun w hw => absurd hw (Finset.notMem_empty w)

theorem Fresh.final_books (h : stream.Fresh) (calls : List StreamCall) :
    (windowedStream.final stream calls).Books :=
  Machine.always h.books (fun _ call hbooks => hbooks.step call) calls

theorem emitted_append_singleton (stream : WindowedStream) (calls : List StreamCall)
    (call : StreamCall) :
    stream.emitted (calls ++ [call]) = stream.emitted calls ++
      emittedBy (call, (windowedStream.step (windowedStream.final stream calls) call).1) :=
  windowedStream.flatMap_trace_append_singleton emittedBy stream calls call

/-- The windows that were emitted are those that are closed, and each was emitted once. -/
theorem Fresh.emitted_spec (h : stream.Fresh) (calls : List StreamCall) :
    (stream.emitted calls).Nodup ∧
      ∀ w, w ∈ stream.emitted calls ↔ w ∈ (windowedStream.final stream calls).closed := by
  induction calls using List.reverseRecOn with
  | nil =>
    refine ⟨List.nodup_nil, fun w => ?_⟩
    rw [Machine.final_nil, h.closed]
    exact iff_of_false List.not_mem_nil (Finset.notMem_empty w)
  | append_singleton calls call ih =>
    obtain ⟨hnodup, hmem⟩ := ih
    rw [emitted_append_singleton, Machine.final_append_singleton]
    rcases (windowedStream.final stream calls).step_cases call with
      ⟨hnone, hsame, -⟩ | ⟨toTime, newlyClosed, -, -, hemitted, hnext, hnew, hiff⟩ |
        ⟨t, v, -, hnone, hnext⟩
    · rw [hnone, hsame, List.append_nil]
      exact ⟨hnodup, hmem⟩
    · rw [hemitted, hnext]
      refine ⟨List.nodup_append.mpr ⟨hnodup, hnew, ?_⟩, fun w => ?_⟩
      · rintro w hw _ hw' rfl
        exact ((hiff w).mp hw').2.1 ((hmem w).mp hw)
      · rw [List.mem_append, hmem, Finset.mem_union, List.mem_toFinset]
    · rw [hnone, List.append_nil, hnext]
      refine ⟨hnodup, fun w => (hmem w).trans ?_⟩
      split <;> rfl

/-- A closed window stays closed, and its sum is never touched. -/
theorem final_of_mem_closed {w : ℤ} (hw : w ∈ stream.closed) (calls : List StreamCall) :
    w ∈ (windowedStream.final stream calls).closed ∧
      (windowedStream.final stream calls).windows.get? w = stream.windows.get? w := by
  refine Machine.always
    (P := fun s : WindowedStream => w ∈ s.closed ∧ s.windows.get? w = stream.windows.get? w)
    ⟨hw, rfl⟩ ?_ calls
  rintro s call ⟨hclosed, hget⟩
  rcases s.step_cases call with
    ⟨-, hsame, -⟩ | ⟨toTime, newlyClosed, -, -, -, hnext, -, -⟩ | ⟨t, v, -, -, hnext⟩
  · rw [hsame]
    exact ⟨hclosed, hget⟩
  · rw [hnext]
    exact ⟨Finset.mem_union_left _ hclosed, hget⟩
  · rw [hnext]
    split
    · exact ⟨hclosed, hget⟩
    · next hopen =>
      have hne : w ≠ s.windowStart t := fun heq => hopen (heq ▸ hclosed)
      exact ⟨hclosed, (Dict.get?_set_of_ne _ _ hne).trans hget⟩

/-- What a call adds to the sums is what it keeps. -/
theorem total_step (stream : WindowedStream) (call : StreamCall) :
    (windowedStream.step stream call).2.windows.total =
      stream.windows.total + stream.kept call := by
  rcases stream.step_cases call with
    ⟨-, hsame, hcall⟩ | ⟨toTime, newlyClosed, rfl, -, -, hnext, -, -⟩ | ⟨t, v, rfl, -, hnext⟩
  · cases call with
    | advanceWatermark toTime => rw [hsame, kept, add_zero]
    | add t v => exact absurd rfl (hcall t v)
  · rw [hnext, kept, add_zero]
  · have hadd : (stream.add t v).2 = _ := hnext
    rw [hnext, kept, hadd]
    split
    · have hcount : stream.droppedLate + 1 ≠ stream.droppedLate := by omega
      rw [if_neg hcount, add_zero]
    · have hset := stream.windows.total_set (stream.windowStart t)
        (stream.windows.count (stream.windowStart t) + v)
      rw [← add_assoc, sub_add_cancel] at hset
      rw [addTo, if_pos rfl]
      exact hset

theorem total_final (stream : WindowedStream) (calls : List StreamCall) :
    (windowedStream.final stream calls).windows.total =
      stream.windows.total + stream.keptSum calls := by
  induction calls generalizing stream with
  | nil => exact (add_zero _).symm
  | cons call calls ih => rw [Machine.final_cons, ih, total_step, keptSum, add_assoc]

/-- **What is emitted is final, and nothing is lost silently.** In every run of a stream without
windows, each window is emitted at most once, its sum never changes after that, and in every state
the sums of all windows add up to what was added and not counted as dropped. -/
theorem emitsFinal (h : stream.Fresh) (calls : List StreamCall) : stream.EmitsFinal calls := by
  constructor
  · exact (h.emitted_spec calls).1
  · rintro before after rfl start hstart
    have hclosed := ((h.emitted_spec before).2 start).mp hstart
    have hknown := (h.final_books before).closed_known start hclosed
    obtain ⟨sum, hsum⟩ := (Dict.mem_keys_iff _).mp hknown
    refine ⟨sum, by rw [result, hsum], ?_⟩
    rw [Machine.final_append, result, (final_of_mem_closed hclosed after).2, hsum]
  · have htotal := stream.total_final calls
    rw [h.windows] at htotal
    exact htotal.trans (zero_add _)

/-- A window that is closed between two events for it. -/
theorem emitsFinal_late :
    EmitsFinal
      { windowSize := 60, allowedLateness := 10, windowSize_pos := by decide,
        allowedLateness_nonneg := by decide }
      [.add 10 1, .advanceWatermark 75, .add 30 5] :=
  emitsFinal ⟨rfl, rfl⟩ _

/-! ## Events past the grace -/

/-- Every window that exists and is past its grace is closed. -/
def Settled (stream : WindowedStream) : Prop :=
  ∀ w ∈ stream.windows.keys, stream.Due stream.watermark w → w ∈ stream.closed

theorem Settled.step (h : stream.Settled) (hknown : stream.OnlyKnown call) :
    (windowedStream.step stream call).2.Settled := by
  rcases stream.step_cases call with
    ⟨-, hsame, -⟩ | ⟨toTime, newlyClosed, -, -, -, hnext, -, hnew⟩ | ⟨t, v, rfl, -, hnext⟩
  · rw [hsame]
    exact h
  · rw [hnext]
    intro w hw hdue
    by_cases hclosed : w ∈ stream.closed
    · exact Finset.mem_union_left _ hclosed
    · exact Finset.mem_union_right _ (List.mem_toFinset.mpr ((hnew w).mpr ⟨hw, hclosed, hdue⟩))
  · rw [hnext]
    split
    · exact h
    · intro w hw hdue
      rcases Dict.mem_keys_set.mp hw with rfl | hw
      · exact h _ (hknown t v rfl hdue) hdue
      · exact h w hw hdue

/-- **One call.** As long as every window past its grace is closed, a call drops what is past the
grace exactly when it adds nothing past the grace of a window that does not exist. -/
theorem Settled.onlyKnown_iff (h : stream.Settled) (hbooks : stream.Books) :
    stream.OnlyKnown call ↔ stream.DropsPastGrace call := by
  rcases stream.step_cases call with
    ⟨-, -, hcall⟩ | ⟨toTime, newlyClosed, rfl, -⟩ | ⟨t, v, rfl, -, hnext⟩
  · exact iff_of_true (fun t v heq => absurd heq (hcall t v)) fun t v heq => absurd heq (hcall t v)
  · exact iff_of_true nofun nofun
  constructor
  · rintro hknown t' v' heq
    obtain ⟨rfl, rfl⟩ := StreamCall.add.inj heq
    rw [hnext]
    refine if_congr ⟨hbooks.closed_due _, fun hdue => ?_⟩ rfl rfl
    exact h _ (hknown t v rfl hdue) hdue
  · rintro hdrops t' v' heq hdue
    obtain ⟨rfl, rfl⟩ := StreamCall.add.inj heq
    have hdropped := hdrops t v rfl
    rw [if_pos hdue, hnext] at hdropped
    by_contra hunknown
    rw [if_neg fun hclosed => hunknown (hbooks.closed_known _ hclosed)] at hdropped
    have hcount : stream.droppedLate = stream.droppedLate + 1 :=
      congrArg WindowedStream.droppedLate hdropped
    omega

/-- **When the events past the grace are dropped.** In every run of a stream without windows, each
event past the grace is dropped and counted and every other is added, if and only if no event past
the grace is for a window that does not exist. -/
theorem onlyKnown_iff_dropsPastGrace (h : stream.Fresh) (calls : List StreamCall) :
    windowedStream.Guarded OnlyKnown stream calls ↔
      windowedStream.Guarded DropsPastGrace stream calls := by
  have hsettled : stream.Settled := by
    intro w hw
    rw [h.windows] at hw
    exact absurd hw List.not_mem_nil
  have hbooks := h.books
  clear h
  induction calls generalizing stream with
  | nil => exact Iff.rfl
  | cons call calls ih =>
    rw [Machine.guarded_cons, Machine.guarded_cons, hsettled.onlyKnown_iff hbooks]
    refine and_congr_right fun hdrops => ?_
    exact ih (hsettled.step ((hsettled.onlyKnown_iff hbooks).mpr hdrops)) (hbooks.step call)

/-- A straggler in its grace, and one past it. -/
theorem onlyKnown_iff_dropsPastGrace_late :
    windowedStream.Guarded OnlyKnown
        { windowSize := 60, allowedLateness := 10, windowSize_pos := by decide,
          allowedLateness_nonneg := by decide }
        [.add 10 1, .advanceWatermark 65, .add 20 5, .advanceWatermark 75, .add 30 5] ↔
      windowedStream.Guarded DropsPastGrace
        { windowSize := 60, allowedLateness := 10, windowSize_pos := by decide,
          allowedLateness_nonneg := by decide }
        [.add 10 1, .advanceWatermark 65, .add 20 5, .advanceWatermark 75, .add 30 5] :=
  onlyKnown_iff_dropsPastGrace ⟨rfl, rfl⟩ _

/-- An event far past the grace is the first of its window, and is added to it. -/
theorem add_opens_past_grace :
    ¬ windowedStream.Guarded DropsPastGrace
      { windowSize := 60, allowedLateness := 10, windowSize_pos := by decide,
        allowedLateness_nonneg := by decide } [.advanceWatermark 1000, .add 10 5] := by
  rw [Machine.guarded_cons, Machine.guarded_cons]
  rintro ⟨-, hdrops, -⟩
  have hnone : ((∅ : Dict ℤ ℤ).keys.mergeSort fun a b => a ≤ b) = [] := List.mergeSort_nil
  have hcount := congrArg WindowedStream.droppedLate (hdrops 10 5 rfl)
  simp [windowedStream, advanceWatermark, hnone, closeLoop, add, addTo, Due, windowStart] at hcount

end WindowedStream

end Relay
