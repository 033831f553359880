import Relay.Lib.OffsetLog
import Relay.Records
import Mathlib.Data.List.Chain

/-!
# The segment log

A partition's history lives in segments, each owning a contiguous offset range from its base.
Only the last segment accepts appends; when the next record would take it past the roll
threshold it is sealed and a fresh segment opens at the next offset. Whole sealed segments are
dropped from the front.

## Two levels

`Represents segments l` says that a list of segments stores the abstract log `l`: the segments
form an unbroken chain, all but the last are sealed, and their records laid end to end are what
`l` retains. Each operation of the code is then matched with one of the abstract log: `append`
with `OffsetLog.append`, and dropping the oldest segment with `OffsetLog.trim`. What a read does
follows from the representation alone.

## Scope

The text on the shape of the log is left out.

## Main definitions

* `Segment`, `SegmentLog`, with the operations of the source
* `Represents`: a chain of segments stores an abstract log

## Main results

* `Represents.append`: appending answers the next offset and stores one more record
* `Represents.tail`: dropping the oldest segment trims the abstract log
* `Represents.read_eq`: a read finds what the abstract log has
* `Represents.dropSealedBefore`: what `drop_sealed_before` leaves
-/

namespace Relay

/-- `ROLL_AT_BYTES`. -/
def rollAtBytes : ℕ := 4096

/-- A contiguous run of records from a base offset. -/
structure Segment where
  baseOffset : ℤ
  records : List Record := []
  sealed : Bool := false
  deriving DecidableEq

namespace Segment

/-- `append`: refused once the segment is sealed. -/
def append (segment : Segment) (record : Record) : Except RelayError ℤ × Segment :=
  if segment.sealed then
    (.error (.sealed (s!"segment at base {segment.baseOffset} is sealed; "
      ++ "immutability is the product, not the obstacle")), segment)
  else
    let records := segment.records ++ [record]
    (.ok (segment.baseOffset + records.length - 1), { segment with records })

/-- `size_bytes`. -/
def sizeBytes (segment : Segment) : ℕ := (segment.records.map Record.sizeBytes).sum

/-- `next_offset`. -/
def nextOffset (segment : Segment) : ℤ := segment.baseOffset + segment.records.length

/-- `holds`. -/
def Holds (segment : Segment) (offset : ℤ) : Prop :=
  segment.baseOffset ≤ offset ∧ offset < segment.nextOffset

instance (segment : Segment) (offset : ℤ) : Decidable (segment.Holds offset) :=
  inferInstanceAs (Decidable (_ ∧ _))

theorem Holds.index_lt {segment : Segment} {offset : ℤ} (h : segment.Holds offset) :
    (offset - segment.baseOffset).toNat < segment.records.length := by
  obtain ⟨hl, hr⟩ := h
  rw [nextOffset] at hr
  omega

/-- `read`. -/
def read (segment : Segment) (offset : ℤ) : Except RelayError Record :=
  if h : segment.Holds offset then .ok (segment.records.get ⟨_, h.index_lt⟩)
  else .error (.missing s!"offset {offset} is not in this segment")

theorem holds_base_add (segment : Segment) {n : ℕ} (h : n < segment.records.length) :
    segment.Holds (segment.baseOffset + n) := by
  constructor
  · omega
  · rw [nextOffset]; omega

theorem read_base_add (segment : Segment) {n : ℕ} (h : n < segment.records.length) :
    segment.read (segment.baseOffset + n) = .ok segment.records[n] := by
  have hn : (segment.baseOffset + n - segment.baseOffset).toNat = n := by omega
  rw [read, dif_pos (segment.holds_base_add h)]
  simp only [List.get_eq_getElem, hn]

end Segment

/-- An append-only chain of segments. The constructor opens a first segment when it is given
none, so a log is never without one. -/
structure SegmentLog where
  segments : List Segment := [{ baseOffset := 0 }]
  rolls : ℕ := 0
  segments_ne_nil : segments ≠ [] := by decide
  deriving DecidableEq

namespace SegmentLog

/-- `_active`: the last segment. -/
def active (log : SegmentLog) : Segment := log.segments.getLast log.segments_ne_nil

/-- `append`: seals the active segment and opens the next one when the record would take it past
the threshold. An empty active segment takes a record of any size. -/
def append (log : SegmentLog) (record : Record) : Except RelayError ℤ × SegmentLog :=
  let active := log.active
  if active.sizeBytes + record.sizeBytes > rollAtBytes ∧ active.records ≠ [] then
    let opened : Segment := { baseOffset := active.nextOffset }
    let (answer, grown) := opened.append record
    (answer, { segments := log.segments.dropLast ++ [{ active with sealed := true }, grown]
               rolls := log.rolls + 1
               segments_ne_nil := by simp })
  else
    let (answer, grown) := active.append record
    (answer, { segments := log.segments.dropLast ++ [grown]
               rolls := log.rolls
               segments_ne_nil := by simp })

/-- `first_offset`. -/
def firstOffset (log : SegmentLog) : ℤ := (log.segments.head log.segments_ne_nil).baseOffset

/-- `next_offset`. -/
def nextOffset (log : SegmentLog) : ℤ := log.active.nextOffset

/-- `read`. -/
def read (log : SegmentLog) (offset : ℤ) : Except RelayError Record :=
  if offset < log.firstOffset then
    .error (.lagging (s!"offset {offset} is below the retained "
      ++ s!"window; the log now starts at {log.firstOffset}, and saying so beats a "
      ++ "silent empty result"))
  else if offset ≥ log.nextOffset then
    .error (.missing (s!"offset {offset} has not been written; the "
      ++ s!"log ends at {log.nextOffset - 1}"))
  else
    match log.segments.find? fun segment => segment.Holds offset with
    | some segment => segment.read offset
    | none => .error (.invalid "the segment chain has a hole")

/-- The loop of `drop_sealed_before`: the segments it leaves, and how many it dropped. -/
def dropLoop (offset : ℤ) : List Segment → List Segment × ℕ
  | oldest :: next :: rest =>
    if oldest.sealed = true ∧ oldest.nextOffset ≤ offset then
      let (kept, dropped) := dropLoop offset (next :: rest)
      (kept, dropped + 1)
    else (oldest :: next :: rest, 0)
  | segments => (segments, 0)

theorem dropLoop_ne_nil (offset : ℤ) {segments : List Segment} (h : segments ≠ []) :
    (dropLoop offset segments).1 ≠ [] := by
  fun_induction dropLoop offset segments with
  | case1 oldest next rest hc kept dropped heq ih =>
    rw [heq] at ih
    exact ih (by simp)
  | case2 => simp
  | case3 => exact h

/-- `drop_sealed_before`. -/
def dropSealedBefore (log : SegmentLog) (offset : ℤ) : ℕ × SegmentLog :=
  ((dropLoop offset log.segments).2,
    { segments := (dropLoop offset log.segments).1
      rolls := log.rolls
      segments_ne_nil := dropLoop_ne_nil offset log.segments_ne_nil })

end SegmentLog

/-! ## The abstraction

The chain conditions are kept as three clauses and not as one recursive predicate, since the
code works at both ends of the list: segments leave at the front and records arrive at the
back. -/

/-- `segments` stores the abstract log `l`. -/
structure Represents (segments : List Segment) (l : OffsetLog Record) : Prop where
  /-- Each segment starts where the one before it ends. -/
  contiguous : segments.IsChain fun s t => t.baseOffset = s.nextOffset
  /-- Every segment but the last is sealed. -/
  sealed_of_mem_dropLast : ∀ s ∈ segments.dropLast, s.sealed = true
  /-- The last segment is open. -/
  unsealed_of_mem_getLast : ∀ s ∈ segments.getLast?, s.sealed = false
  /-- The first segment starts at the first retained offset. -/
  base_of_mem_head : ∀ s ∈ segments.head?, s.baseOffset = l.start
  /-- The segments' records laid end to end are what is retained. -/
  retained : segments.flatMap Segment.records = l.written.drop l.start

theorem represents_fresh : Represents ({} : SegmentLog).segments OffsetLog.empty := by
  constructor <;> simp [OffsetLog.empty]

/-- An unbroken chain ends where the lengths of its segments add up to. -/
theorem nextOffset_getLast_of_isChain {segments : List Segment}
    (h : segments.IsChain fun s t => t.baseOffset = s.nextOffset) (hne : segments ≠ []) :
    (segments.getLast hne).nextOffset =
      (segments.head hne).baseOffset + (segments.flatMap Segment.records).length := by
  induction segments with
  | nil => exact absurd rfl hne
  | cons s rest ih =>
    cases rest with
    | nil => simp [Segment.nextOffset]
    | cons t rest =>
      obtain ⟨hst, hrest⟩ := List.isChain_cons_cons.mp h
      have hlen : ((s :: t :: rest).flatMap Segment.records).length =
          s.records.length + ((t :: rest).flatMap Segment.records).length := by
        rw [List.flatMap_cons, List.length_append]
      rw [List.getLast_cons (by simp), ih hrest (by simp), hlen, List.head_cons, List.head_cons,
        hst, Segment.nextOffset]
      omega

/-- Looking through an unbroken chain for the segment that holds an offset finds it, and in it
the record that stands there when all records are laid end to end. -/
theorem find?_holds_of_isChain {segments : List Segment}
    (h : segments.IsChain fun s t => t.baseOffset = s.nextOffset) (hne : segments ≠ []) {n : ℕ}
    {record : Record} (hn : (segments.flatMap Segment.records)[n]? = some record) :
    ∃ s, segments.find? (fun s => s.Holds ((segments.head hne).baseOffset + n)) = some s ∧
      s.read ((segments.head hne).baseOffset + n) = .ok record := by
  induction segments generalizing n with
  | nil => exact absurd rfl hne
  | cons s rest ih =>
    rw [List.flatMap_cons] at hn
    simp only [List.head_cons]
    by_cases hlt : n < s.records.length
    · rw [List.getElem?_append_left hlt, List.getElem?_eq_getElem hlt, Option.some_inj] at hn
      exact ⟨s, by simp [s.holds_base_add hlt], hn ▸ s.read_base_add hlt⟩
    · rw [List.getElem?_append_right (by omega)] at hn
      cases rest with
      | nil => simp at hn
      | cons t rest =>
        obtain ⟨hst, hrest⟩ := List.isChain_cons_cons.mp h
        have hnot : ¬ s.Holds (s.baseOffset + n) := by
          rintro ⟨-, hr⟩
          rw [Segment.nextOffset] at hr
          omega
        obtain ⟨u, hfind, hread⟩ := ih hrest (by simp) hn
        have hoff : t.baseOffset + ((n - s.records.length : ℕ) : ℤ) = s.baseOffset + n := by
          rw [hst, Segment.nextOffset]; omega
        simp only [List.head_cons, hoff] at hfind hread
        exact ⟨u, by rw [List.find?_cons_of_neg (by simp [hnot])]; exact hfind, hread⟩

namespace Represents

variable {log : SegmentLog} {l : OffsetLog Record}

theorem firstOffset (h : Represents log.segments l) : log.firstOffset = l.start :=
  h.base_of_mem_head _ (List.head_mem_head? log.segments_ne_nil)

theorem length_retained {segments : List Segment} (h : Represents segments l) :
    (segments.flatMap Segment.records).length = l.written.length - l.start := by
  rw [h.retained, List.length_drop]

theorem nextOffset (h : Represents log.segments l) : log.nextOffset = l.written.length := by
  have hle := l.start_le
  have hfirst : (log.segments.head log.segments_ne_nil).baseOffset = l.start := h.firstOffset
  rw [SegmentLog.nextOffset, SegmentLog.active, nextOffset_getLast_of_isChain h.contiguous,
    h.length_retained, hfirst]
  omega

/-- **A read finds what the abstract log has.** The branch for a hole in the chain is never
taken. -/
theorem read_eq (h : Represents log.segments l) (offset : ℤ) :
    log.read offset = match l.read offset with
      | .lagging => .error (.lagging (s!"offset {offset} is below the retained "
          ++ s!"window; the log now starts at {log.firstOffset}, and saying so beats a "
          ++ "silent empty result"))
      | .missing => .error (.missing (s!"offset {offset} has not been written; the "
          ++ s!"log ends at {log.nextOffset - 1}"))
      | .found record => .ok record := by
  have hfirst := h.firstOffset
  have hnext := h.nextOffset
  cases hread : l.read offset with
  | lagging =>
    rw [SegmentLog.read, if_pos (by rw [hfirst]; exact OffsetLog.read_eq_lagging_iff.mp hread)]
  | missing =>
    have hge := OffsetLog.read_eq_missing_iff.mp hread
    have hle := l.start_le
    rw [SegmentLog.read, if_neg (by rw [hfirst]; omega), if_pos (by rw [hnext]; exact hge)]
  | found record =>
    obtain ⟨hstart, hrec⟩ := OffsetLog.read_eq_found_iff.mp hread
    obtain ⟨hlt, -⟩ := List.getElem?_eq_some_iff.mp hrec
    rw [SegmentLog.read, if_neg (by rw [hfirst]; omega), if_neg (by rw [hnext]; omega)]
    -- the abstract index, counted from the start of the window
    have hn : (log.segments.flatMap Segment.records)[offset.toNat - l.start]? = some record := by
      rw [h.retained, List.getElem?_drop, show l.start + (offset.toNat - l.start) = offset.toNat
        by omega, hrec]
    obtain ⟨s, hfind, hok⟩ := find?_holds_of_isChain h.contiguous log.segments_ne_nil hn
    have hoff : (log.segments.head log.segments_ne_nil).baseOffset
        + ((offset.toNat - l.start : ℕ) : ℤ) = offset := by
      rw [show (log.segments.head log.segments_ne_nil).baseOffset = l.start from hfirst]
      omega
    rw [hoff] at hfind hok
    simp only [hfind, hok]

/-! ### Appending

A roll is split in two: opening an empty segment behind a sealed one changes nothing that is
stored, and the record then goes into the last segment as it would without a roll. -/

/-- One more record in the last segment. -/
theorem grow {init : List Segment} {a : Segment} (h : Represents (init ++ [a]) l)
    (record : Record) :
    Represents (init ++ [{ a with records := a.records ++ [record] }]) (l.append record) := by
  obtain ⟨hinit, -, hlast⟩ := List.isChain_append.mp h.contiguous
  refine ⟨List.isChain_append.mpr ⟨hinit, List.isChain_singleton _, ?_⟩, ?_, ?_, ?_, ?_⟩
  · simpa using hlast
  · simpa using h.sealed_of_mem_dropLast
  · simpa using h.unsealed_of_mem_getLast
  · cases init <;> simpa using h.base_of_mem_head
  · have hret := h.retained
    simp only [List.flatMap_append, List.flatMap_singleton] at hret
    simp only [List.flatMap_append, List.flatMap_singleton, OffsetLog.append_written,
      OffsetLog.append_start]
    rw [List.drop_append_of_le_length l.start_le, ← hret, List.append_assoc]

/-- An empty segment opened behind the last one, which is sealed. -/
theorem roll {init : List Segment} {a : Segment} (h : Represents (init ++ [a]) l) :
    Represents (init ++ [{ a with sealed := true }, { baseOffset := a.nextOffset }]) l := by
  obtain ⟨hinit, -, hlast⟩ := List.isChain_append.mp h.contiguous
  refine ⟨List.isChain_append.mpr ⟨hinit, ?_, ?_⟩, ?_, ?_, ?_, ?_⟩
  · simp [Segment.nextOffset]
  · simpa using hlast
  · intro s hs
    rw [List.dropLast_append_of_ne_nil (by simp)] at hs
    rcases List.mem_append.mp hs with hs | hs
    · exact h.sealed_of_mem_dropLast s (by simpa using hs)
    · simp at hs; simp [hs]
  · simp [List.getLast?_append]
  · cases init <;> simpa using h.base_of_mem_head
  · simpa using h.retained

/-- **Appending** answers the next offset and stores one more record, whether or not the active
segment rolls. -/
theorem append (h : Represents log.segments l) (record : Record) :
    (log.append record).1 = .ok (l.written.length : ℤ) ∧
      Represents (log.append record).2.segments (l.append record) := by
  have hsplit : log.segments = log.segments.dropLast ++ [log.active] :=
    (List.dropLast_append_getLast log.segments_ne_nil).symm
  have hopen : log.active.sealed = false :=
    h.unsealed_of_mem_getLast _ (List.getLast_mem_getLast? log.segments_ne_nil)
  have hnext : log.active.nextOffset = l.written.length := h.nextOffset
  rw [hsplit] at h
  by_cases hroll : log.active.sizeBytes + record.sizeBytes > rollAtBytes ∧ log.active.records ≠ []
  · rw [SegmentLog.append, if_pos hroll]
    refine ⟨by simp [Segment.append, hnext], ?_⟩
    have hrolled := h.roll
    rw [List.append_cons] at hrolled
    simpa [Segment.append] using hrolled.grow record
  · rw [SegmentLog.append, if_neg hroll]
    refine ⟨?_, by simpa [Segment.append, hopen] using h.grow record⟩
    rw [Segment.nextOffset] at hnext
    simp only [Segment.append, hopen, Bool.false_eq_true, if_false, List.length_append,
      List.length_singleton, Except.ok.injEq]
    omega

/-! ### Dropping from the front -/

/-- The oldest segment of a longer chain ends inside what was written. -/
theorem nextOffset_head {s t : Segment} {rest : List Segment} (h : Represents (s :: t :: rest) l) :
    s.nextOffset = ((l.start + s.records.length : ℕ) : ℤ) ∧
      l.start + s.records.length ≤ l.written.length := by
  have hbase : s.baseOffset = l.start := h.base_of_mem_head s rfl
  have hlen := h.length_retained
  have hle := l.start_le
  rw [List.flatMap_cons, List.length_append] at hlen
  constructor
  · rw [Segment.nextOffset, hbase]; omega
  · omega

/-- **Dropping the oldest segment** trims the abstract log to where that segment ended. -/
theorem tail {s t : Segment} {rest : List Segment} (h : Represents (s :: t :: rest) l) :
    Represents (t :: rest) (l.trim (l.start + s.records.length) h.nextOffset_head.2) := by
  obtain ⟨hst, hrest⟩ := List.isChain_cons_cons.mp h.contiguous
  refine ⟨hrest, fun u hu => h.sealed_of_mem_dropLast u ?_, ?_, ?_, ?_⟩
  · rw [List.dropLast_cons_of_ne_nil (by simp)]
    exact List.mem_cons_of_mem s hu
  · simpa using h.unsealed_of_mem_getLast
  · intro u hu
    obtain rfl : t = u := by simpa using hu
    exact hst.trans h.nextOffset_head.1
  · have hret := h.retained
    rw [List.flatMap_cons] at hret
    rw [OffsetLog.trim_written, OffsetLog.trim_start, ← List.drop_drop, ← hret, List.drop_left]

/-- **What `drop_sealed_before` leaves** still holds everything from `offset` on: the window may
start later, but not past `offset`. -/
theorem dropLoop {segments : List Segment} (offset : ℤ) (h : Represents segments l) :
    ∃ l' : OffsetLog Record, Represents (SegmentLog.dropLoop offset segments).1 l' ∧
      l'.written = l.written ∧ (l'.start = l.start ∨ (l'.start : ℤ) ≤ offset) := by
  fun_induction SegmentLog.dropLoop offset segments generalizing l with
  | case1 oldest next rest hc kept dropped heq ih =>
    obtain ⟨l', hrep, hwritten, hstart⟩ := ih h.tail
    rw [heq] at hrep
    refine ⟨l', hrep, hwritten, Or.inr ?_⟩
    have hnext := h.nextOffset_head.1
    rcases hstart with hstart | hstart
    · simp only [OffsetLog.trim] at hstart
      omega
    · exact hstart
  | case2 => exact ⟨l, h, rfl, Or.inl rfl⟩
  | case3 => exact ⟨l, h, rfl, Or.inl rfl⟩

end Represents

end Relay
