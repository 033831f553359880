import Relay.Lib.Bisection
import Relay.Retention

/-!
# Looking up a segment

A read has to find the segment that its offset lies in before it can look inside. The segments'
base offsets are in order, so the segment is found by halving: it is the last one that does not
start past the offset. Offsets below the first segment and from the log end on are refused.

The log itself finds the segment by going through all of them. In a log that has only been changed
by its own operations, every offset in the window lies in exactly one segment, and both ways find
that one.

## Scope

The note on how far back a read goes is left out.

## Main definitions

* `SegmentSet`, with `logStart` and `segmentFor`
* `SegmentSet.ofLog`: the base offsets of a log

## Main results

* `exists_filter_holds_eq`: an offset in the window lies in exactly one segment
* `segmentFor_agrees_with_read`: the lookup refuses what a read refuses, and otherwise finds the
  one segment
-/

namespace Relay

/-- The base offsets of a log's segments. -/
structure SegmentSet where
  baseOffsets : List ℤ := []
  logEnd : ℤ := 0

namespace SegmentSet

/-- `log_start`. -/
def logStart (set : SegmentSet) : ℤ := set.baseOffsets.head?.getD 0

/-- `segment_for`. -/
def segmentFor (set : SegmentSet) (target : ℤ) : Except RelayError ℤ :=
  if set.baseOffsets.head?.all fun first => target < first then
    .error (.missing (s!"offset {target} is below the log start "
      ++ s!"{set.logStart}; its segment was deleted by retention, it is not in the log"))
  else if set.logEnd ≤ target then
    .error (.missing (s!"offset {target} is at or past the log end "
      ++ s!"{set.logEnd}; no segment holds an unwritten record"))
  else .ok (floorSearch (· ≤ target) id set.baseOffsets set.logStart)

/-- The segments of a log. -/
def ofLog (log : SegmentLog) : SegmentSet where
  baseOffsets := log.segments.map Segment.baseOffset
  logEnd := log.nextOffset

theorem logStart_ofLog (log : SegmentLog) : (ofLog log).logStart = log.firstOffset := by
  rw [logStart, ofLog, List.head?_map, List.head?_eq_some_head log.segments_ne_nil]
  rfl

theorem all_head?_ofLog_iff {log : SegmentLog} {target : ℤ} :
    ((ofLog log).baseOffsets.head?.all fun first => target < first) = true ↔
      target < log.firstOffset := by
  rw [ofLog, List.head?_map, List.head?_eq_some_head log.segments_ne_nil]
  exact decide_eq_true_iff

/-- The lookup refuses what is not in the window. -/
theorem exists_segmentFor_eq_error_iff (log : SegmentLog) (target : ℤ) :
    (∃ e, (ofLog log).segmentFor target = .error e) ↔
      target < log.firstOffset ∨ log.nextOffset ≤ target := by
  rw [segmentFor]
  split
  · next hbelow => exact iff_of_true ⟨_, rfl⟩ (.inl (all_head?_ofLog_iff.mp hbelow))
  · next hbelow =>
    split
    · next hend => exact iff_of_true ⟨_, rfl⟩ (.inr hend)
    · next hend =>
      refine iff_of_false ?_ (not_or.mpr ⟨fun h => hbelow (all_head?_ofLog_iff.mpr h), hend⟩)
      rintro ⟨e, he⟩
      cases he

theorem segmentFor_of_mem_window {log : SegmentLog} {target : ℤ} (hstart : log.firstOffset ≤ target)
    (hend : target < log.nextOffset) :
    (ofLog log).segmentFor target =
      .ok (floorSearch (· ≤ target) id (log.segments.map Segment.baseOffset) log.firstOffset) := by
  have hbelow := mt all_head?_ofLog_iff.mp hstart.not_gt
  rw [segmentFor, if_neg hbelow, if_neg (show ¬ (ofLog log).logEnd ≤ target from hend.not_ge),
    logStart_ofLog]
  rfl

end SegmentSet

/-! ## The segment of an offset -/

/-- In an unbroken chain a segment ends before all later ones begin. -/
theorem pairwise_nextOffset_le_of_isChain {segments : List Segment}
    (h : segments.IsChain fun s t => t.baseOffset = s.nextOffset) :
    segments.Pairwise fun s t => s.nextOffset ≤ t.baseOffset := by
  have htrans : IsTrans Segment fun s t => s.nextOffset ≤ t.baseOffset := ⟨fun s t u hst htu => by
    have hlen : t.baseOffset ≤ t.nextOffset := by rw [Segment.nextOffset]; omega
    omega⟩
  exact List.isChain_iff_pairwise.mp (h.imp fun s t hst => hst.ge)

/-- The last segment that does not start past an offset is the only one that holds it. -/
theorem filter_holds_eq {segments init after : List Segment} {s : Segment} {target : ℤ}
    (h : segments.IsChain fun s t => t.baseOffset = s.nextOffset)
    (hcut : Cut (fun t : Segment => t.baseOffset ≤ target) segments (init ++ [s]) after)
    (hend : ∀ last ∈ segments.getLast?, target < last.nextOffset) :
    segments.filter (·.Holds target) = [s] := by
  rw [← hcut.append] at h hend
  obtain ⟨hbefore, -, hnext⟩ := List.isChain_append.mp h
  have hbase : s.baseOffset ≤ target :=
    hcut.below s (List.mem_append_right _ (List.mem_singleton_self s))
  have hholds : s.Holds target := by
    refine ⟨hbase, ?_⟩
    cases after with
    | nil => exact hend s (by simp)
    | cons t after =>
      rw [← hnext s List.getLast?_concat t rfl]
      exact not_le.mp (hcut.above t List.mem_cons_self)
  have hinit : init.filter (·.Holds target) = [] := by
    refine List.filter_eq_nil_iff.mpr fun u hu hheld => ?_
    have hle := (List.pairwise_append.mp (pairwise_nextOffset_le_of_isChain hbefore)).2.2 u hu s
      (List.mem_singleton_self s)
    exact absurd ((of_decide_eq_true hheld).2.trans_le (hle.trans hbase)) (lt_irrefl _)
  have hafter : after.filter (·.Holds target) = [] :=
    List.filter_eq_nil_iff.mpr fun u hu hheld => hcut.above u hu (of_decide_eq_true hheld).1
  rw [← hcut.append, List.filter_append, List.filter_append, hinit, hafter, List.nil_append,
    List.append_nil, List.filter_singleton, decide_eq_true hholds, cond_true]

/-- An offset in the window of a log lies in exactly one segment, and the lookup finds it. -/
theorem exists_filter_holds_eq {log : SegmentLog} {target : ℤ}
    (h : log.segments.IsChain fun s t => t.baseOffset = s.nextOffset)
    (hstart : log.firstOffset ≤ target) (hend : target < log.nextOffset) :
    ∃ s, log.segments.filter (·.Holds target) = [s] ∧
      (SegmentSet.ofLog log).segmentFor target = .ok s.baseOffset := by
  have hsorted : log.segments.Pairwise fun s t =>
      t.baseOffset ≤ target → s.baseOffset ≤ target := by
    refine (pairwise_nextOffset_le_of_isChain h).imp fun {s t} hle ht => ?_
    rw [Segment.nextOffset] at hle
    omega
  obtain ⟨before, after, hcut⟩ := exists_cut (p := fun t : Segment => t.baseOffset ≤ target) hsorted
  have hmem : log.segments.head log.segments_ne_nil ∈ before :=
    hcut.mem_left_iff.mpr ⟨List.head_mem _, hstart⟩
  rcases List.eq_nil_or_concat before with rfl | ⟨init, s, rfl⟩
  · cases hmem
  · rw [List.concat_eq_append] at hcut
    refine ⟨s, filter_holds_eq h hcut fun last hlast => ?_, ?_⟩
    · have hactive : log.segments.getLast? = some log.active :=
        List.getLast?_eq_some_getLast log.segments_ne_nil
      obtain rfl : log.active = last := Option.some.inj (hactive.symm.trans hlast)
      exact hend
    · rw [SegmentSet.segmentFor_of_mem_window hstart hend,
        floorSearch_eq (hcut.map (q := (· ≤ target))), List.map_append, List.map_singleton,
        List.getLast?_concat]
      rfl

/-- **The lookup and the scan agree.** In every log that its own operations have led to, looking an
offset up by halving is refused exactly when reading it is, and otherwise gives the base offset of
the one segment that holds it. -/
theorem segmentFor_agrees_with_read (calls : List LogCall) (target : ℤ) :
    ((∃ e, (SegmentSet.ofLog (logMachine.final {} calls)).segmentFor target = .error e) ↔
        ∃ e, (logMachine.final {} calls).read target = .error e) ∧
      ∀ base, (SegmentSet.ofLog (logMachine.final {} calls)).segmentFor target = .ok base →
        ∃ s, (logMachine.final {} calls).segments.filter (·.Holds target) = [s] ∧
          base = s.baseOffset := by
  obtain ⟨l, hrep, -⟩ := exists_represents_final calls
  generalize logMachine.final {} calls = log at hrep ⊢
  by_cases hwindow : target < log.firstOffset ∨ log.nextOffset ≤ target
  · have herror := (SegmentSet.exists_segmentFor_eq_error_iff log target).mpr hwindow
    refine ⟨iff_of_true herror ?_, fun base hbase => ?_⟩
    · rw [SegmentLog.read]
      split
      · exact ⟨_, rfl⟩
      · next hbelow => exact ⟨_, if_pos (hwindow.resolve_left hbelow)⟩
    · obtain ⟨e, he⟩ := herror
      rw [he] at hbase
      cases hbase
  · obtain ⟨hbelow, hend⟩ := not_or.mp hwindow
    obtain ⟨s, hfilter, hlookup⟩ := exists_filter_holds_eq hrep.contiguous (not_lt.mp hbelow)
      (not_le.mp hend)
    have hfind : log.segments.find? (·.Holds target) = some s := by
      rw [← List.head?_filter, hfilter]
      rfl
    have hholds : s.Holds target := by simpa using List.find?_some hfind
    have hread : log.read target = s.read target := by
      rw [SegmentLog.read, if_neg hbelow, if_neg hend, hfind]
    rw [hlookup, hread, Segment.read, dif_pos hholds]
    refine ⟨iff_of_false ?_ ?_, fun base hbase => ⟨s, hfilter, (Except.ok.inj hbase).symm⟩⟩
    · rintro ⟨e, he⟩
      cases he
    · rintro ⟨e, he⟩
      cases he

end Relay
