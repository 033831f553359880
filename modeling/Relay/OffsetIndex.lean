import Mathlib.Data.Int.Range
import Relay.Errors
import Relay.Lib.Bisection
import Relay.Lib.Dict
import Relay.Lib.Machine

/-!
# The offset index, and rebuilding it

A segment's offset index has the file positions of some of its records, so that a fetch can begin
close to the offset it wants and scan forward from there. It begins at the last indexed record that
is not past the offset.

The index can be made again from the log at any time. After a crash it may be short, and the log is
then scanned from the last entry on; or it may be out of order, and is then thrown away and the log
scanned from the start. Either way the outcome is the index that a scan of the whole log gives, and
with an entry for every interval a fetch scans less than an interval of records.

## Scope

The average scan is left out, and so is the report of the rebuilder. Both make texts of the spacing
of the entries.

## Main definitions

* `OffsetIndex`, with `add` and `floorPosition`
* `IndexRebuilder`, with `isCorrupt`, `isShort` and `rebuild`

## Main results

* `floorPosition_eq`: a fetch begins at the last entry that is not past the target
* `entries_rebuild_of_not_isShort`: an index with nothing wrong is left as it is
* `rebuild_eq_rebuild_emptied`: what is left of an index after a crash is rebuilt to the full index,
  and on it a fetch begins less than an interval before its target
-/

namespace Relay

/-! ## The index -/

/-- The offset index of a segment. -/
structure OffsetIndex where
  baseOffset : ℤ
  intervalBytes : ℤ := 4096
  entries : List (ℤ × ℤ) := []
  intervalBytes_pos : 1 ≤ intervalBytes := by decide

/-- The entries stand in the order of their offsets. -/
def OffsetsRise (entries : List (ℤ × ℤ)) : Prop := entries.Pairwise fun e e' => e.1 < e'.1

theorem OffsetsRise.le_getLast {entries : List (ℤ × ℤ)} (h : OffsetsRise entries) {e last : ℤ × ℤ}
    (he : e ∈ entries) (hlast : entries.getLast? = some last) : e.1 ≤ last.1 := by
  rcases eq_or_rel_getLast h hlast he with rfl | hlt
  · exact le_rfl
  · exact hlt.le

namespace OffsetIndex

/-- `add`. -/
def add (index : OffsetIndex) (offset position : ℤ) : Except RelayError Unit × OffsetIndex :=
  if offset < index.baseOffset then
    (.error (.invalid (s!"offset {offset} is below the segment base "
      ++ s!"{index.baseOffset}; it belongs to a deleted segment, not this one")), index)
  else if index.entries.getLast?.any fun last => offset ≤ last.1 then
    (.error (.invalid ("index entries must be strictly increasing; a "
      ++ "record cannot index behind the last one")), index)
  else (.ok (), { index with entries := index.entries ++ [(offset, position)] })

/-- `floor_position`. -/
def floorPosition (index : OffsetIndex) (target : ℤ) : Except RelayError ℤ :=
  if target < index.baseOffset then
    .error (.missing (s!"offset {target} predates this segment's base "
      ++ s!"{index.baseOffset}; look in an earlier segment"))
  else .ok (floorSearch (fun e => e.1 ≤ target) Prod.snd index.entries 0)

/-- Adding keeps the entries in order. -/
theorem offsetsRise_add {index : OffsetIndex} (h : OffsetsRise index.entries)
    (offset position : ℤ) : OffsetsRise (index.add offset position).2.entries := by
  rw [add]
  split
  · exact h
  · split
    · exact h
    · next hlast =>
      refine pairwise_append_singleton.mpr ⟨h, fun e he => ?_⟩
      obtain ⟨last, hlast'⟩ := exists_getLast?_eq_some he
      have hlt : last.1 < offset := by simpa [hlast'] using hlast
      exact (h.le_getLast he hlast').trans_lt hlt

/-- Entries in order, none below the base, can be added one after the other. -/
theorem entries_foldl_add {index : OffsetIndex} {entries : List (ℤ × ℤ)}
    (h : OffsetsRise (index.entries ++ entries)) (hbase : ∀ e ∈ entries, index.baseOffset ≤ e.1) :
    (entries.foldl (fun index e => (index.add e.1 e.2).2) index).entries =
      index.entries ++ entries := by
  induction entries generalizing index with
  | nil => rw [List.foldl_nil, List.append_nil]
  | cons e entries ih =>
    obtain ⟨he, hrest⟩ := List.forall_mem_cons.mp hbase
    have hlast : ¬ (index.entries.getLast?.any fun last => decide (e.1 ≤ last.1)) = true := by
      rw [Option.any_eq_true]
      rintro ⟨last, hlast, hle⟩
      have hlt := (List.pairwise_append.mp h).2.2 last (List.mem_of_getLast? hlast) e
        List.mem_cons_self
      exact hlt.not_ge (of_decide_eq_true hle)
    have hadd : (index.add e.1 e.2).2 = { index with entries := index.entries ++ [e] } := by
      rw [add, if_neg he.not_gt, if_neg hlast]
    rw [List.append_cons] at h ⊢
    rw [List.foldl_cons, hadd]
    exact ih h hrest

/-- **Where a fetch begins**: at the last entry that is not past the target. -/
theorem floorPosition_eq {index : OffsetIndex} (h : OffsetsRise index.entries) {target : ℤ}
    (hbase : index.baseOffset ≤ target) {e : ℤ × ℤ} (he : e ∈ index.entries) (hle : e.1 ≤ target) :
    ∃ e' ∈ index.entries, e.1 ≤ e'.1 ∧ e'.1 ≤ target ∧ index.floorPosition target = .ok e'.2 := by
  have hsorted : index.entries.Pairwise fun a b => b.1 ≤ target → a.1 ≤ target :=
    h.imp fun hab hb => hab.le.trans hb
  obtain ⟨before, after, hcut⟩ := exists_cut (p := fun e : ℤ × ℤ => e.1 ≤ target) hsorted
  have hmem : e ∈ before := by
    rw [← hcut.append, List.mem_append] at he
    exact he.resolve_right fun habove => hcut.above e habove hle
  obtain ⟨e', hlast⟩ := exists_getLast?_eq_some hmem
  have hmem' : e' ∈ before := List.mem_of_getLast? hlast
  have hbefore : OffsetsRise before := (List.pairwise_append.mp (hcut.append ▸ h)).1
  refine ⟨e', hcut.append ▸ List.mem_append_left after hmem', hbefore.le_getLast hmem hlast,
    hcut.below e' hmem', ?_⟩
  rw [floorPosition, if_neg hbase.not_gt, floorSearch_eq hcut, hlast]
  rfl

end OffsetIndex

/-! ## Rebuilding -/

/-- What a broker needs to rebuild an index after a crash. -/
structure IndexRebuilder where
  interval : ℤ
  logEnd : ℤ
  entries : List (ℤ × ℤ) := []
  interval_pos : 1 ≤ interval

/-- Some entry does not come after the one before it. -/
def corruptLoop : List (ℤ × ℤ) → Bool
  | e :: e' :: rest => e'.1 ≤ e.1 || corruptLoop (e' :: rest)
  | _ => false

/-- The entry of a record, if it is to be indexed. -/
def entryAt (interval : ℤ) (positions : Dict ℤ ℤ) (offset : ℤ) : Option (ℤ × ℤ) :=
  if offset % interval = 0 then (positions.get? offset).map fun position => (offset, position)
  else none

/-- The loop of `rebuild`: the entries of a stretch of the log. -/
def scan (interval : ℤ) (positions : Dict ℤ ℤ) (start stop : ℤ) : List (ℤ × ℤ) :=
  (Int.range start stop).filterMap (entryAt interval positions)

namespace IndexRebuilder

/-- `is_corrupt`. -/
def isCorrupt (rebuilder : IndexRebuilder) : Bool := corruptLoop rebuilder.entries

/-- The offset of the last entry, or -1. -/
def lastIndexed (rebuilder : IndexRebuilder) : ℤ :=
  (rebuilder.entries.getLast?.map Prod.fst).getD (-1)

/-- `is_short`. -/
def isShort (rebuilder : IndexRebuilder) : Bool := rebuilder.lastIndexed < rebuilder.logEnd - 1

/-- `rebuild`. -/
def rebuild (rebuilder : IndexRebuilder) (positions : Dict ℤ ℤ) :
    Except RelayError String × IndexRebuilder :=
  if rebuilder.logEnd - 1 < rebuilder.lastIndexed then
    (.error (.invalid ("the log end is below the last indexed offset; the log "
      ++ "was truncated under the index, so truncate the index to "
      ++ "the log before scanning, not extend past gone data")), rebuilder)
  else
    let kept := if rebuilder.isCorrupt then [] else rebuilder.entries
    let start := if rebuilder.isCorrupt then 0 else rebuilder.lastIndexed + 1
    let rebuilt := kept ++ scan rebuilder.interval positions start rebuilder.logEnd
    (.ok (s!"rebuilt to {rebuilt.length} entry(ies) up to "
        ++ s!"log end {rebuilder.logEnd}"), { rebuilder with entries := rebuilt })

end IndexRebuilder

/-- The corruption test is exact. -/
theorem corruptLoop_eq_false_iff {entries : List (ℤ × ℤ)} :
    corruptLoop entries = false ↔ OffsetsRise entries := by
  fun_induction corruptLoop entries with
  | case1 e e' rest ih =>
    have hcons : OffsetsRise (e :: e' :: rest) ↔
        (∀ d ∈ e' :: rest, e.1 < d.1) ∧ OffsetsRise (e' :: rest) := List.pairwise_cons
    rw [Bool.or_eq_false_iff, ih, decide_eq_false_iff_not, not_le, hcons, List.forall_mem_cons]
    constructor
    · rintro ⟨hlt, hrest⟩
      exact ⟨⟨hlt, fun d hd => hlt.trans ((List.pairwise_cons.mp hrest).1 d hd)⟩, hrest⟩
    · rintro ⟨⟨hlt, -⟩, hrest⟩
      exact ⟨hlt, hrest⟩
  | case2 entries hshort =>
    refine iff_of_true rfl ?_
    rcases entries with - | ⟨e, - | ⟨e', rest⟩⟩
    · exact List.Pairwise.nil
    · exact List.pairwise_singleton ..
    · exact absurd rfl (hshort e e' rest)

section Scan

variable {interval : ℤ} {positions : Dict ℤ ℤ} {offset start middle stop : ℤ} {e : ℤ × ℤ}

theorem entryAt_eq_some_iff : entryAt interval positions offset = some e ↔
    e.1 = offset ∧ interval ∣ offset ∧ positions.get? offset = some e.2 := by
  obtain ⟨offset', position⟩ := e
  rw [entryAt, Int.dvd_iff_emod_eq_zero]
  split
  · next hdvd => simp [hdvd, eq_comm, and_comm]
  · next hdvd => simp [hdvd]

theorem mem_scan : e ∈ scan interval positions start stop ↔
    (start ≤ e.1 ∧ e.1 < stop) ∧ interval ∣ e.1 ∧ positions.get? e.1 = some e.2 := by
  simp only [scan, List.mem_filterMap, Int.mem_range_iff, entryAt_eq_some_iff]
  constructor
  · rintro ⟨offset, hrange, rfl, hdvd, hposition⟩
    exact ⟨hrange, hdvd, hposition⟩
  · rintro ⟨hrange, hdvd, hposition⟩
    exact ⟨e.1, hrange, rfl, hdvd, hposition⟩

theorem offsetsRise_scan (interval : ℤ) (positions : Dict ℤ ℤ) (start stop : ℤ) :
    OffsetsRise (scan interval positions start stop) := by
  have hrange : (Int.range start stop).Pairwise (· < ·) :=
    List.pairwise_map.mpr (List.pairwise_lt_range.imp fun hlt => by omega)
  refine List.pairwise_filterMap.mpr (hrange.imp fun {offset offset'} hlt e he e' he' => ?_)
  rwa [(entryAt_eq_some_iff.mp he).1, (entryAt_eq_some_iff.mp he').1]

/-- Scanning in two parts. -/
theorem scan_append (h : start ≤ middle) (h' : middle ≤ stop) :
    scan interval positions start middle ++ scan interval positions middle stop =
      scan interval positions start stop := by
  have hrange : Int.range start middle ++ Int.range middle stop = Int.range start stop := by
    have hlen : (stop - start).toNat = (middle - start).toNat + (stop - middle).toNat := by omega
    rw [Int.range, Int.range, Int.range, hlen, List.range_add, List.map_append, List.map_map]
    refine congrArg _ (List.map_congr_left fun n _ => ?_)
    show middle + (n : ℤ) = start + ((middle - start).toNat + n : ℕ)
    omega
  rw [scan, scan, ← List.filterMap_append, hrange, scan]

/-- A scan that goes on after the last entry of a beginning of the full index completes it. -/
theorem append_scan_of_isPrefix {entries : List (ℤ × ℤ)} {last : ℤ × ℤ}
    (hpre : entries <+: scan interval positions start stop) (hlast : entries.getLast? = some last) :
    entries ++ scan interval positions (last.1 + 1) stop = scan interval positions start stop := by
  obtain ⟨rest, hfull⟩ := hpre
  have hrise := offsetsRise_scan interval positions start stop
  rw [← hfull] at hrise
  obtain ⟨hentries, -, hrest⟩ := List.pairwise_append.mp hrise
  have hmem : last ∈ entries := List.mem_of_getLast? hlast
  obtain ⟨⟨hle, hlt⟩, -⟩ := mem_scan.mp (hfull ▸ List.mem_append_left rest hmem)
  -- both ways the full index is cut after the last entry
  have hcut : Cut (fun e : ℤ × ℤ => e.1 < last.1 + 1) (scan interval positions start stop)
      entries rest :=
    ⟨hfull, fun e he => Int.lt_add_one_of_le (OffsetsRise.le_getLast hentries he hlast),
      fun e he => not_lt.mpr (hrest last hmem e he)⟩
  have hcut' : Cut (fun e : ℤ × ℤ => e.1 < last.1 + 1) (scan interval positions start stop)
      (scan interval positions start (last.1 + 1)) (scan interval positions (last.1 + 1) stop) :=
    ⟨scan_append (by omega) hlt, fun e he => (mem_scan.mp he).1.2,
      fun e he => not_lt.mpr (mem_scan.mp he).1.1⟩
  rw [(hcut.unique hcut').1, hcut'.append]

end Scan

/-! ## Recovery -/

namespace IndexRebuilder

variable {rebuilder : IndexRebuilder} {positions : Dict ℤ ℤ}

/-- The rebuilder with no index to start from. -/
def emptied (rebuilder : IndexRebuilder) : IndexRebuilder := { rebuilder with entries := [] }

/-- The whole log scanned. -/
def fullScan (rebuilder : IndexRebuilder) (positions : Dict ℤ ℤ) : List (ℤ × ℤ) :=
  scan rebuilder.interval positions 0 rebuilder.logEnd

/-- What `rebuild` makes of entries that the scan completes. -/
theorem rebuild_of_append_scan (hlast : rebuilder.lastIndexed < rebuilder.logEnd)
    (hscan : (if rebuilder.isCorrupt then [] else rebuilder.entries) ++
      scan rebuilder.interval positions
        (if rebuilder.isCorrupt then 0 else rebuilder.lastIndexed + 1) rebuilder.logEnd =
      rebuilder.fullScan positions) :
    rebuilder.rebuild positions =
      (.ok (s!"rebuilt to {(rebuilder.fullScan positions).length} entry(ies) up to "
        ++ s!"log end {rebuilder.logEnd}"),
        { rebuilder with entries := rebuilder.fullScan positions }) := by
  rw [rebuild, if_neg (by omega)]
  dsimp only
  rw [hscan]

/-- A beginning of the full index, even an empty one, is completed. -/
theorem rebuild_of_isPrefix (hend : 0 ≤ rebuilder.logEnd)
    (hpre : rebuilder.entries <+: rebuilder.fullScan positions) :
    rebuilder.rebuild positions =
      (.ok (s!"rebuilt to {(rebuilder.fullScan positions).length} entry(ies) up to "
        ++ s!"log end {rebuilder.logEnd}"),
        { rebuilder with entries := rebuilder.fullScan positions }) := by
  have hrise : OffsetsRise rebuilder.entries :=
    (offsetsRise_scan _ positions 0 rebuilder.logEnd).sublist hpre.sublist
  have hsound : rebuilder.isCorrupt = false := corruptLoop_eq_false_iff.mpr hrise
  cases hlast : rebuilder.entries.getLast? with
  | none =>
    have hnil : rebuilder.entries = [] := List.getLast?_eq_none_iff.mp hlast
    have hindexed : rebuilder.lastIndexed = -1 := by rw [lastIndexed, hlast]; rfl
    refine rebuild_of_append_scan (by omega) ?_
    rw [hsound, hnil, hindexed]
    rfl
  | some last =>
    have hindexed : rebuilder.lastIndexed = last.1 := by rw [lastIndexed, hlast]; rfl
    have hmem := hpre.subset (List.mem_of_getLast? hlast)
    refine rebuild_of_append_scan (hindexed ▸ (mem_scan.mp hmem).1.2) ?_
    rw [hsound, hindexed]
    exact append_scan_of_isPrefix hpre hlast

/-- An index that is out of order is thrown away. -/
theorem rebuild_of_not_offsetsRise (hcorrupt : ¬ OffsetsRise rebuilder.entries)
    (hlast : rebuilder.lastIndexed < rebuilder.logEnd) :
    rebuilder.rebuild positions =
      (.ok (s!"rebuilt to {(rebuilder.fullScan positions).length} entry(ies) up to "
        ++ s!"log end {rebuilder.logEnd}"),
        { rebuilder with entries := rebuilder.fullScan positions }) := by
  have htorn : rebuilder.isCorrupt = true := by
    rw [← Bool.not_eq_false]
    exact fun h => hcorrupt (corruptLoop_eq_false_iff.mp h)
  refine rebuild_of_append_scan hlast ?_
  rw [htorn]
  rfl

/-- An index that is neither out of order nor short is left as it is. -/
theorem entries_rebuild_of_not_isShort (hrise : OffsetsRise rebuilder.entries)
    (hshort : rebuilder.isShort = false) :
    (rebuilder.rebuild positions).2.entries = rebuilder.entries := by
  have hsound : rebuilder.isCorrupt = false := corruptLoop_eq_false_iff.mpr hrise
  have hlast : rebuilder.logEnd - 1 ≤ rebuilder.lastIndexed :=
    not_lt.mp (of_decide_eq_false hshort)
  rw [rebuild]
  split
  · rfl
  · have hnothing : Int.range (rebuilder.lastIndexed + 1) rebuilder.logEnd = [] := by
      rw [Int.range, Int.toNat_of_nonpos (by omega)]
      rfl
    dsimp only
    rw [hsound, if_neg Bool.false_ne_true, if_neg Bool.false_ne_true, scan, hnothing]
    exact List.append_nil _

/-- On the full index a fetch begins less than an interval before its target. -/
theorem exists_floorPosition_eq (index : OffsetIndex)
    (hentries : index.entries = rebuilder.fullScan positions) (hbase : index.baseOffset ≤ 0)
    (hpositions : ∀ o, 0 ≤ o → o < rebuilder.logEnd → rebuilder.interval ∣ o →
      ∃ p, positions.get? o = some p) {t : ℤ} (ht : 0 ≤ t) (hlt : t < rebuilder.logEnd) :
    ∃ o p, 0 ≤ o ∧ o ≤ t ∧ t - o < rebuilder.interval ∧ positions.get? o = some p ∧
      index.floorPosition t = .ok p := by
  have hpos := rebuilder.interval_pos
  have hmod := Int.emod_nonneg t (show rebuilder.interval ≠ 0 by omega)
  have hmod' := Int.emod_lt_of_pos t (show 0 < rebuilder.interval by omega)
  have hdiv := Int.mul_ediv_add_emod t rebuilder.interval
  have hquot : 0 ≤ rebuilder.interval * (t / rebuilder.interval) :=
    Int.mul_nonneg (by omega) (Int.ediv_nonneg ht (by omega))
  -- the last multiple of the interval up to the target is indexed
  obtain ⟨p, hp⟩ := hpositions (rebuilder.interval * (t / rebuilder.interval)) hquot (by omega)
    (Int.dvd_mul_right _ _)
  have hmem : (rebuilder.interval * (t / rebuilder.interval), p) ∈ index.entries := by
    rw [hentries]
    exact mem_scan.mpr
      ⟨⟨hquot, by show rebuilder.interval * _ < _; omega⟩, Int.dvd_mul_right _ _, hp⟩
  have hrise : OffsetsRise index.entries := hentries ▸ offsetsRise_scan _ _ _ _
  obtain ⟨e, he, hle, hfloor, hok⟩ := index.floorPosition_eq hrise (hbase.trans ht) hmem
    (by show rebuilder.interval * _ ≤ _; omega)
  rw [hentries] at he
  obtain ⟨⟨hstart, -⟩, -, hposition⟩ := mem_scan.mp he
  exact ⟨e.1, e.2, hstart, hfloor, by dsimp only at hle; omega, hposition, hok⟩

/-- **Rebuilding recovers the index.** Let the log have records from 0 up to its end. A rebuild from
an empty index succeeds, and gives the full index. A rebuild from any beginning of the full index,
and one from any index that is out of order and whose last offset is in the log, do the same in
every respect. If the positions of the records to be indexed are known, a fetch of any offset in
the log begins, on the full index, at the position of a record that is not past the offset and less
than an interval before it. -/
theorem rebuild_eq_rebuild_emptied (rebuilder : IndexRebuilder) (positions : Dict ℤ ℤ)
    (hend : 0 ≤ rebuilder.logEnd) :
    (∃ note, (rebuilder.emptied.rebuild positions).1 = .ok note) ∧
      (rebuilder.entries <+: (rebuilder.emptied.rebuild positions).2.entries →
        rebuilder.rebuild positions = rebuilder.emptied.rebuild positions) ∧
      (¬ OffsetsRise rebuilder.entries →
        (∀ last ∈ rebuilder.entries.getLast?, last.1 < rebuilder.logEnd) →
          rebuilder.rebuild positions = rebuilder.emptied.rebuild positions) ∧
      ((∀ o, 0 ≤ o → o < rebuilder.logEnd → rebuilder.interval ∣ o →
          ∃ p, positions.get? o = some p) →
        ∀ index : OffsetIndex, index.baseOffset ≤ 0 →
          index.entries = (rebuilder.emptied.rebuild positions).2.entries →
            ∀ t, 0 ≤ t → t < rebuilder.logEnd →
              ∃ o p, 0 ≤ o ∧ o ≤ t ∧ t - o < rebuilder.interval ∧ positions.get? o = some p ∧
                index.floorPosition t = .ok p) := by
  have hlogEnd : 0 ≤ rebuilder.emptied.logEnd := hend
  have hempty : rebuilder.emptied.entries <+: rebuilder.emptied.fullScan positions :=
    List.nil_prefix
  rw [rebuild_of_isPrefix hlogEnd hempty]
  refine ⟨⟨_, rfl⟩, fun hpre => rebuild_of_isPrefix hend hpre, fun hcorrupt hlast => ?_,
    fun hpositions index hbase hentries t ht hlt =>
      exists_floorPosition_eq index hentries hbase hpositions ht hlt⟩
  refine rebuild_of_not_offsetsRise hcorrupt ?_
  rw [lastIndexed]
  cases hget : rebuilder.entries.getLast? with
  | none => exact absurd (List.getLast?_eq_none_iff.mp hget ▸ List.Pairwise.nil) hcorrupt
  | some last => exact hlast last hget

/-- An index that has only its first entry left. -/
theorem rebuild_eq_rebuild_emptied_short :
    ((IndexRebuilder.mk 4 10 [(0, 0)] (by decide)).rebuild
      (.ofList [(0, 0), (4, 40), (8, 80)])).2.entries = [(0, 0), (4, 40), (8, 80)] := by
  have h := (rebuild_eq_rebuild_emptied (.mk 4 10 [(0, 0)] (by decide))
    (.ofList [(0, 0), (4, 40), (8, 80)]) (by decide)).2.1 ⟨[(4, 40), (8, 80)], rfl⟩
  rw [h]
  rfl

end IndexRebuilder

end Relay
