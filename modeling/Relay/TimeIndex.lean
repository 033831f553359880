import Relay.Errors
import Relay.Lib.Bisection
import Relay.Lib.Machine
import Relay.Lib.Timeline

/-!
# The time index

A consumer that wants everything since some time needs the offset of the first record that was
received then or later. The broker keeps the receive time of every so many records, with their
offsets, and looks the time up by halving. Times do not go back, and a time that is already in the
index is not entered again.

The lookup takes the first entry at or after the time, and the log end when all entries are before
it. Between two entries, and after the last one, that is too late: the first record at or after the
time may stand anywhere before the entry. `offsetForTime_le_iff` says for which times it does not.

## Main definitions

* `TimeIndex`, with `onAppend` and `offsetForTime`
* `TimeIndex.ofTimes`: the index of a log with given receive times
* `Samples`: what the index knows of the receive times

## Main results

* `samples_ofTimes`: every entry is a record, and every record that was due has its time in the
  index
* `offsetForTime_le_iff`: a seek does not skip a record exactly when the first record at or after
  the time is one that was due
-/

namespace Relay

open Timeline

/-- The sampled receive times of a log. -/
structure TimeIndex where
  interval : ℤ
  entries : List (ℤ × ℤ) := []
  recordsSeen : ℤ := 0
  logStart : ℤ := 0
  logEnd : ℤ := 0
  interval_pos : 1 ≤ interval

namespace TimeIndex

/-- `on_append`. -/
def onAppend (index : TimeIndex) (receiveTime offset : ℤ) : TimeIndex :=
  { index with
    entries :=
      if index.recordsSeen % index.interval = 0 ∧
          index.entries.getLast?.all fun last => last.1 < receiveTime then
        index.entries ++ [(receiveTime, offset)]
      else index.entries
    recordsSeen := index.recordsSeen + 1
    logStart := if index.recordsSeen = 0 then offset else index.logStart
    logEnd := offset + 1 }

/-- `bisect.bisect_left`, in a list in order. -/
def bisectLeft (times : List ℤ) (target : ℤ) : ℕ := bisect (· < target) times 0 times.length

/-- `offset_for_time`. The slot is one of the entries, since the last is not before the target. -/
def offsetForTime (index : TimeIndex) (targetTime : ℤ) : Except RelayError (ℤ × String) :=
  match index.entries.head?, index.entries.getLast? with
  | some first, some last =>
    if targetTime ≤ first.1 then
      .ok (index.logStart, "seek before the first indexed time; returning the log start")
    else if last.1 < targetTime then
      .ok (index.logEnd, "seek after the last indexed time; returning the log end")
    else
      let slot := bisectLeft (index.entries.map Prod.fst) targetTime
      let offset := (index.entries.getD slot last).2
      .ok (offset, s!"nearest ingest time at or after {targetTime} is "
        ++ s!"offset {offset}; this is broker receive time, not "
        ++ "producer event time, off by the ingest delay")
  | _, _ => .error (.invalid "the time index is empty")

/-- The index of a log that starts at an offset and whose records were received at these times. -/
def ofTimes (interval : ℤ) (hinterval : 1 ≤ interval) (start : ℤ) (times : List ℤ) : TimeIndex :=
  times.zipIdx.foldl (fun index record => index.onAppend record.1 (start + record.2))
    { interval := interval, interval_pos := hinterval }

theorem ofTimes_append_singleton (interval : ℤ) (hinterval : 1 ≤ interval) (start : ℤ)
    (times : List ℤ) (t : ℤ) :
    ofTimes interval hinterval start (times ++ [t]) =
      (ofTimes interval hinterval start times).onAppend t (start + times.length) := by
  rw [ofTimes, List.zipIdx_append, List.foldl_append]
  simp [ofTimes]

end TimeIndex

/-! ## What the index knows -/

/-- The index has seen the records of a log: its entries are records that were due, in order, and
the time of every record that was due is that of an entry no later. -/
structure Samples (interval start : ℤ) (times : List ℤ) (index : TimeIndex) : Prop where
  interval_eq : index.interval = interval
  recordsSeen : index.recordsSeen = times.length
  logStart : times ≠ [] → index.logStart = start
  logEnd : times ≠ [] → index.logEnd = start + times.length
  ordered : Ordered index.entries
  sound : ∀ e ∈ index.entries, ∃ k : ℕ, times[k]? = some e.1 ∧ e.2 = start + k ∧ interval ∣ k
  covers : ∀ (k : ℕ) t, times[k]? = some t → interval ∣ k →
    ∃ o, (t, o) ∈ index.entries ∧ o ≤ start + k

/-- The record after these is due, and the last entry is before it. -/
theorem Samples.entries_onAppend {interval start : ℤ} {times : List ℤ} {index : TimeIndex}
    (h : Samples interval start times index) (t offset : ℤ) :
    (index.onAppend t offset).entries = index.entries ++ [(t, offset)] ∧
        interval ∣ times.length ∧ (∀ last ∈ index.entries.getLast?, last.1 < t) ∨
      (index.onAppend t offset).entries = index.entries ∧
        (interval ∣ times.length → ∃ last ∈ index.entries.getLast?, t ≤ last.1) := by
  by_cases hdue : index.recordsSeen % index.interval = 0 ∧
      index.entries.getLast?.all fun last => last.1 < t
  · refine .inl ⟨if_pos hdue, ?_, ?_⟩
    · rw [← h.recordsSeen, ← h.interval_eq]
      exact Int.dvd_of_emod_eq_zero hdue.1
    · simpa [Option.all_eq_true] using hdue.2
  · refine .inr ⟨if_neg hdue, fun hdvd => ?_⟩
    rw [← h.recordsSeen, ← h.interval_eq] at hdvd
    simpa [Int.emod_eq_zero_of_dvd hdvd, Option.all_eq_false] using hdue

/-- Entries are of records: no later than the next one, and before it. -/
theorem Samples.le_of_mem {interval start : ℤ} {times : List ℤ} {index : TimeIndex} {t : ℤ}
    (h : Samples interval start times index) (hsorted : ∀ t' ∈ times, t' ≤ t) {e : ℤ × ℤ}
    (he : e ∈ index.entries) : e.1 ≤ t ∧ e.2 ≤ start + times.length := by
  obtain ⟨k, hk, hoffset, -⟩ := h.sound e he
  have hlt : k < times.length := (List.getElem?_eq_some_iff.mp hk).1
  exact ⟨hsorted e.1 (List.mem_of_getElem? hk), by omega⟩

/-- The first record says where the log starts. -/
theorem Samples.logStart_onAppend {interval start : ℤ} {times : List ℤ} {index : TimeIndex}
    (h : Samples interval start times index) (t : ℤ) :
    (index.onAppend t (start + times.length)).logStart = start := by
  show (if index.recordsSeen = 0 then start + (times.length : ℤ) else index.logStart) = start
  rw [h.recordsSeen]
  split
  · omega
  · next hne => exact h.logStart fun hnil => hne (by rw [hnil]; rfl)

theorem Samples.onAppend {interval start : ℤ} {times : List ℤ} {index : TimeIndex} {t : ℤ}
    (h : Samples interval start times index) (hsorted : ∀ t' ∈ times, t' ≤ t) :
    Samples interval start (times ++ [t]) (index.onAppend t (start + times.length)) := by
  have hsound : ∀ e ∈ index.entries,
      ∃ k : ℕ, (times ++ [t])[k]? = some e.1 ∧ e.2 = start + k ∧ interval ∣ k := by
    intro e he
    obtain ⟨k, hk, hoffset, hdvd⟩ := h.sound e he
    exact ⟨k, getElem?_append_singleton_eq_some.mpr (.inl hk), hoffset, hdvd⟩
  have hstart := h.logStart_onAppend t
  have hcounts : (index.onAppend t (start + times.length)).recordsSeen = (times ++ [t]).length ∧
      (index.onAppend t (start + times.length)).logEnd = start + (times ++ [t]).length := by
    rw [List.length_append, List.length_singleton]
    push_cast
    exact ⟨congrArg (· + 1) h.recordsSeen, add_assoc _ _ _⟩
  rcases h.entries_onAppend t (start + times.length) with
    ⟨hentries, hdvd, hlast⟩ | ⟨hentries, hlast⟩
  · refine ⟨h.interval_eq, hcounts.1, fun _ => hstart, fun _ => hcounts.2, ?_, ?_, ?_⟩
    · rw [hentries]
      refine pairwise_append_singleton.mpr ⟨h.ordered, fun e he => ⟨?_, (h.le_of_mem hsorted he).2⟩⟩
      obtain ⟨last, hlast'⟩ := exists_getLast?_eq_some he
      exact (h.ordered.fst_le_getLast hlast' he).trans_lt (hlast last hlast')
    · rw [hentries]
      exact forall_mem_append_singleton.mpr
        ⟨hsound, times.length, List.getElem?_concat_length, rfl, hdvd⟩
    · intro k t' hk hdvd'
      rw [hentries]
      rcases getElem?_append_singleton_eq_some.mp hk with hk | ⟨rfl, rfl⟩
      · obtain ⟨o, ho, hle⟩ := h.covers k t' hk hdvd'
        exact ⟨o, List.mem_append_left _ ho, hle⟩
      · exact ⟨_, List.mem_append_right _ (List.mem_singleton_self _), le_rfl⟩
  · refine ⟨h.interval_eq, hcounts.1, fun _ => hstart, fun _ => hcounts.2, hentries ▸ h.ordered,
      hentries ▸ hsound, fun k t' hk hdvd => ?_⟩
    rw [hentries]
    rcases getElem?_append_singleton_eq_some.mp hk with hk | ⟨rfl, rfl⟩
    · exact h.covers k t' hk hdvd
    · -- due, but its time is that of the last entry
      obtain ⟨last, hlast, hle⟩ := hlast hdvd
      have hmem : last ∈ index.entries := List.mem_of_getLast? hlast
      obtain ⟨htime, hoffset⟩ := h.le_of_mem hsorted hmem
      refine ⟨last.2, ?_, hoffset⟩
      rwa [show t = last.1 from hle.antisymm htime]

theorem samples_ofTimes (interval : ℤ) (hinterval : 1 ≤ interval) (start : ℤ) {times : List ℤ}
    (hsorted : times.Pairwise (· ≤ ·)) :
    Samples interval start times (.ofTimes interval hinterval start times) := by
  induction times using List.reverseRecOn with
  | nil =>
    exact ⟨rfl, rfl, fun h => absurd rfl h, fun h => absurd rfl h, List.Pairwise.nil,
      fun e he => (by cases he), fun k t hk => (by simp at hk)⟩
  | append_singleton times t ih =>
    obtain ⟨htimes, -, ht⟩ := List.pairwise_append.mp hsorted
    rw [TimeIndex.ofTimes_append_singleton]
    exact (ih htimes).onAppend fun t' ht' => ht t' ht' t (List.mem_singleton_self t)

/-! ## What a seek finds -/

/-- The slot of a time that is not past the last entry has the first entry at or after it. -/
theorem TimeIndex.exists_slot {entries : List (ℤ × ℤ)} (h : Ordered entries) {last : ℤ × ℤ}
    {target : ℤ} (hlast : last ∈ entries) (hle : target ≤ last.1) :
    ∃ e, entries[bisectLeft (entries.map Prod.fst) target]? = some e ∧ target ≤ e.1 ∧
      ∀ e' ∈ entries, target ≤ e'.1 → e.2 ≤ e'.2 := by
  have hsorted : entries.Pairwise fun a b => b.1 < target → a.1 < target :=
    h.imp fun hab hb => hab.1.trans hb
  obtain ⟨before, after, hcut⟩ := exists_cut (p := fun e : ℤ × ℤ => e.1 < target) hsorted
  have hslot : bisectLeft (entries.map Prod.fst) target = before.length := by
    have hlen := hcut.length_le
    rw [bisectLeft, bisect_eq (hcut.map (q := (· < target))) (Nat.zero_le _)
      (by rwa [List.length_map, List.length_map]), List.length_map]
  have hafter : last ∈ after := by
    rw [← hcut.append, List.mem_append] at hlast
    exact hlast.resolve_left fun hbelow => (hcut.below last hbelow).not_ge hle
  obtain ⟨e, rest, rfl⟩ := List.exists_cons_of_ne_nil (List.ne_nil_of_mem hafter)
  have he : ¬ e.1 < target := hcut.above e List.mem_cons_self
  refine ⟨e, ?_, not_lt.mp he, fun e' he' hle' => ?_⟩
  · rw [hslot, ← hcut.append, List.getElem?_append_right le_rfl, Nat.sub_self]
    rfl
  · rw [← hcut.append, List.mem_append] at he'
    have hmem : e' ∈ e :: rest := he'.resolve_left fun hbelow => (hcut.below e' hbelow).not_ge hle'
    rw [← hcut.append] at h
    rcases List.mem_cons.mp hmem with rfl | hrest
    · exact le_rfl
    · exact ((List.pairwise_cons.mp (List.pairwise_append.mp h).2.1).1 e' hrest).2

/-- What `offset_for_time` answers, by where the time lies among the entries. -/
theorem TimeIndex.offsetForTime_cases {index : TimeIndex} (h : Ordered index.entries)
    {target offset : ℤ} {note : String} (hok : index.offsetForTime target = .ok (offset, note)) :
    (∃ first ∈ index.entries, (∀ e ∈ index.entries, first.1 ≤ e.1) ∧ target ≤ first.1 ∧
        offset = index.logStart) ∨
      (index.entries ≠ [] ∧ (∀ e ∈ index.entries, e.1 < target) ∧ offset = index.logEnd) ∨
      ∃ e ∈ index.entries, target ≤ e.1 ∧ offset = e.2 ∧
        ∀ e' ∈ index.entries, target ≤ e'.1 → e.2 ≤ e'.2 := by
  rw [offsetForTime] at hok
  split at hok
  · next first last hfirst hlast =>
    have hmem : last ∈ index.entries := List.mem_of_getLast? hlast
    split at hok
    · next hle =>
      obtain ⟨rfl, -⟩ := Prod.mk.inj (Except.ok.inj hok)
      exact .inl ⟨first, List.mem_of_head? hfirst, fun e he => h.fst_head_le hfirst he, hle, rfl⟩
    · next hnle =>
      split at hok
      · next hlt =>
        obtain ⟨rfl, -⟩ := Prod.mk.inj (Except.ok.inj hok)
        exact .inr (.inl ⟨List.ne_nil_of_mem hmem,
          fun e he => (h.fst_le_getLast hlast he).trans_lt hlt, rfl⟩)
      · next hnlt =>
        obtain ⟨hoffset, -⟩ := Prod.mk.inj (Except.ok.inj hok)
        obtain ⟨e, hslot, hle, hmin⟩ := exists_slot h hmem (not_lt.mp hnlt)
        rw [List.getD_eq_getElem?_getD, hslot, Option.getD_some] at hoffset
        exact .inr (.inr ⟨e, List.mem_of_getElem? hslot, hle, hoffset.symm, hmin⟩)
  · cases hok

/-- The position of the first record received at or after a time. -/
def firstFrom (times : List ℤ) (target : ℤ) : Option ℕ := times.findIdx? fun t => target ≤ t

theorem firstFrom_eq_some_iff {times : List ℤ} {target : ℤ} {k : ℕ} :
    firstFrom times target = some k ↔ (∃ t, times[k]? = some t ∧ target ≤ t) ∧
      ∀ j < k, ∀ t, times[j]? = some t → t < target := by
  rw [firstFrom, List.findIdx?_eq_some_iff_getElem]
  constructor
  · rintro ⟨hk, hle, hbefore⟩
    refine ⟨⟨times[k], List.getElem?_eq_getElem hk, of_decide_eq_true hle⟩, fun j hj t ht => ?_⟩
    obtain ⟨hlt, rfl⟩ := List.getElem?_eq_some_iff.mp ht
    simpa using hbefore j hj
  · rintro ⟨⟨t, ht, hle⟩, hbefore⟩
    obtain ⟨hk, rfl⟩ := List.getElem?_eq_some_iff.mp ht
    refine ⟨hk, decide_eq_true hle, fun j hj => ?_⟩
    have hlt := hbefore j hj _ (List.getElem?_eq_getElem (hj.trans hk))
    simpa using hlt

theorem firstFrom_eq_none_iff {times : List ℤ} {target : ℤ} :
    firstFrom times target = none ↔ ∀ t ∈ times, t < target := by
  rw [firstFrom, List.findIdx?_eq_none_iff]
  simp

namespace Samples

variable {interval start : ℤ} {times : List ℤ} {index : TimeIndex} {target offset : ℤ}
  {note : String} {k : ℕ}

/-- An index that has seen a record answers. -/
theorem exists_offsetForTime_eq_ok (h : Samples interval start times index) (hne : times ≠ [])
    (target : ℤ) : ∃ offset note, index.offsetForTime target = .ok (offset, note) := by
  have hlt : 0 < times.length := List.length_pos_iff.mpr hne
  obtain ⟨o, ho, -⟩ := h.covers 0 _ (List.getElem?_eq_getElem hlt) (Int.dvd_zero interval)
  obtain ⟨first, hfirst⟩ := exists_head?_eq_some ho
  obtain ⟨last, hlast⟩ := exists_getLast?_eq_some ho
  rw [TimeIndex.offsetForTime, hfirst, hlast]
  dsimp only
  split
  · exact ⟨_, _, rfl⟩
  · split
    · exact ⟨_, _, rfl⟩
    · exact ⟨_, _, rfl⟩

/-- An answer that skips no record is that of a record that was due. -/
theorem dvd_of_le (h : Samples interval start times index)
    (hok : index.offsetForTime target = .ok (offset, note))
    (hfirst : firstFrom times target = some k) (hle : offset ≤ start + k) : interval ∣ k := by
  obtain ⟨⟨t, ht, htarget⟩, hbefore⟩ := firstFrom_eq_some_iff.mp hfirst
  have hlt : k < times.length := (List.getElem?_eq_some_iff.mp ht).1
  rcases TimeIndex.offsetForTime_cases h.ordered hok with
    ⟨first, -, hhead, hseek, -⟩ | ⟨-, -, rfl⟩ | ⟨e, he, hseek, rfl, -⟩
  · -- not after the first record
    have hzero : times[0]? = some times[0] := List.getElem?_eq_getElem (Nat.zero_lt_of_lt hlt)
    obtain ⟨o, ho, -⟩ := h.covers 0 _ hzero (Int.dvd_zero interval)
    obtain rfl : k = 0 := by
      by_contra hk
      have hbelow := hbefore 0 (Nat.pos_of_ne_zero hk) _ hzero
      exact absurd (hseek.trans (hhead _ ho)) hbelow.not_ge
    exact Int.dvd_zero interval
  · rw [h.logEnd (List.ne_nil_of_length_pos (Nat.zero_lt_of_lt hlt))] at hle
    omega
  · obtain ⟨j, hj, hoffset, hdvd⟩ := h.sound e he
    have hkj : ¬ j < k := fun hjk => (hbefore j hjk e.1 hj).not_ge hseek
    rwa [show k = j by omega]

/-- A record that was due is not skipped, and if every first record at or after the time was due,
the answer is the log end only if there is none. -/
theorem le_of_dvd (h : Samples interval start times index)
    (hok : index.offsetForTime target = .ok (offset, note))
    (hdvd : ∀ k, firstFrom times target = some k → interval ∣ k) :
    (∀ k, firstFrom times target = some k → offset ≤ start + k) ∧
      (offset = index.logEnd → ∀ t ∈ times, t < target) := by
  have hdue (k : ℕ) (hk : firstFrom times target = some k) :
      ∃ t o, (t, o) ∈ index.entries ∧ target ≤ t ∧ o ≤ start + k := by
    obtain ⟨⟨t, ht, htarget⟩, -⟩ := firstFrom_eq_some_iff.mp hk
    obtain ⟨o, ho, hle⟩ := h.covers k t ht (hdvd k hk)
    exact ⟨t, o, ho, htarget, hle⟩
  rcases TimeIndex.offsetForTime_cases h.ordered hok with
    ⟨first, hfirst, -, -, rfl⟩ | ⟨-, hall, rfl⟩ | ⟨e, he, -, rfl, hmin⟩
  · obtain ⟨j, hj, -⟩ := h.sound first hfirst
    have hlt : j < times.length := (List.getElem?_eq_some_iff.mp hj).1
    have hne : times ≠ [] := List.ne_nil_of_length_pos (Nat.zero_lt_of_lt hlt)
    rw [h.logStart hne, h.logEnd hne]
    exact ⟨fun k _ => by omega, fun heq => by omega⟩
  · have hnone : firstFrom times target = none := by
      rw [Option.eq_none_iff_forall_ne_some]
      intro k hk
      obtain ⟨t, o, ho, htarget, -⟩ := hdue k hk
      exact (hall _ ho).not_ge htarget
    refine ⟨fun k hk => ?_, fun _ => firstFrom_eq_none_iff.mp hnone⟩
    rw [hnone] at hk
    cases hk
  · constructor
    · intro k hk
      obtain ⟨t, o, ho, htarget, hle⟩ := hdue k hk
      exact (hmin _ ho htarget).trans hle
    · intro heq
      obtain ⟨j, hj, hoffset, -⟩ := h.sound e he
      have hlt : j < times.length := (List.getElem?_eq_some_iff.mp hj).1
      rw [h.logEnd (List.ne_nil_of_length_pos (Nat.zero_lt_of_lt hlt))] at heq
      omega

end Samples

/-- **When a seek skips no record.** Let a log start at an offset and receive its records at times
that do not go back. Seeking a time gives an offset no later than that of the first record received
at or after it, and the log end only if there is none, exactly when the number of records before
that first record, if there is one, is a multiple of the index interval. -/
theorem offsetForTime_le_iff (interval : ℤ) (hinterval : 1 ≤ interval) (start : ℤ)
    (times : List ℤ) (hsorted : times.Pairwise (· ≤ ·)) (target : ℤ) :
    (∀ offset note,
        (TimeIndex.ofTimes interval hinterval start times).offsetForTime target =
            .ok (offset, note) →
          (∀ k, firstFrom times target = some k → offset ≤ start + k) ∧
            (offset = (TimeIndex.ofTimes interval hinterval start times).logEnd →
              ∀ t ∈ times, t < target)) ↔
      ∀ k, firstFrom times target = some k → interval ∣ k := by
  have hsamples := samples_ofTimes interval hinterval start hsorted
  constructor
  · intro h k hk
    have hne : times ≠ [] := by
      rintro rfl
      cases hk
    obtain ⟨offset, note, hok⟩ := hsamples.exists_offsetForTime_eq_ok hne target
    exact hsamples.dvd_of_le hok hk ((h offset note hok).1 k hk)
  · exact fun hdvd offset note hok => hsamples.le_of_dvd hok hdvd

/-- A seek to the time of a record that was due. -/
theorem offsetForTime_le_at_due_record :
    ∃ offset note, (TimeIndex.ofTimes 2 (by decide) 0 [0, 5, 10]).offsetForTime 10 =
      .ok (offset, note) ∧ offset ≤ 2 := by
  have hsorted : [0, 5, 10].Pairwise ((· ≤ ·) : ℤ → ℤ → Prop) := by decide
  obtain ⟨offset, note, hok⟩ := (samples_ofTimes 2 (by decide) 0 hsorted).exists_offsetForTime_eq_ok
    (by decide) 10
  have h := (offsetForTime_le_iff 2 (by decide) 0 [0, 5, 10] hsorted 10).mpr fun k hk => by
    obtain rfl : 2 = k := Option.some.inj hk
    decide
  exact ⟨offset, note, hok, (h offset note hok).1 2 rfl⟩

/-- The second of three records is not in the index, and a seek to a time just before it goes on to
the third. If the third has not come yet, the seek goes to the log end. -/
theorem offsetForTime_skips_record :
    firstFrom [0, 5, 10] 3 = some 1 ∧
      ((TimeIndex.ofTimes 2 (by decide) 0 [0, 5, 10]).offsetForTime 3).map Prod.fst = .ok 2 ∧
      firstFrom [0, 5] 3 = some 1 ∧
      ((TimeIndex.ofTimes 2 (by decide) 0 [0, 5]).offsetForTime 3).map Prod.fst = .ok 2 := by
  exact ⟨rfl, by decide +kernel, rfl, by decide +kernel⟩

end Relay
