import Relay.Errors
import Relay.Lib.Timeline
import Mathlib.Data.Int.Notation
import Mathlib.Order.Lattice

/-!
# The leader epoch cache

For each leader epoch the broker remembers, the offset at which that epoch's records began. A
follower asks for the end of an epoch: the start of the next one, or the end of the log for the
current one.

`lt_endOffsetFor_iff` puts the loop into one condition. Whether the epoch asked about is in the
cache, lies in a gap between two of its epochs, or is newer than all of them, the answer is the
start of the first newer epoch, or the log end when there is none. An epoch the leader never had
is answered as if it had been the one before it.

When the start of the log moves up, epochs are forgotten by where they began and not by where they
ended. The epoch that the new start falls into began below it, so it is forgotten with its records
still in the log, unless it is the last one (`endOffsetFor_dropBelow_eq_iff`).

## Scope

The text that names the first and the last epoch is left out.

## Main definitions

* `LeaderEpochCache`, with `assign`, `endOffsetFor`, `truncateFrom` and `dropBelow`

## Main results

* `lt_endOffsetFor_iff`: what lies below the end of an epoch
* `endOffsetFor_dropBelow_eq_iff`: when forgetting epochs leaves an answer as it was
-/

namespace Relay

open Timeline

/-- The epochs a broker led, each with the offset its records began at. -/
structure LeaderEpochCache where
  logEnd : ℤ := 0
  entries : List (ℤ × ℤ) := []
  deriving DecidableEq

namespace LeaderEpochCache

/-- `assign`: refused unless the epoch exceeds the last one recorded. -/
def assign (cache : LeaderEpochCache) (epoch startOffset : ℤ) :
    Except RelayError Unit × LeaderEpochCache :=
  match cache.entries.getLast? with
  | some last =>
    if epoch ≤ last.1 then
      (.error (.invalid (s!"epoch {epoch} does not exceed the last recorded "
        ++ s!"epoch {last.1}; a leader epoch only ever increases")), cache)
    else (.ok (), { cache with entries := cache.entries ++ [(epoch, startOffset)] })
  | none => (.ok (), { cache with entries := cache.entries ++ [(epoch, startOffset)] })

/-- The loop of `end_offset_for`. -/
def endOffsetLoop (logEnd epoch : ℤ) : List (ℤ × ℤ) → ℤ
  | (ep, start) :: rest =>
    if ep = epoch then
      match rest.head? with
      | some next => next.2
      | none => logEnd
    else if ep > epoch then start
    else endOffsetLoop logEnd epoch rest
  | [] => logEnd

/-- `end_offset_for`. -/
def endOffsetFor (cache : LeaderEpochCache) (epoch : ℤ) : Except RelayError ℤ :=
  match cache.entries.head? with
  | none =>
    .error (.missing (s!"epoch {epoch} is older than the cache remembers; "
      ++ "the follower must fall back to the log start"))
  | some first =>
    if epoch < first.1 then
      .error (.missing (s!"epoch {epoch} is older than the cache remembers; "
        ++ "the follower must fall back to the log start"))
    else .ok (endOffsetLoop cache.logEnd epoch cache.entries)

/-- `truncate_from`: how many entries it dropped, and the cache afterwards. -/
def truncateFrom (cache : LeaderEpochCache) (offset : ℤ) : ℕ × LeaderEpochCache :=
  let kept := cache.entries.filter fun e => decide (e.2 < offset)
  (cache.entries.length - kept.length, { entries := kept, logEnd := min cache.logEnd offset })

/-- `drop_below`: the last entry stays even when it is below the log start. -/
def dropBelow (cache : LeaderEpochCache) (logStart : ℤ) : ℕ × LeaderEpochCache :=
  let above := cache.entries.filter fun e => decide (e.2 ≥ logStart)
  let kept := if above = [] then cache.entries.getLast?.toList else above
  (cache.entries.length - kept.length, { cache with entries := kept })

/-- Recording epochs in order of their starts keeps the history ordered. -/
theorem ordered_assign {cache : LeaderEpochCache} (h : Ordered cache.entries)
    {epoch startOffset : ℤ} (hstart : ∀ e ∈ cache.entries, e.2 ≤ startOffset) :
    Ordered (cache.assign epoch startOffset).2.entries := by
  have hsnoc : (∀ e ∈ cache.entries, e.1 < epoch) →
      Ordered (cache.entries ++ [(epoch, startOffset)]) := by
    intro hlt
    exact pairwise_append_singleton.mpr ⟨h, fun a ha => ⟨hlt a ha, hstart a ha⟩⟩
  rw [assign]
  cases hlast : cache.entries.getLast? with
  | none =>
    rw [List.getLast?_eq_none_iff] at hlast
    exact hsnoc (by simp [hlast])
  | some last =>
    dsimp only
    split
    · exact h
    · next hgt => exact hsnoc fun e he => (h.fst_le_getLast hlast he).trans_lt (not_le.mp hgt)

theorem ordered_truncateFrom {cache : LeaderEpochCache} (h : Ordered cache.entries) (offset : ℤ) :
    Ordered (cache.truncateFrom offset).2.entries :=
  h.filter _

theorem ordered_dropBelow {cache : LeaderEpochCache} (h : Ordered cache.entries) (logStart : ℤ) :
    Ordered (cache.dropBelow logStart).2.entries := by
  rw [dropBelow]
  dsimp only
  split
  · cases cache.entries.getLast? with
    | none => exact List.Pairwise.nil
    | some last => exact List.pairwise_singleton ..
  · exact h.filter _

/-- The offsets below the loop's answer. -/
theorem lt_endOffsetLoop_iff {entries : List (ℤ × ℤ)} (h : Ordered entries) (logEnd epoch o : ℤ) :
    o < endOffsetLoop logEnd epoch entries ↔
      (∀ n ∈ entries, epoch < n.1 → o < n.2) ∧ ((∀ n ∈ entries, n.1 ≤ epoch) → o < logEnd) := by
  induction entries with
  | nil => simp [endOffsetLoop]
  | cons e rest ih =>
    obtain ⟨ep, start⟩ := e
    obtain ⟨hhead, hrest⟩ := List.pairwise_cons.mp h
    rw [endOffsetLoop]
    by_cases heq : ep = epoch
    · subst heq
      rw [if_pos rfl]
      cases rest with
      | nil => simp
      | cons next rest =>
        have hnext := (hhead next (List.mem_cons_self ..)).1
        constructor
        · intro hlt
          refine ⟨fun n hn hgt => ?_, fun hall => absurd (hall next (by simp)) hnext.not_ge⟩
          rcases List.mem_cons.mp hn with rfl | hn
          · exact absurd hgt (lt_irrefl _)
          · rcases List.mem_cons.mp hn with rfl | hn
            · exact hlt
            · exact hlt.trans_le ((List.pairwise_cons.mp hrest).1 n hn).2
        · rintro ⟨hall, -⟩
          exact hall next (by simp) hnext
    · rw [if_neg heq]
      by_cases hgt : ep > epoch
      · rw [if_pos hgt]
        constructor
        · intro hlt
          refine ⟨fun n hn _ => ?_, fun hall => absurd (hall (ep, start) (by simp)) hgt.not_ge⟩
          rcases List.mem_cons.mp hn with rfl | hn
          · exact hlt
          · exact hlt.trans_le (hhead n hn).2
        · rintro ⟨hall, -⟩
          exact hall (ep, start) (by simp) hgt
      · rw [if_neg hgt, ih hrest]
        simp only [List.forall_mem_cons]
        exact ⟨fun ⟨h₁, h₂⟩ => ⟨⟨fun hc => absurd hc hgt, h₁⟩, fun hc => h₂ hc.2⟩,
          fun ⟨h₁, h₂⟩ => ⟨h₁.2, fun hc => h₂ ⟨not_lt.mp hgt, hc⟩⟩⟩

/-- **The answer in one condition.** An offset is below the end of an epoch exactly when it is
below the start of every newer epoch, and below the log end if there is no newer one. -/
theorem lt_endOffsetFor_iff {cache : LeaderEpochCache} (h : Ordered cache.entries) {epoch e : ℤ}
    (hend : cache.endOffsetFor epoch = .ok e) (o : ℤ) :
    o < e ↔ (∀ n ∈ cache.entries, epoch < n.1 → o < n.2) ∧
      ((∀ n ∈ cache.entries, n.1 ≤ epoch) → o < cache.logEnd) := by
  rw [endOffsetFor] at hend
  split at hend
  · cases hend
  · split at hend
    · cases hend
    · obtain rfl := Except.ok.inj hend
      exact lt_endOffsetLoop_iff h cache.logEnd epoch o

/-! ### Dropping old epochs -/

variable {cache cache' : LeaderEpochCache} {epoch start logStart : ℤ}

theorem exists_endOffsetFor_eq_ok (h : Ordered cache.entries)
    (hmem : (epoch, start) ∈ cache.entries) : ∃ e, cache.endOffsetFor epoch = .ok e := by
  rw [endOffsetFor]
  cases hentries : cache.entries with
  | nil =>
    rw [hentries] at hmem
    cases hmem
  | cons first rest =>
    rw [hentries] at h hmem
    have hle : first.1 ≤ epoch := by
      rcases List.mem_cons.mp hmem with rfl | hrest
      · exact le_rfl
      · exact ((List.pairwise_cons.mp h).1 _ hrest).1.le
    exact ⟨_, if_neg hle.not_gt⟩

/-- Two caches with the same newer epochs give an epoch the same end. -/
theorem endOffsetFor_eq_of_newer_iff (h : Ordered cache.entries) (h' : Ordered cache'.entries)
    (hmem : (epoch, start) ∈ cache.entries) (hmem' : (epoch, start) ∈ cache'.entries)
    (hlogEnd : cache'.logEnd = cache.logEnd)
    (hnewer : ∀ n, epoch < n.1 → (n ∈ cache'.entries ↔ n ∈ cache.entries)) :
    cache'.endOffsetFor epoch = cache.endOffsetFor epoch := by
  obtain ⟨e, he⟩ := exists_endOffsetFor_eq_ok h hmem
  obtain ⟨e', he'⟩ := exists_endOffsetFor_eq_ok h' hmem'
  have hstarts (o : ℤ) : (∀ n ∈ cache'.entries, epoch < n.1 → o < n.2) ↔
      ∀ n ∈ cache.entries, epoch < n.1 → o < n.2 :=
    forall_congr' fun n => ⟨fun hn hcache hlt => hn ((hnewer n hlt).mpr hcache) hlt,
      fun hn hcache hlt => hn ((hnewer n hlt).mp hcache) hlt⟩
  have hnone : (∀ n ∈ cache'.entries, n.1 ≤ epoch) ↔ ∀ n ∈ cache.entries, n.1 ≤ epoch := by
    refine forall_congr' fun n => ⟨fun hn hcache => not_lt.mp fun hlt => ?_,
      fun hn hcache => not_lt.mp fun hlt => ?_⟩
    · exact hlt.not_ge (hn ((hnewer n hlt).mpr hcache))
    · exact hlt.not_ge (hn ((hnewer n hlt).mp hcache))
  have hlower (o : ℤ) : o < e' ↔ o < e := by
    rw [lt_endOffsetFor_iff h he, lt_endOffsetFor_iff h' he', hstarts, hnone, hlogEnd]
  rw [he, he', eq_of_forall_lt_iff hlower]

/-- An epoch below all that are recorded has no end. -/
theorem endOffsetFor_ne_ok_of_lt (hlt : ∀ n ∈ cache.entries, epoch < n.1) (e : ℤ) :
    cache.endOffsetFor epoch ≠ .ok e := by
  rw [endOffsetFor]
  cases hentries : cache.entries with
  | nil => exact fun h => by cases h
  | cons first rest =>
    rw [hentries] at hlt
    show (if epoch < first.1 then _ else _) ≠ _
    rw [if_pos (hlt first List.mem_cons_self)]
    exact fun h => by cases h

theorem entries_dropBelow_of_mem (hmem : (epoch, start) ∈ cache.entries) (hle : logStart ≤ start) :
    (cache.dropBelow logStart).2.entries =
      cache.entries.filter fun e => decide (e.2 ≥ logStart) :=
  if_neg (List.ne_nil_of_mem (List.mem_filter.mpr ⟨hmem, decide_eq_true hle⟩))

/-- An epoch that began in the log keeps its end: so did all the newer ones. -/
theorem endOffsetFor_dropBelow_of_le (h : Ordered cache.entries)
    (hmem : (epoch, start) ∈ cache.entries) (hle : logStart ≤ start) :
    (cache.dropBelow logStart).2.endOffsetFor epoch = cache.endOffsetFor epoch := by
  have hkept (n : ℤ × ℤ) : n ∈ (cache.dropBelow logStart).2.entries ↔
      n ∈ cache.entries ∧ logStart ≤ n.2 := by
    rw [entries_dropBelow_of_mem hmem hle, List.mem_filter, decide_eq_true_iff]
  refine endOffsetFor_eq_of_newer_iff h (ordered_dropBelow h logStart) hmem
    ((hkept _).mpr ⟨hmem, hle⟩) rfl fun n hlt => ?_
  rw [hkept, and_iff_left_iff_imp]
  exact fun hn => hle.trans (h.snd_le_of_fst_le hmem hn hlt.le)

/-- The last epoch keeps its end, wherever it began. -/
theorem endOffsetFor_dropBelow_of_getLast? (h : Ordered cache.entries)
    (hlast : cache.entries.getLast? = some (epoch, start)) :
    (cache.dropBelow logStart).2.endOffsetFor epoch = cache.endOffsetFor epoch := by
  have hmem : (epoch, start) ∈ cache.entries := List.mem_of_getLast? hlast
  rcases le_or_gt logStart start with hle | hlt
  · exact endOffsetFor_dropBelow_of_le h hmem hle
  · have habove : cache.entries.filter (fun e => decide (e.2 ≥ logStart)) = [] := by
      refine List.filter_eq_nil_iff.mpr fun n hn hge => ?_
      have hle := h.snd_le_of_fst_le hn hmem (h.fst_le_getLast hlast hn)
      exact absurd (of_decide_eq_true hge) (hle.trans_lt hlt).not_ge
    have hkept : (cache.dropBelow logStart).2.entries = [(epoch, start)] := by
      rw [dropBelow, habove, hlast]
      rfl
    refine endOffsetFor_eq_of_newer_iff h (ordered_dropBelow h logStart) hmem
      (hkept ▸ List.mem_singleton_self _) rfl fun n hlt => ?_
    rw [hkept, List.mem_singleton]
    constructor
    · rintro rfl
      exact hmem
    · exact fun hn => absurd hlt (h.fst_le_getLast hlast hn).not_gt

/-- An epoch that began below the log start and has a newer one in the log is forgotten. -/
theorem endOffsetFor_dropBelow_ne_ok (h : Ordered cache.entries)
    (hmem : (epoch, start) ∈ cache.entries) (hlt : start < logStart) {n : ℤ × ℤ}
    (hn : n ∈ cache.entries) (hle : logStart ≤ n.2) (e : ℤ) :
    (cache.dropBelow logStart).2.endOffsetFor epoch ≠ .ok e := by
  refine endOffsetFor_ne_ok_of_lt (fun n' hn' => ?_) e
  rw [entries_dropBelow_of_mem hn hle] at hn'
  obtain ⟨hn', hge⟩ := List.mem_filter.mp hn'
  by_contra hnot
  have hsnd := h.snd_le_of_fst_le hn' hmem (not_lt.mp hnot)
  exact absurd (of_decide_eq_true hge) (hsnd.trans_lt hlt).not_ge

/-- **When an epoch survives a new log start.** An epoch on record with a record left in the log,
its end being above the new log start, has the same end as before exactly when it began in what is
left of the log or is the last epoch on record. -/
theorem endOffsetFor_dropBelow_eq_iff (cache : LeaderEpochCache) (h : Ordered cache.entries)
    (logStart epoch start e : ℤ) (hmem : (epoch, start) ∈ cache.entries)
    (hend : cache.endOffsetFor epoch = .ok e) (halive : logStart < e) :
    (cache.dropBelow logStart).2.endOffsetFor epoch = cache.endOffsetFor epoch ↔
      logStart ≤ start ∨ cache.entries.getLast? = some (epoch, start) := by
  constructor
  · intro hsame
    by_contra hnot
    obtain ⟨hlt, hlast⟩ := not_or.mp hnot
    rw [not_le] at hlt
    -- not the last, so a newer one is recorded, and it began above the log start
    obtain ⟨last, hlast'⟩ := exists_getLast?_eq_some hmem
    have hlastmem : last ∈ cache.entries := List.mem_of_getLast? hlast'
    have hnewer : epoch < last.1 := by
      refine lt_of_le_of_ne (h.fst_le_getLast hlast' hmem) fun heq => hlast ?_
      rw [hlast', h.eq_of_fst_eq hlastmem hmem heq.symm]
    have hstart := ((lt_endOffsetFor_iff h hend logStart).mp halive).1 last hlastmem hnewer
    exact endOffsetFor_dropBelow_ne_ok h hmem hlt hlastmem hstart.le e (hsame.trans hend)
  · rintro (hle | hlast)
    · exact endOffsetFor_dropBelow_of_le h hmem hle
    · exact endOffsetFor_dropBelow_of_getLast? h hlast

/-- Two epochs, and a log that now starts in the second. -/
theorem endOffsetFor_dropBelow_eq_last :
    ((⟨100, [(0, 0), (1, 50)]⟩ : LeaderEpochCache).dropBelow 60).2.endOffsetFor 1 = .ok 100 :=
  (endOffsetFor_dropBelow_eq_iff ⟨100, [(0, 0), (1, 50)]⟩ (by decide) 60 1 50 100 (by decide) rfl
    (by decide)).mpr (.inr rfl)

/-- A log that now starts in the first: the epoch had records up to 50 and still has those from
10 on. -/
theorem dropBelow_forgets_straddling :
    (⟨100, [(0, 0), (1, 50)]⟩ : LeaderEpochCache).endOffsetFor 0 = .ok 50 ∧
      ((⟨100, [(0, 0), (1, 50)]⟩ : LeaderEpochCache).dropBelow 10).2.endOffsetFor 0 =
        .error (.missing ("epoch 0 is older than the cache remembers; "
          ++ "the follower must fall back to the log start")) :=
  ⟨rfl, rfl⟩

end LeaderEpochCache

end Relay
