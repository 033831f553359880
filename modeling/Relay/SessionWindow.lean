import Mathlib.Algebra.BigOperators.Ring.Finset
import Mathlib.Algebra.Order.Ring.Int
import Relay.Lib.Clusters
import Relay.Lib.Machine
import Relay.Lib.Ranks

/-!
# Session windows

A session is a burst of activity: events belong to one session as long as no two neighbours are
further apart than the gap. Events arrive in any order, and one that arrives late may extend a
session, or bridge two of them into one.

Sessions are kept in two ways. `SessionWindows` keeps the times of every session.
`SessionWindowMerge` keeps the first and last of them and how many there are, and does to these
spans what the other does to the times. Both end up with the clusters of the sorted times, whatever
order they came in.

## Scope

The bounds of the sessions and the two reports are left out. The bounds are the first and the last
time of each.

## Main definitions

* `SessionWindows.add`, `SessionWindowMerge.addEvent`
* `clusters`: the sorted times, cut wherever neighbours are further apart than the gap

## Main results

* `sessions_addAll`: the sessions are the clusters of what was added
* `sessions_addEvents`: the merged sessions are their spans
* `sessions_eq_clusters`: both, for any two orders of the same times
-/

namespace Relay

/-- The times of a session. -/
structure Session where
  times : List ℤ
  times_ne_nil : times ≠ []
  deriving DecidableEq

namespace Session

/-- When a session starts. -/
def first (session : Session) : ℤ := session.times.head session.times_ne_nil

/-- When a session ends. -/
def last (session : Session) : ℤ := session.times.getLast session.times_ne_nil

/-- `_within`. -/
def Within (gap : ℤ) (session : Session) (time : ℤ) : Prop :=
  session.first - gap ≤ time ∧ time ≤ session.last + gap

instance (gap : ℤ) (session : Session) (time : ℤ) : Decidable (session.Within gap time) :=
  inferInstanceAs (Decidable (_ ∧ _))

/-- One session of the times of others and one more time. -/
def merged (touching : List Session) (time : ℤ) : Session where
  times := (touching.flatMap Session.times ++ [time]).mergeSort fun a b => a ≤ b
  times_ne_nil := by
    refine List.ne_nil_of_mem (a := time) ?_
    rw [List.mem_mergeSort]
    exact List.mem_append_right _ List.mem_cons_self

end Session

/-- Sessions that keep their times. -/
structure SessionWindows where
  gap : ℤ
  sessions : List Session := []
  gap_pos : 1 ≤ gap

/-- `add`. -/
def SessionWindows.add (windows : SessionWindows) (time : ℤ) : SessionWindows :=
  let touching := windows.sessions.filter fun s => s.Within windows.gap time
  let others := windows.sessions.filter fun s => ¬ s.Within windows.gap time
  { windows with
    sessions := (others ++ [Session.merged touching time]).mergeSort
      fun s s' => s.first ≤ s'.first }

/-- Times added one after another. -/
def SessionWindows.addAll (windows : SessionWindows) (times : List ℤ) : SessionWindows :=
  times.foldl SessionWindows.add windows

/-- The span of a session, and how many events it has. -/
structure SessionSpan where
  start : ℤ
  /-- `end`. -/
  stop : ℤ
  count : ℤ
  deriving DecidableEq

/-- Sessions that keep their spans. -/
structure SessionWindowMerge where
  gap : ℤ
  sessions : List SessionSpan := []
  gap_pos : 0 < gap

namespace SessionWindowMerge

/-- The span of the sessions and the event. -/
def fuse (touched : List SessionSpan) (timestamp : ℤ) : SessionSpan where
  start := (touched.map SessionSpan.start ++ [timestamp]).min (by simp)
  stop := (touched.map SessionSpan.stop ++ [timestamp]).max (by simp)
  count := (touched.map SessionSpan.count).sum + 1

/-- `add_event`. -/
def addEvent (merge : SessionWindowMerge) (timestamp : ℤ) : SessionWindowMerge :=
  let touched := merge.sessions.filter fun s =>
    s.start - merge.gap ≤ timestamp ∧ timestamp ≤ s.stop + merge.gap
  let sessions :=
    if touched = [] then merge.sessions ++ [⟨timestamp, timestamp, 1⟩]
    else touched.foldl List.erase merge.sessions ++ [fuse touched timestamp]
  { merge with sessions := sessions.mergeSort fun s s' => s.start ≤ s'.start }

/-- Events added one after another. -/
def addEvents (merge : SessionWindowMerge) (timestamps : List ℤ) : SessionWindowMerge :=
  timestamps.foldl addEvent merge

/-- `spans`. -/
def spans (merge : SessionWindowMerge) : List (ℤ × ℤ × ℤ) :=
  merge.sessions.map fun s => (s.start, s.stop, s.count)

end SessionWindowMerge

/-- The sorted times, cut wherever neighbours are further apart than the gap. -/
def clusters (gap : ℤ) (times : List ℤ) : List Session :=
  ((times.mergeSort fun a b => a ≤ b).splitBy fun a b => b - a ≤ gap).pmap Session.mk
    fun _ h => List.ne_nil_of_mem_splitBy h

open Clusters

/-! ## A session and a time -/

namespace Session

variable {session : Session} {gap time : ℤ}

theorem first_mem (session : Session) : session.first ∈ session.times :=
  List.head_mem _

theorem last_mem (session : Session) : session.last ∈ session.times :=
  List.getLast_mem _

theorem first_le (hsorted : session.times.Pairwise (· ≤ ·)) {t : ℤ} (ht : t ∈ session.times) :
    session.first ≤ t := by
  obtain ⟨times, hne⟩ := session
  cases times with
  | nil => exact absurd rfl hne
  | cons a times =>
    rcases List.mem_cons.mp ht with rfl | ht
    · exact le_rfl
    · exact (List.pairwise_cons.mp hsorted).1 t ht

theorem le_last (hsorted : session.times.Pairwise (· ≤ ·)) {t : ℤ} (ht : t ∈ session.times) :
    t ≤ session.last := by
  rcases eq_or_rel_getLast hsorted (List.getLast?_eq_some_getLast session.times_ne_nil) ht with
    heq | hle
  · exact heq.le
  · exact hle

/-- A time is within the gap of a sorted session exactly when it touches its times. -/
theorem touches_iff (hsorted : session.times.Pairwise (· ≤ ·)) :
    Touches (· + gap) time session.times ↔ session.Within gap time := by
  rw [Within, sub_le_iff_le_add]
  constructor
  · rintro ⟨⟨x, hx, hxt⟩, z, hz, htz⟩
    exact ⟨(first_le hsorted hx).trans hxt,
      htz.trans (add_le_add_left (le_last hsorted hz) gap)⟩
  · rintro ⟨hfirst, hlast⟩
    exact ⟨⟨_, session.first_mem, hfirst⟩, _, session.last_mem, hlast⟩

theorem perm_merged (touching : List Session) (time : ℤ) :
    (merged touching time).times.Perm ((touching.map Session.times).flatten ++ [time]) :=
  List.mergeSort_perm _ _

theorem sorted_merged (touching : List Session) (time : ℤ) :
    (merged touching time).times.Pairwise (· ≤ ·) :=
  List.pairwise_mergeSort' (· ≤ ·) _

end Session

/-! ## The sessions that keep their times -/

namespace SessionWindows

/-- What holds of the sessions: each is sorted and linked, they are kept apart, and they are in
order. -/
structure Separated (windows : SessionWindows) : Prop where
  sorted : ∀ s ∈ windows.sessions, s.times.Pairwise (· ≤ ·)
  linked : ∀ s ∈ windows.sessions, Linked (· + windows.gap) s.times
  apart : windows.sessions.Pairwise fun s s' => Apart (· + windows.gap) s.times s'.times
  ordered : windows.sessions.Pairwise fun s s' => s.first ≤ s'.first

variable {windows : SessionWindows} {time : ℤ}

theorem le_reach (windows : SessionWindows) (x : ℤ) : x ≤ x + windows.gap :=
  le_add_of_nonneg_right (zero_le_one.trans windows.gap_pos)

/-- The sessions a time touches, and the others. -/
theorem perm_touching_append_others (windows : SessionWindows) (time : ℤ) :
    ((windows.sessions.filter fun s => s.Within windows.gap time) ++
      windows.sessions.filter fun s => ¬ s.Within windows.gap time).Perm windows.sessions := by
  simp only [decide_not]
  exact List.filter_append_perm _ _

theorem perm_add (windows : SessionWindows) (time : ℤ) :
    (windows.add time).sessions.Perm
      ((windows.sessions.filter fun s => ¬ s.Within windows.gap time) ++
        [Session.merged (windows.sessions.filter fun s => s.Within windows.gap time) time]) :=
  List.mergeSort_perm _ _

theorem ordered_add (windows : SessionWindows) (time : ℤ) :
    (windows.add time).sessions.Pairwise fun s s' => s.first ≤ s'.first :=
  Ranks.pairwise_mergeSort_key Session.first _

/-- **One time.** -/
theorem Separated.add (h : windows.Separated) (time : ℤ) : (windows.add time).Separated := by
  have htouches : ∀ l ∈ (windows.sessions.filter fun s => s.Within windows.gap time).map
      Session.times, Touches (· + windows.gap) time l := by
    rintro _ hl
    obtain ⟨s, hs, rfl⟩ := List.mem_map.mp hl
    obtain ⟨hmem, hwithin⟩ := List.mem_filter.mp hs
    exact (Session.touches_iff (h.sorted s hmem)).mpr (of_decide_eq_true hwithin)
  have hmono : Monotone fun x => x + windows.gap := fun _ _ hle => add_le_add_left hle _
  have hother {s : Session}
      (hs : s ∈ windows.sessions.filter fun s => ¬ s.Within windows.gap time) :
      s ∈ windows.sessions ∧ ¬ s.Within windows.gap time := by
    obtain ⟨hmem, hnot⟩ := List.mem_filter.mp hs
    exact ⟨hmem, of_decide_eq_true hnot⟩
  have hmem {s : Session} (hs : s ∈ (windows.add time).sessions) :
      s ∈ windows.sessions ∨
        s = .merged (windows.sessions.filter fun s => s.Within windows.gap time) time := by
    rcases List.mem_append.mp ((windows.perm_add time).mem_iff.mp hs) with hs | hs
    · exact .inl (hother hs).1
    · exact .inr (List.mem_singleton.mp hs)
  constructor
  · intro s hs
    rcases hmem hs with hs | rfl
    · exact h.sorted s hs
    · exact Session.sorted_merged _ _
  · intro s hs
    rcases hmem hs with hs | rfl
    · exact h.linked s hs
    · refine Linked.perm (linked_append_singleton hmono ?_ htouches)
        (Session.perm_merged _ _)
      rintro _ hl
      obtain ⟨s, hs, rfl⟩ := List.mem_map.mp hl
      exact h.linked s (List.mem_filter.mp hs).1
  · rw [(windows.perm_add time).pairwise_iff Apart.symm, List.pairwise_append]
    have hall := ((windows.perm_touching_append_others time).pairwise_iff Apart.symm).mpr h.apart
    obtain ⟨-, hothers, happart⟩ := List.pairwise_append.mp hall
    refine ⟨hothers, List.pairwise_singleton _ _, ?_⟩
    rintro s hs _ hmerged
    rw [List.mem_singleton.mp hmerged]
    refine Apart.symm (Apart.perm (apart_append_singleton hmono windows.le_reach
      htouches ?_ ?_) (Session.perm_merged _ _))
    · rw [Session.touches_iff (h.sorted s (hother hs).1)]
      exact (hother hs).2
    · rintro _ hl
      obtain ⟨s', hs', rfl⟩ := List.mem_map.mp hl
      exact happart s' hs' s hs
  · exact windows.ordered_add time

/-- One more time is all that is added. -/
theorem perm_flatten_add (windows : SessionWindows) (time : ℤ) :
    ((windows.add time).sessions.map Session.times).flatten.Perm
      ((windows.sessions.map Session.times).flatten ++ [time]) := by
  have hadd := ((windows.perm_add time).map Session.times).flatten
  rw [List.map_append, List.flatten_append, List.map_singleton, List.flatten_singleton] at hadd
  have hparts := ((windows.perm_touching_append_others time).map Session.times).flatten
  rw [List.map_append, List.flatten_append] at hparts
  refine hadd.trans (((Session.perm_merged _ _).append_left _).trans ?_)
  rw [← List.append_assoc]
  exact (List.perm_append_comm.trans hparts).append_right [time]

/-- After any times have been added to no sessions, the sessions are separated and hold just those
times. -/
theorem addAll_spec (gap : ℤ) (hgap : 1 ≤ gap) (times : List ℤ) :
    (addAll { gap := gap, gap_pos := hgap } times).gap = gap ∧
      (addAll { gap := gap, gap_pos := hgap } times).Separated ∧
      ((addAll { gap := gap, gap_pos := hgap } times).sessions.map Session.times).flatten.Perm
        times := by
  induction times using List.reverseRecOn with
  | nil => exact ⟨rfl, ⟨nofun, nofun, List.Pairwise.nil, List.Pairwise.nil⟩, List.Perm.nil⟩
  | append_singleton times time ih =>
    obtain ⟨hsame, hseparated, hperm⟩ := ih
    rw [addAll, List.foldl_append, List.foldl_cons, List.foldl_nil]
    exact ⟨hsame, hseparated.add time,
      (perm_flatten_add _ time).trans (hperm.append_right [time])⟩

/-- The times of separated sessions are the clusters of all of them. -/
theorem Separated.map_times_eq (h : windows.Separated) {times : List ℤ}
    (hperm : (windows.sessions.map Session.times).flatten.Perm times) :
    windows.sessions.map Session.times = Clusters.clusters (· + windows.gap) times := by
  refine eq_clusters windows.le_reach ?_ ?_ ?_ ?_ hperm
  · intro hnil
    obtain ⟨s, -, hs⟩ := List.mem_map.mp hnil
    exact s.times_ne_nil hs
  · exact List.forall_mem_map.mpr h.sorted
  · exact List.forall_mem_map.mpr h.linked
  · refine List.pairwise_map.mpr ((h.apart.and h.ordered).imp fun {s s'} hss' => ?_)
    exact hss'.1.before windows.le_reach s.first_mem s'.first_mem hss'.2

theorem map_times_clusters (gap : ℤ) (times : List ℤ) :
    (clusters gap times).map Session.times = Clusters.clusters (· + gap) times := by
  rw [clusters, List.map_pmap, List.pmap_eq_map, List.map_id', Clusters.clusters]
  simp only [sub_le_iff_le_add']

theorem times_injective : Function.Injective Session.times := by
  rintro ⟨times, hne⟩ ⟨times', hne'⟩ (rfl : times = times')
  rfl

/-- **The sessions are the clusters.** In whatever order the times come, the sessions end up as the
sorted times, cut wherever neighbours are further apart than the gap. -/
theorem sessions_addAll (gap : ℤ) (hgap : 1 ≤ gap) (times : List ℤ) :
    (addAll { gap := gap, gap_pos := hgap } times).sessions = clusters gap times := by
  obtain ⟨hsame, hseparated, hperm⟩ := addAll_spec gap hgap times
  refine List.map_injective_iff.mpr times_injective ?_
  rw [hseparated.map_times_eq hperm, hsame, map_times_clusters]

end SessionWindows

/-! ## The sessions that keep their spans -/

/-- The span of a session that keeps its times. -/
def Session.span (session : Session) : SessionSpan :=
  ⟨session.first, session.last, session.times.length⟩

namespace SessionWindowMerge

/-- Fusing spans gives the span of the merged session. -/
theorem fuse_map_span {touching : List Session}
    (hsorted : ∀ s ∈ touching, s.times.Pairwise (· ≤ ·)) (time : ℤ) :
    fuse (touching.map Session.span) time = (Session.merged touching time).span := by
  have hmem {x : ℤ} : x ∈ (Session.merged touching time).times ↔
      (∃ s ∈ touching, x ∈ s.times) ∨ x = time := by
    rw [(Session.perm_merged touching time).mem_iff]
    simp
  have hends {f : SessionSpan → ℤ} {x : ℤ} : x ∈ (touching.map Session.span).map f ++ [time] ↔
      (∃ s ∈ touching, f s.span = x) ∨ x = time := by
    simp
  have hmerged := Session.sorted_merged touching time
  have hstart : (fuse (touching.map Session.span) time).start =
      (Session.merged touching time).first := by
    refine (List.min_eq_iff _).mpr
      ⟨hends.mpr ?_, fun x hx => Session.first_le hmerged (hmem.mpr ?_)⟩
    · refine (hmem.mp (Session.merged touching time).first_mem).imp_left ?_
      rintro ⟨s, hs, hfirst⟩
      exact ⟨s, hs, (Session.first_le (hsorted s hs) hfirst).antisymm
        (Session.first_le hmerged (hmem.mpr (.inl ⟨s, hs, s.first_mem⟩)))⟩
    · refine (hends.mp hx).imp_left ?_
      rintro ⟨s, hs, rfl⟩
      exact ⟨s, hs, s.first_mem⟩
  have hstop : (fuse (touching.map Session.span) time).stop =
      (Session.merged touching time).last := by
    refine (List.max_eq_iff _).mpr
      ⟨hends.mpr ?_, fun x hx => Session.le_last hmerged (hmem.mpr ?_)⟩
    · refine (hmem.mp (Session.merged touching time).last_mem).imp_left ?_
      rintro ⟨s, hs, hlast⟩
      exact ⟨s, hs, (Session.le_last hmerged (hmem.mpr (.inl ⟨s, hs, s.last_mem⟩))).antisymm
        (Session.le_last (hsorted s hs) hlast)⟩
    · refine (hends.mp hx).imp_left ?_
      rintro ⟨s, hs, rfl⟩
      exact ⟨s, hs, s.last_mem⟩
  have hcount : (fuse (touching.map Session.span) time).count =
      (Session.merged touching time).times.length := by
    show ((touching.map Session.span).map SessionSpan.count).sum + 1 = _
    rw [(Session.perm_merged touching time).length_eq, List.length_append, List.length_flatten,
      List.map_map, List.map_map, List.length_singleton, Nat.cast_add, Nat.cast_one,
      Nat.cast_list_sum, List.map_map]
    rfl
  rw [Session.span, ← hstart, ← hstop, ← hcount]

/-- Taking out the elements that meet a condition leaves those that do not. -/
theorem foldl_erase_filter {α : Type*} [DecidableEq α] {l : List α} (hl : l.Nodup) (p : α → Bool) :
    (l.filter p).foldl List.erase l = l.filter fun x => !p x := by
  rw [← List.diff_eq_foldl, hl.sdiff_eq_filter]
  refine List.filter_congr fun x hx => ?_
  simp [hx]

/-- With no span touched, there is nothing to take out, and what is put in is the event alone. -/
theorem sessions_addEvent (merge : SessionWindowMerge) (timestamp : ℤ) :
    (merge.addEvent timestamp).sessions =
      (((merge.sessions.filter fun s =>
          s.start - merge.gap ≤ timestamp ∧ timestamp ≤ s.stop + merge.gap).foldl List.erase
            merge.sessions) ++
        [fuse (merge.sessions.filter fun s =>
          s.start - merge.gap ≤ timestamp ∧ timestamp ≤ s.stop + merge.gap) timestamp]).mergeSort
        fun s s' => s.start ≤ s'.start := by
  rw [addEvent]
  split
  · next hnone =>
    rw [hnone]
    rfl
  · rfl

/-- **One event.** Spans of separated sessions stay the spans of the sessions. -/
theorem addEvent_map_span {windows : SessionWindows} (h : windows.Separated)
    {merge : SessionWindowMerge} (hgap : merge.gap = windows.gap)
    (hspans : merge.sessions = windows.sessions.map Session.span) (time : ℤ) :
    (merge.addEvent time).sessions = (windows.add time).sessions.map Session.span := by
  have hnodup : (windows.sessions.map Session.span).Nodup := by
    refine List.pairwise_map.mpr (h.apart.imp fun {s s'} hapart heq => ?_)
    have hfirst : s.first = s'.first := congrArg SessionSpan.start heq
    rcases hapart with hbefore | hbefore
    · have hlt := hbefore _ s.first_mem _ s'.first_mem
      exact absurd (windows.le_reach s.first) (not_le.mpr (hfirst ▸ hlt))
    · have hlt := hbefore _ s'.first_mem _ s.first_mem
      exact absurd (windows.le_reach s'.first) (not_le.mpr (hfirst ▸ hlt))
  have htouched : (merge.sessions.filter fun s =>
      s.start - merge.gap ≤ time ∧ time ≤ s.stop + merge.gap) =
        (windows.sessions.filter fun s => s.Within windows.gap time).map Session.span := by
    rw [hspans, hgap, List.filter_map]
    rfl
  have hothers : ((windows.sessions.map Session.span).filter fun s => !decide
      (s.start - merge.gap ≤ time ∧ time ≤ s.stop + merge.gap)) =
        (windows.sessions.filter fun s => ¬ s.Within windows.gap time).map Session.span := by
    rw [hgap, List.filter_map]
    simp only [decide_not]
    rfl
  rw [← hspans] at hnodup hothers
  rw [sessions_addEvent, foldl_erase_filter hnodup, hothers, htouched,
    fuse_map_span fun s hs => h.sorted s (List.mem_filter.mp hs).1]
  rw [← List.map_singleton (f := Session.span), ← List.map_append]
  exact (List.map_mergeSort (f := Session.span) (s := fun s s' => s.start ≤ s'.start)
    fun _ _ _ _ => rfl).symm

/-- **The spans are those of the clusters.** -/
theorem sessions_addEvents (gap : ℤ) (hgap : 1 ≤ gap) (times : List ℤ) :
    (addEvents { gap := gap, gap_pos := hgap } times).sessions =
      (clusters gap times).map Session.span := by
  have hrun : (addEvents { gap := gap, gap_pos := hgap } times).gap = gap ∧
      (addEvents { gap := gap, gap_pos := hgap } times).sessions =
        (SessionWindows.addAll { gap := gap, gap_pos := hgap } times).sessions.map
          Session.span := by
    induction times using List.reverseRecOn with
    | nil => exact ⟨rfl, rfl⟩
    | append_singleton times time ih =>
      obtain ⟨hsame, hseparated, -⟩ := SessionWindows.addAll_spec gap hgap times
      rw [addEvents, SessionWindows.addAll, List.foldl_append, List.foldl_append]
      exact ⟨ih.1, addEvent_map_span hseparated (ih.1.trans hsame.symm) ih.2 time⟩
  rw [hrun.2, SessionWindows.sessions_addAll]

end SessionWindowMerge

/-- **The order of arrival makes no difference.** For every gap and all times, the sessions are the
clusters of the times in whatever order they are added, and the spans are the first time, the last
time and the size of each cluster in whatever order they are added there. -/
theorem sessions_eq_clusters (gap : ℤ) (hgap : 1 ≤ gap) (times order order' : List ℤ)
    (horder : order.Perm times) (horder' : order'.Perm times) :
    (SessionWindows.addAll { gap := gap, gap_pos := hgap } order).sessions = clusters gap times ∧
      (SessionWindowMerge.addEvents
          { gap := gap, gap_pos := hgap } order').spans =
        (clusters gap times).map fun s => (s.first, s.last, (s.times.length : ℤ)) := by
  have hclusters {l : List ℤ} (hl : l.Perm times) : clusters gap l = clusters gap times := by
    have hsort : l.mergeSort (fun a b => a ≤ b) = times.mergeSort fun a b => a ≤ b :=
      (((List.mergeSort_perm _ _).trans hl).trans (List.mergeSort_perm _ _).symm).eq_of_pairwise'
        (List.pairwise_mergeSort' (· ≤ ·) l) (List.pairwise_mergeSort' (· ≤ ·) times)
    rw [clusters, clusters]
    simp only [hsort]
  constructor
  · rw [SessionWindows.sessions_addAll, hclusters horder]
  · rw [SessionWindowMerge.spans, SessionWindowMerge.sessions_addEvents gap hgap, hclusters horder',
      List.map_map]
    rfl

/-- A time that bridges two sessions, added last to the one and first to the other. -/
theorem sessions_eq_clusters_bridged :
    (SessionWindows.addAll { gap := 10, gap_pos := by decide } [0, 25, 12]).sessions =
        clusters 10 [0, 12, 25] ∧
      (SessionWindowMerge.addEvents { gap := 10, gap_pos := by decide } [12, 25, 0]).spans =
        (clusters 10 [0, 12, 25]).map fun s => (s.first, s.last, (s.times.length : ℤ)) :=
  sessions_eq_clusters 10 (by decide) _ _ _ (by decide) (by decide)

end Relay
