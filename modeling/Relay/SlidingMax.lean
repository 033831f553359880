import Mathlib.Algebra.Order.Ring.Int
import Mathlib.Data.Int.ConditionallyCompleteOrder
import Mathlib.Order.Bounds.Basic
import Relay.Errors
import Relay.Lib.Peaks

/-!
# Sliding maximum

A deque holds what may still become the maximum of a sliding window: a value that is pushed takes
off the back those that are no larger, since it outlives them, and what has slid out of the window
is taken off the front.

The deque is not the window, values that lie in the window are missing from it. What it holds are
the peaks of the window (`Tracks`). The window grows by one value a push and loses at most one, and
the one that it loses is in the deque only as its front, so one look at the front is enough.

## Scope

The report on how many values are held is left out.

## Main definitions

* `SlidingMax`, with `push`, `maximum` and a run of pushes `pushes`
* `Tracks`: the deque holds the peaks of the window

## Main results

* `Tracks.push`: what a push keeps
* `maximum_pushes`: the maximum is that of the last values
-/

namespace Relay

/-- A maximum over a sliding window. The deque holds positions and values. -/
structure SlidingMax where
  window : ℤ
  deque : List (ℤ × ℤ) := []
  index : ℤ := -1
  window_pos : 1 ≤ window

namespace SlidingMax

open Peaks

/-- The front of a deque is dropped if it is at a position up to a bound. -/
def dropFront (bound : ℤ) : List (ℤ × ℤ) → List (ℤ × ℤ)
  | [] => []
  | front :: deque => if front.1 ≤ bound then deque else front :: deque

/-- `push`. -/
def push (m : SlidingMax) (value : ℤ) : SlidingMax :=
  let index := m.index + 1
  let deque := m.deque.rdropWhile (fun entry => entry.2 ≤ value) ++ [(index, value)]
  { m with index, deque := dropFront (index - m.window) deque }

/-- `maximum`. -/
def maximum (m : SlidingMax) : Except RelayError ℤ :=
  match m.deque with
  | [] => .error (.invalid "the window is empty; no maximum yet")
  | front :: _ => .ok front.2

/-- Values are pushed one after the other. -/
def pushes (m : SlidingMax) (values : List ℤ) : SlidingMax := values.foldl push m

theorem window_pushes (m : SlidingMax) (values : List ℤ) : (m.pushes values).window = m.window := by
  induction values generalizing m with
  | nil => rfl
  | cons value values ih => exact ih (m.push value)

/-! ## What the deque holds -/

/-- Values with their positions. -/
def entries (values : List ℤ) : List (ℤ × ℤ) := values.mapIdx fun i value => ((i : ℤ), value)

theorem length_entries (values : List ℤ) : (entries values).length = values.length :=
  List.length_mapIdx

theorem map_snd_entries (values : List ℤ) : (entries values).map Prod.snd = values := by
  refine List.ext_getElem (by simp [entries]) fun i hi _ => ?_
  simp [entries]

theorem entries_append_singleton (values : List ℤ) (value : ℤ) :
    entries (values ++ [value]) = entries values ++ [((values.length : ℤ), value)] :=
  List.mapIdx_concat

/-- The positions from a place on. -/
theorem le_of_mem_drop_entries {values : List ℤ} {n : ℕ} {entry : ℤ × ℤ}
    (h : entry ∈ (entries values).drop n) : (n : ℤ) ≤ entry.1 := by
  obtain ⟨i, hi, rfl⟩ := List.mem_iff_getElem.mp h
  simp [entries]

/-- What one more place of the window shows: the entry right before those that it showed. -/
theorem rtake_entries_succ {values : List ℤ} {n : ℕ} (h : n < values.length) :
    ∃ entry : ℤ × ℤ, entry.1 = (values.length : ℤ) - (n + 1) ∧
      (entries values).rtake (n + 1) = entry :: (entries values).rtake n := by
  have hlength := length_entries values
  have hplace : values.length - (n + 1) < (entries values).length := by omega
  refine ⟨(entries values)[values.length - (n + 1)], ?_, ?_⟩
  · simp only [entries, List.getElem_mapIdx]
    omega
  · rw [List.rtake, List.rtake, hlength, List.drop_eq_getElem_cons hplace]
    congr 2
    omega

/-- The deque holds the peaks of the last values, and the position is that of the last one. -/
structure Tracks (m : SlidingMax) (values : List ℤ) : Prop where
  index : m.index = (values.length : ℤ) - 1
  deque : m.deque = peaks Prod.snd ((entries values).rtake m.window.toNat)

/-- If nothing has slid out, nothing is dropped. -/
theorem dropFront_peaks {bound : ℤ} {l : List (ℤ × ℤ)} (hin : ∀ e ∈ l, bound < e.1) :
    dropFront bound (peaks Prod.snd l) = peaks Prod.snd l := by
  have hkept : ∀ e ∈ peaks Prod.snd l, bound < e.1 := fun e he =>
    hin e ((peaks_sublist Prod.snd l).subset he)
  revert hkept
  rcases peaks Prod.snd l with _ | ⟨front, rest⟩ <;> intro hkept
  · rfl
  · rw [dropFront, if_neg (hkept front List.mem_cons_self).not_ge]

/-- A front that has slid out is the only entry that has: what is left are the peaks of the
others. -/
theorem dropFront_peaks_cons {bound : ℤ} {entry : ℤ × ℤ} {l : List (ℤ × ℤ)}
    (hout : entry.1 ≤ bound) (hin : ∀ e ∈ l, bound < e.1) :
    dropFront bound (peaks Prod.snd (entry :: l)) = peaks Prod.snd l := by
  rw [peaks]
  split
  · rw [dropFront, if_pos hout]
  · exact dropFront_peaks hin

/-- One value enters a window of `n + 1` values. If one leaves, it was in the deque only as its
front, where it is dropped. -/
theorem dropFront_peaks_rtake (values : List ℤ) (n : ℕ) (value : ℤ) :
    dropFront ((values.length : ℤ) - (n + 1))
        (peaks Prod.snd ((entries values).rtake (n + 1) ++ [((values.length : ℤ), value)])) =
      peaks Prod.snd ((entries values).rtake n ++ [((values.length : ℤ), value)]) := by
  have hin : ∀ e ∈ (entries values).rtake n ++ [((values.length : ℤ), value)],
      (values.length : ℤ) - (n + 1) < e.1 := by
    intro e he
    rcases List.mem_append.mp he with he | he
    · have hle := le_of_mem_drop_entries he
      rw [length_entries] at hle
      omega
    · rw [List.mem_singleton.mp he]
      omega
  rcases Nat.lt_or_ge n values.length with hfull | hpart
  · obtain ⟨entry, hentry, hsucc⟩ := rtake_entries_succ hfull
    rw [hsucc, List.cons_append]
    exact dropFront_peaks_cons hentry.le hin
  · have hall : (entries values).rtake (n + 1) = (entries values).rtake n := by
      rw [List.rtake, List.rtake, length_entries, Nat.sub_eq_zero_of_le hpart,
        Nat.sub_eq_zero_of_le (hpart.trans (Nat.le_succ n))]
    rw [hall]
    exact dropFront_peaks hin

/-- **A push** keeps the peaks of the window in the deque, with one look at its front. -/
theorem Tracks.push {m : SlidingMax} {values : List ℤ} (h : Tracks m values) (value : ℤ) :
    Tracks (m.push value) (values ++ [value]) := by
  obtain ⟨n, hn⟩ : ∃ n : ℕ, m.window = n + 1 := ⟨(m.window - 1).toNat, by
    have hpos := m.window_pos
    omega⟩
  have hwindow : m.window.toNat = n + 1 := by omega
  have hindex : m.index + 1 = (values.length : ℤ) := by
    rw [h.index]
    omega
  constructor
  · change m.index + 1 = _
    rw [hindex, List.length_append]
    simp
  · change dropFront (m.index + 1 - m.window) _ = peaks Prod.snd (List.rtake _ m.window.toNat)
    have hadded : (peaks Prod.snd ((entries values).rtake (n + 1))).rdropWhile
          (fun entry => entry.2 ≤ value) ++ [((values.length : ℤ), value)] =
        peaks Prod.snd ((entries values).rtake (n + 1) ++ [((values.length : ℤ), value)]) :=
      (peaks_append_singleton Prod.snd _ ((values.length : ℤ), value)).symm
    rw [h.deque, hindex, entries_append_singleton, hwindow, List.rtake_concat_succ, hn, hadded]
    exact dropFront_peaks_rtake values n value

/-- Pushes in a row. -/
theorem tracks_pushes {m : SlidingMax} {before : List ℤ} (h : Tracks m before)
    (values : List ℤ) : Tracks (m.pushes values) (before ++ values) := by
  induction values generalizing m before with
  | nil => rwa [List.append_nil]
  | cons value values ih =>
    rw [← List.singleton_append, ← List.append_assoc]
    exact ih (h.push value)

/-! ## The maximum -/

/-- The front of the deque is the maximum of the window. -/
theorem Tracks.maximum {m : SlidingMax} {values : List ℤ} (h : Tracks m values)
    (hne : values ≠ []) :
    ∃ top, m.maximum = .ok top ∧
      IsGreatest {value | value ∈ values.rtake (min m.window.toNat values.length)} top := by
  have hpos := m.window_pos
  have hlength := length_entries values
  have hcount := List.length_pos_iff.mpr hne
  have hwindow : ((entries values).rtake m.window.toNat).map Prod.snd =
      values.rtake (min m.window.toNat values.length) := by
    rw [List.rtake, List.rtake, List.map_drop, map_snd_entries, hlength]
    congr 1
    omega
  have hsome : (entries values).rtake m.window.toNat ≠ [] := by
    rw [List.rtake, Ne, List.drop_eq_nil_iff, hlength]
    omega
  obtain ⟨front, rest, hpeaks⟩ := List.exists_cons_of_ne_nil (peaks_ne_nil Prod.snd hsome)
  refine ⟨front.2, ?_, ?_⟩
  · rw [SlidingMax.maximum, h.deque, hpeaks]
  · rw [← hwindow]
    constructor
    · refine List.mem_map_of_mem ((peaks_sublist Prod.snd _).subset ?_)
      rw [hpeaks]
      exact List.mem_cons_self
    · intro value hvalue
      obtain ⟨entry, hentry, rfl⟩ := List.mem_map.mp hvalue
      exact le_of_peaks_eq_cons hpeaks hentry

/-- **The maximum** after pushes is that of the last values, as many as the window holds or, before
it is full, as were pushed. -/
theorem maximum_pushes (window : ℤ) (hwindow : 1 ≤ window) (values : List ℤ) (hne : values ≠ []) :
    ∃ top,
      (SlidingMax.pushes { window, window_pos := hwindow } values).maximum = .ok top ∧
        IsGreatest {value | value ∈ values.rtake (min window.toNat values.length)} top := by
  have hfresh : Tracks { window, window_pos := hwindow } [] :=
    ⟨rfl, by simp [entries, peaks]⟩
  have htop := (tracks_pushes hfresh values).maximum hne
  rwa [window_pushes] at htop

/-- Of two equal maxima the window loses the first and keeps the second. -/
theorem tie_maximum_pushes : ∃ top,
    (SlidingMax.pushes { window := 3, window_pos := by decide } [5, 2, 5, 1, 4]).maximum = .ok top ∧
      IsGreatest {value | value ∈ [5, 1, 4]} top :=
  maximum_pushes 3 (by decide) [5, 2, 5, 1, 4] (List.cons_ne_nil _ _)

end SlidingMax

end Relay
