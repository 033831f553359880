import Mathlib.Algebra.Order.Ring.Int
import Mathlib.Data.List.Chain
import Mathlib.Data.List.Sort
import Relay.Errors
import Relay.Lib.Intervals
import Relay.Lib.Ranks

/-!
# Scheduling by the earliest finish

Of the windows that are offered, as many as possible are to run one at a time. The scheduler sorts
them by where they end and takes each that starts where the last one it took ends, or later. It
refuses all of them if one does not end after it starts.

The sort is stable, so windows that end together are gone through in the order they were offered.
Which of them comes first does not matter for how many are chosen, and nothing below depends on it
beyond that the ends are in order.

## Scope

The report on how many intervals fit is left out.

## Main definitions

* `select`, with its loop `selectLoop`

## Main results

* `select_optimal`: what is chosen is among what is offered, every window starts where the one
  before it ends or later, and no choice of windows that are apart has more
-/

namespace Relay

/-- The loop of `select`. -/
def selectLoop (lastEnd : Option ℤ) : List (ℤ × ℤ) → List (ℤ × ℤ)
  | [] => []
  | (start, stop) :: rest =>
    if lastEnd.all fun last => last ≤ start then
      (start, stop) :: selectLoop (some stop) rest
    else
      selectLoop lastEnd rest

/-- `select`. -/
def select (intervals : List (ℤ × ℤ)) : Except RelayError (List (ℤ × ℤ)) :=
  match intervals.find? fun (start, stop) => stop ≤ start with
  | some (start, stop) =>
    .error (.invalid (s!"interval ({start}, {stop}) ends at or before it starts; an "
      ++ "empty or backwards window is a caller error"))
  | none => .ok (selectLoop none (intervals.mergeSort fun i j => i.2 ≤ j.2))

/-! ## The loop -/

section Loop

variable {lastEnd : Option ℤ} {l other : List (ℤ × ℤ)}

theorem selectLoop_sublist (lastEnd : Option ℤ) (l : List (ℤ × ℤ)) :
    (selectLoop lastEnd l).Sublist l := by
  induction l generalizing lastEnd with
  | nil => exact List.Sublist.refl []
  | cons i rest ih =>
    rw [selectLoop]
    split
    · exact (ih (some i.2)).cons_cons i
    · exact (ih lastEnd).cons i

/-- What is chosen starts when the last window ended or later, and each window when the one before
it ends or later. -/
theorem isChain_selectLoop (lastEnd : Option ℤ) (l : List (ℤ × ℤ)) :
    (selectLoop lastEnd l).IsChain (fun i j => i.2 ≤ j.1) ∧
      ∀ last ∈ lastEnd, ∀ i ∈ (selectLoop lastEnd l).head?, last ≤ i.1 := by
  induction l generalizing lastEnd with
  | nil => exact ⟨.nil, by simp [selectLoop]⟩
  | cons i rest ih =>
    rw [selectLoop]
    split
    · next hstart =>
      obtain ⟨hchain, hhead⟩ := ih (some i.2)
      refine ⟨List.isChain_cons.mpr ⟨hhead i.2 rfl, hchain⟩, ?_⟩
      intro last hlast j hj
      obtain rfl : i = j := Option.some.inj hj
      rw [Option.mem_def.mp hlast] at hstart
      exact of_decide_eq_true hstart
    · exact ih lastEnd

/-- **The greedy choice.** From windows in the order of their ends, no choice of windows that are
apart and start when the last one ended or later has more than the loop. -/
theorem length_le_selectLoop (hproper : ∀ i ∈ l, i.1 < i.2)
    (hsorted : l.Pairwise fun i j => i.2 ≤ j.2) (hsub : other.Subperm l)
    (hapart : other.Pairwise Intervals.Apart)
    (hstarts : ∀ last ∈ lastEnd, ∀ i ∈ other, last ≤ i.1) :
    other.length ≤ (selectLoop lastEnd l).length := by
  induction l generalizing lastEnd other with
  | nil => rw [List.subperm_nil.mp hsub, selectLoop]
  | cons i rest ih =>
    obtain ⟨hi, hrest⟩ := List.forall_mem_cons.mp hproper
    obtain ⟨hfirst, hsorted⟩ := List.pairwise_cons.mp hsorted
    rw [selectLoop]
    split
    · -- the window is taken: exchange it for those of the other choice that it is not apart from
      obtain ⟨later, hlater, hapart', hstarts', hlength⟩ :=
        Intervals.exists_later hi hfirst hsub hapart
      have hnext : later.length ≤ (selectLoop (some i.2) rest).length :=
        ih hrest hsorted hlater hapart' fun last hlast => Option.some.inj hlast ▸ hstarts'
      rw [List.length_cons]
      exact hlength.trans (Nat.add_le_add_right hnext 1)
    · next hpassed =>
      -- the window is passed over: it starts too early for the other choice too
      obtain ⟨last, hlast, hearly⟩ : ∃ last ∈ lastEnd, ¬ last ≤ i.1 := by
        cases lastEnd with
        | none => exact absurd rfl hpassed
        | some last => exact ⟨last, rfl, by simpa using hpassed⟩
      have hsub' : other.Subperm rest :=
        Intervals.subperm_of_start_lt (not_le.mp hearly) hsub (hstarts last hlast)
      exact ih hrest hsorted hsub' hapart hstarts

end Loop

/-- **Earliest-finish scheduling is optimal.** When every window that is offered ends after it
starts, what is chosen is among them, each as often as it is offered at most, every chosen window
starts where the one before it ends or later, and no choice of windows that are apart has more. -/
theorem select_optimal (intervals : List (ℤ × ℤ)) (hproper : ∀ i ∈ intervals, i.1 < i.2) :
    ∃ chosen, select intervals = .ok chosen ∧ chosen.Subperm intervals ∧
      chosen.IsChain (fun i j => i.2 ≤ j.1) ∧
      ∀ other : List (ℤ × ℤ), other.Subperm intervals → other.Pairwise Intervals.Apart →
        other.length ≤ chosen.length := by
  have hperm := List.mergeSort_perm intervals fun i j => decide (i.2 ≤ j.2)
  have hsorted : (intervals.mergeSort fun i j => i.2 ≤ j.2).Pairwise fun i j => i.2 ≤ j.2 :=
    Ranks.pairwise_mergeSort_key Prod.snd intervals
  have hnone : intervals.find? (fun (start, stop) => stop ≤ start) = none := by
    rw [List.find?_eq_none]
    intro i hi
    simpa using hproper i hi
  refine ⟨selectLoop none (intervals.mergeSort fun i j => i.2 ≤ j.2), ?_, ?_,
    (isChain_selectLoop none _).1, fun other hother hapart => ?_⟩
  · rw [select, hnone]
  · exact (selectLoop_sublist none _).subperm.trans hperm.subperm
  · refine length_le_selectLoop (fun i hi => hproper i (hperm.subset hi)) hsorted
      (hother.trans hperm.symm.subperm) hapart ?_
    simp

/-- Windows that end together, one of them offered twice, and one that overlaps all of them. -/
theorem select_optimal_ties :
    ∃ chosen, select [(0, 4), (1, 2), (0, 2), (1, 2), (2, 3)] = .ok chosen ∧
      chosen.Subperm [(0, 4), (1, 2), (0, 2), (1, 2), (2, 3)] ∧
      chosen.IsChain (fun i j => i.2 ≤ j.1) ∧
      ∀ other : List (ℤ × ℤ), other.Subperm [(0, 4), (1, 2), (0, 2), (1, 2), (2, 3)] →
        other.Pairwise Intervals.Apart → other.length ≤ chosen.length :=
  select_optimal [(0, 4), (1, 2), (0, 2), (1, 2), (2, 3)] (by decide)

end Relay
