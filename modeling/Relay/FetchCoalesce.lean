import Mathlib.Algebra.Order.Ring.Int
import Mathlib.Data.Int.ConditionallyCompleteOrder
import Mathlib.Data.Prod.Lex
import Relay.Errors
import Relay.Lib.Ranges
import Relay.Lib.Ranks

/-!
# Fetch coalesce

Ranges of offsets that are to be read are sorted by their starts, and a range that overlaps or abuts
the one before it becomes one with it. A range need not end after the ranges before it do, so what
is joined takes the later end.

While ranges are joined the covered offsets stay the same, and the next range is closed only when
all the others start strictly beyond it. So what comes out has something between its ranges, and
there is one such list for the offsets that are covered, in whatever order the ranges came and
however they were cut.

## Scope

The note on how many bytes were saved is left out.

## Main definitions

* `coalesce`, with the loop `fuse`

## Main results

* `cover_fuse`, `gapped_fuse`: what the loop keeps
* `coalesce_eq_of_cover_eq`: the outcome depends on the offsets that are covered
* `coalesce_spec`: when ranges are refused, and what comes out otherwise
-/

namespace Relay

namespace FetchCoalesce

open Ranges

/-- The loop of `coalesce`, from the range on that `merged` ends with. -/
def fuse (last : ℤ × ℤ) : List (ℤ × ℤ) → List (ℤ × ℤ)
  | [] => [last]
  | (start, stop) :: ordered =>
    if start ≤ last.2 then fuse (last.1, max last.2 stop) ordered
    else last :: fuse (start, stop) ordered

/-- `coalesce`. -/
def coalesce (ranges : List (ℤ × ℤ)) : Except RelayError (List (ℤ × ℤ)) :=
  match ranges.find? fun range => range.2 ≤ range.1 with
  | some (start, stop) =>
    .error (.invalid (s!"range ({start}, {stop}) is empty or backwards; a "
      ++ "caller bug that would corrupt a valid neighbor if "
      ++ "merged"))
  | none =>
    match ranges.mergeSort fun a b => toLex a ≤ toLex b with
    | [] => .ok []
    | first :: ordered => .ok (fuse first ordered)

/-! ## The loop -/

/-- Ranges that are sorted by their starts stay so when the first two are joined. -/
theorem pairwise_join {last range : ℤ × ℤ} {ordered : List (ℤ × ℤ)} (stop : ℤ)
    (hsorted : (last :: range :: ordered).Pairwise fun a b => a.1 ≤ b.1) :
    ((last.1, stop) :: ordered).Pairwise fun a b => a.1 ≤ b.1 := by
  obtain ⟨hfirst, hrest⟩ := List.pairwise_cons.mp hsorted
  exact List.pairwise_cons.mpr ⟨fun b hb => hfirst b (List.mem_cons_of_mem _ hb), hrest.of_cons⟩

/-- The loop covers what it was given. -/
theorem cover_fuse {last : ℤ × ℤ} {ordered : List (ℤ × ℤ)}
    (hsorted : (last :: ordered).Pairwise fun a b => a.1 ≤ b.1) :
    cover (fuse last ordered) = cover (last :: ordered) := by
  induction ordered generalizing last with
  | nil => rfl
  | cons range ordered ih =>
    obtain ⟨hfirst, hrest⟩ := List.pairwise_cons.mp hsorted
    rw [fuse]
    split
    · rename_i hreach
      rw [ih (pairwise_join _ hsorted), cover_join (hfirst range List.mem_cons_self) hreach]
    · rw [cover_cons, ih hrest, ← cover_cons]

/-- What comes out of the loop starts no earlier than it was given. -/
theorem le_start_of_mem_fuse {last range : ℤ × ℤ} {ordered : List (ℤ × ℤ)}
    (hsorted : (last :: ordered).Pairwise fun a b => a.1 ≤ b.1) (h : range ∈ fuse last ordered) :
    last.1 ≤ range.1 := by
  induction ordered generalizing last with
  | nil => rw [List.mem_singleton.mp h]
  | cons next ordered ih =>
    obtain ⟨hfirst, hrest⟩ := List.pairwise_cons.mp hsorted
    rw [fuse] at h
    split at h
    · have hle := ih (pairwise_join _ hsorted) h
      exact hle
    · rcases List.mem_cons.mp h with rfl | h
      · exact le_refl _
      · exact (hfirst next List.mem_cons_self).trans (ih hrest h)

/-- What comes out of the loop has something between its ranges. -/
theorem gapped_fuse {last : ℤ × ℤ} {ordered : List (ℤ × ℤ)}
    (hsorted : (last :: ordered).Pairwise fun a b => a.1 ≤ b.1)
    (hne : ∀ range ∈ last :: ordered, range.1 < range.2) : Gapped (fuse last ordered) := by
  induction ordered generalizing last with
  | nil => exact ⟨hne, List.pairwise_singleton _ _⟩
  | cons next ordered ih =>
    obtain ⟨hfirst, hrest⟩ := List.pairwise_cons.mp hsorted
    obtain ⟨hlast, hne⟩ := List.forall_mem_cons.mp hne
    rw [fuse]
    split
    · refine ih (pairwise_join _ hsorted) ?_
      refine List.forall_mem_cons.mpr ⟨lt_max_of_lt_left hlast, fun range hrange => ?_⟩
      exact hne range (List.mem_cons_of_mem _ hrange)
    · rename_i hbeyond
      refine Gapped.cons_iff.mpr ⟨hlast, fun range hrange => ?_, ih hrest hne⟩
      exact (not_le.mp hbeyond).trans_le (le_start_of_mem_fuse hrest hrange)

/-! ## Coalescing -/

/-- What ranges come out as: nothing is refused, something is between them, and they cover the same
offsets. -/
theorem coalesce_ok {ranges : List (ℤ × ℤ)} (hne : ∀ range ∈ ranges, range.1 < range.2) :
    ∃ merged, coalesce ranges = .ok merged ∧ Gapped merged ∧ cover merged = cover ranges := by
  have hnone : ranges.find? (fun range => range.2 ≤ range.1) = none :=
    List.find?_eq_none.mpr fun range hrange h => (hne range hrange).not_ge (of_decide_eq_true h)
  have hperm := List.mergeSort_perm ranges fun a b => decide (toLex a ≤ toLex b)
  have hsorted : (ranges.mergeSort fun a b => toLex a ≤ toLex b).Pairwise
      fun a b => a.1 ≤ b.1 :=
    (Ranks.pairwise_mergeSort_key toLex ranges).imp fun h =>
      (Prod.Lex.toLex_le_toLex.mp h).elim le_of_lt fun h => h.1.le
  have hcover := cover_congr fun range => hperm.mem_iff (a := range)
  simp only [coalesce, hnone]
  split
  · rename_i heq
    rw [heq] at hcover
    exact ⟨[], rfl, Gapped.nil, hcover⟩
  · rename_i first ordered heq
    rw [heq] at hperm hsorted hcover
    exact ⟨fuse first ordered, rfl,
      gapped_fuse hsorted fun range hrange => hne range (hperm.subset hrange),
      (cover_fuse hsorted).trans hcover⟩

/-- The ranges that are refused. -/
theorem coalesce_error_iff (ranges : List (ℤ × ℤ)) :
    (∃ text, coalesce ranges = .error (.invalid text)) ↔
      ∃ range ∈ ranges, range.2 ≤ range.1 := by
  constructor
  · rintro ⟨text, herror⟩
    by_contra hgood
    push Not at hgood
    obtain ⟨merged, hok, -⟩ := coalesce_ok hgood
    rw [hok] at herror
    exact absurd herror (by simp)
  · rintro ⟨range, hrange, hbad⟩
    obtain ⟨found, hfound⟩ := Option.isSome_iff_exists.mp
      (List.find?_isSome (p := fun range : ℤ × ℤ => range.2 ≤ range.1).mpr
        ⟨range, hrange, decide_eq_true hbad⟩)
    simp only [coalesce, hfound]
    exact ⟨_, rfl⟩

/-- What comes out of a call that does not raise. -/
theorem gapped_of_coalesce {ranges merged : List (ℤ × ℤ)} (h : coalesce ranges = .ok merged) :
    Gapped merged ∧ cover merged = cover ranges := by
  have hgood : ∀ range ∈ ranges, range.1 < range.2 := by
    by_contra hbad
    push Not at hbad
    obtain ⟨text, herror⟩ := (coalesce_error_iff ranges).mpr hbad
    rw [h] at herror
    exact absurd herror (by simp)
  obtain ⟨merged', h', hgapped, hcover⟩ := coalesce_ok hgood
  obtain rfl : merged = merged' := by simpa using h.symm.trans h'
  exact ⟨hgapped, hcover⟩

/-- **The outcome depends on the offsets that are covered** and on nothing else about the ranges. -/
theorem coalesce_eq_of_cover_eq {ranges ranges' merged merged' : List (ℤ × ℤ)}
    (h : coalesce ranges = .ok merged) (h' : coalesce ranges' = .ok merged')
    (hcover : cover ranges = cover ranges') : merged = merged' := by
  obtain ⟨hgapped, hsame⟩ := gapped_of_coalesce h
  obtain ⟨hgapped', hsame'⟩ := gapped_of_coalesce h'
  exact eq_of_cover_eq hgapped hgapped' (hsame.trans (hcover.trans hsame'.symm))

/-- **What coalescing does.** It raises exactly when some range is empty or backwards. Otherwise the
ranges that come out are sorted, with something between them, and cover the offsets that were asked
for; and they come out of the same ranges in any order. -/
theorem coalesce_spec (ranges : List (ℤ × ℤ)) :
    ((∃ text, coalesce ranges = .error (.invalid text)) ↔
      ∃ range ∈ ranges, range.2 ≤ range.1) ∧
    ((¬∃ range ∈ ranges, range.2 ≤ range.1) → ∃ merged, coalesce ranges = .ok merged ∧
      merged.Pairwise (fun a b => toLex a ≤ toLex b) ∧
      merged.Pairwise (fun a b => a.2 < b.1) ∧
      (∀ offset, (∃ range ∈ merged, range.1 ≤ offset ∧ offset < range.2) ↔
        ∃ range ∈ ranges, range.1 ≤ offset ∧ offset < range.2) ∧
      ∀ ranges', ranges'.Perm ranges → coalesce ranges' = .ok merged) := by
  refine ⟨coalesce_error_iff ranges, fun hgood => ?_⟩
  push Not at hgood
  obtain ⟨merged, h, hgapped, hcover⟩ := coalesce_ok hgood
  refine ⟨merged, h, ?_, hgapped.gap, Set.ext_iff.mp hcover, fun ranges' hperm => ?_⟩
  · refine hgapped.gap.imp_of_mem fun {a b} ha _ hab => ?_
    exact Prod.Lex.toLex_le_toLex.mpr (Or.inl ((hgapped.nonempty a ha).trans hab))
  · obtain ⟨merged', h', -⟩ := coalesce_ok fun range hrange => hgood range (hperm.subset hrange)
    rw [h', coalesce_eq_of_cover_eq h' h (cover_congr fun range => hperm.mem_iff)]

end FetchCoalesce

end Relay
