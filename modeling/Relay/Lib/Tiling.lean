import Mathlib.Data.List.Chain
import Relay.Lib.Intervals
import Relay.Lib.Ranges

/-!
# Ranges without gaps

Ranges in the order of their starts go on without a break if each ends where the next one starts.
That is seen from neighbours. What it says of all of them is that no two overlap and that there is
no hole between the first start and the last end, and neither depends on the order any more.

Ranges must not be empty: an empty one between two that abut may be written before or after the
range that starts where it does, and only one of the two ways goes on without a break.

## Main results

* `isChain_iff_tiles`
-/

namespace Relay

namespace Ranges

open Intervals (Apart)

variable {τ : Type*} [LinearOrder τ] {l : List (τ × τ)} {r : τ × τ}

/-- No two of the ranges overlap, and every point between a start and an end is in one of them. -/
def Tiles (l : List (τ × τ)) : Prop :=
  l.Pairwise Apart ∧ ∀ x, (∃ r ∈ l, r.1 ≤ x) → (∃ r ∈ l, x < r.2) → x ∈ cover l

theorem apart_symm {r s : τ × τ} (h : Apart r s) : Apart s r := h.symm

theorem Tiles.perm {m : List (τ × τ)} (h : Tiles l) (hperm : l.Perm m) : Tiles m := by
  refine ⟨hperm.pairwise h.1 apart_symm, fun x hstart hend => ?_⟩
  obtain ⟨r, hr, hrx⟩ := hstart
  obtain ⟨s, hs, hsx⟩ := hend
  obtain ⟨t, ht, htx⟩ := h.2 x ⟨r, hperm.mem_iff.mpr hr, hrx⟩ ⟨s, hperm.mem_iff.mpr hs, hsx⟩
  exact ⟨t, hperm.mem_iff.mp ht, htx⟩

/-- Of two ranges that are apart and not empty, the one that starts first ends where the other
starts or before. -/
theorem end_le_of_apart {s : τ × τ} (h : Apart r s) (hs : s.1 < s.2) (hle : r.1 ≤ s.1) :
    r.2 ≤ s.1 := by
  rcases h with h | h
  · exact h
  · exact absurd (hs.trans_le h) (not_lt.mpr hle)

/-- The first range and those after it. -/
theorem tiles_cons (hne : ∀ s ∈ r :: l, s.1 < s.2)
    (hsorted : (r :: l).Pairwise fun r s => r.1 ≤ s.1) :
    Tiles (r :: l) ↔ (∀ s ∈ l.head?, r.2 = s.1) ∧ Tiles l := by
  obtain ⟨hr, hl⟩ := List.forall_mem_cons.mp hne
  obtain ⟨hfirst, hsorted⟩ := List.pairwise_cons.mp hsorted
  constructor
  · rintro ⟨hapart, hcover⟩
    obtain ⟨hapartr, hapart⟩ := List.pairwise_cons.mp hapart
    have hafter : ∀ s ∈ l, r.2 ≤ s.1 := fun s hs =>
      end_le_of_apart (hapartr s hs) (hl s hs) (hfirst s hs)
    refine ⟨fun s hs => ?_, hapart, fun x ⟨a, ha, hax⟩ ⟨b, hb, hxb⟩ => ?_⟩
    · -- otherwise the end of the first range would be in none of them
      have hmem := List.mem_of_mem_head? hs
      refine le_antisymm (hafter s hmem) (not_lt.mp fun hgap => ?_)
      obtain ⟨t, ht, htr, hrt⟩ := hcover r.2 ⟨r, List.mem_cons_self, hr.le⟩
        ⟨s, List.mem_cons_of_mem _ hmem, hgap.trans (hl s hmem)⟩
      rcases List.mem_cons.mp ht with rfl | ht
      · exact lt_irrefl _ hrt
      · obtain ⟨rest, rfl⟩ := List.head?_eq_some_iff.mp hs
        rcases List.mem_cons.mp ht with rfl | ht
        · exact absurd hgap (not_lt.mpr htr)
        · exact absurd hgap (not_lt.mpr (((List.pairwise_cons.mp hsorted).1 t ht).trans htr))
    · obtain ⟨t, ht, htx⟩ := hcover x ⟨a, List.mem_cons_of_mem _ ha, hax⟩
        ⟨b, List.mem_cons_of_mem _ hb, hxb⟩
      rcases List.mem_cons.mp ht with rfl | ht
      · exact absurd htx.2 (not_lt.mpr ((hafter a ha).trans hax))
      · exact ⟨t, ht, htx⟩
  · rintro ⟨hnext, hapart, hcover⟩
    have hafter : ∀ s ∈ l, r.2 ≤ s.1 := fun s hs => by
      cases l with
      | nil => cases hs
      | cons h l =>
        rw [hnext h rfl]
        rcases List.mem_cons.mp hs with rfl | hs
        · exact le_rfl
        · exact (List.pairwise_cons.mp hsorted).1 s hs
    refine ⟨List.pairwise_cons.mpr ⟨fun s hs => Or.inl (hafter s hs), hapart⟩,
      fun x ⟨a, ha, hax⟩ ⟨b, hb, hxb⟩ => ?_⟩
    rcases lt_or_ge x r.2 with hin | hout
    · refine ⟨r, List.mem_cons_self, ?_, hin⟩
      rcases List.mem_cons.mp ha with rfl | ha
      · exact hax
      · exact (hfirst a ha).trans hax
    · rcases List.mem_cons.mp hb with rfl | hb
      · exact absurd hxb (not_lt.mpr hout)
      · cases l with
        | nil => cases hb
        | cons h l =>
          obtain ⟨t, ht, htx⟩ := hcover x
            ⟨h, List.mem_cons_self, (hnext h rfl).symm.le.trans hout⟩ ⟨b, hb, hxb⟩
          exact ⟨t, List.mem_cons_of_mem _ ht, htx⟩

/-- **Without gaps.** Ranges in the order of their starts each end where the next one starts exactly
if they do not overlap and leave no hole. -/
theorem isChain_iff_tiles (hne : ∀ r ∈ l, r.1 < r.2)
    (hsorted : l.Pairwise fun r s => r.1 ≤ s.1) :
    l.IsChain (fun r s => r.2 = s.1) ↔ Tiles l := by
  induction l with
  | nil =>
    refine iff_of_true List.IsChain.nil ⟨List.Pairwise.nil, fun x ⟨a, ha, _⟩ => ?_⟩
    cases ha
  | cons r l ih =>
    rw [List.isChain_cons, ih (List.forall_mem_cons.mp hne).2 (List.pairwise_cons.mp hsorted).2,
      tiles_cons hne hsorted]

end Ranges

end Relay
