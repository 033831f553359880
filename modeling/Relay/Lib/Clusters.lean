import Mathlib.Data.List.Sort
import Mathlib.Data.List.SplitBy
import Mathlib.Order.Monotone.Basic

/-!
# Clusters of points on a line

Points lie on a line, and each reaches some way up it. The clusters of a list of points are what is
left of the sorted list when it is cut wherever a point does not reach the next one.

A cluster may also be told by its members alone, whatever order they are in: wherever the line is
cut between two of them, a member beyond the cut is within the reach of the cut (`Linked`). And two
lists are kept apart when no point of the one reaches the other (`Apart`). Nonempty linked lists
that are kept apart are the clusters of all their points (`eq_clusters`), and that is how clusters
may be kept up to date point by point: one more point links the lists it touches, and keeps apart
from the others.

## Main definitions

* `clusters`: the sorted list, cut wherever a point does not reach the next one
* `Linked`, `Before`, `Apart` and `Touches`

## Main results

* `eq_clusters`: clusters by their members
* `linked_append_singleton`, `apart_append_singleton`: one more point
-/

namespace Relay

namespace Clusters

variable {α : Type*} [LinearOrder α] (reach : α → α)

/-- The sorted list, cut wherever a point does not reach the next one. -/
def clusters (l : List α) : List (List α) :=
  (l.mergeSort fun a b => a ≤ b).splitBy fun a b => b ≤ reach a

/-- Wherever the line is cut between two points of the list, there is one beyond the cut that is
within its reach. -/
def Linked (l : List α) : Prop :=
  ∀ c, (∃ x ∈ l, x ≤ c) → (∃ z ∈ l, c < z) → ∃ y ∈ l, c < y ∧ y ≤ reach c

/-- All of one list lies before the other, out of its reach. -/
def Before (l m : List α) : Prop :=
  ∀ a ∈ l, ∀ b ∈ m, reach a < b

/-- One of two lists lies before the other. -/
def Apart (l m : List α) : Prop :=
  Before reach l m ∨ Before reach m l

/-- Some point of the list is within the reach of `t` or before it, and `t` within the reach of some
point of the list or before it. -/
def Touches (t : α) (l : List α) : Prop :=
  (∃ x ∈ l, x ≤ reach t) ∧ ∃ z ∈ l, t ≤ reach z

variable {reach} {l m : List α} {ls : List (List α)} {t : α}

theorem Linked.perm (h : Linked reach l) (hperm : m.Perm l) : Linked reach m := by
  simpa only [Linked, hperm.mem_iff] using h

theorem Apart.perm {l' : List α} (h : Apart reach l m) (hperm : l'.Perm l) : Apart reach l' m := by
  simpa only [Apart, Before, hperm.mem_iff] using h

theorem Apart.symm (h : Apart reach l m) : Apart reach m l :=
  Or.symm h

/-- Lists kept apart lie in the order of any of their points. -/
theorem Apart.before (hreach : ∀ x, x ≤ reach x) (h : Apart reach l m) {x y : α} (hx : x ∈ l)
    (hy : y ∈ m) (hxy : x ≤ y) : Before reach l m := by
  refine h.resolve_right fun hafter => ?_
  exact absurd (hafter y hy x hx) (not_lt.mpr (hxy.trans (hreach y)))

/-! ## One more point -/

/-- A point links the lists it touches. -/
theorem linked_append_singleton (hmono : Monotone reach) (hlinked : ∀ l ∈ ls, Linked reach l)
    (htouches : ∀ l ∈ ls, Touches reach t l) : Linked reach (ls.flatten ++ [t]) := by
  have hmem {x : α} {l : List α} (hl : l ∈ ls) (hx : x ∈ l) : x ∈ ls.flatten ++ [t] :=
    List.mem_append_left _ (List.mem_flatten_of_mem hl hx)
  rintro c ⟨x, hx, hxc⟩ ⟨z, hz, hcz⟩
  rcases le_or_gt t c with htc | hct
  · -- the point is below the cut, so a list beyond the cut starts within its reach, or is cut
    have hz' : z ∈ ls.flatten := by
      refine (List.mem_append.mp hz).resolve_right fun hz => ?_
      rw [List.mem_singleton.mp hz] at hcz
      exact absurd hcz (not_lt.mpr htc)
    obtain ⟨l, hl, hzl⟩ := List.mem_flatten.mp hz'
    obtain ⟨⟨w, hw, hwt⟩, -⟩ := htouches l hl
    rcases le_or_gt w c with hwc | hcw
    · obtain ⟨y, hy, hcy, hyc⟩ := hlinked l hl c ⟨w, hw, hwc⟩ ⟨z, hzl, hcz⟩
      exact ⟨y, hmem hl hy, hcy, hyc⟩
    · exact ⟨w, hmem hl hw, hcw, hwt.trans (hmono htc)⟩
  · -- the point is beyond the cut, so a list below it reaches the point, or is cut
    have hx' : x ∈ ls.flatten := by
      refine (List.mem_append.mp hx).resolve_right fun hx => ?_
      rw [List.mem_singleton.mp hx] at hxc
      exact absurd hct (not_lt.mpr hxc)
    obtain ⟨l, hl, hxl⟩ := List.mem_flatten.mp hx'
    obtain ⟨-, ⟨w, hw, htw⟩⟩ := htouches l hl
    rcases le_or_gt w c with hwc | hcw
    · exact ⟨t, List.mem_append_right _ List.mem_cons_self, hct, htw.trans (hmono hwc)⟩
    · obtain ⟨y, hy, hcy, hyc⟩ := hlinked l hl c ⟨x, hxl, hxc⟩ ⟨w, hw, hcw⟩
      exact ⟨y, hmem hl hy, hcy, hyc⟩

/-- A list that the point does not touch stays apart from the point and the lists it touches. -/
theorem apart_append_singleton (hmono : Monotone reach) (hreach : ∀ x, x ≤ reach x)
    (htouches : ∀ l ∈ ls, Touches reach t l) (hnot : ¬ Touches reach t m)
    (hapart : ∀ l ∈ ls, Apart reach l m) : Apart reach (ls.flatten ++ [t]) m := by
  rw [Touches, not_and_or] at hnot
  rcases hnot with hafter | hbefore
  · push Not at hafter
    refine Or.inl fun a ha b hb => ?_
    rcases List.mem_append.mp ha with ha | ha
    · obtain ⟨l, hl, hal⟩ := List.mem_flatten.mp ha
      obtain ⟨x, hx, hxt⟩ := (htouches l hl).1
      have hxb : x ≤ b := hxt.trans (hafter b hb).le
      exact (hapart l hl).before hreach hx hb hxb a hal b hb
    · rw [List.mem_singleton.mp ha]
      exact hafter b hb
  · push Not at hbefore
    refine Or.inr fun b hb a ha => ?_
    rcases List.mem_append.mp ha with ha | ha
    · obtain ⟨l, hl, hal⟩ := List.mem_flatten.mp ha
      obtain ⟨z, hz, htz⟩ := (htouches l hl).2
      have hbz : b ≤ z := by
        by_contra hlt
        exact absurd (htz.trans (hmono (not_le.mp hlt).le)) (not_le.mpr (hbefore b hb))
      exact (hapart l hl).symm.before hreach hb hz hbz b hb a hal
    · rw [List.mem_singleton.mp ha]
      exact hbefore b hb

/-! ## Clusters by their members -/

/-- In a linked list that is sorted, every point reaches the next. -/
theorem Linked.isChain (hreach : ∀ x, x ≤ reach x) (h : Linked reach l)
    (hsorted : l.Pairwise (· ≤ ·)) : l.IsChain fun a b => b ≤ reach a := by
  rw [List.isChain_iff_forall_rel_of_append_cons_cons]
  rintro a b before after rfl
  obtain ⟨-, hrest, hle⟩ := List.pairwise_append.mp hsorted
  obtain ⟨hab, hafter⟩ := List.pairwise_cons.mp hrest
  rcases (hab b List.mem_cons_self).eq_or_lt with rfl | hlt
  · exact hreach a
  · obtain ⟨y, hy, hay, hya⟩ := h a ⟨a, by simp, le_rfl⟩ ⟨b, by simp, hlt⟩
    refine le_trans ?_ hya
    rcases List.mem_append.mp hy with hy | hy
    · exact absurd (hle y hy a List.mem_cons_self) (not_le.mpr hay)
    · rcases List.mem_cons.mp hy with rfl | hy
      · exact absurd hay (lt_irrefl y)
      · rcases List.mem_cons.mp hy with rfl | hy
        · exact le_rfl
        · exact (List.pairwise_cons.mp hafter).1 y hy

/-- **Clusters by their members.** Sorted and linked lists with a point each, every one out of the
reach of those before it, are the clusters of all their points. -/
theorem eq_clusters (hreach : ∀ x, x ≤ reach x) (hne : [] ∉ ls)
    (hsorted : ∀ l ∈ ls, l.Pairwise (· ≤ ·)) (hlinked : ∀ l ∈ ls, Linked reach l)
    (hbefore : ls.Pairwise (Before reach)) (hperm : ls.flatten.Perm l) :
    ls = clusters reach l := by
  have hflatten : ls.flatten.Pairwise (· ≤ ·) :=
    List.pairwise_flatten.mpr ⟨hsorted, hbefore.imp fun h a ha b hb =>
      (hreach a).trans (h a ha b hb).le⟩
  have hsort : l.mergeSort (fun a b => a ≤ b) = ls.flatten :=
    ((List.mergeSort_perm _ _).trans hperm.symm).eq_of_pairwise'
      (List.pairwise_mergeSort' (· ≤ ·) l) hflatten
  rw [clusters, hsort, eq_comm, List.splitBy_eq_iff]
  refine ⟨rfl, hne, fun l hl => ?_, ?_⟩
  · exact ((hlinked l hl).isChain hreach (hsorted l hl)).imp fun _ _ h => decide_eq_true h
  · refine (hbefore.imp_of_mem fun {l m} hl hm h => ?_).isChain
    have hlne : l ≠ [] := fun heq => hne (heq ▸ hl)
    have hmne : m ≠ [] := fun heq => hne (heq ▸ hm)
    exact ⟨hlne, hmne, decide_eq_false
      (not_le.mpr (h _ (List.getLast_mem hlne) _ (List.head_mem hmne)))⟩

end Clusters

end Relay
