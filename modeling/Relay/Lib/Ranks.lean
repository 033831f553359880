import Mathlib.Data.List.Basic
import Mathlib.Order.Lattice

/-!
# Ranks in a list

The element of rank `k` of a list is the one at `k` when the list is sorted. To know it, the list
need not be sorted: it is enough to split off `k` elements that are no greater than some element,
while the others are no smaller.

## Main results

* `pairwise_mergeSort_key`: sorting by a key
* `mergeSort_eq_of_perm`: the order in which a list came does not matter
* `getElem?_mergeSort_of_perm`: an element that splits the list, by its rank
-/

namespace Relay

namespace Ranks

variable {α : Type*} [LinearOrder α]

/-- A list that is sorted by a key. -/
theorem pairwise_mergeSort_key {β : Type*} (key : β → α) (l : List β) :
    (l.mergeSort fun a b => key a ≤ key b).Pairwise fun a b => key a ≤ key b := by
  refine (List.pairwise_mergeSort (fun a b c hab hbc => ?_) (fun a b => ?_) l).imp of_decide_eq_true
  · exact decide_eq_true ((of_decide_eq_true hab).trans (of_decide_eq_true hbc))
  · simpa using le_total (key a) (key b)

theorem pairwise_le_mergeSort (l : List α) :
    (l.mergeSort fun a b => a ≤ b).Pairwise fun a b => a ≤ b :=
  pairwise_mergeSort_key id l

/-- Sorted, a list is the same in whatever order it came. -/
theorem mergeSort_eq_of_perm {l m : List α} (h : l.Perm m) :
    (l.mergeSort fun a b => a ≤ b) = m.mergeSort fun a b => a ≤ b :=
  List.Perm.eq_of_pairwise (fun _ _ _ _ => le_antisymm) (pairwise_le_mergeSort l)
    (pairwise_le_mergeSort m)
    ((List.mergeSort_perm l _).trans (h.trans (List.mergeSort_perm m _).symm))

/-- **Ranks by a split.** An element with `k` elements that are no greater before it, and after it
those that are no smaller, has rank `k`. -/
theorem getElem?_mergeSort_of_perm {l before after : List α} {x : α}
    (hperm : (before ++ x :: after).Perm l) (hbefore : ∀ a ∈ before, a ≤ x)
    (hafter : ∀ b ∈ after, x ≤ b) :
    (l.mergeSort fun a b => a ≤ b)[before.length]? = some x := by
  have hlow := List.mergeSort_perm before fun a b => decide (a ≤ b)
  have hhigh := List.mergeSort_perm after fun a b => decide (a ≤ b)
  have hsorted : ((before.mergeSort fun a b => a ≤ b) ++
      x :: after.mergeSort fun a b => a ≤ b).Pairwise fun a b => a ≤ b := by
    rw [List.pairwise_append, List.pairwise_cons]
    refine ⟨pairwise_le_mergeSort before, ⟨fun b hb => hafter b (hhigh.subset hb),
      pairwise_le_mergeSort after⟩, fun a ha b hb => ?_⟩
    have hax := hbefore a (hlow.subset ha)
    rcases List.mem_cons.mp hb with rfl | hb
    · exact hax
    · exact hax.trans (hafter b (hhigh.subset hb))
  have hsame : l.mergeSort (fun a b => a ≤ b) =
      (before.mergeSort fun a b => a ≤ b) ++ x :: after.mergeSort fun a b => a ≤ b := by
    refine List.Perm.eq_of_pairwise (fun _ _ _ _ => le_antisymm) (pairwise_le_mergeSort l)
      hsorted ?_
    exact (List.mergeSort_perm l _).trans (hperm.symm.trans (hlow.append (hhigh.cons x)).symm)
  rw [hsame, ← hlow.length_eq, List.getElem?_append_right (Nat.le_refl _), Nat.sub_self]
  rfl

end Ranks

end Relay
