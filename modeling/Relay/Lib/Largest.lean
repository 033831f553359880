import Mathlib.Algebra.BigOperators.Group.Finset.Basic
import Mathlib.Algebra.Order.BigOperators.Group.List
import Mathlib.Data.List.Perm.Subperm
import Mathlib.Order.Lattice

/-!
# The largest ones

A loop that goes through a list and keeps what it has seen the largest value of ends with the
largest value of all. The smallest value is the largest one in the opposite order.

Of all ways to choose some number of things, those with the largest values add up to the most. The
things are in a list that is sorted by their values, the largest first, so that these are its first
ones.

## Main definitions

* `firstLargest`: the loop

## Main results

* `firstLargest_spec`: nothing in the list has a larger value
* `sum_le_sum_take`: numbers chosen from a sorted list
* `sum_le_sum_take_map`: things chosen by their values
* `sum_take_toFinset`: the choice that reaches the bound
-/

namespace Relay

namespace Largest

section Loop

variable {ι α : Type*} [LinearOrder α]

/-- The first of the things that have the largest value. -/
def firstLargest (value : ι → α) (first : ι) (rest : List ι) : ι :=
  rest.foldl (fun kept x => if value kept < value x then x else kept) first

theorem firstLargest_spec (value : ι → α) (first : ι) (rest : List ι) :
    firstLargest value first rest ∈ first :: rest ∧
      ∀ x ∈ first :: rest, value x ≤ value (firstLargest value first rest) := by
  induction rest generalizing first with
  | nil => exact ⟨List.mem_singleton_self first, List.forall_mem_singleton.mpr le_rfl⟩
  | cons next rest ih =>
    rw [firstLargest, List.foldl_cons]
    split
    · next hlt =>
      obtain ⟨hmem, hle⟩ := ih next
      refine ⟨List.mem_cons_of_mem _ hmem, List.forall_mem_cons.mpr ⟨?_, hle⟩⟩
      exact hlt.le.trans (hle next List.mem_cons_self)
    · next hge =>
      obtain ⟨hmem, hle⟩ := ih first
      obtain ⟨hfirst, hrest⟩ := List.forall_mem_cons.mp hle
      refine ⟨?_, List.forall_mem_cons.mpr ⟨hfirst, List.forall_mem_cons.mpr ⟨?_, hrest⟩⟩⟩
      · rcases List.mem_cons.mp hmem with heq | hmem
        · exact List.mem_cons.mpr (Or.inl heq)
        · exact List.mem_cons_of_mem _ (List.mem_cons_of_mem _ hmem)
      · exact (not_lt.mp hge).trans hfirst

end Loop

section Lists

variable {α : Type*} [AddCommMonoid α] [PartialOrder α] [IsOrderedAddMonoid α] {l m : List α}

/-- A number in front that is not smaller than the others makes the first ones no smaller. -/
theorem sum_take_le_sum_take_cons {a : α} (ha : ∀ b ∈ l, b ≤ a) {k : ℕ} (hk : k ≤ l.length) :
    (l.take k).sum ≤ ((a :: l).take k).sum := by
  cases k with
  | zero => exact le_rfl
  | succ k =>
    rw [List.take_succ_eq_append_getElem hk, List.take_succ_cons, List.sum_append,
      List.sum_singleton, List.sum_cons, add_comm]
    exact add_le_add_left (ha _ (List.getElem_mem hk)) _

/-- **Numbers chosen from a sorted list** add up to no more than as many of its first ones. -/
theorem sum_le_sum_take (hsorted : l.Pairwise fun a b => b ≤ a) (h : m.Sublist l) :
    m.sum ≤ (l.take m.length).sum := by
  induction h with
  | slnil => exact le_rfl
  | cons a h ih =>
    obtain ⟨ha, hsorted⟩ := List.pairwise_cons.mp hsorted
    exact (ih hsorted).trans (sum_take_le_sum_take_cons ha h.length_le)
  | cons_cons a h ih =>
    rw [List.length_cons, List.take_succ_cons, List.sum_cons, List.sum_cons]
    exact add_le_add_right (ih (List.pairwise_cons.mp hsorted).2) a

/-- More of the first ones add up to more, if none is negative. -/
theorem sum_take_mono (hnonneg : ∀ a ∈ l, 0 ≤ a) {i j : ℕ} (hij : i ≤ j) :
    (l.take i).sum ≤ (l.take j).sum :=
  (List.take_sublist_take_left hij).sum_le_sum fun a ha => hnonneg a (List.mem_of_mem_take ha)

end Lists

section Values

variable {ι α : Type*} [AddCommMonoid α] [PartialOrder α] [IsOrderedAddMonoid α] {order : List ι}
  {value : ι → α} {S : Finset ι}

/-- **Things chosen by their values** add up to no more than as many of the first ones. -/
theorem sum_le_sum_take_map (hsorted : order.Pairwise fun a b => value b ≤ value a)
    (hS : ∀ a ∈ S, a ∈ order) :
    ∑ a ∈ S, value a ≤ ((order.map value).take S.card).sum := by
  have hsubperm : S.toList.Subperm order :=
    List.subperm_of_subset S.nodup_toList fun a ha => hS a (Finset.mem_toList.mp ha)
  obtain ⟨chosen, hperm, hsublist⟩ := hsubperm
  have hsum : (chosen.map value).sum = ∑ a ∈ S, value a := by
    rw [(hperm.map value).sum_eq, Finset.sum_map_toList]
  have hlength : (chosen.map value).length = S.card := by
    rw [List.length_map, hperm.length_eq, Finset.length_toList]
  rw [← hsum, ← hlength]
  exact sum_le_sum_take (List.pairwise_map.mpr hsorted) (hsublist.map value)

omit [PartialOrder α] [IsOrderedAddMonoid α] in
/-- The first ones themselves are such a choice. -/
theorem sum_take_toFinset [DecidableEq ι] (hnodup : order.Nodup) (k : ℕ) :
    ∑ a ∈ (order.take k).toFinset, value a = ((order.map value).take k).sum := by
  rw [List.sum_toFinset _ (hnodup.sublist (List.take_sublist k order)), List.map_take]

end Values

end Largest

end Relay
