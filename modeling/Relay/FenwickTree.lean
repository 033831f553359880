import Mathlib.Algebra.BigOperators.Group.List.Basic
import Mathlib.Algebra.Order.Ring.Int
import Mathlib.Data.List.Induction
import Relay.Errors
import Relay.Lib.LowestBit
import Relay.Lib.Machine

/-!
# The Fenwick tree

Sums of a range of numbered positions, while single positions change. The entry at `i` is the sum of
the block of `i`, as many positions up to `i` as its lowest set bit says. An update adds its delta
to the entries whose blocks it is in, going up by the lowest set bit, and a prefix sum adds up the
blocks that make up the prefix, going down by it.

Both loops go through positive indices only. The walk up is given that its index is positive, and
that is why it ends: the lowest set bit of a positive index is positive. An access outside the list
has no result.

## Scope

The report of the grand total is left out, which is the sum of the whole prefix.

## Main definitions

* `FenwickTree`, with `update`, `prefixSum` and `rangeSum`
* `sumBetween`: the sum of the deltas that were applied to some positions

## Main results

* `fenwickTree_sums`: the sums of a prefix and of a range after any updates
-/

namespace Relay

open LowestBit (lowestBit InBlock)

/-- A tree over `size` positions, which are numbered from one. -/
structure FenwickTree where
  size : ℤ
  tree : List ℤ
  /-- A tree has at least one position. -/
  size_pos : 1 ≤ size

namespace FenwickTree

/-- A tree of zeros. -/
def new (size : ℤ) (size_pos : 1 ≤ size) : FenwickTree :=
  { size := size, tree := List.replicate (size + 1).toNat 0, size_pos := size_pos }

/-- The loop of `update`. -/
def updateLoop (size delta : ℤ) (tree : List ℤ) (i : ℤ) (hi : 0 < i) : Option (List ℤ) :=
  have _hbit := LowestBit.lowestBit_pos hi
  if i ≤ size then
    match tree[i.toNat]? with
    | none => none
    | some entry =>
      updateLoop size delta (tree.set i.toNat (entry + delta)) (i + lowestBit i)
        (LowestBit.add_lowestBit_pos hi)
  else
    some tree
termination_by (size + 1 - i).toNat

/-- `update`. -/
def update (tree : FenwickTree) (index delta : ℤ) : Except RelayError (Option FenwickTree) :=
  if h : 1 ≤ index ∧ index ≤ tree.size then
    .ok ((updateLoop tree.size delta tree.tree index h.1).map fun entries =>
      { tree with tree := entries })
  else
    .error (.invalid s!"index {index} outside 1..{tree.size}")

/-- The loop of `prefix_sum`. -/
def prefixLoop (tree : List ℤ) (total i : ℤ) : Option ℤ :=
  if hi : i > 0 then
    have _hbit := LowestBit.lowestBit_pos hi
    match tree[i.toNat]? with
    | none => none
    | some entry => prefixLoop tree (total + entry) (i - lowestBit i)
  else
    some total
termination_by i.toNat

/-- `prefix_sum`. -/
def prefixSum (tree : FenwickTree) (index : ℤ) : Except RelayError (Option ℤ) :=
  if 0 ≤ index ∧ index ≤ tree.size then
    .ok (prefixLoop tree.tree 0 index)
  else
    .error (.invalid s!"index {index} outside 0..{tree.size}")

/-- `range_sum`. -/
def rangeSum (tree : FenwickTree) (low high : ℤ) : Except RelayError (Option ℤ) :=
  if low > high then
    .error (.invalid "range low cannot exceed high")
  else do
    let upper ← tree.prefixSum high
    let lower ← tree.prefixSum (low - 1)
    return Option.map₂ (· - ·) upper lower

/-- Updates made one after another. -/
def updateAll (tree : FenwickTree) (updates : List (ℤ × ℤ)) :
    Except RelayError (Option FenwickTree) :=
  runAll (fun tree (index, delta) => tree.update index delta) tree updates

end FenwickTree

/-- The sum of the deltas that were applied to the positions from `low` to `high`. -/
def sumBetween (updates : List (ℤ × ℤ)) (low high : ℤ) : ℤ :=
  ((updates.filter fun u => low ≤ u.1 ∧ u.1 ≤ high).map Prod.snd).sum

/-! ## Sums of deltas -/

section Sums

variable {updates : List (ℤ × ℤ)} {low mid high : ℤ}

theorem sumBetween_append_singleton (updates : List (ℤ × ℤ)) (u : ℤ × ℤ) (low high : ℤ) :
    sumBetween (updates ++ [u]) low high =
      sumBetween updates low high + if low ≤ u.1 ∧ u.1 ≤ high then u.2 else 0 := by
  rw [sumBetween, List.filter_append, List.map_append, List.sum_append, ← sumBetween]
  split
  · next hu => simp [hu]
  · next hu => simp [hu]

theorem sumBetween_add (hlow : low ≤ mid + 1) (hhigh : mid ≤ high) :
    sumBetween updates low mid + sumBetween updates (mid + 1) high =
      sumBetween updates low high := by
  induction updates using List.reverseRecOn with
  | nil => rfl
  | append_singleton updates u ih =>
    simp only [sumBetween_append_singleton, ← ih]
    split_ifs <;> omega

theorem sumBetween_of_lt (h : high < low) : sumBetween updates low high = 0 := by
  have hnone : updates.filter (fun u => low ≤ u.1 ∧ u.1 ≤ high) = [] := by
    rw [List.filter_eq_nil_iff]
    intro u _
    simp only [decide_eq_true_eq]
    omega
  rw [sumBetween, hnone]
  rfl

end Sums

/-! ## The tree -/

/-- Every entry of the list is the sum of its block. -/
structure TreeOf (updates : List (ℤ × ℤ)) (size : ℤ) (tree : List ℤ) : Prop where
  length_eq : (tree.length : ℤ) = size + 1
  entry_eq : ∀ j, 1 ≤ j → j ≤ size →
    tree[j.toNat]? = some (sumBetween updates (j - lowestBit j + 1) j)

namespace FenwickTree

section Loops

variable {updates : List (ℤ × ℤ)} {size total i : ℤ} {tree : List ℤ}

/-- **The walk up.** From any positive index, the loop comes to an end without an access outside the
list, and it has added the delta to the entries whose blocks the index is in, and to no others. -/
theorem updateLoop_eq (delta : ℤ) (hi : 0 < i) (hlength : (tree.length : ℤ) = size + 1) :
    ∃ tree', updateLoop size delta tree i hi = some tree' ∧ (tree'.length : ℤ) = size + 1 ∧
      ∀ j, 1 ≤ j → j ≤ size →
        tree'[j.toNat]? = tree[j.toNat]?.map (· + if InBlock j i then delta else 0) := by
  induction tree, i, hi using updateLoop.induct size delta with
  | case1 tree i hi hbit hle hnone =>
    rw [List.getElem?_eq_none_iff] at hnone
    omega
  | case2 tree i hi hbit hle entry hentry ih =>
    obtain ⟨tree', hloop, hlength', hentries⟩ := ih (by rwa [List.length_set])
    refine ⟨tree', ?_, hlength', fun j hj hjsize => ?_⟩
    · rw [updateLoop, if_pos hle, hentry]
      exact hloop
    · rw [hentries j hj hjsize]
      rcases eq_or_ne i j with rfl | hne
      · rw [List.getElem?_set_self (by omega), hentry, if_pos (LowestBit.inBlock_self hi),
          if_neg (LowestBit.not_inBlock_add_lowestBit hi), Option.map_some, Option.map_some,
          add_zero]
      · rw [List.getElem?_set_ne (by omega)]
        simp only [LowestBit.inBlock_add_lowestBit_iff hi hj hne]
  | case3 tree i hi hbit hgt =>
    refine ⟨tree, by rw [updateLoop, if_neg hgt], hlength, fun j _ hjsize => ?_⟩
    have hout : ¬ InBlock j i := fun h => absurd h.2 (by omega)
    simp only [if_neg hout, add_zero, Option.map_id']

/-- **The walk down.** It adds up the blocks that make up the prefix. -/
theorem prefixLoop_eq (h : TreeOf updates size tree) (hi : 0 ≤ i) (hle : i ≤ size) :
    prefixLoop tree total i = some (total + sumBetween updates 1 i) := by
  induction total, i using prefixLoop.induct tree with
  | case1 total i hpos hbit hnone =>
    rw [h.entry_eq i hpos hle] at hnone
    exact nomatch hnone
  | case2 total i hpos hbit entry hentry ih =>
    have hrest := ih (sub_nonneg.mpr (LowestBit.lowestBit_le hpos)) (by omega)
    rw [prefixLoop, dif_pos hpos, hentry]
    refine hrest.trans ?_
    rw [h.entry_eq i hpos hle] at hentry
    have hsum : sumBetween updates 1 (i - lowestBit i) +
        sumBetween updates (i - lowestBit i + 1) i = sumBetween updates 1 i :=
      sumBetween_add (by have := LowestBit.lowestBit_le hpos; omega) (by omega)
    rw [← Option.some.inj hentry, ← hsum]
    exact congrArg some (by ring)
  | case3 total i hpos =>
    rw [prefixLoop, dif_neg hpos, sumBetween_of_lt (by omega), add_zero]

end Loops

section Runs

variable {past updates : List (ℤ × ℤ)} {tree : FenwickTree}

theorem update_eq (h : TreeOf past tree.size tree.tree) {index : ℤ} (delta : ℤ) (hlow : 1 ≤ index)
    (hhigh : index ≤ tree.size) :
    ∃ tree', tree.update index delta = .ok (some tree') ∧ tree'.size = tree.size ∧
      TreeOf (past ++ [(index, delta)]) tree'.size tree'.tree := by
  obtain ⟨entries, hloop, hlength, hentries⟩ :=
    updateLoop_eq delta hlow h.length_eq
  refine ⟨{ tree with tree := entries }, ?_, rfl, hlength, fun j hj hjsize => ?_⟩
  · rw [update, dif_pos ⟨hlow, hhigh⟩, hloop]
    rfl
  · rw [hentries j hj hjsize, h.entry_eq j hj hjsize, Option.map_some, sumBetween_append_singleton]
    have hblock : (j - lowestBit j + 1 ≤ index ∧ index ≤ j) ↔ InBlock j index := by
      rw [InBlock]
      omega
    simp only [hblock]

theorem treeOf_new (size : ℤ) (size_pos : 1 ≤ size) :
    TreeOf [] size (new size size_pos).tree := by
  refine ⟨?_, fun j hj hjsize => ?_⟩
  · rw [new, List.length_replicate]
    omega
  · rw [new, List.getElem?_replicate, if_pos (by omega)]
    rfl

theorem updateAll_new (size : ℤ) (size_pos : 1 ≤ size)
    (hrange : ∀ u ∈ updates, 1 ≤ u.1 ∧ u.1 ≤ size) :
    ∃ tree, (new size size_pos).updateAll updates = .ok (some tree) ∧ tree.size = size ∧
      TreeOf updates tree.size tree.tree := by
  refine runAll_eq (P := fun past (tree : FenwickTree) =>
    tree.size = size ∧ TreeOf past tree.size tree.tree)
    (fun past tree u h hu => ?_) [] ⟨rfl, treeOf_new size size_pos⟩ hrange
  obtain ⟨tree', hupdate, hsize, htree⟩ := update_eq h.2 u.2 hu.1 (hu.2.trans_eq h.1.symm)
  exact ⟨tree', hupdate, hsize.trans h.1, htree⟩

end Runs

end FenwickTree

/-- **The Fenwick tree.** After any updates in range, every one of which comes to an end without an
access outside the list, the sum of a prefix is that of the deltas applied to the positions from one
to its end, and the sum of a range that of the deltas applied to its positions. -/
theorem fenwickTree_sums (size : ℤ) (size_pos : 1 ≤ size) (updates : List (ℤ × ℤ))
    (hrange : ∀ u ∈ updates, 1 ≤ u.1 ∧ u.1 ≤ size) :
    ∃ tree, (FenwickTree.new size size_pos).updateAll updates = .ok (some tree) ∧
      (∀ i, 0 ≤ i → i ≤ size → tree.prefixSum i = .ok (some (sumBetween updates 1 i))) ∧
      ∀ low high, 1 ≤ low → low ≤ high → high ≤ size →
        tree.rangeSum low high = .ok (some (sumBetween updates low high)) := by
  obtain ⟨tree, hall, hsize, htree⟩ := FenwickTree.updateAll_new size size_pos hrange
  have hprefix : ∀ i, 0 ≤ i → i ≤ size →
      tree.prefixSum i = .ok (some (sumBetween updates 1 i)) := by
    intro i hi hle
    have hle' : i ≤ tree.size := hle.trans_eq hsize.symm
    rw [FenwickTree.prefixSum, if_pos ⟨hi, hle'⟩, FenwickTree.prefixLoop_eq htree hi hle', zero_add]
  refine ⟨tree, hall, hprefix, fun low high hlow hle hhigh => ?_⟩
  have hsum : sumBetween updates 1 (low - 1) + sumBetween updates (low - 1 + 1) high =
      sumBetween updates 1 high := sumBetween_add (by omega) (by omega)
  rw [sub_add_cancel] at hsum
  rw [FenwickTree.rangeSum, if_neg (not_lt.mpr hle), hprefix high (by omega) hhigh,
    hprefix (low - 1) (by omega) (by omega), ← hsum]
  exact congrArg (fun x => Except.ok (some x)) (add_sub_cancel_left _ _)

/-- Three positions, one of them updated twice. -/
theorem fenwickTree_sums_three :
    ∃ tree, (FenwickTree.new 3 (by decide)).updateAll [(2, 5), (3, 1), (2, -7)] = .ok (some tree) ∧
      tree.rangeSum 2 3 = .ok (some (sumBetween [(2, 5), (3, 1), (2, -7)] 2 3)) := by
  obtain ⟨tree, hall, -, hrange⟩ :=
    fenwickTree_sums 3 (by decide) [(2, 5), (3, 1), (2, -7)] (by decide)
  exact ⟨tree, hall, hrange 2 3 (by decide) (by decide) (by decide)⟩

end Relay
