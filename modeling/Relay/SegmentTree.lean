import Mathlib.Algebra.Order.Interval.Finset.SuccPred
import Mathlib.Algebra.Order.Interval.Set.SuccPred
import Mathlib.Algebra.Order.Ring.Int
import Mathlib.Data.Finset.Lattice.Fold
import Mathlib.Data.Finset.Max
import Mathlib.Data.Int.ConditionallyCompleteOrder
import Mathlib.Data.Int.Interval
import Mathlib.Data.Int.SuccPred
import Mathlib.Order.Bounds.Basic
import Mathlib.Order.WithBot
import Relay.Errors
import Relay.Lib.Machine

/-!
# The segment tree

The greatest value of a range of positions, while single positions change. The values stand in a
list of twice the size: the second half holds the leaves, and the node at `p` in the first half is
the greater of those at `2 * p` and `2 * p + 1`. An update sets a leaf and goes up, setting each
node from its children.

Unless the size is a power of two, some nodes do not stand for ranges of positions. This does not
matter to a query. It goes up from both ends of a range of nodes of the list, whatever they are:
what sticks out at an end is taken into the result, and the rest are the children of a range of
nodes that is half as long. So what the result and the range of nodes have for a maximum together
never changes (`queryLoop_eq`).

The result starts from minus infinity, which is the bottom that is put under the values here. An
access outside the list has no result.

## Scope

The note on the root is left out.

## Main definitions

* `SegmentTree`, with `update`, `rangeMax` and `overallMax`
* `leafValues`: the values of the positions after some updates

## Main results

* `segmentTree_max`: the maximum of a range, and of all positions, after any updates
-/

namespace Relay

/-- A tree over `size` positions, which are numbered from zero. -/
structure SegmentTree (α : Type*) where
  size : ℤ
  tree : List α
  /-- A tree has at least one position. -/
  size_pos : 1 ≤ size

namespace SegmentTree

variable {α : Type*}

/-- A tree whose positions have the default. -/
def new [Zero α] (size : ℤ) (size_pos : 1 ≤ size) : SegmentTree α :=
  { size := size, tree := List.replicate (2 * size).toNat 0, size_pos := size_pos }

variable [LinearOrder α]

/-- The loop of `update`. -/
def updateLoop (tree : List α) (pos : ℤ) : Option (List α) :=
  if pos ≥ 1 then
    match tree[(2 * pos).toNat]?, tree[(2 * pos + 1).toNat]? with
    | some left, some right => updateLoop (tree.set pos.toNat (max left right)) (pos / 2)
    | _, _ => none
  else
    some tree
termination_by pos.toNat

/-- `update`. -/
def update (tree : SegmentTree α) (index : ℤ) (value : α) :
    Except RelayError (Option (SegmentTree α)) :=
  if 0 ≤ index ∧ index < tree.size then
    let pos := index + tree.size
    .ok ((updateLoop (tree.tree.set pos.toNat value) (pos / 2)).map fun nodes =>
      { tree with tree := nodes })
  else
    .error (.invalid s!"index {index} is out of range 0..{tree.size - 1}")

/-- The greater of the result and a node. -/
def take (tree : List α) (result : WithBot α) (p : ℤ) : Option (WithBot α) :=
  tree[p.toNat]?.map fun value => max result (value : WithBot α)

/-- The loop of `range_max`. -/
def queryLoop (tree : List α) (result : WithBot α) (lo hi : ℤ) : Option (WithBot α) :=
  if lo < hi then
    match if lo % 2 = 1 then take tree result lo else some result with
    | none => none
    | some result =>
      match if hi % 2 = 1 then take tree result (hi - 1) else some result with
      | none => none
      | some result =>
        queryLoop tree result ((if lo % 2 = 1 then lo + 1 else lo) / 2)
          ((if hi % 2 = 1 then hi - 1 else hi) / 2)
  else
    some result
termination_by (hi - lo).toNat
decreasing_by
  split_ifs <;> omega

/-- `range_max`. -/
def rangeMax (tree : SegmentTree α) (low high : ℤ) : Except RelayError (Option (WithBot α)) :=
  if low > high then
    .error (.invalid (s!"range {low}..{high} is inverted; a low above the high has no "
      ++ "meaning and would silently return the identity"))
  else if (0 ≤ low ∧ low < tree.size) ∧ 0 ≤ high ∧ high < tree.size then
    .ok (queryLoop tree.tree ⊥ (low + tree.size) (high + tree.size + 1))
  else
    .error (.invalid s!"range {low}..{high} falls outside 0..{tree.size - 1}")

/-- `overall_max`. -/
def overallMax (tree : SegmentTree α) : Option α := tree.tree[1]?

/-- Updates made one after another. -/
def updateAll (tree : SegmentTree α) (updates : List (ℤ × α)) :
    Except RelayError (Option (SegmentTree α)) :=
  runAll (fun tree (index, value) => tree.update index value) tree updates

end SegmentTree

/-- The values of the positions after some updates. -/
def leafValues {α : Type*} [Zero α] (updates : List (ℤ × α)) : ℤ → α :=
  updates.foldl (fun values u => Function.update values u.1 u.2) fun _ => 0

theorem leafValues_append_singleton {α : Type*} [Zero α] (updates : List (ℤ × α)) (u : ℤ × α) :
    leafValues (updates ++ [u]) = Function.update (leafValues updates) u.1 u.2 := by
  rw [leafValues, List.foldl_append]
  rfl

/-! ## Nodes -/

namespace SegmentTree

variable {α : Type*}

/-- The value of a node, over a bottom. -/
def node (tree : List α) (p : ℤ) : WithBot α := tree[p.toNat]?.elim ⊥ WithBot.some

section Set

variable {pos : ℤ} {tree : List α} {value : α}

theorem node_set_self (hpos : 0 ≤ pos) (hlt : pos < tree.length) :
    node (tree.set pos.toNat value) pos = value := by
  rw [node, List.getElem?_set_self (by omega)]
  rfl

theorem node_set_of_ne {p : ℤ} (hpos : 0 ≤ pos) (hp : 0 ≤ p) (hne : p ≠ pos) :
    node (tree.set pos.toNat value) p = node tree p := by
  rw [node, List.getElem?_set_ne (by omega), node]

theorem getElem?_of_node {p : ℤ} (h : node tree p = value) : tree[p.toNat]? = some value := by
  rw [node] at h
  rcases hp : tree[p.toNat]? with - | a
  · exact nomatch hp ▸ h
  · rw [hp] at h
    exact congrArg some (WithBot.coe_inj.mp h)

end Set

variable [LinearOrder α]

/-- Every node but one, if it is in the first half, is the greater of its children. -/
structure NodesExcept (n : ℤ) (tree : List α) (pos : ℤ) : Prop where
  length_eq : (tree.length : ℤ) = 2 * n
  node_eq : ∀ p, 1 ≤ p → p < n → p ≠ pos →
    node tree p = max (node tree (2 * p)) (node tree (2 * p + 1))

/-- A range of children, by the range of their parents. -/
theorem sup_Ico_two_mul (f : ℤ → WithBot α) (a b : ℤ) :
    (Finset.Ico (2 * a) (2 * b)).sup f =
      (Finset.Ico a b).sup fun p => max (f (2 * p)) (f (2 * p + 1)) := by
  refine le_antisymm (Finset.sup_le fun c hc => ?_) (Finset.sup_le fun p hp => max_le ?_ ?_)
  · rw [Finset.mem_Ico] at hc
    have hparent : c / 2 ∈ Finset.Ico a b := Finset.mem_Ico.mpr ⟨by omega, by omega⟩
    refine le_trans ?_
      (Finset.le_sup (f := fun p => max (f (2 * p)) (f (2 * p + 1))) hparent)
    rcases Int.emod_two_eq_zero_or_one c with hc | hc
    · have hchild : 2 * (c / 2) = c := by omega
      exact (congrArg f hchild).symm.le.trans (le_max_left _ _)
    · have hchild : 2 * (c / 2) + 1 = c := by omega
      exact (congrArg f hchild).symm.le.trans (le_max_right _ _)
  · rw [Finset.mem_Ico] at hp
    exact Finset.le_sup (Finset.mem_Ico.mpr ⟨by omega, by omega⟩)
  · rw [Finset.mem_Ico] at hp
    exact Finset.le_sup (Finset.mem_Ico.mpr ⟨by omega, by omega⟩)

theorem sup_Ico_of_lt {a b : ℤ} (f : ℤ → WithBot α) (h : a < b) :
    (Finset.Ico a b).sup f = max (f a) ((Finset.Ico (a + 1) b).sup f) := by
  rw [← Finset.insert_Ico_add_one_left_eq_Ico h, Finset.sup_insert]

theorem sup_Ico_of_lt' {a b : ℤ} (f : ℤ → WithBot α) (h : a < b) :
    (Finset.Ico a b).sup f = max (f (b - 1)) ((Finset.Ico a (b - 1)).sup f) := by
  rw [← Finset.insert_Ico_sub_one_right_eq_Ico h, Finset.sup_insert]

section Query

variable {n lo hi : ℤ} {tree : List α} {result : WithBot α}

theorem take_eq {p : ℤ} (hlow : 0 ≤ p) (hhigh : p < tree.length) :
    take tree result p = some (max result (node tree p)) := by
  obtain ⟨value, hvalue⟩ : ∃ value, tree[p.toNat]? = some value :=
    ⟨_, List.getElem?_eq_getElem (by omega)⟩
  rw [take, node, hvalue]
  rfl

/-- What sticks out on the left is taken into the result. -/
theorem take_left (result : WithBot α) (hlo : 0 ≤ lo) (hlt : lo < hi) (hhi : hi ≤ tree.length) :
    ∃ r a, (if lo % 2 = 1 then take tree result lo else some result) = some r ∧
      (if lo % 2 = 1 then lo + 1 else lo) = 2 * a ∧ lo ≤ 2 * a ∧ 2 * a ≤ hi ∧
      max r ((Finset.Ico (2 * a) hi).sup (node tree)) =
        max result ((Finset.Ico lo hi).sup (node tree)) := by
  split
  · next hodd =>
    have ha : lo + 1 = 2 * ((lo + 1) / 2) := by omega
    refine ⟨_, (lo + 1) / 2, take_eq hlo (by omega), ha, by omega, by omega, ?_⟩
    rw [← ha, sup_Ico_of_lt _ hlt, max_assoc]
  · next heven =>
    have ha : lo = 2 * (lo / 2) := by omega
    refine ⟨result, lo / 2, rfl, ha, by omega, by omega, ?_⟩
    rw [← ha]

/-- What sticks out on the right is taken into the result. -/
theorem take_right {a : ℤ} (result : WithBot α) (ha : 0 ≤ a) (hle : 2 * a ≤ hi)
    (hhi : hi ≤ tree.length) :
    ∃ r b, (if hi % 2 = 1 then take tree result (hi - 1) else some result) = some r ∧
      (if hi % 2 = 1 then hi - 1 else hi) = 2 * b ∧ 2 * b ≤ hi ∧
      max r ((Finset.Ico (2 * a) (2 * b)).sup (node tree)) =
        max result ((Finset.Ico (2 * a) hi).sup (node tree)) := by
  split
  · next hodd =>
    have hb : hi - 1 = 2 * ((hi - 1) / 2) := by omega
    refine ⟨_, (hi - 1) / 2, take_eq (by omega) (by omega), hb, by omega, ?_⟩
    rw [← hb, sup_Ico_of_lt' (b := hi) _ (by omega), max_assoc]
  · next heven =>
    have hb : hi = 2 * (hi / 2) := by omega
    refine ⟨result, hi / 2, rfl, hb, by omega, ?_⟩
    rw [← hb]

/-- **The way up from both ends.** What the result and the range of nodes have for a maximum
together does not change, and in the end nothing is left of the range. -/
theorem queryLoop_eq (h : NodesExcept n tree 0) (hlo : 1 ≤ lo) (hhi : hi ≤ 2 * n) :
    queryLoop tree result lo hi = some (max result ((Finset.Ico lo hi).sup (node tree))) := by
  induction hm : (hi - lo).toNat using Nat.strong_induction_on generalizing result lo hi with
  | h m ih =>
    have hlength := h.length_eq
    rw [queryLoop]
    split
    · next hlt =>
      obtain ⟨r₁, a, htake₁, ha, hloa, hahi, hmax₁⟩ :=
        take_left result (by omega) hlt (hhi.trans_eq hlength.symm)
      obtain ⟨r₂, b, htake₂, hb, hbhi, hmax₂⟩ :=
        take_right r₁ (a := a) (by omega) hahi (hhi.trans_eq hlength.symm)
      have htwo : (2 : ℤ) ≠ 0 := two_ne_zero
      simp only [htake₁, htake₂, ha, hb, Int.mul_ediv_cancel_left _ htwo]
      -- what is left are the children of the range from `a` to `b`
      rw [ih (b - a).toNat (by omega) (by omega) (by omega) rfl, ← hmax₁, ← hmax₂, sup_Ico_two_mul]
      refine congrArg some (congrArg (max r₂) (Finset.sup_congr rfl fun p hp => ?_))
      rw [Finset.mem_Ico] at hp
      exact h.node_eq p (by omega) (by omega) (by omega)
    · next hge =>
      rw [Finset.Ico_eq_empty hge, Finset.sup_empty, max_bot_right]

end Query

/-! ## Updates -/

section Update

variable {n pos q : ℤ} {tree : List α} {value : α}

/-- Setting a node, which must be set from its children if it has some, leaves only its parent to
set. -/
theorem NodesExcept.set (h : NodesExcept n tree q) (hq : q = 0 ∨ q = pos) (hpos : 1 ≤ pos)
    (hlt : pos < 2 * n)
    (hvalue : pos < n → value = max (node tree (2 * pos)) (node tree (2 * pos + 1))) :
    NodesExcept n (tree.set pos.toNat value) (pos / 2) := by
  have hlength := h.length_eq
  refine ⟨by rwa [List.length_set], fun p hp hpn hne => ?_⟩
  rw [node_set_of_ne (p := 2 * p) (by omega) (by omega) (by omega),
    node_set_of_ne (p := 2 * p + 1) (by omega) (by omega) (by omega)]
  rcases eq_or_ne p pos with rfl | hpp
  · rw [node_set_self (by omega) (by omega)]
    exact hvalue hpn
  · rw [node_set_of_ne (by omega) (by omega) hpp]
    exact h.node_eq p hp hpn (by omega)

/-- **The way up from a leaf.** It comes to an end without an access outside the list, and it has
set every node from its children and left the leaves as they were. -/
theorem updateLoop_eq (h : NodesExcept n tree pos) (hpos : 0 ≤ pos) (hlt : pos < n) :
    ∃ tree', updateLoop tree pos = some tree' ∧ NodesExcept n tree' 0 ∧
      ∀ p, n ≤ p → node tree' p = node tree p := by
  have hlength := h.length_eq
  induction tree, pos using updateLoop.induct with
  | case1 tree pos hge left right hright hleft ih =>
    have hvalue : (↑(max left right) : WithBot α) =
        max (node tree (2 * pos)) (node tree (2 * pos + 1)) := by
      rw [node, node, hleft, hright]
      rfl
    have hset := h.set (Or.inr rfl) hge (by omega) fun _ => hvalue
    obtain ⟨tree', hloop, htree', hleaves⟩ :=
      ih hset (by omega) (by omega) (by rwa [List.length_set])
    refine ⟨tree', ?_, htree', fun p hp => ?_⟩
    · rw [updateLoop, if_pos hge, hleft, hright]
      exact hloop
    · rw [hleaves p hp, node_set_of_ne (by omega) (by omega) (by omega)]
  | case2 tree pos hge hnone =>
    have hleft := List.getElem?_eq_getElem (l := tree) (i := (2 * pos).toNat) (by omega)
    have hright := List.getElem?_eq_getElem (l := tree) (i := (2 * pos + 1).toNat) (by omega)
    exact (hnone _ _ hleft hright).elim
  | case3 tree pos hge =>
    obtain rfl : pos = 0 := by omega
    exact ⟨tree, by rw [updateLoop, if_neg hge], h, fun _ _ => rfl⟩

end Update

/-- The leaves are the values of the positions after the updates, and every other node but the one
that is not used is set from its children. -/
structure TreeOf [Zero α] (updates : List (ℤ × α)) (n : ℤ) (tree : List α) : Prop where
  nodes : NodesExcept n tree 0
  leaf_eq : ∀ i, 0 ≤ i → i < n → node tree (i + n) = leafValues updates i

section Runs

variable [Zero α] {past updates : List (ℤ × α)}

theorem treeOf_new (size : ℤ) (size_pos : 1 ≤ size) :
    TreeOf [] size (new size size_pos : SegmentTree α).tree := by
  have hnode : ∀ p, 0 ≤ p → p < 2 * size →
      node (new size size_pos : SegmentTree α).tree p = ((0 : α) : WithBot α) := by
    intro p hp hlt
    rw [node, new, List.getElem?_replicate, if_pos (by omega)]
    rfl
  refine ⟨⟨?_, fun p hp hlt _ => ?_⟩, fun i hi hlt => hnode _ (by omega) (by omega)⟩
  · rw [new, List.length_replicate]
    omega
  · rw [hnode p (by omega) (by omega), hnode (2 * p) (by omega) (by omega),
      hnode (2 * p + 1) (by omega) (by omega), max_self]

theorem update_eq {tree : SegmentTree α} (h : TreeOf past tree.size tree.tree) {index : ℤ}
    (value : α) (hlow : 0 ≤ index) (hhigh : index < tree.size) :
    ∃ tree', tree.update index value = .ok (some tree') ∧ tree'.size = tree.size ∧
      TreeOf (past ++ [(index, value)]) tree'.size tree'.tree := by
  have hset : NodesExcept tree.size (tree.tree.set (index + tree.size).toNat value)
      ((index + tree.size) / 2) :=
    h.nodes.set (Or.inl rfl) (by omega) (by omega) fun hlt => absurd hlt (by omega)
  have hlength := h.nodes.length_eq
  obtain ⟨nodes, hloop, hnodes, hleaves⟩ := updateLoop_eq hset (by omega) (by omega)
  refine ⟨{ tree with tree := nodes }, ?_, rfl, hnodes, fun i hi hlt => ?_⟩
  · rw [update, if_pos ⟨hlow, hhigh⟩]
    exact congrArg (fun nodes => Except.ok (Option.map _ nodes)) hloop
  · rw [leafValues_append_singleton]
    refine (hleaves (i + tree.size) (by omega)).trans ?_
    rcases eq_or_ne i index with rfl | hne
    · rw [node_set_self (by omega) (by omega), Function.update_self]
    · rw [node_set_of_ne (by omega) (by omega) (by omega), Function.update_of_ne hne]
      exact h.leaf_eq i hi hlt

theorem updateAll_new (size : ℤ) (size_pos : 1 ≤ size)
    (hrange : ∀ u ∈ updates, 0 ≤ u.1 ∧ u.1 < size) :
    ∃ tree, (new size size_pos).updateAll updates = .ok (some tree) ∧ tree.size = size ∧
      TreeOf updates tree.size tree.tree := by
  refine runAll_eq (P := fun past (tree : SegmentTree α) =>
    tree.size = size ∧ TreeOf past tree.size tree.tree)
    (fun past tree u h hu => ?_) [] ⟨rfl, treeOf_new size size_pos⟩ hrange
  obtain ⟨tree', hupdate, hsize, htree⟩ := update_eq h.2 u.2 hu.1 (hu.2.trans_eq h.1.symm)
  exact ⟨tree', hupdate, hsize.trans h.1, htree⟩

end Runs

section Root

variable {n : ℤ} {tree : List α}

theorem node_le_sup_leaves (h : NodesExcept n tree 0) {p : ℤ} (hp : 1 ≤ p) (hlt : p < 2 * n) :
    node tree p ≤ (Finset.Ico n (2 * n)).sup (node tree) := by
  -- the children of a node are further to the right
  induction hm : (2 * n - p).toNat using Nat.strong_induction_on generalizing p with
  | h m ih =>
    rcases lt_or_ge p n with hpn | hpn
    · rw [h.node_eq p hp hpn (by omega)]
      exact max_le (ih _ (by omega) (by omega) (by omega) rfl)
        (ih _ (by omega) (by omega) (by omega) rfl)
    · exact Finset.le_sup (Finset.mem_Ico.mpr ⟨hpn, hlt⟩)

theorem node_le_root (h : NodesExcept n tree 0) {p : ℤ} (hp : 1 ≤ p) (hlt : p < 2 * n) :
    node tree p ≤ node tree 1 := by
  induction hm : p.toNat using Nat.strong_induction_on generalizing p with
  | h m ih =>
    rcases eq_or_ne p 1 with rfl | hne
    · exact le_refl _
    · refine le_trans ?_ (ih (p / 2).toNat (by omega) (by omega) (by omega) rfl)
      rw [h.node_eq (p / 2) (by omega) (by omega) (by omega)]
      rcases Int.emod_two_eq_zero_or_one p with hpar | hpar
      · have hchild : 2 * (p / 2) = p := by omega
        exact hchild.symm ▸ le_max_left _ _
      · have hchild : 2 * (p / 2) + 1 = p := by omega
        exact hchild.symm ▸ le_max_right _ _

/-- The root is the maximum of the leaves. -/
theorem root_eq (h : NodesExcept n tree 0) (hn : 1 ≤ n) :
    node tree 1 = (Finset.Ico n (2 * n)).sup (node tree) := by
  refine le_antisymm (node_le_sup_leaves h (le_refl 1) (by omega)) (Finset.sup_le fun p hp => ?_)
  rw [Finset.mem_Ico] at hp
  exact node_le_root h (by omega) hp.2

end Root

section Greatest

variable [Zero α] {updates : List (ℤ × α)} {n low high : ℤ} {tree : List α}

/-- A range of leaves has for its maximum the greatest value of its positions. -/
theorem sup_leaves (h : TreeOf updates n tree) (hlow : 0 ≤ low) (hle : low ≤ high)
    (hhigh : high < n) :
    ∃ m, IsGreatest (leafValues updates '' Set.Icc low high) m ∧
      (Finset.Ico (low + n) (high + n + 1)).sup (node tree) = m := by
  obtain ⟨i, hi, hmax⟩ := Finset.exists_max_image (Finset.Icc low high) (leafValues updates)
    (Finset.nonempty_Icc.mpr hle)
  simp only [Finset.mem_Icc] at hi hmax
  refine ⟨leafValues updates i, ⟨⟨i, hi, rfl⟩, ?_⟩, le_antisymm (Finset.sup_le fun p hp => ?_) ?_⟩
  · rintro _ ⟨j, hj, rfl⟩
    exact hmax j hj
  · rw [Finset.mem_Ico] at hp
    rw [← sub_add_cancel p n, h.leaf_eq (p - n) (by omega) (by omega), WithBot.coe_le_coe]
    exact hmax (p - n) ⟨by omega, by omega⟩
  · rw [← h.leaf_eq i (by omega) (by omega)]
    exact Finset.le_sup (Finset.mem_Ico.mpr ⟨by omega, by omega⟩)

end Greatest

end SegmentTree

/-- **The segment tree.** For any size, after any updates in range, every one of which comes to an
end without an access outside the list, the maximum of a range is the greatest of the values that
its positions have, and the overall maximum that of the values of all positions. -/
theorem segmentTree_max {α : Type*} [LinearOrder α] [Zero α] (size : ℤ) (size_pos : 1 ≤ size)
    (updates : List (ℤ × α)) (hrange : ∀ u ∈ updates, 0 ≤ u.1 ∧ u.1 < size) :
    ∃ tree, (SegmentTree.new size size_pos : SegmentTree α).updateAll updates = .ok (some tree) ∧
      (∀ low high, 0 ≤ low → low ≤ high → high < size →
        ∃ m, IsGreatest (leafValues updates '' Set.Icc low high) m ∧
          tree.rangeMax low high = .ok (some m)) ∧
      ∃ m, IsGreatest (leafValues updates '' Set.Ico 0 size) m ∧ tree.overallMax = some m := by
  obtain ⟨tree, hall, hsize, htree⟩ := SegmentTree.updateAll_new size size_pos hrange
  obtain rfl : tree.size = size := hsize
  refine ⟨tree, hall, fun low high hlow hle hhigh => ?_, ?_⟩
  · obtain ⟨m, hm, hsup⟩ := SegmentTree.sup_leaves htree hlow hle hhigh
    refine ⟨m, hm, ?_⟩
    rw [SegmentTree.rangeMax, if_neg (not_lt.mpr hle),
      if_pos ⟨⟨hlow, hle.trans_lt hhigh⟩, hlow.trans hle, hhigh⟩,
      SegmentTree.queryLoop_eq htree.nodes (by omega) (by omega), hsup, max_bot_left]
  · obtain ⟨m, hm, hsup⟩ := SegmentTree.sup_leaves htree (le_refl 0) (by omega)
      (sub_one_lt tree.size)
    rw [Set.Icc_sub_one_right_eq_Ico] at hm
    have hbounds : Finset.Ico (0 + tree.size) (tree.size - 1 + tree.size + 1) =
        Finset.Ico tree.size (2 * tree.size) := by
      rw [zero_add, sub_add_eq_add_sub, sub_add_cancel, two_mul]
    rw [hbounds, ← SegmentTree.root_eq htree.nodes size_pos] at hsup
    exact ⟨m, hm, SegmentTree.getElem?_of_node hsup⟩

/-- Three positions, whose first leaf stands beside the parent of the other two. -/
theorem segmentTree_max_three :
    ∃ tree, (SegmentTree.new 3 (by decide) : SegmentTree ℤ).updateAll [(0, 9), (2, 4), (0, -1)] =
        .ok (some tree) ∧
      ∃ m : ℤ, IsGreatest (leafValues [(0, 9), (2, 4), (0, -1)] '' Set.Icc 0 1) m ∧
        tree.rangeMax 0 1 = .ok (some m) := by
  obtain ⟨tree, hall, hrange, -⟩ :=
    segmentTree_max 3 (by decide) [(0, 9), (2, 4), (0, -1)] (by decide)
  exact ⟨tree, hall, hrange 0 1 (by decide) (by decide) (by decide)⟩

end Relay
