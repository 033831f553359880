import Mathlib.Algebra.Order.Ring.Int
import Mathlib.Data.List.Induction
import Relay.Lib.LinkedChain

/-!
# The skip list

A sorted set, kept as linked lists one above the other. The list at the bottom leads through all
nodes, and each higher one through some of those below it. A search goes along a list while the next
value is less than the one that is looked for, goes down where it stopped, and goes on from there.
How high a new node reaches is up to a coin.

The nodes stand in a list, and a node is referred to by its place in it. No node is ever removed.
The head is the first, and it has a link at every level; its value is never looked at. Reading a
link that is not there has no result, nor has going further than there are nodes.

What makes the search right for every coin is that each level leads through nodes of the level below
it, in order (`Levels`): where the search goes down, it stands on a node of the lower list, and
everything it has passed is less than the value.

## Scope

The count of the nodes on each level is left out. The coin is a parameter.

## Main definitions

* `SkipList`, with `insert`, `search` and `inOrder`
* `Levels`: the nodes at each level

## Main results

* `skipList_sorted`: a sorted set of the values that were inserted, for every coin
-/

namespace Relay

open LinkedChain (Chain)

/-- A node, with its links by level. -/
structure SkipNode where
  value : ℤ
  forward : List (Option ℕ)

/-- A skip list, and how often its coin has been flipped. -/
structure SkipList where
  coin : ℕ → Bool
  flips : ℕ
  level : ℕ
  nodes : List SkipNode

namespace SkipList

/-- `_MAX_LEVEL`. -/
def maxLevel : ℕ := 16

/-- A skip list of no values. -/
def new (coin : ℕ → Bool) : SkipList where
  coin := coin
  flips := 0
  level := 0
  nodes := [{ value := -1, forward := List.replicate (maxLevel + 1) none }]

/-- The loop of `_height`: the height, and how often the coin has been flipped after it. -/
def heightLoop (coin : ℕ → Bool) (flips lvl : ℕ) : ℕ × ℕ :=
  -- the coin is flipped before the level is looked at, so once more at the highest level
  if coin flips ∧ lvl < maxLevel then
    heightLoop coin (flips + 1) (lvl + 1)
  else
    (lvl, flips + 1)
termination_by maxLevel - lvl

/-- The link of a node at a level. -/
def link (nodes : List SkipNode) (i node : ℕ) : Option (Option ℕ) :=
  nodes[node]?.bind fun n => n.forward[i]?

/-- Set the link of a node at a level. -/
def setLink (nodes : List SkipNode) (i node : ℕ) (next : Option ℕ) : Option (List SkipNode) :=
  nodes[node]?.bind fun n =>
    if i < n.forward.length then
      some (nodes.set node { n with forward := n.forward.set i next })
    else
      none

/-- Go along a level while the next value is less, in no more steps than `fuel`. -/
def skip (nodes : List SkipNode) (value : ℤ) (i : ℕ) : ℕ → ℕ → Option ℕ
  | 0, _ => none
  | fuel + 1, node =>
    match link nodes i node with
    | none => none
    | some none => some node
    | some (some nxt) =>
      match nodes[nxt]? with
      | none => none
      | some n => if n.value < value then skip nodes value i fuel nxt else some node

/-- The loop over the levels of `insert`, whose number is counted down: the node it ends at, and the
nodes it went down from. `search` has the same loop, but keeps no nodes. -/
def descend (nodes : List SkipNode) (value : ℤ) : ℕ → ℕ → List ℕ → Option (ℕ × List ℕ)
  | 0, node, update => some (node, update)
  | i + 1, node, update =>
    match skip nodes value i nodes.length node with
    | none => none
    | some node => descend nodes value i node (update.set i node)

/-- Whether the node after a node has the value. -/
def followedBy (nodes : List SkipNode) (node : ℕ) (value : ℤ) : Option Bool :=
  match link nodes 0 node with
  | none => none
  | some none => some false
  | some (some after) => nodes[after]?.map fun n => n.value = value

/-- Put a node in at a level. -/
def splice (update : List ℕ) (new : ℕ) (nodes : List SkipNode) (i : ℕ) :
    Option (List SkipNode) := do
  let before ← update[i]?
  let after ← link nodes i before
  let nodes ← setLink nodes i new after
  setLink nodes i before (some new)

/-- `insert`. -/
def insert (list : SkipList) (value : ℤ) : Option SkipList := do
  let (node, update) ← descend list.nodes value (list.level + 1) 0 (List.replicate (maxLevel + 1) 0)
  if ← followedBy list.nodes node value then
    return list
  let (lvl, flips) := heightLoop list.coin list.flips 0
  let node : SkipNode := { value := value, forward := List.replicate (lvl + 1) none }
  let nodes ← (List.range (lvl + 1)).foldlM (splice update list.nodes.length) (list.nodes ++ [node])
  return { list with flips := flips, level := max list.level lvl, nodes := nodes }

/-- `search`. -/
def search (list : SkipList) (value : ℤ) : Option Bool := do
  let (node, _) ← descend list.nodes value (list.level + 1) 0 []
  followedBy list.nodes node value

/-- The loop of `in_order`, in no more steps than `fuel`. -/
def inOrderLoop (nodes : List SkipNode) : ℕ → Option ℕ → List ℤ → Option (List ℤ)
  | _, none, out => some out
  | 0, some _, _ => none
  | fuel + 1, some node, out =>
    match nodes[node]?, link nodes 0 node with
    | some n, some next => inOrderLoop nodes fuel next (out ++ [n.value])
    | _, _ => none

/-- `in_order`. -/
def inOrder (list : SkipList) : Option (List ℤ) := do
  let first ← link list.nodes 0 0
  inOrderLoop list.nodes list.nodes.length first []

/-- Values inserted one after another. -/
def insertAll (list : SkipList) (values : List ℤ) : Option SkipList := values.foldlM insert list

/-! ### Nodes -/

/-- The value of a node. -/
def valueOf (nodes : List SkipNode) (node : ℕ) : ℤ := nodes[node]?.elim 0 (·.value)

/-- The values of the nodes increase. -/
def Ascending (nodes : List SkipNode) (l : List ℕ) : Prop :=
  l.Pairwise fun r s => valueOf nodes r < valueOf nodes s

/-- The last of the head and some nodes whose value is less. -/
def lastBelow (nodes : List SkipNode) (value : ℤ) (start : ℕ) (l : List ℕ) : Option ℕ :=
  (start :: l.filter fun r => valueOf nodes r < value).getLast?

section Nodes

variable {nodes : List SkipNode} {value : ℤ} {i r a fuel : ℕ} {l : List ℕ} {p q : Option ℕ}

theorem exists_of_link (h : link nodes i r = some p) : ∃ n, nodes[r]? = some n := by
  obtain ⟨n, hn, -⟩ := Option.bind_eq_some_iff.mp h
  exact ⟨n, hn⟩

theorem valueOf_eq {n : SkipNode} (h : nodes[r]? = some n) : valueOf nodes r = n.value := by
  rw [valueOf, h]
  rfl

theorem lt_length_of_chain (h : Chain (link nodes i) a l) :
    ∀ r ∈ a :: l, r < nodes.length := by
  have hlt : ∀ {r p}, link nodes i r = some p → r < nodes.length := by
    intro r p hr
    obtain ⟨n, hn⟩ := exists_of_link hr
    exact (List.getElem?_eq_some_iff.mp hn).1
  induction l generalizing a with
  | nil => exact List.forall_mem_singleton.mpr (hlt h)
  | cons b rest ih => exact List.forall_mem_cons.mpr ⟨hlt h.1, ih h.2⟩

/-- A link that can be read can be set. -/
theorem setLink_eq (h : link nodes i r = some q) (p : Option ℕ) :
    ∃ nodes', setLink nodes i r p = some nodes' ∧ nodes'.length = nodes.length ∧
      link nodes' i = Function.update (link nodes i) r (some p) ∧
      (∀ j, j ≠ i → link nodes' j = link nodes j) ∧ valueOf nodes' = valueOf nodes := by
  obtain ⟨n, hn, hlink⟩ := Option.bind_eq_some_iff.mp h
  obtain ⟨hr, -⟩ := List.getElem?_eq_some_iff.mp hn
  obtain ⟨hi, -⟩ := List.getElem?_eq_some_iff.mp hlink
  have hset : ∀ s, (nodes.set r { n with forward := n.forward.set i p })[s]? =
      if s = r then some { n with forward := n.forward.set i p } else nodes[s]? := by
    intro s
    split
    · next heq => rw [heq, List.getElem?_set_self hr]
    · next hne => rw [List.getElem?_set_ne (Ne.symm hne)]
  refine ⟨nodes.set r { n with forward := n.forward.set i p }, ?_, List.length_set, ?_, ?_, ?_⟩
  · rw [setLink, hn, Option.bind_some, if_pos hi]
  · funext s
    rw [Function.update_apply, link, hset]
    split
    · exact List.getElem?_set_self hi
    · rfl
  · intro j hj
    funext s
    rw [link, link, hset]
    split
    · next heq =>
      rw [heq, hn]
      exact List.getElem?_set_ne hj.symm
    · rfl
  · funext s
    rw [valueOf, valueOf, hset]
    split
    · next heq =>
      rw [heq, hn]
      rfl
    · rfl

/-- After a node whose value is not less, there are no lesser values. -/
theorem filter_eq_nil (h : ∀ s ∈ l, valueOf nodes r < valueOf nodes s)
    (hr : ¬ valueOf nodes r < value) : l.filter (fun s => valueOf nodes s < value) = [] := by
  rw [List.filter_eq_nil_iff]
  intro s hs hlt
  exact hr ((h s hs).trans (of_decide_eq_true hlt))

/-- Nodes whose values increase are those of lesser values and then the others. -/
theorem filter_append_filter (h : Ascending nodes l) (value : ℤ) :
    (l.filter fun r => valueOf nodes r < value) ++
      (l.filter fun r => ¬ valueOf nodes r < value) = l := by
  induction l with
  | nil => rfl
  | cons r l ih =>
    obtain ⟨hr, hl⟩ := List.pairwise_cons.mp h
    by_cases hlt : valueOf nodes r < value
    · simp only [List.filter_cons, hlt, decide_true, if_true, not_true_eq_false, decide_false,
        Bool.false_eq_true, if_false, List.cons_append, ih hl]
    · have hnone := filter_eq_nil hr hlt
      have hall := ih hl
      rw [hnone, List.nil_append] at hall
      simp only [List.filter_cons, hlt, decide_false, Bool.false_eq_true, if_false, hnone,
        not_false_eq_true, decide_true, if_true, List.nil_append, hall]

/-- **Along a level.** The loop stops at the last node of a lesser value. -/
theorem skip_eq (h : Chain (link nodes i) a l) (hl : Ascending nodes l) (hfuel : l.length < fuel) :
    skip nodes value i fuel a = lastBelow nodes value a l := by
  induction l generalizing a fuel with
  | nil =>
    obtain ⟨fuel, rfl⟩ := Nat.exists_eq_add_of_lt hfuel
    rw [skip, show link nodes i a = some none from h]
    rfl
  | cons b rest ih =>
    obtain ⟨hb, hrest⟩ := List.pairwise_cons.mp hl
    obtain ⟨n, hn⟩ := exists_of_link h.2.next_eq
    cases fuel with
    | zero => exact absurd hfuel (Nat.not_lt_zero _)
    | succ fuel =>
      rw [skip, h.1]
      simp only [hn]
      rw [lastBelow, List.filter_cons, valueOf_eq hn]
      split
      · next hlt =>
        rw [if_pos (decide_eq_true hlt), List.getLast?_cons_cons]
        exact ih h.2 hrest (Nat.lt_of_succ_lt_succ hfuel)
      · next hge =>
        rw [if_neg (by simpa using hge), filter_eq_nil hb (by rwa [valueOf_eq hn])]
        rfl

end Nodes

/-! ### Levels -/

/-- The nodes at each level: every level leads through nodes of the level below it, and the values
increase. -/
structure Levels (list : SkipList) (chains : ℕ → List ℕ) : Prop where
  chain : ∀ i ≤ maxLevel, Chain (link list.nodes i) 0 (chains i)
  sublist : ∀ i, (chains (i + 1)).Sublist (chains i)
  ascending : Ascending list.nodes (chains 0)
  head_not_mem : 0 ∉ chains 0
  eq_nil : ∀ i, list.level < i → chains i = []
  level_le : list.level ≤ maxLevel

section Levels

variable {list : SkipList} {chains : ℕ → List ℕ} {value : ℤ} {i j k u : ℕ} {update : List ℕ}

/-- Higher levels leave nodes out. -/
theorem Levels.sublist_of_le (h : Levels list chains) (hij : i ≤ j) :
    (chains j).Sublist (chains i) := by
  induction hij with
  | refl => exact List.Sublist.refl _
  | step _ ih => exact (h.sublist _).trans ih

theorem Levels.ascending_level (h : Levels list chains) (i : ℕ) :
    Ascending list.nodes (chains i) :=
  h.ascending.sublist (h.sublist_of_le (Nat.zero_le i))

/-- No level comes back to a node. -/
theorem Levels.nodup (h : Levels list chains) (i : ℕ) : (0 :: chains i).Nodup := by
  refine List.nodup_cons.mpr ⟨fun hmem => ?_, (h.ascending_level i).imp fun hlt heq => ?_⟩
  · exact h.head_not_mem ((h.sublist_of_le (Nat.zero_le i)).subset hmem)
  · exact lt_irrefl _ (heq ▸ hlt)

theorem Levels.length_lt (h : Levels list chains) (hi : i ≤ maxLevel) :
    (chains i).length < list.nodes.length :=
  LinkedChain.length_lt_of_forall_lt (h.nodup i) (lt_length_of_chain (h.chain i hi))

/-- Going on from a node of the level of a lesser value, the loop stops where it would have stopped
from the head. -/
theorem Levels.skip_eq (h : Levels list chains) (hi : i ≤ maxLevel) (hu : u ∈ 0 :: chains i)
    (hlt : u = 0 ∨ valueOf list.nodes u < value) :
    skip list.nodes value i list.nodes.length u = lastBelow list.nodes value 0 (chains i) := by
  have hascending := h.ascending_level i
  have hlength := h.length_lt hi
  rcases List.mem_cons.mp hu with rfl | hmem
  · exact SkipList.skip_eq (h.chain i hi) hascending hlength
  · obtain ⟨pre, post, heq⟩ := List.append_of_mem hmem
    have hchain := h.chain i hi
    rw [heq] at hchain hascending hlength ⊢
    have hpost : Ascending list.nodes post :=
      (List.pairwise_cons.mp (List.pairwise_append.mp hascending).2.1).2
    have hne : u ≠ 0 := by
      rintro rfl
      exact (List.nodup_cons.mp (h.nodup i)).1 hmem
    have hfilter : (u :: post).filter (fun r => valueOf list.nodes r < value) =
        u :: post.filter fun r => valueOf list.nodes r < value :=
      List.filter_cons_of_pos (decide_eq_true (hlt.resolve_left hne))
    rw [List.length_append, List.length_cons] at hlength
    rw [SkipList.skip_eq hchain.of_append_cons hpost (by omega), lastBelow, lastBelow,
      List.filter_append, hfilter, ← List.cons_append, List.getLast?_append_cons]

theorem mem_of_lastBelow {nodes : List SkipNode} {l : List ℕ}
    (h : lastBelow nodes value 0 l = some u) :
    u ∈ 0 :: l ∧ (u = 0 ∨ valueOf nodes u < value) := by
  rcases List.mem_cons.mp (List.mem_of_getLast? h) with rfl | hmem
  · exact ⟨List.mem_cons_self, Or.inl rfl⟩
  · obtain ⟨hmem, hlt⟩ := List.mem_filter.mp hmem
    exact ⟨List.mem_cons_of_mem 0 hmem, Or.inr (of_decide_eq_true hlt)⟩

theorem exists_lastBelow (nodes : List SkipNode) (value : ℤ) (l : List ℕ) :
    ∃ u, lastBelow nodes value 0 l = some u :=
  ⟨_, List.getLast?_cons⟩

/-- **Down the levels.** At each level, the loop goes down from the last node of a lesser value. -/
theorem Levels.descend_eq (h : Levels list chains) (update : List ℕ) (hk : k ≤ maxLevel + 1)
    (hu : ∀ i < k, u ∈ 0 :: chains i) (hlt : u = 0 ∨ valueOf list.nodes u < value) :
    ∃ node update', descend list.nodes value k u update = some (node, update') ∧
      some node = (if k = 0 then some u else lastBelow list.nodes value 0 (chains 0)) ∧
      ∀ i, update'[i]? = if i < k ∧ i < update.length then
        lastBelow list.nodes value 0 (chains i) else update[i]? := by
  -- on a level, the loop starts from a node of the level above, which is one of this level too
  induction k generalizing u update with
  | zero => exact ⟨u, update, rfl, rfl, fun i => (if_neg fun hi => Nat.not_lt_zero i hi.1).symm⟩
  | succ k ih =>
    obtain ⟨u', hu'⟩ := exists_lastBelow list.nodes value (chains k)
    obtain ⟨hmem, hlt'⟩ := mem_of_lastBelow hu'
    have hbelow : ∀ i < k, u' ∈ 0 :: chains i := fun i hi =>
      ((h.sublist_of_le (Nat.le_of_lt hi)).cons_cons 0).subset hmem
    obtain ⟨node, update', hdescend, hnode, hupdate⟩ :=
      ih (update.set k u') (Nat.le_of_succ_le hk) hbelow hlt'
    refine ⟨node, update', ?_, ?_, fun i => ?_⟩
    · rw [descend, h.skip_eq (Nat.le_of_succ_le_succ hk) (hu k (Nat.lt_succ_self k)) hlt, hu']
      exact hdescend
    · rw [hnode, if_neg (Nat.succ_ne_zero k)]
      split
      · next heq => rw [← hu', heq]
      · rfl
    · rw [hupdate, List.length_set, List.getElem?_set]
      rcases Nat.lt_trichotomy i k with hi | rfl | hi
      · rw [if_neg (Nat.ne_of_gt hi)]
        simp only [hi, Nat.lt_succ_of_lt hi, true_and]
      · simp only [Nat.lt_irrefl, false_and, if_false, if_true, Nat.lt_succ_self, true_and, hu']
        split
        · rfl
        · next hlen => exact (List.getElem?_eq_none (Nat.not_lt.mp hlen)).symm
      · rw [if_neg (fun h => absurd h.1 (Nat.lt_asymm hi)), if_neg (Nat.ne_of_lt hi),
          if_neg (fun h => absurd h.1 (Nat.not_lt.mpr hi))]

/-- The search finds on every level the last node below the value. -/
theorem Levels.descend_from_head (h : Levels list chains) (value : ℤ) (update : List ℕ) :
    ∃ node update', descend list.nodes value (list.level + 1) 0 update = some (node, update') ∧
      lastBelow list.nodes value 0 (chains 0) = some node ∧
      ∀ i, update'[i]? = if i < list.level + 1 ∧ i < update.length then
        lastBelow list.nodes value 0 (chains i) else update[i]? := by
  obtain ⟨node, update', hdescend, hnode, hupdate⟩ := h.descend_eq update
    (Nat.succ_le_succ h.level_le) (fun _ _ => List.mem_cons_self) (Or.inl rfl)
  rw [if_neg (Nat.succ_ne_zero _)] at hnode
  exact ⟨node, update', hdescend, hnode.symm, hupdate⟩

/-- Behind the last node of a lesser value come the others. -/
theorem Levels.chain_lastBelow (h : Levels list chains) (hi : i ≤ maxLevel)
    (hu : lastBelow list.nodes value 0 (chains i) = some u) :
    Chain (link list.nodes i) u ((chains i).filter fun r => ¬ valueOf list.nodes r < value) := by
  have hchain := h.chain i hi
  rw [← filter_append_filter (h.ascending_level i) value] at hchain
  exact hchain.of_getLast? hu

/-- The first node that is not of a lesser value tells whether the value is there. -/
theorem Levels.followedBy_eq (h : Levels list chains)
    (hu : lastBelow list.nodes value 0 (chains 0) = some u) :
    followedBy list.nodes u value =
      some (decide (value ∈ (chains 0).map (valueOf list.nodes))) := by
  have hchain := h.chain_lastBelow (Nat.zero_le _) hu
  have hmem : ∀ r ∈ chains 0, valueOf list.nodes r = value →
      r ∈ (chains 0).filter fun r => ¬ valueOf list.nodes r < value :=
    fun r hr heq => List.mem_filter.mpr ⟨hr, decide_eq_true (not_lt.mpr heq.ge)⟩
  have hascending :
      Ascending list.nodes ((chains 0).filter fun r => ¬ valueOf list.nodes r < value) :=
    h.ascending.sublist List.filter_sublist
  rcases habove : (chains 0).filter (fun r => ¬ valueOf list.nodes r < value) with - | ⟨b, rest⟩
  · rw [habove] at hchain hmem
    rw [followedBy, show link list.nodes 0 u = some none from hchain]
    refine congrArg some (decide_eq_false fun hvalue => ?_).symm
    obtain ⟨r, hr, heq⟩ := List.mem_map.mp hvalue
    exact List.not_mem_nil (hmem r hr heq)
  · have hb : b ∈ (chains 0).filter fun r => ¬ valueOf list.nodes r < value :=
      habove ▸ List.mem_cons_self
    obtain ⟨hb, hge⟩ := List.mem_filter.mp hb
    rw [habove] at hchain hmem hascending
    obtain ⟨n, hn⟩ := exists_of_link hchain.2.next_eq
    rw [followedBy, hchain.1]
    simp only [hn, Option.map_some]
    refine congrArg some (decide_eq_decide.mpr ⟨fun heq => ?_, fun hvalue => ?_⟩)
    · exact List.mem_map.mpr ⟨b, hb, (valueOf_eq hn).trans heq⟩
    · obtain ⟨r, hr, rfl⟩ := List.mem_map.mp hvalue
      rw [← valueOf_eq hn]
      rcases List.mem_cons.mp (hmem r hr rfl) with rfl | hrest
      · rfl
      · exact absurd ((List.pairwise_cons.mp hascending).1 r hrest) (of_decide_eq_true hge)

/-- **Searching.** The value is found exactly if some node has it. -/
theorem Levels.search_eq (h : Levels list chains) (value : ℤ) :
    list.search value = some (decide (value ∈ (chains 0).map (valueOf list.nodes))) := by
  obtain ⟨node, update, hdescend, hnode, -⟩ := h.descend_from_head value []
  rw [search, hdescend]
  exact h.followedBy_eq hnode

theorem inOrderLoop_eq {nodes : List SkipNode} {fuel : ℕ} {p : Option ℕ} {l : List ℕ}
    (out : List ℤ) (h : Chain (link nodes 0) u l) (hp : link nodes 0 u = some p)
    (hfuel : l.length ≤ fuel) :
    inOrderLoop nodes fuel p out = some (out ++ l.map (valueOf nodes)) := by
  induction l generalizing u fuel p out with
  | nil =>
    obtain rfl := Option.some.inj (hp.symm.trans h)
    rw [inOrderLoop, List.map_nil, List.append_nil]
  | cons b rest ih =>
    obtain rfl := Option.some.inj (hp.symm.trans h.1)
    obtain ⟨n, hn⟩ := exists_of_link h.2.next_eq
    cases fuel with
    | zero => exact absurd hfuel (Nat.not_succ_le_zero _)
    | succ fuel =>
      rw [inOrderLoop, hn, h.2.next_eq]
      refine (ih _ h.2 h.2.next_eq (Nat.le_of_succ_le_succ hfuel)).trans ?_
      rw [List.map_cons, valueOf_eq hn, List.append_assoc, List.singleton_append]

/-- Going along the lowest level lists the values. -/
theorem Levels.inOrder_eq (h : Levels list chains) :
    list.inOrder = some ((chains 0).map (valueOf list.nodes)) := by
  have hchain := h.chain 0 (Nat.zero_le _)
  rw [inOrder, hchain.next_eq]
  exact inOrderLoop_eq [] hchain hchain.next_eq (Nat.le_of_lt (h.length_lt (Nat.zero_le _)))

end Levels

/-! ### Insertion -/

theorem heightLoop_le (coin : ℕ → Bool) (flips : ℕ) {lvl : ℕ} (h : lvl ≤ maxLevel) :
    (heightLoop coin flips lvl).1 ≤ maxLevel := by
  induction flips, lvl using heightLoop.induct coin with
  | case1 flips lvl hmore ih =>
    rw [heightLoop, if_pos hmore]
    exact ih hmore.2
  | case2 flips lvl hstop =>
    rw [heightLoop, if_neg hstop]
    exact h

/-- A node among others whose values increase. -/
def putIn (nodes : List SkipNode) (value : ℤ) (new : ℕ) (l : List ℕ) : List ℕ :=
  (l.filter fun r => valueOf nodes r < value) ++
    new :: l.filter fun r => ¬ valueOf nodes r < value

/-- A new node of height `lvl` has been put in at the levels below `k`. -/
structure Spliced (list : SkipList) (chains : ℕ → List ℕ) (value : ℤ) (lvl k : ℕ)
    (nodes : List SkipNode) : Prop where
  chain : ∀ i ≤ maxLevel, Chain (link nodes i) 0
    (if i < k then putIn list.nodes value list.nodes.length (chains i) else chains i)
  link_new : ∀ i, k ≤ i → i ≤ lvl → link nodes i list.nodes.length = some none
  valueOf_eq : valueOf nodes = Function.update (valueOf list.nodes) list.nodes.length value

section Insert

variable {list : SkipList} {chains : ℕ → List ℕ} {value : ℤ} {lvl k : ℕ} {update : List ℕ}
  {nodes : List SkipNode}

theorem Levels.spliced_zero (h : Levels list chains) (value : ℤ) (lvl : ℕ) :
    Spliced list chains value lvl 0
      (list.nodes ++ [{ value := value, forward := List.replicate (lvl + 1) none }]) := by
  refine ⟨fun i hi => ?_, fun i _ hi => ?_, ?_⟩
  · rw [if_neg (Nat.not_lt_zero i)]
    refine (h.chain i hi).congr fun r hr => ?_
    rw [link, List.getElem?_append_left (lt_length_of_chain (h.chain i hi) r hr), link]
  · rw [link, List.getElem?_concat_length, Option.bind_some, List.getElem?_replicate,
      if_pos (Nat.lt_succ_of_le hi)]
  · funext r
    rw [Function.update_apply]
    split
    · next heq => rw [heq, SkipList.valueOf_eq List.getElem?_concat_length]
    · next hne =>
      rw [valueOf, valueOf]
      rcases Nat.lt_or_gt_of_ne hne with hlt | hgt
      · rw [List.getElem?_append_left hlt]
      · rw [List.getElem?_eq_none (by simp; omega), List.getElem?_eq_none (Nat.le_of_lt hgt)]

/-- **One level.** The new node is put in at its place, and the other levels stay as they are. -/
theorem Spliced.splice (hlevels : Levels list chains) (h : Spliced list chains value lvl k nodes)
    (hk : k ≤ lvl) (hlvl : lvl ≤ maxLevel)
    (hupdate : update[k]? = lastBelow list.nodes value 0 (chains k)) :
    ∃ nodes', SkipList.splice update list.nodes.length nodes k = some nodes' ∧
      Spliced list chains value lvl (k + 1) nodes' := by
  have hkmax : k ≤ maxLevel := hk.trans hlvl
  obtain ⟨u, hu⟩ := exists_lastBelow list.nodes value (chains k)
  have hbound := lt_length_of_chain (hlevels.chain k hkmax)
  have hnew : list.nodes.length ∉ 0 :: chains k := fun hmem => Nat.lt_irrefl _ (hbound _ hmem)
  have hune : u ≠ list.nodes.length := Nat.ne_of_lt (hbound u (mem_of_lastBelow hu).1)
  have hchain := h.chain k hkmax
  have hnodup := hlevels.nodup k
  rw [if_neg (Nat.lt_irrefl k)] at hchain
  rw [← filter_append_filter (hlevels.ascending_level k) value] at hchain hnodup hnew
  have hlink := (hchain.of_getLast? hu).next_eq
  obtain ⟨nodes₁, hset₁, -, hlink₁, hother₁, hvalue₁⟩ :=
    setLink_eq (h.link_new k (Nat.le_refl k) hk)
      ((chains k).filter fun r => ¬ valueOf list.nodes r < value).head?
  have hread : link nodes₁ k u =
      some ((chains k).filter fun r => ¬ valueOf list.nodes r < value).head? := by
    rw [hlink₁, Function.update_of_ne hune, hlink]
  obtain ⟨nodes₂, hset₂, -, hlink₂, hother₂, hvalue₂⟩ :=
    setLink_eq hread (some list.nodes.length)
  refine ⟨nodes₂, ?_, fun i hi => ?_, fun i hki hi => ?_, ?_⟩
  · rw [SkipList.splice, hupdate, hu]
    simp only [Option.bind_eq_bind, Option.bind_some, hlink, hset₁, hset₂]
  · rcases eq_or_ne i k with rfl | hne
    · rw [if_pos (Nat.lt_succ_self i), hlink₂, hlink₁]
      exact hchain.splice hu hlink hnodup hnew
    · have hchain' := h.chain i hi
      have hiff : i < k + 1 ↔ i < k := by omega
      rw [hother₂ i hne, hother₁ i hne]
      simpa only [hiff] using hchain'
  · have hne : i ≠ k := Nat.ne_of_gt hki
    rw [hother₂ i hne, hother₁ i hne]
    exact h.link_new i (Nat.le_of_succ_le hki) hi
  · rw [hvalue₂, hvalue₁, h.valueOf_eq]

theorem Levels.exists_spliced (h : Levels list chains) (hlvl : lvl ≤ maxLevel)
    (hupdate : ∀ i ≤ lvl, update[i]? = lastBelow list.nodes value 0 (chains i))
    (hk : k ≤ lvl + 1) :
    ∃ nodes, (List.range k).foldlM (SkipList.splice update list.nodes.length)
        (list.nodes ++ [{ value := value, forward := List.replicate (lvl + 1) none }]) =
          some nodes ∧ Spliced list chains value lvl k nodes := by
  induction k with
  | zero => exact ⟨_, rfl, h.spliced_zero value lvl⟩
  | succ k ih =>
    obtain ⟨nodes, hfold, hspliced⟩ := ih (Nat.le_of_succ_le hk)
    have hkl := Nat.le_of_succ_le_succ hk
    obtain ⟨nodes', hsplice, hspliced'⟩ := hspliced.splice h hkl hlvl (hupdate k hkl)
    refine ⟨nodes', ?_, hspliced'⟩
    rw [List.range_succ, List.foldlM_append, hfold]
    simpa using hsplice

theorem mem_putIn {new r : ℕ} {l : List ℕ} :
    r ∈ putIn nodes value new l ↔ r = new ∨ r ∈ l := by
  simp only [putIn, List.mem_append, List.mem_cons, List.mem_filter, decide_eq_true_eq]
  by_cases hlt : valueOf nodes r < value
  · simp [hlt, or_comm]
  · simp [hlt]

theorem Levels.valueOf_of_mem (h : Levels list chains)
    (hvalueOf : valueOf nodes = Function.update (valueOf list.nodes) list.nodes.length value)
    {r : ℕ} (hr : r ∈ chains 0) : valueOf nodes r = valueOf list.nodes r := by
  have hlt := lt_length_of_chain (h.chain 0 (Nat.zero_le _)) r (List.mem_cons_of_mem 0 hr)
  rw [hvalueOf, Function.update_of_ne (Nat.ne_of_lt hlt)]

theorem Levels.mem_map_putIn (h : Levels list chains)
    (hvalueOf : valueOf nodes = Function.update (valueOf list.nodes) list.nodes.length value)
    (v : ℤ) : v ∈ (putIn list.nodes value list.nodes.length (chains 0)).map (valueOf nodes) ↔
      v = value ∨ v ∈ (chains 0).map (valueOf list.nodes) := by
  have hnew : valueOf nodes list.nodes.length = value := by
    rw [hvalueOf, Function.update_self]
  simp only [List.mem_map, mem_putIn]
  constructor
  · rintro ⟨r, rfl | hr, rfl⟩
    · exact Or.inl hnew
    · exact Or.inr ⟨r, hr, (h.valueOf_of_mem hvalueOf hr).symm⟩
  · rintro (rfl | ⟨r, hr, rfl⟩)
    · exact ⟨_, Or.inl rfl, hnew⟩
    · exact ⟨r, Or.inr hr, h.valueOf_of_mem hvalueOf hr⟩

theorem Levels.ascending_putIn (h : Levels list chains)
    (hvalue : value ∉ (chains 0).map (valueOf list.nodes))
    (hvalueOf : valueOf nodes = Function.update (valueOf list.nodes) list.nodes.length value) :
    Ascending nodes (putIn list.nodes value list.nodes.length (chains 0)) := by
  have hold : ∀ r ∈ chains 0, valueOf nodes r = valueOf list.nodes r :=
    fun _ => h.valueOf_of_mem hvalueOf
  have hnew : valueOf nodes list.nodes.length = value := by
    rw [hvalueOf, Function.update_self]
  have hascending : Ascending nodes (chains 0) :=
    h.ascending.imp_of_mem fun hr hs hlt => by rwa [hold _ hr, hold _ hs]
  have hbelow : ∀ r ∈ (chains 0).filter fun r => valueOf list.nodes r < value,
      valueOf nodes r < value := fun r hr => by
    obtain ⟨hr, hlt⟩ := List.mem_filter.mp hr
    rw [hold r hr]
    exact of_decide_eq_true hlt
  have habove : ∀ r ∈ (chains 0).filter fun r => ¬ valueOf list.nodes r < value,
      value < valueOf nodes r := fun r hr => by
    obtain ⟨hr, hge⟩ := List.mem_filter.mp hr
    rw [hold r hr]
    refine lt_of_le_of_ne (not_lt.mp (of_decide_eq_true hge)) fun heq => hvalue ?_
    exact List.mem_map.mpr ⟨r, hr, heq.symm⟩
  refine List.pairwise_append.mpr ⟨hascending.sublist List.filter_sublist,
    List.pairwise_cons.mpr ⟨fun s hs => ?_, hascending.sublist List.filter_sublist⟩,
    fun r hr s hs => ?_⟩
  · rw [hnew]
    exact habove s hs
  · rcases List.mem_cons.mp hs with rfl | hs
    · rw [hnew]
      exact hbelow r hr
    · exact (hbelow r hr).trans (habove s hs)

theorem Levels.of_spliced (h : Levels list chains) (hlvl : lvl ≤ maxLevel)
    (hspliced : Spliced list chains value lvl (lvl + 1) nodes)
    (hvalue : value ∉ (chains 0).map (valueOf list.nodes)) (flips : ℕ) :
    Levels { list with flips := flips, level := max list.level lvl, nodes := nodes } fun i =>
      if i < lvl + 1 then putIn list.nodes value list.nodes.length (chains i) else chains i := by
  refine ⟨hspliced.chain, fun i => ?_, ?_, ?_, fun i hi => ?_, max_le h.level_le hlvl⟩
  · rcases Nat.lt_trichotomy i lvl with hi | rfl | hi
    · rw [if_pos (Nat.succ_lt_succ hi), if_pos (Nat.lt_succ_of_lt hi)]
      exact ((h.sublist i).filter _).append (((h.sublist i).filter _).cons_cons _)
    · rw [if_neg (Nat.lt_irrefl _), if_pos (Nat.lt_succ_self i)]
      refine (h.sublist i).trans ?_
      nth_rewrite 1 [← filter_append_filter (h.ascending_level i) value]
      exact (List.Sublist.refl _).append (List.sublist_cons_self _ _)
    · rw [if_neg (by omega), if_neg (by omega)]
      exact h.sublist i
  · rw [if_pos (Nat.succ_pos lvl)]
    exact h.ascending_putIn hvalue hspliced.valueOf_eq
  · rw [if_pos (Nat.succ_pos lvl), mem_putIn, not_or]
    have hhead := lt_length_of_chain (h.chain 0 (Nat.zero_le _)) 0 List.mem_cons_self
    exact ⟨Nat.ne_of_lt hhead, h.head_not_mem⟩
  · have hi : max list.level lvl < i := hi
    rw [if_neg (by omega)]
    exact h.eq_nil i ((le_max_left _ _).trans_lt hi)

/-- **Insertion.** Whatever the height of the new node, the levels stay in order, and the value is
one of the values afterwards. -/
theorem Levels.insert_eq (h : Levels list chains) (value : ℤ) :
    ∃ list' chains', list.insert value = some list' ∧ Levels list' chains' ∧
      ∀ v, v ∈ (chains' 0).map (valueOf list'.nodes) ↔
        v = value ∨ v ∈ (chains 0).map (valueOf list.nodes) := by
  obtain ⟨node, update, hdescend, hnode, hupdate⟩ :=
    h.descend_from_head value (List.replicate (maxLevel + 1) 0)
  have hfollowed := h.followedBy_eq hnode
  by_cases hvalue : value ∈ (chains 0).map (valueOf list.nodes)
  · refine ⟨list, chains, ?_, h, fun v => (or_iff_right_of_imp fun heq => heq ▸ hvalue).symm⟩
    rw [decide_eq_true hvalue] at hfollowed
    rw [insert, hdescend]
    simp only [Option.bind_eq_bind, Option.bind_some, hfollowed, if_true, Option.pure_def]
  · rw [decide_eq_false hvalue] at hfollowed
    have hlvl := heightLoop_le list.coin list.flips (Nat.zero_le maxLevel)
    have hupdate' : ∀ i ≤ (heightLoop list.coin list.flips 0).1,
        update[i]? = lastBelow list.nodes value 0 (chains i) := by
      intro i hi
      have hlength : i < (List.replicate (maxLevel + 1) 0).length := by
        rw [List.length_replicate]
        omega
      rw [hupdate]
      split
      · rfl
      · next hlevel =>
        have hlt : list.level < i := by
          by_contra hle
          exact hlevel ⟨by omega, hlength⟩
        rw [h.eq_nil i hlt, List.getElem?_eq_getElem hlength, List.getElem_replicate]
        rfl
    obtain ⟨nodes, hfold, hspliced⟩ := h.exists_spliced hlvl hupdate' (Nat.le_refl _)
    refine ⟨_, _, ?_, h.of_spliced hlvl hspliced hvalue (heightLoop list.coin list.flips 0).2,
      fun v => ?_⟩
    · rw [insert, hdescend]
      simp only [Option.bind_eq_bind, Option.bind_some, hfollowed, hfold]
      rfl
    · rw [if_pos (Nat.succ_pos _)]
      exact h.mem_map_putIn hspliced.valueOf_eq v

theorem levels_new (coin : ℕ → Bool) : Levels (new coin) fun _ => [] := by
  refine ⟨fun i hi => ?_, fun _ => List.Sublist.refl _, List.Pairwise.nil, List.not_mem_nil,
    fun _ _ => rfl, Nat.zero_le _⟩
  rw [Chain, link, new, List.getElem?_cons_zero, Option.bind_some, List.getElem?_replicate,
    if_pos (Nat.lt_succ_of_le hi)]

theorem levels_insertAll (coin : ℕ → Bool) (values : List ℤ) :
    ∃ list chains, (new coin).insertAll values = some list ∧ Levels list chains ∧
      ∀ v, v ∈ (chains 0).map (valueOf list.nodes) ↔ v ∈ values := by
  induction values using List.reverseRecOn with
  | nil => exact ⟨_, _, rfl, levels_new coin, fun v => Iff.rfl⟩
  | append_singleton values value ih =>
    obtain ⟨list, chains, hall, hlevels, hmem⟩ := ih
    obtain ⟨list', chains', hinsert, hlevels', hmem'⟩ := hlevels.insert_eq value
    refine ⟨list', chains', ?_, hlevels', fun v => ?_⟩
    · rw [insertAll, List.foldlM_append, ← insertAll, hall]
      simpa using hinsert
    · rw [hmem', hmem, List.mem_append, List.mem_singleton, or_comm]

end Insert

end SkipList

/-- **The skip list.** For every coin, after any values have been inserted, which always comes to an
end, the values in order are the values that were inserted, strictly increasing, a value is found
exactly if it was inserted, and the nodes at each level are some of those at the level below it, in
the same order. -/
theorem skipList_sorted (coin : ℕ → Bool) (values : List ℤ) :
    ∃ list, (SkipList.new coin).insertAll values = some list ∧
      (∃ out, list.inOrder = some out ∧ out.Pairwise (· < ·) ∧ ∀ v, v ∈ out ↔ v ∈ values) ∧
      (∀ v, list.search v = some (decide (v ∈ values))) ∧
      ∃ chains : ℕ → List ℕ,
        (∀ i ≤ SkipList.maxLevel, Chain (SkipList.link list.nodes i) 0 (chains i)) ∧
          ∀ i < SkipList.maxLevel, (chains (i + 1)).Sublist (chains i) := by
  obtain ⟨list, chains, hall, h, hmem⟩ := SkipList.levels_insertAll coin values
  refine ⟨list, hall, ⟨_, h.inOrder_eq, List.pairwise_map.mpr h.ascending, hmem⟩, fun v => ?_,
    chains, h.chain, fun i _ => h.sublist i⟩
  rw [h.search_eq]
  exact congrArg some (decide_eq_decide.mpr (hmem v))

end Relay
