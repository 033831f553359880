import Mathlib.Algebra.Order.Ring.Int
import Mathlib.Data.Finset.Card
import Mathlib.Data.Int.Bitwise
import Mathlib.Data.Finset.Sort
import Mathlib.Data.String.Basic
import Relay.Errors
import Relay.Lib.Largest
import Relay.Lib.Machine

/-!
# Rendezvous hashing

Every node has a weight for a key, the hash of the two together, and the key belongs to the node of
the greatest weight. There is no ring: nodes join and leave a set, and every lookup goes through all
of them. The order in which a set is gone through is the interpreter's, and may change whenever the
set does; it decides between nodes of the same weight and nothing else.

So what is proved is about keys for which the nodes of a run have different weights. A key then
moves as rarely as can be: away from a node that has left, or to one that has joined.

## Main definitions

* `RendezvousHash`, with `place`, `ranked`, `add`, `remove` and `movedIfAdded`
* `rendezvous`: the hasher as a component

## Main results

* `place_answers`: over a run, a key changes its node only if that node left or the new one joined
* `failover`: whichever nodes leave, a key goes to the first that remains of its ranking, so that
  its second choice is known in advance
* `movedIfAdded_eq`: the keys that are counted are those that the new node outweighs all others for
-/

namespace Relay

/-- The order in which a set is gone through. -/
structure SetOrder where
  order : Finset String → List String
  nodup : ∀ s, (order s).Nodup
  mem_iff : ∀ s n, n ∈ order s ↔ n ∈ s

/-- Sets that are gone through from the end of the alphabet. -/
def backwards : SetOrder where
  order s := s.sort (· ≥ ·)
  nodup s := s.sort_nodup (· ≥ ·)
  mem_iff _ _ := Finset.mem_sort (· ≥ ·)

/-- The first of the nodes whose weight no other exceeds. -/
def heaviest (weight : String → ℤ) (first : String) (rest : List String) : String :=
  Largest.firstLargest weight first rest

/-- The hasher. -/
structure RendezvousHash where
  nodes : Finset String := ∅
  deriving DecidableEq

namespace RendezvousHash

/-- `_weight`. -/
def weight (hash : String → ℤ) (key node : String) : ℤ :=
  Int.land (hash s!"{key}@{node}") 0x7FFFFFFF

variable (sets : SetOrder) (hash : String → ℤ)

/-- `place`. -/
def place (hasher : RendezvousHash) (key : String) : Except RelayError String :=
  match sets.order hasher.nodes with
  | [] => .error (.invalid "no nodes available to place the key")
  | first :: rest => .ok (heaviest (weight hash key) first rest)

/-- `ranked`. -/
def ranked (hasher : RendezvousHash) (key : String) : List String :=
  (sets.order hasher.nodes).mergeSort fun a b => weight hash key b ≤ weight hash key a

/-- `add`. -/
def add (hasher : RendezvousHash) (node : String) : RendezvousHash :=
  { nodes := insert node hasher.nodes }

/-- `remove`. -/
def remove (hasher : RendezvousHash) (node : String) : RendezvousHash :=
  { nodes := hasher.nodes.erase node }

/-- `moved_if_added`: the number of keys that move when the node joins, which it then has. A key
can only be placed if there are nodes. -/
def movedIfAdded (hasher : RendezvousHash) (keys : List String) (newNode : String) :
    Except RelayError ℕ × RendezvousHash :=
  match keys.mapM (hasher.place sets hash) with
  | .error error => (.error error, hasher)
  | .ok before =>
    (((keys.mapM ((hasher.add newNode).place sets hash)).map fun after =>
      (before.zip after).countP fun pair => pair.1 ≠ pair.2), hasher.add newNode)

/-- No two of the nodes have the same weight for the key. -/
def Distinct (key : String) (nodes : Finset String) : Prop :=
  ∀ n ∈ nodes, ∀ m ∈ nodes, weight hash key n = weight hash key m → n = m

instance (key : String) (nodes : Finset String) : Decidable (Distinct hash key nodes) :=
  inferInstanceAs (Decidable (∀ n ∈ nodes, ∀ m ∈ nodes, _ = _ → n = m))

/-- The node that outweighs all other nodes for the key. -/
def Heaviest (key : String) (nodes : Finset String) (node : String) : Prop :=
  node ∈ nodes ∧ ∀ n ∈ nodes, weight hash key n ≤ weight hash key node

instance (key : String) (nodes : Finset String) (node : String) :
    Decidable (Heaviest hash key nodes node) :=
  inferInstanceAs (Decidable (node ∈ nodes ∧ ∀ n ∈ nodes, _ ≤ _))

variable {sets hash} {hasher : RendezvousHash} {key node : String}

/-- A key is placed at a node of the greatest weight, if there are nodes. -/
theorem heaviest_of_place (h : hasher.place sets hash key = .ok node) :
    Heaviest hash key hasher.nodes node := by
  rw [place] at h
  cases horder : sets.order hasher.nodes with
  | nil => rw [horder] at h; cases h
  | cons first rest =>
    rw [horder] at h
    obtain rfl := Except.ok.inj h
    obtain ⟨hmem, hle⟩ := Largest.firstLargest_spec (weight hash key) first rest
    rw [← horder] at hmem hle
    exact ⟨(sets.mem_iff _ _).mp hmem, fun n hn => hle n ((sets.mem_iff _ n).mpr hn)⟩

theorem exists_place (sets : SetOrder) (hash : String → ℤ) (key : String)
    (h : hasher.nodes.Nonempty) :
    ∃ node, hasher.place sets hash key = .ok node := by
  obtain ⟨n, hn⟩ := h
  rw [place]
  cases horder : sets.order hasher.nodes with
  | nil =>
    rw [← sets.mem_iff, horder] at hn
    cases hn
  | cons first rest => exact ⟨_, rfl⟩

theorem Distinct.subset {nodes nodes' : Finset String} (h : Distinct hash key nodes)
    (hsub : nodes' ⊆ nodes) : Distinct hash key nodes' :=
  fun n hn m hm => h n (hsub hn) m (hsub hm)

/-- Between nodes of different weights there is one heaviest. -/
theorem Heaviest.eq {nodes : Finset String} {node' : String} (hdistinct : Distinct hash key nodes)
    (h : Heaviest hash key nodes node) (h' : Heaviest hash key nodes node') : node = node' :=
  hdistinct node h.1 node' h'.1 (le_antisymm (h'.2 node h.1) (h.2 node' h'.1))

/-- The lookup finds the heaviest node and no other, in whatever order it goes through them. -/
theorem place_eq_iff (hdistinct : Distinct hash key hasher.nodes) :
    hasher.place sets hash key = .ok node ↔ Heaviest hash key hasher.nodes node := by
  refine ⟨heaviest_of_place, fun h => ?_⟩
  obtain ⟨node', hnode'⟩ := exists_place sets hash key ⟨node, h.1⟩
  rw [hnode', (heaviest_of_place hnode').eq hdistinct h]

theorem place_error (h : hasher.nodes = ∅) :
    hasher.place sets hash key = .error (.invalid "no nodes available to place the key") := by
  have hnil : sets.order hasher.nodes = [] := by
    refine List.eq_nil_iff_forall_not_mem.mpr fun n hn => ?_
    rw [sets.mem_iff, h] at hn
    exact Finset.notMem_empty n hn
  rw [place, hnil]

/-! ## The ranking -/

theorem mem_ranked (sets : SetOrder) (hash : String → ℤ) (hasher : RendezvousHash)
    (key node : String) :
    node ∈ hasher.ranked sets hash key ↔ node ∈ hasher.nodes := by
  rw [ranked, List.mem_mergeSort, sets.mem_iff]

theorem nodup_ranked (sets : SetOrder) (hash : String → ℤ) (hasher : RendezvousHash)
    (key : String) : (hasher.ranked sets hash key).Nodup :=
  (List.mergeSort_perm _ _).nodup_iff.mpr (sets.nodup _)

/-- A ranking goes from the heavy to the light. -/
theorem pairwise_ranked (sets : SetOrder) (hash : String → ℤ) (hasher : RendezvousHash)
    (key : String) : (hasher.ranked sets hash key).Pairwise fun a b =>
      weight hash key b ≤ weight hash key a := by
  refine (List.pairwise_mergeSort (fun a b c hab hbc => ?_) (fun a b => ?_) _).imp of_decide_eq_true
  · exact decide_eq_true ((of_decide_eq_true hbc).trans (of_decide_eq_true hab))
  · rw [Bool.or_eq_true, decide_eq_true_eq, decide_eq_true_eq]
    exact le_total _ _

/-- Between nodes of different weights there is one ranking. -/
theorem ranked_eq_of_perm {nodes : List String} (hdistinct : Distinct hash key hasher.nodes)
    (hnodup : nodes.Nodup) (hmem : ∀ n, n ∈ nodes ↔ n ∈ hasher.nodes)
    (hsorted : nodes.Pairwise fun a b => weight hash key b ≤ weight hash key a) :
    hasher.ranked sets hash key = nodes := by
  refine List.Perm.eq_of_pairwise (fun a b ha hb hba hab => ?_) (pairwise_ranked _ _ _ _) hsorted
    ((List.perm_ext_iff_of_nodup (nodup_ranked _ _ _ _) hnodup).mpr fun n => ?_)
  · exact hdistinct a ((mem_ranked ..).mp ha) b ((hmem b).mp hb) (le_antisymm hab hba)
  · rw [mem_ranked, hmem]

/-- The first of the ranking is where the key is placed. -/
theorem toOption_place (hdistinct : Distinct hash key hasher.nodes) :
    (hasher.place sets hash key).toOption = (hasher.ranked sets hash key).head? := by
  cases hranked : hasher.ranked sets hash key with
  | nil =>
    rw [place_error (Finset.eq_empty_iff_forall_notMem.mpr fun n hn => ?_)]
    · rfl
    · rw [← mem_ranked sets hash hasher key, hranked] at hn
      cases hn
  | cons first rest =>
    have hsorted := pairwise_ranked sets hash hasher key
    rw [hranked, List.pairwise_cons] at hsorted
    have hheaviest : Heaviest hash key hasher.nodes first := by
      refine ⟨(mem_ranked ..).mp (hranked ▸ List.mem_cons_self), fun n hn => ?_⟩
      rw [← mem_ranked sets hash hasher key, hranked, List.mem_cons] at hn
      rcases hn with rfl | hn
      · exact le_rfl
      · exact hsorted.1 n hn
    rw [(place_eq_iff hdistinct).mpr hheaviest]
    rfl

theorem nodes_foldl_remove (hasher : RendezvousHash) (gone : List String) :
    (gone.foldl remove hasher).nodes = hasher.nodes.filter fun n => n ∉ gone := by
  induction gone generalizing hasher with
  | nil => simp
  | cons node gone ih =>
    rw [List.foldl_cons, ih]
    ext n
    rw [Finset.mem_filter, Finset.mem_filter, remove, Finset.mem_erase, List.mem_cons, not_or]
    exact ⟨fun ⟨⟨hne, hn⟩, hgone⟩ => ⟨hn, hne, hgone⟩, fun ⟨hn, hne, hgone⟩ => ⟨⟨hne, hn⟩, hgone⟩⟩

/-- **The failover target is known in advance.** Whichever nodes leave, those that remain are ranked
as before, and the key goes to the first of them; provided that no two of the nodes have the same
weight for the key. -/
theorem failover (hdistinct : Distinct hash key hasher.nodes) (gone : List String) :
    (gone.foldl remove hasher).ranked sets hash key =
        (hasher.ranked sets hash key).filter (fun n => n ∉ gone) ∧
      ((gone.foldl remove hasher).place sets hash key).toOption =
        ((hasher.ranked sets hash key).filter fun n => n ∉ gone).head? := by
  have hremain : Distinct hash key (gone.foldl remove hasher).nodes := by
    rw [nodes_foldl_remove]
    exact hdistinct.subset (Finset.filter_subset _ _)
  have hranked : (gone.foldl remove hasher).ranked sets hash key =
      (hasher.ranked sets hash key).filter fun n => n ∉ gone := by
    refine ranked_eq_of_perm hremain ((nodup_ranked _ _ _ _).filter _) (fun n => ?_)
      ((pairwise_ranked _ _ _ _).filter _)
    rw [List.mem_filter, mem_ranked, nodes_foldl_remove, Finset.mem_filter, decide_eq_true_eq]
  exact ⟨hranked, hranked ▸ toOption_place hremain⟩

theorem failover_two :
    ([("bb" : String)].foldl remove { nodes := {"a", "bb"} }).ranked backwards
          (fun s => s.length) "k" =
        (ranked backwards (fun s => s.length) { nodes := {"a", "bb"} } "k").filter
          (fun n => n ∉ ["bb"]) ∧
      (([("bb" : String)].foldl remove { nodes := {"a", "bb"} }).place backwards
          (fun s => s.length) "k").toOption =
        ((ranked backwards (fun s => s.length) { nodes := {"a", "bb"} } "k").filter
          fun n => n ∉ ["bb"]).head? :=
  failover (by decide) ["bb"]

/-! ## One more node -/

/-- A new node takes a key from its node if it outweighs it, and leaves it there otherwise. -/
theorem place_add {newNode : String} (hdistinct : Distinct hash key (insert newNode hasher.nodes))
    (h : hasher.place sets hash key = .ok node) :
    (hasher.add newNode).place sets hash key =
      .ok (if weight hash key node < weight hash key newNode then newNode else node) := by
  obtain ⟨hmem, hle⟩ := heaviest_of_place h
  refine (place_eq_iff hdistinct).mpr ⟨?_, Finset.forall_mem_insert _ _ _ |>.mpr ?_⟩
  · split
    · exact Finset.mem_insert_self _ _
    · exact Finset.mem_insert_of_mem hmem
  · split
    · next hlt => exact ⟨le_rfl, fun n hn => (hle n hn).trans hlt.le⟩
    · next hge => exact ⟨not_lt.mp hge, hle⟩

theorem mapM_eq_ok {f : String → Except RelayError String} {g : String → String}
    {keys : List String} (h : ∀ key ∈ keys, f key = .ok (g key)) :
    keys.mapM f = .ok (keys.map g) := by
  induction keys with
  | nil => rfl
  | cons key keys ih =>
    obtain ⟨hkey, hkeys⟩ := List.forall_mem_cons.mp h
    rw [List.mapM_cons, hkey, ih hkeys]
    rfl

/-- **Only what the new node wins moves.** The keys that are counted are those that the new node
outweighs all nodes for, and each of them then is at the new node; provided that there are nodes,
and that no two of them have the same weight for one of the keys. -/
theorem movedIfAdded_eq {keys : List String} {newNode : String} (hne : hasher.nodes.Nonempty)
    (hdistinct : ∀ key ∈ keys, Distinct hash key (insert newNode hasher.nodes)) :
    (hasher.movedIfAdded sets hash keys newNode).1 = .ok (keys.countP fun key =>
        decide (∀ n ∈ hasher.nodes, weight hash key n < weight hash key newNode)) ∧
      ∀ key ∈ keys,
        ((hasher.movedIfAdded sets hash keys newNode).2.place sets hash key ≠
            hasher.place sets hash key ↔
          ∀ n ∈ hasher.nodes, weight hash key n < weight hash key newNode) ∧
        ((∀ n ∈ hasher.nodes, weight hash key n < weight hash key newNode) →
          (hasher.movedIfAdded sets hash keys newNode).2.place sets hash key = .ok newNode) := by
  choose before hbefore using fun key => exists_place sets hash key hne
  have hwins : ∀ key, weight hash key (before key) < weight hash key newNode ↔
      ∀ n ∈ hasher.nodes, weight hash key n < weight hash key newNode := fun key => by
    obtain ⟨hmem, hle⟩ := heaviest_of_place (hbefore key)
    exact ⟨fun hlt n hn => (hle n hn).trans_lt hlt, fun hall => hall _ hmem⟩
  have hafter := fun key hkey => place_add (hdistinct key hkey) (hbefore key)
  have heq : hasher.movedIfAdded sets hash keys newNode = (.ok (keys.countP fun key =>
      decide (∀ n ∈ hasher.nodes, weight hash key n < weight hash key newNode)),
      hasher.add newNode) := by
    rw [movedIfAdded, mapM_eq_ok fun key _ => hbefore key, mapM_eq_ok hafter]
    refine Prod.ext (congrArg Except.ok ?_) rfl
    beta_reduce
    rw [List.zip_map', List.countP_map]
    refine List.countP_congr fun key _ => ?_
    rw [Function.comp_apply, decide_eq_true_eq, decide_eq_true_eq, ← hwins]
    by_cases hlt : weight hash key (before key) < weight hash key newNode
    · rw [if_pos hlt]
      exact iff_of_true (fun hsame => hlt.ne (congrArg _ hsame)) hlt
    · rw [if_neg hlt]
      exact iff_of_false (fun hne => hne rfl) hlt
  rw [heq]
  refine ⟨rfl, fun key hkey => ?_⟩
  rw [hafter key hkey, hbefore key, ← hwins]
  by_cases hlt : weight hash key (before key) < weight hash key newNode
  · rw [if_pos hlt]
    exact ⟨iff_of_true (fun hsame => hlt.ne' (congrArg _ (Except.ok.inj hsame))) hlt, fun _ => rfl⟩
  · rw [if_neg hlt]
    exact ⟨iff_of_false (fun hne => hne rfl) hlt, fun h => absurd h hlt⟩

end RendezvousHash

/-! ## Runs -/

/-- What is asked of the hasher. -/
inductive RendezvousCall where
  | add (node : String)
  | remove (node : String)
  | place (key : String)
  deriving DecidableEq

/-- The hasher as a component. Only lookups answer. -/
def rendezvous (sets : SetOrder) (hash : String → ℤ) :
    Machine RendezvousHash RendezvousCall (Option (Except RelayError String)) where
  step hasher
    | .add node => (none, hasher.add node)
    | .remove node => (none, hasher.remove node)
    | .place key => (some (hasher.place sets hash key), hasher)

/-- The nodes that are added in a run. -/
def addedNodes (calls : List RendezvousCall) : Finset String :=
  (calls.filterMap fun
    | .add node => some node
    | _ => none).toFinset

theorem mem_addedNodes {calls : List RendezvousCall} {node : String} :
    node ∈ addedNodes calls ↔ .add node ∈ calls := by
  rw [addedNodes, List.mem_toFinset, List.mem_filterMap]
  constructor
  · rintro ⟨call, hmem, heq⟩
    cases call with
    | add node' =>
      obtain rfl := Option.some.inj heq
      exact hmem
    | remove node' => cases heq
    | place key => cases heq
  · exact fun hmem => ⟨_, hmem, rfl⟩

section Runs

variable {sets : SetOrder} {hash : String → ℤ} {hasher : RendezvousHash} {node : String}

/-- A node stays unless it is removed. -/
theorem mem_nodes_of_not_removed (sets : SetOrder) (hash : String → ℤ)
    {calls : List RendezvousCall} (h : node ∈ hasher.nodes)
    (hkept : .remove node ∉ calls) :
    node ∈ ((rendezvous sets hash).final hasher calls).nodes := by
  induction calls generalizing hasher with
  | nil => exact h
  | cons call calls ih =>
    rw [List.mem_cons, not_or] at hkept
    refine ih ?_ hkept.2
    cases call with
    | add node' => exact Finset.mem_insert_of_mem h
    | remove node' =>
      exact Finset.mem_erase.mpr ⟨fun heq => hkept.1 (congrArg RendezvousCall.remove heq), h⟩
    | place key => exact h

/-- A node that is there was there before or has been added. -/
theorem mem_nodes_or_added {calls : List RendezvousCall}
    (h : node ∈ ((rendezvous sets hash).final hasher calls).nodes) :
    node ∈ hasher.nodes ∨ .add node ∈ calls := by
  induction calls generalizing hasher with
  | nil => exact Or.inl h
  | cons call calls ih =>
    rcases ih h with hmem | hadded
    · cases call with
      | add node' =>
        rcases Finset.mem_insert.mp hmem with rfl | hmem
        · exact Or.inr List.mem_cons_self
        · exact Or.inl hmem
      | remove node' => exact Or.inl (Finset.mem_of_mem_erase hmem)
      | place key => exact Or.inl hmem
    · exact Or.inr (List.mem_cons_of_mem _ hadded)

/-- The nodes of a run are among those that were added in it. -/
theorem nodes_subset_addedNodes (calls : List RendezvousCall) :
    ((rendezvous sets hash).final {} calls).nodes ⊆ addedNodes calls := by
  intro node hnode
  rw [mem_addedNodes]
  exact (mem_nodes_or_added hnode).resolve_left (Finset.notMem_empty node)

/-- **A key moves only for a cause.** If at two points of a run a key is placed at two nodes, then
in between the first of them was removed or the second was added, whatever else joined and left;
provided that no two of the nodes have the same weight for the key. -/
theorem place_answers {key : String} {before between : List RendezvousCall}
    (hdistinct : RendezvousHash.Distinct hash key (addedNodes (before ++ between)))
    {node' : String}
    (hbefore : ((rendezvous sets hash).final {} before).place sets hash key = .ok node)
    (hafter : ((rendezvous sets hash).final {} (before ++ between)).place sets hash key =
      .ok node') :
    node = node' ∨ .remove node ∈ between ∨ .add node' ∈ between := by
  have hfirst := RendezvousHash.heaviest_of_place hbefore
  have hsecond := RendezvousHash.heaviest_of_place hafter
  rw [Machine.final_append] at hsecond
  by_contra hnone
  rw [not_or, not_or] at hnone
  obtain ⟨hne, hkept, hnew⟩ := hnone
  -- both nodes are there at both points, and each outweighs the other
  have hstays := mem_nodes_of_not_removed sets hash hfirst.1 hkept
  have hthere := (mem_nodes_or_added hsecond.1).resolve_right hnew
  have hadded : ∀ n ∈ ((rendezvous sets hash).final {} before).nodes,
      n ∈ addedNodes (before ++ between) := fun n hn => by
    rw [mem_addedNodes]
    exact List.mem_append_left _ (mem_addedNodes.mp (nodes_subset_addedNodes before hn))
  exact hne (hdistinct node (hadded node hfirst.1) node' (hadded node' hthere)
    (le_antisymm (hsecond.2 node hstays) (hfirst.2 node' hthere)))

theorem place_answers_two :
    "a" = "bb" ∨ RendezvousCall.remove "a" ∈ [RendezvousCall.add "bb"] ∨
      RendezvousCall.add "bb" ∈ [RendezvousCall.add "bb"] :=
  @place_answers backwards (fun s => s.length) "a" "k" [.add "a"] [.add "bb"] (by decide) "bb"
    ((RendezvousHash.place_eq_iff (by decide)).mpr (by decide))
    ((RendezvousHash.place_eq_iff (by decide)).mpr (by decide))

end Runs

end Relay
