import Mathlib.Data.Finset.Basic
import Mathlib.Data.Int.Bitwise
import Mathlib.Data.Int.ConditionallyCompleteOrder
import Relay.Errors
import Relay.Lib.Clockwise
import Relay.Lib.Dict
import Relay.Lib.Machine
import Relay.Lib.Ranks

/-!
# Consistent hashing

Nodes and keys are hashed to the points of a ring, nodes to several, and a key belongs to the first
point clockwise. When a node comes or goes, a key whose first point is neither new nor gone keeps
it, whatever the hash function and whatever has happened to the ring before.

The points of different nodes may coincide. A node that is added takes such a point over, and when
it is removed the point goes with it, although the other node is still there. So the ring is not
determined by its nodes. It is, if no node is added at a point that is taken (`Clear`): then it has
exactly the points of its nodes.

## Scope

`churn` is left out. It adds a node, counts the keys of a list that moved, and makes a text of the
share.

## Main definitions

* `HashRing`, with `add`, `remove` and `nodeFor`

## Main results

* `nodeFor_spec`: a key belongs to the first point clockwise
* `only_changed_node`: what a change of the nodes does to the keys
* `placement_by_membership`: a condition under which the nodes determine the ring
* `overwritten_points`: two rings with the same nodes and different answers
-/

namespace Relay

/-- The low 31 bits. -/
def ringPosition (hash : ℤ) : ℤ := Int.land hash 0x7FFFFFFF

/-- A ring of nodes. -/
structure HashRing where
  vnodes : ℤ
  ring : Dict ℤ String := ∅
  nodes : Finset String := ∅
  vnodes_pos : 1 ≤ vnodes

namespace HashRing

variable (hash : String → ℤ)

/-- `_points`. -/
def points (ring : HashRing) (node : String) : List ℤ :=
  (List.range ring.vnodes.toNat).map fun (i : ℕ) => ringPosition (hash s!"{node}#{i}")

/-- `add`. -/
def add (ring : HashRing) (node : String) : Except RelayError Unit × HashRing :=
  if node ∈ ring.nodes then
    (.error (.invalid s!"node '{node}' already on the ring; a duplicate share"), ring)
  else
    (.ok (), { ring with
      nodes := insert node ring.nodes
      ring := ring.ring.assign ((ring.points hash node).map fun p => (p, node)) })

/-- `remove`. -/
def remove (ring : HashRing) (node : String) : HashRing :=
  { ring with
    nodes := ring.nodes.erase node
    ring := ring.ring.filter fun _ n => n ≠ node }

/-- `node_for`. -/
def nodeFor (ring : HashRing) (key : String) : Except RelayError String :=
  if ring.ring.entries = [] then .error (.invalid "the ring is empty; no node to answer")
  else
    let h := ringPosition (hash key)
    let points := ring.ring.keys.mergeSort fun p q => p ≤ q
    match points.find? fun p => h ≤ p with
    | some p => .ok (ring.ring.getD p "")
    | none => .ok (ring.ring.getD (points.headD 0) "")  -- wrap around

end HashRing

/-! ## Runs -/

/-- A call that changes the ring. -/
inductive RingCall where
  | add (node : String)
  | remove (node : String)
  deriving DecidableEq

/-- A ring as a machine. A node that is there already is not added. -/
def hashRing (hash : String → ℤ) : Machine HashRing RingCall (Except RelayError Unit) where
  step ring call :=
    match call with
    | .add node => ring.add hash node
    | .remove node => (.ok (), ring.remove node)

/-- No node is added at a point that is taken. -/
def Clear (hash : String → ℤ) (ring : HashRing) : RingCall → Prop
  | .add node => node ∈ ring.nodes ∨ ∀ p ∈ ring.points hash node, p ∉ ring.ring.keys
  | .remove _ => True

instance (hash : String → ℤ) (ring : HashRing) (call : RingCall) :
    Decidable (Clear hash ring call) :=
  match call with
  | .add _ => inferInstanceAs (Decidable (_ ∨ _))
  | .remove _ => inferInstanceAs (Decidable True)

namespace HashRing

variable {hash : String → ℤ} {ring other : HashRing} {node key : String}

/-! ### Answers -/

/-- **The answer.** A key belongs to the first point clockwise. -/
theorem nodeFor_spec (hash : String → ℤ) (hne : ring.ring.entries ≠ []) (key : String) :
    ∃ p n, Clockwise.IsFirst {q | q ∈ ring.ring.keys} (ringPosition (hash key)) p ∧
      ring.ring.get? p = some n ∧ ring.nodeFor hash key = .ok n := by
  have hperm := List.mergeSort_perm ring.ring.keys fun p q => decide (p ≤ q)
  have hsome : (ring.ring.keys.mergeSort fun p q => p ≤ q) ≠ [] := by
    intro hnil
    rw [hnil] at hperm
    exact hne (List.map_eq_nil_iff.mp hperm.nil_eq.symm)
  obtain ⟨p, hp⟩ := Clockwise.exists_first hsome (ringPosition (hash key))
  have hfirst := Clockwise.isFirst_first ring.ring.pairwise_lt_mergeSort_keys hp
  simp only [hperm.mem_iff] at hfirst
  obtain ⟨n, hn⟩ := ring.ring.mem_keys_iff.mp hfirst.1
  refine ⟨p, n, hfirst, hn, ?_⟩
  have hget : ring.ring.getD p "" = n := by rw [Dict.getD, hn, Option.getD_some]
  rw [nodeFor, if_neg hne]
  rw [Clockwise.first] at hp
  cases hfound : (ring.ring.keys.mergeSort fun p q => p ≤ q).find?
      fun p => ringPosition (hash key) ≤ p with
  | some q =>
    rw [hfound] at hp
    obtain rfl := Option.some.inj hp
    simp only [hfound, hget]
  | none =>
    rw [hfound, Option.none_or] at hp
    obtain ⟨rest, hpoints⟩ := List.head?_eq_some_iff.mp hp
    rw [hpoints] at hfound ⊢
    simp only [hfound, List.headD_cons, hget]

/-- Rings with the same points give the same answers. -/
theorem nodeFor_congr (h : ∀ p, ring.ring.get? p = other.ring.get? p) (key : String) :
    ring.nodeFor hash key = other.nodeFor hash key := by
  have hkeys : ring.ring.keys.Perm other.ring.keys := Dict.keys_perm fun p => by rw [h]
  have hempty : ring.ring.entries = [] ↔ other.ring.entries = [] := by
    rw [Dict.entries_eq_nil_iff, Dict.entries_eq_nil_iff]
    simp only [h]
  rw [nodeFor, nodeFor, Ranks.mergeSort_eq_of_perm hkeys]
  simp only [Dict.getD, h, hempty]

/-! ### A change of the nodes -/

theorem get?_add (hash : String → ℤ) (hnode : node ∉ ring.nodes) (p : ℤ) :
    (ring.add hash node).2.ring.get? p =
      if p ∈ ring.points hash node then some node else ring.ring.get? p := by
  rw [add, if_neg hnode]
  exact ring.ring.get?_assign_map (ring.points hash node) node p

theorem get?_remove (p : ℤ) :
    (ring.remove node).ring.get? p = (ring.ring.get? p).filter fun n => n ≠ node :=
  ring.ring.get?_filter _ p

/-- Nodes at points of their own. -/
def ownPoints (name : String) : ℤ :=
  if name = "a#0" then 5 else if name = "b#0" then 9 else 7

/-- Nodes whose points differ only above the low 31 bits. -/
def samePoints (name : String) : ℤ :=
  if name = "a#0" then 5 else if name = "b#0" then 2 ^ 31 + 5 else 7

/-- **Little disturbance.** On a ring with any points, a node that is added gets some keys and the
others stay where they are, and when a node is removed only its own keys move. -/
theorem only_changed_node (hash : String → ℤ) (ring : HashRing) (hne : ring.ring.entries ≠ [])
    (node key : String) :
    ∃ before, ring.nodeFor hash key = .ok before ∧
      (node ∉ ring.nodes → ∃ after, (ring.add hash node).2.nodeFor hash key = .ok after ∧
        (after = before ∨ after = node)) ∧
      ((ring.remove node).ring.entries ≠ [] → before ≠ node →
        (ring.remove node).nodeFor hash key = .ok before) := by
  obtain ⟨p, before, hp, hbefore, hanswer⟩ := nodeFor_spec hash hne key
  refine ⟨before, hanswer, fun hnode => ?_, fun hleft hother => ?_⟩
  · have hadd := get?_add hash hnode
    have hmore : ∀ q ∈ ring.ring.keys, q ∈ (ring.add hash node).2.ring.keys := by
      intro q hq
      rw [Dict.mem_keys_iff] at hq ⊢
      rw [hadd]
      split
      · exact ⟨node, rfl⟩
      · exact hq
    have hsome : (ring.add hash node).2.ring.entries ≠ [] := by
      intro hnil
      have hmem := hmore p hp.1
      rw [Dict.keys, hnil] at hmem
      cases hmem
    obtain ⟨q, after, hq, hafter, hnew⟩ := nodeFor_spec hash hsome key
    refine ⟨after, hnew, ?_⟩
    rw [hadd] at hafter
    split at hafter
    · exact Or.inr (Option.some.inj hafter).symm
    · -- an old point that is first now was first before
      have hold : q ∈ ring.ring.keys := ring.ring.mem_keys_iff.mpr ⟨after, hafter⟩
      rw [(hq.of_subset hold hmore).unique hp, hbefore] at hafter
      exact Or.inl (Option.some.inj hafter).symm
  · obtain ⟨q, after, hq, hafter, hnew⟩ := nodeFor_spec hash hleft key
    have hstays : (ring.remove node).ring.get? p = some before := by
      rw [get?_remove, hbefore]
      simp [hother]
    have hfewer : ∀ r ∈ (ring.remove node).ring.keys, r ∈ ring.ring.keys := by
      intro r hr
      rw [Dict.mem_keys_iff] at hr ⊢
      obtain ⟨n, hn⟩ := hr
      rw [get?_remove] at hn
      exact ⟨n, (Option.filter_eq_some_iff.mp hn).1⟩
    have hmem := (Dict.mem_keys_iff _).mpr ⟨before, hstays⟩
    rw [hq.unique (hp.of_subset hmem hfewer), hstays] at hafter
    rw [hnew, Option.some.inj hafter]

/-- A second node at the first one's point. -/
theorem only_changed_node_samePoints :
    ∃ before, ((hashRing samePoints).final ⟨1, ∅, ∅, by decide⟩ [.add "a"]).nodeFor samePoints "k" =
        .ok before ∧
      ∃ after, (((hashRing samePoints).final ⟨1, ∅, ∅, by decide⟩ [.add "a"]).add samePoints
        "b").2.nodeFor samePoints "k" = .ok after ∧ (after = before ∨ after = "b") := by
  obtain ⟨before, hbefore, hadd, -⟩ := only_changed_node samePoints
    ((hashRing samePoints).final ⟨1, ∅, ∅, by decide⟩ [.add "a"]) (by decide +kernel) "b" "k"
  exact ⟨before, hbefore, hadd (by decide +kernel)⟩

/-! ### Rings and their nodes -/

/-- The ring has exactly the points of its nodes. -/
def Placed (hash : String → ℤ) (ring : HashRing) : Prop :=
  ∀ p n, ring.ring.get? p = some n ↔ n ∈ ring.nodes ∧ p ∈ ring.points hash n

theorem Placed.add (h : Placed hash ring) (hnode : node ∉ ring.nodes)
    (hclear : ∀ p ∈ ring.points hash node, p ∉ ring.ring.keys) :
    Placed hash (ring.add hash node).2 := by
  intro p n
  have hpoints (m : String) : (ring.add hash node).2.points hash m = ring.points hash m := by
    rw [HashRing.add, if_neg hnode]
    rfl
  have hnodes : n ∈ (ring.add hash node).2.nodes ↔ n = node ∨ n ∈ ring.nodes := by
    rw [HashRing.add, if_neg hnode]
    exact Finset.mem_insert
  rw [get?_add hash hnode, hpoints, hnodes]
  split
  · next hp =>
    constructor
    · intro hn
      obtain rfl := Option.some.inj hn
      exact ⟨Or.inl rfl, hp⟩
    · rintro ⟨rfl | hn, hpn⟩
      · rfl
      · -- another node would have the point already
        exact absurd (ring.ring.mem_keys_iff.mpr ⟨n, (h p n).mpr ⟨hn, hpn⟩⟩) (hclear p hp)
  · next hp =>
    rw [h p n]
    constructor
    · rintro ⟨hn, hpn⟩
      exact ⟨Or.inr hn, hpn⟩
    · rintro ⟨rfl | hn, hpn⟩
      · exact absurd hpn hp
      · exact ⟨hn, hpn⟩

theorem Placed.remove (h : Placed hash ring) (node : String) : Placed hash (ring.remove node) := by
  intro p n
  rw [get?_remove, Option.filter_eq_some_iff, h p n]
  show (n ∈ ring.nodes ∧ p ∈ ring.points hash n) ∧ decide (n ≠ node) = true ↔
    n ∈ ring.nodes.erase node ∧ p ∈ ring.points hash n
  rw [decide_eq_true_iff, Finset.mem_erase]
  tauto

theorem Placed.step (h : Placed hash ring) {call : RingCall} (hclear : Clear hash ring call) :
    Placed hash ((hashRing hash).step ring call).2 := by
  cases call with
  | add node =>
    show Placed hash (ring.add hash node).2
    by_cases hnode : node ∈ ring.nodes
    · rwa [HashRing.add, if_pos hnode]
    · exact h.add hnode (hclear.resolve_left hnode)
  | remove node => exact h.remove node

theorem vnodes_step (ring : HashRing) (call : RingCall) :
    ((hashRing hash).step ring call).2.vnodes = ring.vnodes := by
  cases call with
  | add node =>
    show (ring.add hash node).2.vnodes = ring.vnodes
    rw [HashRing.add]
    split <;> rfl
  | remove node => rfl

/-- A ring without nodes. -/
def fresh (vnodes : ℤ) (vnodes_pos : 1 ≤ vnodes) : HashRing := ⟨vnodes, ∅, ∅, vnodes_pos⟩

theorem placed_final {vnodes : ℤ} {vnodes_pos : 1 ≤ vnodes} {calls : List RingCall}
    (h : (hashRing hash).Guarded (Clear hash) (fresh vnodes vnodes_pos) calls) :
    Placed hash ((hashRing hash).final (fresh vnodes vnodes_pos) calls) ∧
      ((hashRing hash).final (fresh vnodes vnodes_pos) calls).vnodes = vnodes := by
  refine Machine.invariant (P := fun ring => Placed hash ring ∧ ring.vnodes = vnodes) ?_
    (fun ring call hring hclear => ?_) h
  · refine ⟨fun p n => ?_, rfl⟩
    exact iff_of_false (by simp [fresh]) fun hn => Finset.notMem_empty n hn.1
  · exact ⟨hring.1.step hclear, (ring.vnodes_step call).trans hring.2⟩

/-- Rings that have exactly the points of their nodes agree if they have the same nodes. -/
theorem Placed.nodeFor_eq (h : Placed hash ring) (hother : Placed hash other)
    (hvnodes : ring.vnodes = other.vnodes) (hnodes : ring.nodes = other.nodes) (key : String) :
    ring.nodeFor hash key = other.nodeFor hash key := by
  refine nodeFor_congr (fun p => Option.ext fun n => ?_) key
  rw [h p n, hother p n, hnodes, points, points, hvnodes]

/-- **Placement by membership.** Of runs in which no node is added at a point that is taken, any two
that end with the same nodes give the same answers. So removing a node just added restores every
answer. -/
theorem placement_by_membership (hash : String → ℤ) (vnodes : ℤ) (vnodes_pos : 1 ≤ vnodes) :
    (∀ calls others : List RingCall,
      (hashRing hash).Guarded (Clear hash) (fresh vnodes vnodes_pos) calls →
      (hashRing hash).Guarded (Clear hash) (fresh vnodes vnodes_pos) others →
      ((hashRing hash).final (fresh vnodes vnodes_pos) calls).nodes =
        ((hashRing hash).final (fresh vnodes vnodes_pos) others).nodes →
      ∀ key, ((hashRing hash).final (fresh vnodes vnodes_pos) calls).nodeFor hash key =
        ((hashRing hash).final (fresh vnodes vnodes_pos) others).nodeFor hash key) ∧
    ∀ (calls : List RingCall) (node : String),
      (hashRing hash).Guarded (Clear hash) (fresh vnodes vnodes_pos) (calls ++ [.add node]) →
      node ∉ ((hashRing hash).final (fresh vnodes vnodes_pos) calls).nodes →
      ∀ key, ((hashRing hash).final (fresh vnodes vnodes_pos)
          (calls ++ [.add node] ++ [.remove node])).nodeFor hash key =
        ((hashRing hash).final (fresh vnodes vnodes_pos) calls).nodeFor hash key := by
  have hagree (calls others : List RingCall)
      (hcalls : (hashRing hash).Guarded (Clear hash) (fresh vnodes vnodes_pos) calls)
      (hothers : (hashRing hash).Guarded (Clear hash) (fresh vnodes vnodes_pos) others)
      (hnodes : ((hashRing hash).final (fresh vnodes vnodes_pos) calls).nodes =
        ((hashRing hash).final (fresh vnodes vnodes_pos) others).nodes) (key : String) :=
    (placed_final hcalls).1.nodeFor_eq (placed_final hothers).1
      ((placed_final hcalls).2.trans (placed_final hothers).2.symm) hnodes key
  refine ⟨hagree, fun calls node hadded hnode => hagree _ calls ?_ ?_ ?_⟩
  · exact (Machine.guarded_append _ _ _ _ _).mpr ⟨hadded, trivial, trivial⟩
  · exact ((Machine.guarded_append _ _ _ _ _).mp hadded).1
  · rw [Machine.final_append_singleton, Machine.final_append_singleton]
    show ((((hashRing hash).final (fresh vnodes vnodes_pos) calls).add hash node).2.remove
      node).nodes = _
    rw [HashRing.add, if_neg hnode]
    exact Finset.erase_insert hnode

theorem placement_ownPoints :
    ((hashRing ownPoints).final (fresh 1 (by decide))
        [.add "a", .add "b", .remove "b"]).nodeFor ownPoints "k" =
      ((hashRing ownPoints).final (fresh 1 (by decide)) [.add "a"]).nodeFor ownPoints "k" :=
  (placement_by_membership ownPoints 1 (by decide)).1 _ _ (by decide +kernel) (by decide +kernel)
    (by decide +kernel) "k"

/-- The node that is left has no point on the ring. -/
theorem overwritten_points :
    ¬ ∀ (hash : String → ℤ) (vnodes : ℤ) (vnodes_pos : 1 ≤ vnodes) (calls others : List RingCall),
      ((hashRing hash).final (fresh vnodes vnodes_pos) calls).nodes =
        ((hashRing hash).final (fresh vnodes vnodes_pos) others).nodes →
      ∀ key, ((hashRing hash).final (fresh vnodes vnodes_pos) calls).nodeFor hash key =
        ((hashRing hash).final (fresh vnodes vnodes_pos) others).nodeFor hash key := by
  intro h
  have hsame := h samePoints 1 (by decide) [.add "a", .add "b", .remove "b"] [.add "a"]
    (by decide +kernel) "k"
  have hempty : ((hashRing samePoints).final (fresh 1 (by decide))
      [.add "a", .add "b", .remove "b"]).ring.entries = [] := by decide +kernel
  have hnode : ((hashRing samePoints).final (fresh 1 (by decide))
      [.add "a"]).ring.entries ≠ [] := by decide +kernel
  obtain ⟨p, n, -, -, hanswer⟩ := nodeFor_spec samePoints hnode "k"
  rw [nodeFor, if_pos hempty, hanswer] at hsame
  cases hsame

end HashRing

end Relay
