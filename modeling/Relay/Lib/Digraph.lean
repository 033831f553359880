import Mathlib.Data.List.Chain
import Mathlib.Data.Nat.SuccPred
import Mathlib.Order.WellFoundedSet
import Relay.Lib.Machine

/-!
# Directed graphs and their orders

The edges of a directed graph are a relation. A list is ordered if all predecessors of an element
stand before it. A graph whose edges end in an ordered list has no way back from a node to itself,
and the same holds if the list is ordered for the edges turned around. In a graph without a way
back, every finite set of nodes has one that none of them leads to.

A node on a cycle has walks of every length. So the nodes with a longest walk are those that lead to
no cycle, provided that they lead to finitely many nodes, and the longest walk from a node is one
longer than the longest from its successors.

## Main definitions

* `Acyclic`, `ClosedWalk`: ways from a node back to itself
* `Ordered`: a list in which predecessors come first
* `Longest`: the number of nodes of the longest walk from a node

## Main results

* `ClosedWalk.not_acyclic`
* `Ordered.acyclic`, `Ordered.acyclic_of_swap`
* `Acyclic.exists_source`: the node to begin with
* `Longest.of_successors`: the longest walk from a node, by those from its successors
* `Longest.not_transGen`, `Acyclic.exists_longest`: where there is a longest walk
-/

namespace Relay

namespace Digraph

variable {α : Type*} {E : α → α → Prop}

/-- No node has a way back to itself. -/
def Acyclic (E : α → α → Prop) : Prop :=
  ∀ v, ¬ Relation.TransGen E v v

/-- A walk along edges that ends where it began. -/
structure ClosedWalk (E : α → α → Prop) (walk : List α) : Prop where
  chain : walk.IsChain E
  closed : walk.head? = walk.getLast?
  two_le_length : 2 ≤ walk.length

/-- All predecessors of an element stand before it. -/
def Ordered (E : α → α → Prop) (l : List α) : Prop :=
  Justified (fun past v => ∀ u, E u v → u ∈ past) l

theorem ClosedWalk.ne_nil {walk : List α} (h : ClosedWalk E walk) : walk ≠ [] :=
  List.ne_nil_of_length_pos (Nat.lt_of_lt_of_le Nat.two_pos h.two_le_length)

theorem ClosedWalk.not_acyclic {walk : List α} (h : ClosedWalk E walk) : ¬ Acyclic E := by
  obtain ⟨hchain, hclosed, hlen⟩ := h
  match walk, hlen with
  | u :: v :: rest, _ =>
    have hlast : (v :: rest).getLast (List.cons_ne_nil v rest) = u := by
      rw [List.head?_cons, List.getLast?_cons_cons,
        List.getLast?_eq_some_getLast (List.cons_ne_nil v rest)] at hclosed
      exact (Option.some.inj hclosed).symm
    obtain ⟨huv, hrest⟩ := List.isChain_cons_cons.mp hchain
    exact fun hacyclic => hacyclic u
      (.head' huv (List.relationReflTransGen_of_exists_isChain_cons rest hrest hlast))

/-- **The node to begin with.** Of finitely many nodes, there is one that none of them leads to. -/
theorem Acyclic.exists_source (h : Acyclic E) {s : Finset α} (hs : s.Nonempty) :
    ∃ v ∈ s, ∀ u ∈ s, ¬ E u v := by
  have hirrefl : Std.Irrefl (Relation.TransGen E) := ⟨h⟩
  have hstrict : IsStrictOrder α (Relation.TransGen E) := {}
  obtain ⟨v, hv⟩ := hs
  obtain ⟨⟨v, hv⟩, -, hmin⟩ :=
    (s.wellFoundedOn (r := Relation.TransGen E)).has_min Set.univ ⟨⟨v, hv⟩, trivial⟩
  exact ⟨v, hv, fun u hu huv => hmin ⟨u, hu⟩ trivial (.single huv)⟩

/-! ### Longest walks -/

/-- The longest walk from a node has this many nodes. -/
def Longest (E : α → α → Prop) (v : α) (d : ℕ) : Prop :=
  IsGreatest {n | ∃ rest, (v :: rest).IsChain E ∧ n = rest.length + 1} d

theorem Longest.exists_of_bounded {v : α} {n : ℕ}
    (h : ∀ rest, (v :: rest).IsChain E → rest.length < n) : ∃ d, d ≤ n ∧ Longest E v d := by
  have hbound : n ∈ upperBounds {n | ∃ rest, (v :: rest).IsChain E ∧ n = rest.length + 1} := by
    rintro m ⟨rest, hchain, rfl⟩
    exact h rest hchain
  obtain ⟨d, hd⟩ := BddAbove.exists_isGreatest_of_nonempty ⟨n, hbound⟩
    ⟨1, [], List.isChain_singleton v, rfl⟩
  exact ⟨d, hbound hd.1, hd⟩

theorem Longest.pos {v : α} {d : ℕ} (h : Longest E v d) : 0 < d := by
  obtain ⟨rest, -, rfl⟩ := h.1
  exact Nat.succ_pos _

/-- Walks from a successor are shorter. -/
theorem Longest.exists_lt {u v : α} {d : ℕ} (h : Longest E v d) (hvu : E v u) :
    ∃ d', d' < d ∧ Longest E u d' := by
  have hbound : ∀ rest, (u :: rest).IsChain E → rest.length < d - 1 := fun rest hchain => by
    have hle : (u :: rest).length + 1 ≤ d :=
      h.2 ⟨u :: rest, List.isChain_cons_cons.mpr ⟨hvu, hchain⟩, rfl⟩
    rw [List.length_cons] at hle
    exact Nat.lt_sub_of_add_lt hle
  obtain ⟨d', hle, hd'⟩ := Longest.exists_of_bounded hbound
  exact ⟨d', hle.trans_lt (Nat.sub_lt h.pos Nat.one_pos), hd'⟩

/-- **One step of a longest walk.** -/
theorem Longest.of_successors {v : α} {m : ℕ} (hle : ∀ u, E v u → ∃ d, d ≤ m ∧ Longest E u d)
    (hattained : m = 0 ∨ ∃ u, E v u ∧ Longest E u m) : Longest E v (1 + m) := by
  constructor
  · rcases hattained with rfl | ⟨u, hvu, hu⟩
    · exact ⟨[], List.isChain_singleton v, rfl⟩
    · obtain ⟨rest, hchain, rfl⟩ := hu.1
      exact ⟨u :: rest, List.isChain_cons_cons.mpr ⟨hvu, hchain⟩, Nat.add_comm _ _⟩
  · rintro n ⟨rest, hchain, rfl⟩
    cases rest with
    | nil => exact Nat.le_add_right 1 m
    | cons u rest =>
      obtain ⟨hvu, hchain⟩ := List.isChain_cons_cons.mp hchain
      obtain ⟨d, hd, hlongest⟩ := hle u hvu
      rw [List.length_cons, Nat.add_comm]
      exact Nat.add_le_add_left ((hlongest.2 ⟨rest, hchain, rfl⟩).trans hd) 1

/-- A node with a longest walk has no way back to itself. -/
theorem Longest.not_transGen {v : α} {d : ℕ} (h : Longest E v d) :
    ¬ Relation.TransGen E v v := by
  have hshorter : ∀ w, Relation.TransGen E v w → ∃ d', d' < d ∧ Longest E w d' := fun w hvw => by
    induction hvw with
    | single hvu => exact h.exists_lt hvu
    | tail _ hwu ih =>
      obtain ⟨d', hlt, hd'⟩ := ih
      obtain ⟨d'', hlt', hd''⟩ := hd'.exists_lt hwu
      exact ⟨d'', hlt'.trans hlt, hd''⟩
  intro hvv
  obtain ⟨d', hlt, hd'⟩ := hshorter v hvv
  exact hlt.ne (hd'.unique h)

/-- Without a way back, a walk meets no node twice. -/
theorem Acyclic.nodup (h : Acyclic E) {walk : List α} (hchain : walk.IsChain E) : walk.Nodup := by
  have htrans : walk.IsChain (Relation.TransGen E) := hchain.imp fun _ _ => .single
  refine (List.isChain_iff_pairwise.mp htrans).imp fun {u v} huv => ?_
  rintro rfl
  exact h u huv

/-- A walk stays where its edges lead. -/
theorem mem_of_isChain {s : Finset α} (hclosed : ∀ u w, E u w → w ∈ s) {v : α} {rest : List α}
    (hchain : (v :: rest).IsChain E) : ∀ u ∈ rest, u ∈ s := by
  intro u hu
  obtain ⟨past, future, rfl⟩ := List.append_of_mem hu
  rw [← List.cons_append, List.isChain_append] at hchain
  exact hclosed _ u (hchain.2.2 _ (List.getLast?_eq_some_getLast (List.cons_ne_nil _ _)) u rfl)

/-- Without a way back, a node that leads to finitely many nodes has a longest walk. -/
theorem Acyclic.exists_longest (h : Acyclic E) {s : Finset α} {v : α} (hv : v ∈ s)
    (hclosed : ∀ u w, E u w → w ∈ s) : ∃ d, d ≤ s.card ∧ Longest E v d := by
  refine Longest.exists_of_bounded fun rest hchain => ?_
  have hsub := List.forall_mem_cons.mpr ⟨hv, mem_of_isChain hclosed hchain⟩
  classical
  calc (v :: rest).length = (v :: rest).toFinset.card :=
        (List.toFinset_card_of_nodup (h.nodup hchain)).symm
    _ ≤ s.card := Finset.card_le_card fun u hu => hsub u (List.mem_toFinset.mp hu)

variable [DecidableEq α]

/-- In an ordered list, edges lead forward. -/
theorem Ordered.idxOf_lt {l : List α} (h : Ordered E l) {u v : α} (hv : v ∈ l) (huv : E u v) :
    u ∈ l ∧ l.idxOf u < l.idxOf v := by
  obtain ⟨past, future, rfl, hnot⟩ := List.eq_append_cons_of_mem hv
  have hu := h past v future rfl u huv
  refine ⟨List.mem_append_left _ hu, ?_⟩
  rw [List.idxOf_append_of_mem hu, List.idxOf_append_of_notMem hnot, List.idxOf_cons_self,
    Nat.add_zero]
  exact List.idxOf_lt_length_of_mem hu

theorem Ordered.idxOf_lt_of_transGen {l : List α} (h : Ordered E l) {u v : α} (hv : v ∈ l)
    (huv : Relation.TransGen E u v) : u ∈ l ∧ l.idxOf u < l.idxOf v := by
  induction huv using Relation.TransGen.head_induction_on with
  | single huv => exact h.idxOf_lt hv huv
  | head huw _ ih =>
    obtain ⟨hw, hlt⟩ := ih
    obtain ⟨hu, hlt'⟩ := h.idxOf_lt hw huw
    exact ⟨hu, hlt'.trans hlt⟩

/-- A graph whose edges end in an ordered list has no way back. -/
theorem Ordered.acyclic {l : List α} (h : Ordered E l) (hcover : ∀ u v, E u v → v ∈ l) :
    Acyclic E := by
  intro v hvv
  obtain ⟨u, -, huv⟩ := Relation.TransGen.tail'_iff.mp hvv
  exact lt_irrefl _ (h.idxOf_lt_of_transGen (hcover u v huv) hvv).2

theorem Ordered.acyclic_of_swap {l : List α} (h : Ordered (Function.swap E) l)
    (hcover : ∀ u v, E u v → u ∈ l) : Acyclic E := by
  intro v hvv
  exact h.acyclic (fun u v huv => hcover v u huv) v (Relation.transGen_swap.mpr hvv)

end Digraph

end Relay
