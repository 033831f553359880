import Mathlib.Data.List.Nodup
import Mathlib.Data.List.Perm.Subperm
import Mathlib.Logic.Function.Basic

/-!
# Linked chains

Nodes with a link to the next node. A link is read by a partial function, since not every node need
have one: it gives nothing where there is no link, and the link is to no node at the end. Following
the links from a node leads through a list of nodes, its chain.

A node is put into a chain in two steps. It takes over the link of the node before it, and that node
is linked to it.

## Main definitions

* `Chain`

## Main results

* `Chain.unique`: a node has one chain
* `Chain.splice`: a node put into a chain
-/

namespace Relay

namespace LinkedChain

variable {α : Type*} {next next' : α → Option (Option α)} {a b : α} {l pre post : List α}

/-- Following the links from a node leads through the list, and ends there. -/
def Chain (next : α → Option (Option α)) : α → List α → Prop
  | a, [] => next a = some none
  | a, b :: rest => next a = some (some b) ∧ Chain next b rest

theorem Chain.next_eq (h : Chain next a l) : next a = some l.head? := by
  cases l with
  | nil => exact h
  | cons b rest => exact h.1

/-- A node has one chain. -/
theorem Chain.unique {l' : List α} (h : Chain next a l) (h' : Chain next a l') : l = l' := by
  induction l generalizing a l' with
  | nil =>
    have hhead := Option.some.inj (h.next_eq.symm.trans h'.next_eq)
    exact (List.head?_eq_none_iff.mp hhead.symm).symm
  | cons b rest ih =>
    cases l' with
    | nil => exact absurd (Option.some.inj (h.1.symm.trans h')) (Option.some_ne_none b)
    | cons b' rest' =>
      obtain rfl := Option.some.inj (Option.some.inj (h.1.symm.trans h'.1))
      rw [ih h.2 h'.2]

/-- The chain of a node of a chain is what comes after it. -/
theorem Chain.of_append_cons (h : Chain next a (pre ++ b :: post)) : Chain next b post := by
  induction pre generalizing a with
  | nil => exact h.2
  | cons c pre ih => exact ih h.2

theorem Chain.of_getLast? (h : Chain next a (pre ++ post)) (hb : (a :: pre).getLast? = some b) :
    Chain next b post := by
  rcases List.eq_nil_or_concat pre with rfl | ⟨init, c, rfl⟩
  · exact Option.some.inj hb ▸ h
  · rw [List.concat_eq_append, ← List.cons_append, List.getLast?_concat] at hb
    rw [List.concat_eq_append, List.append_assoc, List.singleton_append] at h
    exact Option.some.inj hb ▸ h.of_append_cons

/-- Only the links of the nodes on the way matter. -/
theorem Chain.congr (h : Chain next a l) (hsame : ∀ x ∈ a :: l, next' x = next x) :
    Chain next' a l := by
  induction l generalizing a with
  | nil => exact (hsame a List.mem_cons_self).trans h
  | cons b rest ih =>
    exact ⟨(hsame a List.mem_cons_self).trans h.1,
      ih h.2 fun x hx => hsame x (List.mem_cons_of_mem a hx)⟩

/-- Another node with the same link has the same chain. -/
theorem Chain.of_next_eq (h : Chain next a l) (hb : next' b = next a)
    (hsame : ∀ x ∈ l, next' x = next x) : Chain next' b l := by
  cases l with
  | nil => exact hb.trans h
  | cons c rest => exact ⟨hb.trans h.1, h.2.congr hsame⟩

/-- **A node put into a chain.** The new node takes over the link of the node before it, which is
then linked to the new one. -/
theorem Chain.splice [DecidableEq α] {new u : α} {p : Option α} (h : Chain next a (pre ++ post))
    (hu : (a :: pre).getLast? = some u) (hp : next u = some p) (hnodup : (a :: (pre ++ post)).Nodup)
    (hnew : new ∉ a :: (pre ++ post)) :
    Chain (Function.update (Function.update next new (some p)) u (some (some new))) a
      (pre ++ new :: post) := by
  induction pre generalizing a with
  | nil =>
    obtain rfl : a = u := Option.some.inj hu
    have hnew_ne : new ≠ a := List.ne_of_not_mem_cons hnew
    refine ⟨Function.update_self _ _ _, Chain.of_next_eq h ?_ fun x hx => ?_⟩
    · rw [Function.update_of_ne hnew_ne, Function.update_self, hp]
    · have hxa : x ≠ a := fun heq => (List.nodup_cons.mp hnodup).1 (heq ▸ hx)
      have hxn : x ≠ new := fun heq => hnew (heq ▸ List.mem_cons_of_mem a hx)
      rw [Function.update_of_ne hxa, Function.update_of_ne hxn]
  | cons b pre ih =>
    rw [List.getLast?_cons_cons] at hu
    obtain ⟨hnot, hnodup⟩ := List.nodup_cons.mp hnodup
    have hub : u ∈ b :: pre := List.mem_of_getLast? hu
    have hau : a ≠ u := fun heq => hnot (List.mem_append_left post (heq ▸ hub))
    refine ⟨?_, ih h.2 hu hnodup fun hmem => hnew (List.mem_cons_of_mem a hmem)⟩
    rw [Function.update_of_ne hau, Function.update_of_ne (List.ne_of_not_mem_cons hnew).symm]
    exact h.1

/-- Of finitely many nodes, not all are in a chain that one of them begins. -/
theorem length_lt_of_forall_lt {start n : ℕ} {l : List ℕ} (hnodup : (start :: l).Nodup)
    (hlt : ∀ r ∈ start :: l, r < n) : l.length < n := by
  have hsubset : start :: l ⊆ List.range n := fun r hr => List.mem_range.mpr (hlt r hr)
  have hlength := (List.subperm_of_subset hnodup hsubset).length_le
  rwa [List.length_range] at hlength

end LinkedChain

end Relay
