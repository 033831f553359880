import Relay.TopologicalSort

/-!
# The depth of a topology

The depth of a topology is the number of nodes on its longest path. It is computed by a recursion
that remembers what it found for a node once it is through with everything the node leads to. The
recursion does not look out for cycles: on a cycle, nothing is ever remembered, and it does not
come back.

How deep the interpreter lets a recursion get is a parameter.

## Main definitions

* `Topology.longest` and `Topology.depth`
* `Topology.Remembers`: what is remembered is right

## Main results

* `Topology.depth_answers`: a valid topology has a depth, which is the length of its longest path,
  and an invalid one has none, whatever the limit of the recursion
-/

namespace Relay

open Relay.Digraph

namespace Topology

/-- The largest of the results for the names of a loop, and 0 if there are none. -/
def deepest (longest : String → Dict String ℕ → Option (ℕ × Dict String ℕ)) :
    List String → ℕ → Dict String ℕ → Option (ℕ × Dict String ℕ)
  | [], best, memo => some (best, memo)
  | name :: rest, best, memo =>
    match longest name memo with
    | none => none
    | some (length, memo) => deepest longest rest (max best length) memo

/-- `longest`, in a recursion of a limited depth. -/
def longest (edges : Dict String (List String)) :
    ℕ → String → Dict String ℕ → Option (ℕ × Dict String ℕ)
  | 0, _, _ => none
  | limit + 1, node, memo =>
    match memo.get? node with
    | some length => some (length, memo)
    | none =>
      match deepest (longest edges limit) (edges.getD node []) 0 memo with
      | none => none
      | some (best, memo) => some (1 + best, memo.set node (1 + best))

/-- `depth`, where `order` is the order that a loop over the nodes takes. -/
def depth (topology : Topology) (order : List String) (limit : ℕ) : Option ℕ :=
  (deepest (longest topology.edges limit) order 0 ∅).map Prod.fst

/-- What is remembered of a node is the length of the longest walk from it. -/
def Remembers (topology : Topology) (memo : Dict String ℕ) : Prop :=
  ∀ name length, memo.get? name = some length → Longest topology.Edge name length

variable {topology : Topology}

/-! ## What comes back is right -/

/-- A result for one name is right, provided that what was remembered before was, and leaves what is
remembered right. -/
def Measures (topology : Topology)
    (longest : String → Dict String ℕ → Option (ℕ × Dict String ℕ)) : Prop :=
  ∀ name memo length memo', longest name memo = some (length, memo') → topology.Remembers memo →
    topology.Remembers memo' ∧ Longest topology.Edge name length

/-- The result of a loop is an upper bound that one of its names attains, if any does. -/
theorem Measures.deepest {longest : String → Dict String ℕ → Option (ℕ × Dict String ℕ)}
    (hlongest : topology.Measures longest) {names : List String} {start best : ℕ}
    {memo memo' : Dict String ℕ}
    (h : Topology.deepest longest names start memo = some (best, memo'))
    (hmemo : topology.Remembers memo) :
    topology.Remembers memo' ∧ start ≤ best ∧
      (∀ name ∈ names, ∃ length, length ≤ best ∧ Longest topology.Edge name length) ∧
      (best = start ∨ ∃ name ∈ names, Longest topology.Edge name best) := by
  induction names generalizing start memo with
  | nil =>
    obtain ⟨rfl, rfl⟩ := Prod.mk.inj (Option.some.inj h)
    exact ⟨hmemo, le_rfl, fun name hname => absurd hname List.not_mem_nil, Or.inl rfl⟩
  | cons name rest ih =>
    rw [Topology.deepest] at h
    split at h
    · cases h
    · next length memo₁ hone =>
      obtain ⟨hmemo₁, hlength⟩ := hlongest name memo length memo₁ hone hmemo
      obtain ⟨hmemo', hle, hall, hattained⟩ := ih h hmemo₁
      refine ⟨hmemo', (le_max_left _ _).trans hle, List.forall_mem_cons.mpr ⟨?_, hall⟩, ?_⟩
      · exact ⟨length, (le_max_right _ _).trans hle, hlength⟩
      · rcases hattained with heq | ⟨other, hother, hbest⟩
        · rcases max_choice start length with hmax | hmax
          · exact Or.inl (heq.trans hmax)
          · rw [hmax] at heq
            exact Or.inr ⟨name, List.mem_cons_self, heq ▸ hlength⟩
        · exact Or.inr ⟨other, List.mem_cons_of_mem _ hother, hbest⟩

theorem measures_longest (topology : Topology) (limit : ℕ) :
    topology.Measures (longest topology.edges limit) := by
  induction limit with
  | zero => exact fun name memo length memo' h => by cases h
  | succ limit ih =>
    intro name memo length memo' h hmemo
    rw [longest] at h
    split at h
    · next hfound =>
      obtain ⟨rfl, rfl⟩ := Prod.mk.inj (Option.some.inj h)
      exact ⟨hmemo, hmemo name _ hfound⟩
    · split at h
      · cases h
      · next best memo₁ hbest =>
        obtain ⟨rfl, rfl⟩ := Prod.mk.inj (Option.some.inj h)
        obtain ⟨hmemo₁, -, hall, hattained⟩ := ih.deepest hbest hmemo
        have hlongest : Longest topology.Edge name (1 + best) :=
          Longest.of_successors hall hattained
        exact ⟨Dict.forall_get?_set hlongest fun other length _ => hmemo₁ other length, hlongest⟩

/-! ## When it comes back -/

/-- The loop comes back if every call in it does. -/
theorem isSome_deepest (longest : String → Dict String ℕ → Option (ℕ × Dict String ℕ))
    (names : List String) (h : ∀ name ∈ names, ∀ memo, (longest name memo).isSome) (start : ℕ)
    (memo : Dict String ℕ) : (deepest longest names start memo).isSome := by
  induction names generalizing start memo with
  | nil => rfl
  | cons name rest ih =>
    obtain ⟨hname, hrest⟩ := List.forall_mem_cons.mp h
    obtain ⟨⟨length, memo₁⟩, hone⟩ := Option.isSome_iff_exists.mp (hname memo)
    rw [deepest, hone]
    exact ih hrest _ _

/-- The recursion comes back from a node if its limit is not below the longest walk from it. -/
theorem isSome_longest {limit : ℕ} {node : String} {length : ℕ}
    (h : Longest topology.Edge node length) (hlimit : length ≤ limit) (memo : Dict String ℕ) :
    (longest topology.edges limit node memo).isSome := by
  induction limit generalizing node length memo with
  | zero => exact absurd h.pos (Nat.not_lt.mpr hlimit)
  | succ limit ih =>
    rw [longest]
    split
    · rfl
    · have hloop := isSome_deepest (longest topology.edges limit)
        (topology.edges.getD node []) (fun next hnext memo => by
          obtain ⟨length', hlt, hlength'⟩ := h.exists_lt hnext
          exact ih hlength' (Nat.le_of_lt_succ (hlt.trans_le hlimit)) memo) 0 memo
      obtain ⟨⟨best, memo₁⟩, hbest⟩ := Option.isSome_iff_exists.mp hloop
      rw [hbest]
      rfl

/-! ## The depth -/

/-- The numbers of nodes of the paths of a topology. -/
def PathLengths (topology : Topology) : Set ℕ :=
  {n | ∃ path : List String, path.IsChain topology.Edge ∧ (∀ name ∈ path, name ∈ topology.nodes) ∧
    n = path.length}

/-- There is a longest path from every node, and it has no more edges than there are nodes. -/
theorem exists_longest (hacyclic : Acyclic topology.Edge) {name : String}
    (hname : name ∈ topology.nodes) :
    ∃ length, length ≤ topology.nodes.card ∧ Longest topology.Edge name length :=
  hacyclic.exists_longest hname fun u v huv => topology.closed u v huv

theorem isGreatest_of_depth {order : List String} {limit d : ℕ}
    (horder : ∀ name, name ∈ order ↔ name ∈ topology.nodes)
    (h : topology.depth order limit = some d) :
    Acyclic topology.Edge ∧ IsGreatest topology.PathLengths d := by
  obtain ⟨⟨best, memo⟩, hloop, rfl⟩ := Option.map_eq_some_iff.mp h
  obtain ⟨-, -, hall, hattained⟩ := (topology.measures_longest limit).deepest hloop
    fun name length hfound => by cases hfound
  refine ⟨fun v hvv => ?_, ?_, ?_⟩
  · obtain ⟨u, hvu, -⟩ := Relation.TransGen.head'_iff.mp hvv
    obtain ⟨length, -, hlength⟩ :=
      hall v ((horder v).mpr (topology.mem_nodes_of_edge hvu))
    exact hlength.not_transGen hvv
  · rcases hattained with rfl | ⟨name, hname, hlongest⟩
    · exact ⟨[], List.isChain_nil, fun name hname => absurd hname List.not_mem_nil, rfl⟩
    · obtain ⟨rest, hchain, heq⟩ := hlongest.1
      refine ⟨name :: rest, hchain, List.forall_mem_cons.mpr ⟨(horder name).mp hname, ?_⟩, heq⟩
      exact mem_of_isChain (fun u v huv => topology.closed u v huv) hchain
  · rintro n ⟨path, hchain, hnodes, rfl⟩
    cases path with
    | nil => exact Nat.zero_le _
    | cons name rest =>
      obtain ⟨length, hle, hlength⟩ :=
        hall name ((horder name).mpr (hnodes name List.mem_cons_self))
      exact (hlength.2 ⟨rest, hchain, rfl⟩).trans hle

theorem isSome_depth (hacyclic : Acyclic topology.Edge) {order : List String} {limit : ℕ}
    (horder : ∀ name ∈ order, name ∈ topology.nodes) (hlimit : topology.nodes.card ≤ limit) :
    (topology.depth order limit).isSome := by
  rw [depth, Option.isSome_map]
  refine isSome_deepest _ _ (fun name hname memo => ?_) 0 ∅
  obtain ⟨length, hle, hlength⟩ := exists_longest hacyclic (horder name hname)
  exact isSome_longest hlength (hle.trans hlimit) memo

/-- **Valid topologies have a depth.** If a topology is valid, the recursion comes back with the
length of its longest path, provided that it may get as deep as there are nodes. If it is not valid,
the recursion does not come back, however deep it may get. -/
theorem depth_answers (topology : Topology) {order : List String}
    (horder : ∀ name, name ∈ order ↔ name ∈ topology.nodes) :
    ((∃ report, topology.validate order = some (.ok report)) →
      ∃ d, IsGreatest topology.PathLengths d ∧
        ∀ limit, topology.nodes.card ≤ limit → topology.depth order limit = some d) ∧
    ((∃ error, topology.validate order = some (.error error)) →
      ∀ limit, topology.depth order limit = none) := by
  obtain ⟨answer, hanswer, hvalid⟩ := topology.validate_spec horder
  rw [hanswer]
  constructor
  · rintro ⟨report, heq⟩
    have hacyclic : Acyclic topology.Edge := hvalid.mp ⟨report, Option.some.inj heq⟩
    have hdepth : ∀ limit, topology.nodes.card ≤ limit → ∃ d, topology.depth order limit = some d ∧
        IsGreatest topology.PathLengths d := fun limit hlimit => by
      obtain ⟨d, hd⟩ := Option.isSome_iff_exists.mp
        (isSome_depth hacyclic (fun name => (horder name).mp) hlimit)
      exact ⟨d, hd, (isGreatest_of_depth horder hd).2⟩
    obtain ⟨d, -, hgreatest⟩ := hdepth _ le_rfl
    refine ⟨d, hgreatest, fun limit hlimit => ?_⟩
    obtain ⟨d', hd', hgreatest'⟩ := hdepth limit hlimit
    rw [hd', hgreatest.unique hgreatest']
  · rintro ⟨error, heq⟩ limit
    refine Option.eq_none_iff_forall_ne_some.mpr fun d hd => ?_
    obtain ⟨report, hok⟩ := hvalid.mpr (isGreatest_of_depth horder hd).1
    cases (Option.some.inj heq).symm.trans hok

theorem depth_answers_pair :
    let pair := ((emptyGraph.1.addNode "a").addNode "b" |>.connect "a" "b").2
    ((∃ report, pair.validate ["a", "b"] = some (.ok report)) →
      ∃ d, IsGreatest pair.PathLengths d ∧
        ∀ limit, pair.nodes.card ≤ limit → pair.depth ["a", "b"] limit = some d) ∧
    ((∃ error, pair.validate ["a", "b"] = some (.error error)) →
      ∀ limit, pair.depth ["a", "b"] limit = none) :=
  depth_answers _ fun name => by
    rw [show ((emptyGraph.1.addNode "a").addNode "b" |>.connect "a" "b").2.nodes =
      {"b", "a"} from rfl]
    simp [or_comm]

end Topology

end Relay
