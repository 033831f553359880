import Relay.Lib.Printing
import Relay.Topology

/-!
# Topological sorts

The nodes of a graph are put into an order in which each comes after those it depends on. The nodes
that depend on nothing are emitted and struck from what the others depend on, round after round.
When none is left to emit although there are nodes left, they depend on each other in a circle, and
there is no order.

The same graph can be given to a `Topology`, with an edge from each node to those that depend on it.
Its walk then finds a cycle exactly when there is no order.

## Scope

The number of the nodes that start first is left out, and the report made from it.

## Main definitions

* `TopologicalSort`, with `addNode`, `addDependency` and `order`
* `graphBuilder`: one graph, given to a topology and to a sort

## Main results

* `TopologicalSort.order_spec`: the order is valid, and there is one unless there is a cycle
* `TopologicalSort.detectors_agree`: the two cycle detectors agree
-/

namespace Relay

open Relay.Digraph

/-- A graph of named nodes, and what each of them depends on. -/
structure TopologicalSort where
  nodes : Finset String := ∅
  deps : Dict String (Finset String) := ∅
  mem_nodes_iff : ∀ name, name ∈ nodes ↔ name ∈ deps.keys
  closed : ∀ n, ∀ d ∈ deps.getD n ∅, d ∈ nodes

namespace TopologicalSort

/-- `add_node`. -/
def addNode (sort : TopologicalSort) (name : String) : TopologicalSort where
  nodes := insert name sort.nodes
  deps := sort.deps.setDefault name ∅
  mem_nodes_iff k := by
    rw [Finset.mem_insert, Dict.mem_keys_setDefault, sort.mem_nodes_iff]
  closed n d h := by
    rw [Dict.getD_setDefault] at h
    exact Finset.mem_insert_of_mem (sort.closed n d h)

/-- `add_dependency`. -/
def addDependency (sort : TopologicalSort) (node dependsOn : String) :
    Except RelayError Unit × TopologicalSort :=
  if h : node ∉ sort.nodes ∨ dependsOn ∉ sort.nodes then
    (.error (.invalid "a dependency references a node never added"), sort)
  else
    (.ok (), { sort with
      deps := sort.deps.set node (insert dependsOn (sort.deps.getD node ∅))
      mem_nodes_iff := fun name => by
        rw [Dict.mem_keys_set, ← sort.mem_nodes_iff, or_iff_right_of_imp]
        rintro rfl
        exact not_not.mp (not_or.mp h).1
      closed := fun n d hd => by
        rw [Dict.getD_set] at hd
        split at hd
        · rcases Finset.mem_insert.mp hd with rfl | hd
          · exact not_not.mp (not_or.mp h).2
          · exact sort.closed node d hd
        · exact sort.closed n d hd })

/-- The nodes that depend on nothing any more, in order. -/
def ready (remaining : Dict String (Finset String)) : List String :=
  ((remaining.entries.filter fun e => e.2 = ∅).map Prod.fst).mergeSort fun a b => a ≤ b

/-- Take out a node, and strike it from what the others depend on. -/
def emit (remaining : Dict String (Finset String)) (n : String) : Dict String (Finset String) :=
  (remaining.erase n).mapValues fun _ d => d.erase n

theorem mem_ready_iff {remaining : Dict String (Finset String)} {n : String} :
    n ∈ ready remaining ↔ remaining.get? n = some ∅ := by
  rw [ready, List.mem_mergeSort, List.mem_map]
  constructor
  · rintro ⟨⟨k, d⟩, hmem, rfl⟩
    obtain ⟨hentry, hd⟩ := List.mem_filter.mp hmem
    rw [← of_decide_eq_true hd]
    exact remaining.mem_entries_iff.mp hentry
  · intro hn
    exact ⟨(n, ∅), List.mem_filter.mpr ⟨remaining.mem_entries_iff.mpr hn, decide_eq_true rfl⟩, rfl⟩

theorem length_emit (remaining : Dict String (Finset String)) (n : String) :
    (emit remaining n).entries.length = (remaining.erase n).entries.length :=
  List.length_map _

theorem length_foldl_emit_le (remaining : Dict String (Finset String)) (ns : List String) :
    (ns.foldl emit remaining).entries.length ≤ remaining.entries.length := by
  induction ns generalizing remaining with
  | nil => exact le_rfl
  | cons n ns ih =>
    refine (ih _).trans ?_
    rw [length_emit]
    exact List.length_filter_le _ _

/-- Each round takes out a node. -/
theorem length_foldl_emit_lt {remaining : Dict String (Finset String)}
    (h : ready remaining ≠ []) :
    ((ready remaining).foldl emit remaining).entries.length < remaining.entries.length := by
  obtain ⟨n, ns, hready⟩ := List.exists_cons_of_ne_nil h
  have hn : remaining.get? n = some ∅ := by
    rw [← mem_ready_iff, hready]
    exact List.mem_cons_self
  rw [hready, List.foldl_cons]
  refine (length_foldl_emit_le _ ns).trans_lt ?_
  rw [length_emit]
  exact Dict.length_erase_lt hn

/-- The loop of `order`. -/
def orderFrom (remaining : Dict String (Finset String)) (out : List String) :
    Except RelayError (List String) :=
  if remaining.entries = [] then .ok out
  else if _ : ready remaining = [] then
    let names := Printing.namesText (remaining.keys.mergeSort fun a b => a ≤ b)
    .error (.invalid (s!"nodes {names} form a cycle; no order can put "
      ++ "each after the others, the graph cannot be scheduled"))
  else orderFrom ((ready remaining).foldl emit remaining) (out ++ ready remaining)
termination_by remaining.entries.length
decreasing_by exact length_foldl_emit_lt (by assumption)

/-- `order`. -/
def order (sort : TopologicalSort) : Except RelayError (List String) :=
  orderFrom sort.deps []

/-- One node depends on another. -/
def Dependency (sort : TopologicalSort) (u n : String) : Prop :=
  u ∈ sort.deps.getD n ∅

/-! ## The loop -/

/-- The state of the loop once it has emitted some nodes: it holds the others, and of what they
depend on, the ones that are left. -/
structure Emitted (sort : TopologicalSort) (remaining : Dict String (Finset String))
    (out : List String) : Prop where
  get? : ∀ n, remaining.get? n =
    if n ∈ out then none else (sort.deps.get? n).map fun d => d \ out.toFinset
  nodup : out.Nodup
  mem : ∀ n ∈ out, n ∈ sort.nodes
  ordered : Ordered sort.Dependency out

variable {sort : TopologicalSort} {remaining : Dict String (Finset String)} {out : List String}

/-- A node that is left has not been emitted, and it waits for what it depends on of the others that
have not. -/
theorem Emitted.of_get? (h : Emitted sort remaining out) {n : String} {left : Finset String}
    (hn : remaining.get? n = some left) :
    n ∉ out ∧ ∃ d, sort.deps.get? n = some d ∧ d \ out.toFinset = left := by
  have hget := h.get? n
  rw [hn] at hget
  have hnot : n ∉ out := by
    intro hmem
    rw [if_pos hmem] at hget
    cases hget
  rw [if_neg hnot] at hget
  exact ⟨hnot, Option.map_eq_some_iff.mp hget.symm⟩

/-- **A node is emitted** that depends on nothing that is left. -/
theorem Emitted.emit (h : Emitted sort remaining out) {n : String}
    (hn : remaining.get? n = some ∅) : Emitted sort (emit remaining n) (out ++ [n]) := by
  obtain ⟨hnot, d, hd, hempty⟩ := h.of_get? hn
  refine ⟨fun k => ?_, ?_, ?_, ?_⟩
  · rw [TopologicalSort.emit, Dict.get?_mapValues, Dict.get?_erase, h.get? k]
    by_cases hk : k = n
    · rw [if_pos hk, if_pos (List.mem_append_right _ (List.mem_singleton.mpr hk))]
      rfl
    · rw [if_neg hk]
      by_cases hmem : k ∈ out
      · rw [if_pos hmem, if_pos (List.mem_append_left _ hmem)]
        rfl
      · rw [if_neg hmem, if_neg, Option.map_map]
        · refine congrArg (Option.map · _) (funext fun d => ?_)
          ext u
          simp only [Function.comp_apply, Finset.mem_erase, Finset.mem_sdiff, List.mem_toFinset,
            List.mem_append, List.mem_singleton, not_or]
          tauto
        · rw [List.mem_append, List.mem_singleton]
          exact not_or.mpr ⟨hmem, hk⟩
  · exact List.nodup_append.mpr ⟨h.nodup, List.nodup_singleton n, fun k hk k' hk' heq =>
      hnot ((List.mem_singleton.mp hk') ▸ heq ▸ hk)⟩
  · refine forall_mem_append_singleton.mpr ⟨h.mem, ?_⟩
    exact (sort.mem_nodes_iff n).mpr (sort.deps.mem_keys_iff.mpr ⟨d, hd⟩)
  · refine justified_append_singleton.mpr ⟨h.ordered, fun u hu => ?_⟩
    rw [Dependency, Dict.getD, hd] at hu
    exact List.mem_toFinset.mp (Finset.sdiff_eq_empty_iff_subset.mp hempty hu)

/-- **A round.** -/
theorem Emitted.foldl_emit (h : Emitted sort remaining out) {ns : List String} (hns : ns.Nodup)
    (hready : ∀ n ∈ ns, remaining.get? n = some ∅) :
    Emitted sort (ns.foldl TopologicalSort.emit remaining) (out ++ ns) := by
  induction ns generalizing remaining out with
  | nil => exact (List.append_nil out).symm ▸ h
  | cons n ns ih =>
    obtain ⟨hn, hrest⟩ := List.forall_mem_cons.mp hready
    obtain ⟨hnot, hnodup⟩ := List.nodup_cons.mp hns
    rw [List.append_cons]
    refine ih (h.emit hn) hnodup fun k hk => ?_
    have hne : k ≠ n := fun heq => hnot (heq ▸ hk)
    rw [TopologicalSort.emit, Dict.get?_mapValues, Dict.get?_erase, if_neg hne, hrest k hk]
    rfl

theorem nodup_ready (remaining : Dict String (Finset String)) : (ready remaining).Nodup := by
  rw [ready, (List.mergeSort_perm _ _).nodup_iff]
  exact remaining.nodup.sublist (List.filter_sublist.map Prod.fst)

/-- In a graph without a cycle, a node is ready as long as any is left. -/
theorem Emitted.ready_ne_nil (h : Emitted sort remaining out) (hacyclic : Acyclic sort.Dependency)
    (hne : remaining.entries ≠ []) : ready remaining ≠ [] := by
  obtain ⟨⟨n, d⟩, es, hes⟩ := List.exists_cons_of_ne_nil hne
  have hn : n ∈ remaining.keys.toFinset := by
    rw [List.mem_toFinset, Dict.keys, hes]
    exact List.mem_cons_self
  obtain ⟨v, hv, hsource⟩ := hacyclic.exists_source ⟨n, hn⟩
  obtain ⟨left, hleft⟩ := remaining.mem_keys_iff.mp (List.mem_toFinset.mp hv)
  obtain ⟨hnot, d, hd, rfl⟩ := h.of_get? hleft
  have hempty : d \ out.toFinset = ∅ := by
    -- what is left of it would be a node that is left
    refine Finset.eq_empty_of_forall_notMem fun u hu => ?_
    obtain ⟨hu, hout⟩ := Finset.mem_sdiff.mp hu
    have hdep : sort.Dependency u v := by
      rw [Dependency, Dict.getD, hd]
      exact hu
    obtain ⟨du, hdu⟩ := sort.deps.mem_keys_iff.mp ((sort.mem_nodes_iff u).mp (sort.closed v u hdep))
    have hleft' : remaining.get? u = some (du \ out.toFinset) := by
      rw [h.get?, if_neg fun hmem => hout (List.mem_toFinset.mpr hmem), hdu]
      rfl
    exact hsource u (List.mem_toFinset.mpr (remaining.mem_keys_iff.mpr ⟨_, hleft'⟩)) hdep
  rw [hempty] at hleft
  exact List.ne_nil_of_mem (mem_ready_iff.mpr hleft)

/-- **The loop** emits all nodes, unless there is a cycle. -/
theorem Emitted.orderFrom (h : Emitted sort remaining out) :
    (∀ result, TopologicalSort.orderFrom remaining out = .ok result → Emitted sort ∅ result) ∧
      (Acyclic sort.Dependency →
        ∃ result, TopologicalSort.orderFrom remaining out = .ok result) := by
  induction remaining, out using orderFrom.induct with
  | case1 remaining out hempty =>
    rw [TopologicalSort.orderFrom, if_pos hempty]
    refine ⟨fun result hresult => ?_, fun _ => ⟨out, rfl⟩⟩
    obtain rfl := Except.ok.inj hresult
    have hnone : remaining = ∅ := Dict.eq_empty_of_forall_get? fun n => by
      rw [Dict.get?, hempty]
      rfl
    exact hnone ▸ h
  | case2 remaining out hne hready =>
    rw [TopologicalSort.orderFrom, if_neg hne, dif_pos hready]
    refine ⟨fun result hresult => ?_, fun hacyclic => ?_⟩
    · cases hresult
    · exact absurd hready (h.ready_ne_nil hacyclic hne)
  | case3 remaining out hne hready ih =>
    rw [TopologicalSort.orderFrom, if_neg hne, dif_neg hready]
    exact ih (h.foldl_emit (nodup_ready remaining) fun n hn => mem_ready_iff.mp hn)

/-- **The order** holds every node once, and all that a node depends on before it. There is one
exactly if there is no cycle. -/
theorem order_spec (sort : TopologicalSort) :
    (∀ result, sort.order = .ok result →
      result.Nodup ∧ (∀ n, n ∈ result ↔ n ∈ sort.nodes) ∧ Ordered sort.Dependency result) ∧
      (Acyclic sort.Dependency ↔ ∃ result, sort.order = .ok result) := by
  have hinit : Emitted sort sort.deps [] := by
    refine ⟨fun n => ?_, List.nodup_nil, List.forall_mem_nil _, justified_nil _⟩
    rw [if_neg List.not_mem_nil, List.toFinset_nil]
    simp only [Finset.sdiff_empty, Option.map_id']
  obtain ⟨hvalid, htotal⟩ := hinit.orderFrom
  have hspec : ∀ result, sort.order = .ok result →
      result.Nodup ∧ (∀ n, n ∈ result ↔ n ∈ sort.nodes) ∧ Ordered sort.Dependency result := by
    intro result hresult
    have hemitted := hvalid result hresult
    refine ⟨hemitted.nodup, fun n => ⟨hemitted.mem n, fun hn => ?_⟩, hemitted.ordered⟩
    obtain ⟨d, hd⟩ := sort.deps.mem_keys_iff.mp ((sort.mem_nodes_iff n).mp hn)
    by_contra hnot
    have hget := hemitted.get? n
    rw [if_neg hnot, hd] at hget
    cases hget
  refine ⟨hspec, htotal, ?_⟩
  rintro ⟨result, hresult⟩
  obtain ⟨-, hmem, hordered⟩ := hspec result hresult
  refine hordered.acyclic fun u v huv => (hmem v).mpr ?_
  rw [sort.mem_nodes_iff]
  by_contra hnot
  rw [Dependency, Dict.getD_of_not_mem_keys hnot] at huv
  exact absurd huv (Finset.notMem_empty u)

end TopologicalSort

/-! ## One graph, two detectors -/

/-- A call that builds a graph. -/
inductive GraphCall where
  | addNode (name : String)
  | connect (upstream downstream : String)
  deriving DecidableEq

/-- A graph that is given to a topology, and to a sort in which every node depends on those
upstream of it. -/
def graphBuilder : Machine (Topology × TopologicalSort) GraphCall
    (Except RelayError Unit × Except RelayError Unit) where
  step graph
    | .addNode name => ((.ok (), .ok ()), graph.1.addNode name, graph.2.addNode name)
    | .connect upstream downstream =>
      let (connected, topology) := graph.1.connect upstream downstream
      let (added, sort) := graph.2.addDependency downstream upstream
      ((connected, added), topology, sort)

/-- A graph without nodes. -/
def emptyGraph : Topology × TopologicalSort where
  fst := { mem_nodes_iff := fun _ => Iff.rfl, closed := fun _ _ h => h }
  snd := { mem_nodes_iff := fun _ => Iff.rfl, closed := fun _ _ h => h }

namespace TopologicalSort

/-- A topology and a sort agree on whether there is a cycle, the cycle is one, and the order is
valid. -/
structure Agree (topology : Topology) (sort : TopologicalSort) (nodes : List String) : Prop where
  nil_iff : ∃ found, topology.findCycle nodes = some found ∧
    (found = [] ↔ ∃ result, sort.order = .ok result)
  cycle : ∀ found, topology.findCycle nodes = some found → found ≠ [] →
    ClosedWalk topology.Edge found
  order : ∀ result, sort.order = .ok result → result.Perm nodes ∧
    ∀ before n after, result = before ++ n :: after → ∀ u ∈ sort.deps.getD n ∅, u ∈ before

/-- A topology and a sort hold the same graph. -/
structure SameGraph (graph : Topology × TopologicalSort) : Prop where
  nodes : graph.1.nodes = graph.2.nodes
  edge_iff : ∀ u v, graph.1.Edge u v ↔ graph.2.Dependency u v

theorem SameGraph.step {graph : Topology × TopologicalSort} (h : SameGraph graph)
    (call : GraphCall) : SameGraph (graphBuilder.step graph call).2 := by
  obtain ⟨topology, sort⟩ := graph
  obtain ⟨hnodes, hedge⟩ := h
  cases call with
  | addNode name =>
    refine ⟨congrArg (insert name) hnodes, fun u v => ?_⟩
    show v ∈ (topology.edges.setDefault name []).getD u [] ↔
      u ∈ (sort.deps.setDefault name ∅).getD v ∅
    rw [Dict.getD_setDefault, Dict.getD_setDefault]
    exact hedge u v
  | connect upstream downstream =>
    show SameGraph ((topology.connect upstream downstream).2,
      (sort.addDependency downstream upstream).2)
    have hnodes : topology.nodes = sort.nodes := hnodes
    rw [Topology.connect, addDependency]
    by_cases hunknown : upstream ∉ topology.nodes ∨ downstream ∉ topology.nodes
    · rw [dif_pos hunknown, dif_pos (hnodes ▸ hunknown.symm)]
      exact ⟨hnodes, hedge⟩
    · rw [dif_neg hunknown, dif_neg (hnodes ▸ fun h => hunknown h.symm)]
      refine ⟨hnodes, fun u v => ?_⟩
      show v ∈ (topology.edges.set upstream _).getD u [] ↔
        u ∈ (sort.deps.set downstream _).getD v ∅
      have hedge : v ∈ topology.edges.getD u [] ↔ u ∈ sort.deps.getD v ∅ := hedge u v
      rw [Dict.getD_set, Dict.getD_set]
      by_cases hu : u = upstream
      · by_cases hv : v = downstream
        · subst hu hv
          rw [if_pos rfl, if_pos rfl]
          simp
        · subst hu
          rw [if_pos rfl, if_neg hv, List.mem_append, List.mem_singleton, ← hedge]
          exact or_iff_left hv
      · by_cases hv : v = downstream
        · subst hv
          rw [if_neg hu, if_pos rfl, Finset.mem_insert, ← hedge]
          exact (or_iff_right hu).symm
        · rw [if_neg hu, if_neg hv]
          exact hedge

/-- **Two cycle detectors agree** on every graph, whatever the order in which the nodes are
walked. -/
theorem detectors_agree (calls : List GraphCall) {nodes : List String} (hnodup : nodes.Nodup)
    (hnodes : ∀ name, name ∈ nodes ↔ name ∈ (graphBuilder.final emptyGraph calls).1.nodes) :
    Agree (graphBuilder.final emptyGraph calls).1 (graphBuilder.final emptyGraph calls).2
      nodes := by
  have hempty : SameGraph emptyGraph :=
    ⟨rfl, fun u v => iff_of_false (fun h => List.not_mem_nil h) fun h => Finset.notMem_empty u h⟩
  have hsame : SameGraph (graphBuilder.final emptyGraph calls) :=
    Machine.always hempty (fun _ call h => h.step call) calls
  have hedge : (graphBuilder.final emptyGraph calls).1.Edge =
      (graphBuilder.final emptyGraph calls).2.Dependency := by
    funext u v
    exact propext (hsame.edge_iff u v)
  obtain ⟨found, hfound, hspec⟩ := Topology.findCycle_spec _ hnodes
  obtain ⟨hvalid, hiff⟩ := order_spec (graphBuilder.final emptyGraph calls).2
  rw [← hedge] at hiff
  refine ⟨⟨found, hfound, ?_⟩, fun found' hfound' hne => ?_, fun result hresult => ?_⟩
  · rw [← hiff]
    rcases hspec with hcycle | ⟨rfl, hacyclic⟩
    · exact iff_of_false hcycle.ne_nil hcycle.not_acyclic
    · exact iff_of_true rfl hacyclic
  · obtain rfl := Option.some.inj (hfound.symm.trans hfound')
    exact hspec.resolve_right fun hnil => hne hnil.1
  · obtain ⟨hresult_nodup, hmem, hordered⟩ := hvalid result hresult
    refine ⟨(List.perm_ext_iff_of_nodup hresult_nodup hnodup).mpr fun name => ?_, hordered⟩
    rw [hmem, hnodes, hsame.nodes]

/-- A graph with a self-loop and a node on its own. -/
theorem detectors_agree_loop :
    Agree (graphBuilder.final emptyGraph [.addNode "a", .addNode "b", .connect "a" "a"]).1
      (graphBuilder.final emptyGraph [.addNode "a", .addNode "b", .connect "a" "a"]).2
      ["b", "a"] :=
  detectors_agree [.addNode "a", .addNode "b", .connect "a" "a"] (by decide) fun name => by
    show name ∈ ["b", "a"] ↔ name ∈ insert "b" (insert "a" (∅ : Finset String))
    simp

end TopologicalSort

end Relay
