import Relay.Errors
import Relay.Lib.Dict
import Relay.Lib.Digraph

/-!
# Processing topologies

A topology is a graph of named nodes, and it must not have a cycle, or records would go around it
forever. A depth-first walk looks for one. It colors a node gray while the node is on its path, and
black once everything the node leads to has been walked. An edge to a gray node closes a cycle, and
the part of the path from that node on is reported.

The black nodes, in the order they were left, are a list in which the successors of a node come
before it (`Visited`). So if the walk gets to the end, the graph has no cycle.

The nodes are a set, and the order that a loop over it takes is a parameter. The depth that the
interpreter gives a recursion is not modelled.

## Main definitions

* `Topology`, with `addNode`, `connect`, `findCycle` and `validate`
* `Topology.Edge`: the edges of a topology

## Main results

* `Topology.findCycle_spec`: what is found is a cycle, and nothing is found only if there is none
* `Topology.validate_spec`: valid topologies have no cycle
-/

namespace Relay

open Relay.Digraph

/-- A graph of named nodes, and the successors of each. -/
structure Topology where
  edges : Dict String (List String) := ∅
  nodes : Finset String := ∅
  mem_nodes_iff : ∀ name, name ∈ nodes ↔ name ∈ edges.keys
  closed : ∀ u v, v ∈ edges.getD u [] → v ∈ nodes

/-- How far the walk has got with a node. -/
inductive NodeColor where
  | white
  | gray
  | black
  deriving DecidableEq

/-- The colors, and the path from the node the walk began with. -/
structure NodeWalk where
  color : Dict String NodeColor
  path : List String

namespace Topology

/-- `add_node`. -/
def addNode (topology : Topology) (name : String) : Topology where
  nodes := insert name topology.nodes
  edges := topology.edges.setDefault name []
  mem_nodes_iff k := by
    rw [Finset.mem_insert, Dict.mem_keys_setDefault, topology.mem_nodes_iff]
  closed u v h := by
    rw [Dict.getD_setDefault] at h
    exact Finset.mem_insert_of_mem (topology.closed u v h)

/-- `connect`. -/
def connect (topology : Topology) (upstream downstream : String) :
    Except RelayError Unit × Topology :=
  if h : upstream ∉ topology.nodes ∨ downstream ∉ topology.nodes then
    (.error (.invalid "an edge references a node never added; a typo in the wiring"), topology)
  else
    (.ok (), { topology with
      edges := topology.edges.set upstream (topology.edges.getD upstream [] ++ [downstream])
      mem_nodes_iff := fun name => by
        rw [Dict.mem_keys_set, ← topology.mem_nodes_iff, or_iff_right_of_imp]
        rintro rfl
        exact not_not.mp (not_or.mp h).1
      closed := fun u v hv => by
        rw [Dict.getD_set] at hv
        split at hv
        · rcases List.mem_append.mp hv with hv | hv
          · exact topology.closed upstream v hv
          · rw [List.mem_singleton.mp hv]
            exact not_not.mp (not_or.mp h).2
        · exact topology.closed u v hv })

/-- The loop of `walk` over the successors of a node. There is no result if a color is missing, or
if a walk does not give one. -/
def visit (walk : String → NodeWalk → Option (List String × NodeWalk)) :
    List String → NodeWalk → Option (List String × NodeWalk)
  | [], w => some ([], w)
  | next :: rest, w =>
    match w.color.get? next with
    | none => none
    | some .gray => some (w.path.drop (w.path.idxOf next) ++ [next], w)
    | some .white =>
      match walk next w with
      | none => none
      | some (found, w) => if found ≠ [] then some (found, w) else visit walk rest w
    | some .black => visit walk rest w

/-- `walk`, to some depth. -/
def walk (edges : Dict String (List String)) :
    ℕ → String → NodeWalk → Option (List String × NodeWalk)
  | 0, _, _ => none
  | depth + 1, node, w =>
    match visit (walk edges depth) (edges.getD node [])
        { color := w.color.set node .gray, path := w.path ++ [node] } with
    | none => none
    | some (found, w) =>
      if found ≠ [] then some (found, w)
      else some ([], { color := w.color.set node .black, path := w.path.dropLast })

/-- The loop of `find_cycle` over the nodes. -/
def findCycleFrom (walk : String → NodeWalk → Option (List String × NodeWalk)) :
    List String → NodeWalk → Option (List String)
  | [], _ => some []
  | node :: rest, w =>
    match w.color.get? node with
    | none => none
    | some .white =>
      match walk node w with
      | none => none
      | some (found, w) => if found ≠ [] then some found else findCycleFrom walk rest w
    | some _ => findCycleFrom walk rest w

/-- `find_cycle`, where `order` is the order that a loop over the nodes takes. -/
def findCycle (topology : Topology) (order : List String) : Option (List String) :=
  findCycleFrom (walk topology.edges topology.nodes.card) order
    { color := Dict.ofList (order.map fun name => (name, .white)), path := [] }

/-- `validate`. -/
def validate (topology : Topology) (order : List String) : Option (Except RelayError String) :=
  (topology.findCycle order).map fun cycle =>
    if cycle ≠ [] then
      .error (.invalid ("the topology has a cycle " ++ " -> ".intercalate cycle
        ++ "; records would loop forever, a runaway"))
    else .ok "topology is a valid DAG"

/-- The edges of a topology. -/
def Edge (topology : Topology) (u v : String) : Prop :=
  v ∈ topology.edges.getD u []

/-- A node that has a successor is one of the topology. -/
theorem mem_nodes_of_edge (topology : Topology) {u v : String} (h : topology.Edge u v) :
    u ∈ topology.nodes := by
  rw [topology.mem_nodes_iff]
  by_contra hnot
  rw [Edge, Dict.getD_of_not_mem_keys hnot] at h
  exact absurd h List.not_mem_nil

/-! ## What a walk has seen -/

/-- The state of a walk that has left the nodes of a list, in this order. The path is a chain of
edges, and whatever a node leads to was left before it. -/
structure Visited (topology : Topology) (w : NodeWalk) (done : List String) : Prop where
  colored : ∀ name ∈ topology.nodes, ∃ color, w.color.get? name = some color
  gray : ∀ name, w.color.get? name = some .gray ↔ name ∈ w.path
  black : ∀ name, w.color.get? name = some .black ↔ name ∈ done
  chain : w.path.IsChain topology.Edge
  ordered : Ordered (Function.swap topology.Edge) done

/-- The nodes that are still white. -/
def whites (topology : Topology) (w : NodeWalk) : Finset String :=
  topology.nodes.filter fun name => w.color.get? name = some .white

/-- What a walk comes to: a cycle, or a state in which some nodes have been left. -/
inductive Outcome (topology : Topology) (w : NodeWalk) (done nodes : List String) :
    Option (List String × NodeWalk) → Prop where
  | cycle {found : List String} {next : NodeWalk} (hcycle : ClosedWalk topology.Edge found) :
      Outcome topology w done nodes (some (found, next))
  | left {next : NodeWalk} {done' : List String} (hvisited : Visited topology next done')
      (hpath : next.path = w.path) (hdone : done ⊆ done') (hnodes : nodes ⊆ done')
      (hwhites : topology.whites next ⊆ topology.whites w) :
      Outcome topology w done nodes (some ([], next))

variable {topology : Topology} {w : NodeWalk} {done : List String}

theorem whites_set_subset (node : String) {color : NodeColor} (hcolor : color ≠ .white)
    (path : List String) :
    topology.whites { color := w.color.set node color, path := path } ⊆ topology.whites w := by
  intro name hname
  rw [whites, Finset.mem_filter, Dict.get?_set] at hname
  obtain ⟨hmem, hwhite⟩ := hname
  split at hwhite
  · exact absurd (Option.some.inj hwhite) hcolor
  · exact Finset.mem_filter.mpr ⟨hmem, hwhite⟩

theorem card_whites_set_lt {node : String} (hmem : node ∈ topology.nodes)
    (hwhite : w.color.get? node = some .white) (color : NodeColor) (hcolor : color ≠ .white)
    (path : List String) :
    (topology.whites { color := w.color.set node color, path := path }).card <
      (topology.whites w).card := by
  refine Finset.card_lt_card ⟨whites_set_subset node hcolor path, fun hsubset => ?_⟩
  have hnode := (Finset.mem_filter.mp (hsubset (Finset.mem_filter.mpr ⟨hmem, hwhite⟩))).2
  rw [Dict.get?_set_self] at hnode
  exact hcolor (Option.some.inj hnode)

/-- A white node is entered from the last node of the path. -/
theorem Visited.enter (h : Visited topology w done) {node : String}
    (hwhite : w.color.get? node = some .white)
    (hedge : ∀ last ∈ w.path.getLast?, topology.Edge last node) :
    Visited topology { color := w.color.set node .gray, path := w.path ++ [node] } done := by
  refine ⟨fun name hname => ?_, fun name => ?_, fun name => ?_, ?_, h.ordered⟩
  · rw [Dict.get?_set]
    split
    · exact ⟨_, rfl⟩
    · exact h.colored name hname
  · rw [Dict.get?_set, List.mem_append, List.mem_singleton, ← h.gray]
    split
    · next hname => exact iff_of_true rfl (.inr hname)
    · next hname => exact (or_iff_left hname).symm
  · rw [Dict.get?_set, ← h.black]
    split
    · next hname =>
      rw [hname, hwhite]
      exact iff_of_false (fun heq => by cases heq) fun heq => by cases heq
    · exact Iff.rfl
  · refine h.chain.append (List.isChain_singleton node) fun last hlast first hfirst => ?_
    obtain rfl := Option.mem_some_iff.mp hfirst
    exact hedge last hlast

/-- A node is left once everything it leads to has been left. -/
theorem Visited.leave (h : Visited topology w done) {node : String} {path : List String}
    (hpath : w.path = path ++ [node]) (hnode : node ∉ path)
    (hsucc : ∀ v, topology.Edge node v → v ∈ done) :
    Visited topology { color := w.color.set node .black, path := w.path.dropLast }
      (done ++ [node]) := by
  have hdrop : w.path.dropLast = path := by rw [hpath, List.dropLast_concat]
  rw [hdrop]
  refine ⟨fun name hname => ?_, fun name => ?_, fun name => ?_, ?_, ?_⟩
  · rw [Dict.get?_set]
    split
    · exact ⟨_, rfl⟩
    · exact h.colored name hname
  · rw [Dict.get?_set]
    split
    · next hname =>
      rw [hname]
      exact iff_of_false (fun heq => by cases heq) hnode
    · next hname =>
      rw [h.gray, hpath, List.mem_append, List.mem_singleton]
      exact or_iff_left hname
  · rw [Dict.get?_set, List.mem_append, List.mem_singleton, ← h.black]
    split
    · next hname => exact iff_of_true rfl (.inr hname)
    · next hname => exact (or_iff_left hname).symm
  · have hchain := h.chain
    rw [hpath] at hchain
    exact hchain.left_of_append
  · exact justified_append_singleton.mpr ⟨h.ordered, fun v hv => hsucc v hv⟩

/-- The part of the path from a gray node on, closed by an edge to that node, is a cycle. -/
theorem Visited.closedWalk (h : Visited topology w done) {node next : String}
    (hgray : w.color.get? next = some .gray) (hlast : w.path.getLast? = some node)
    (hedge : topology.Edge node next) :
    ClosedWalk topology.Edge (w.path.drop (w.path.idxOf next) ++ [next]) := by
  have hlt := List.idxOf_lt_length_of_mem ((h.gray next).mp hgray)
  have hget : w.path[w.path.idxOf next] = next := List.getElem_idxOf hlt
  have hdrop : w.path.drop (w.path.idxOf next) =
      next :: w.path.drop (w.path.idxOf next + 1) := by
    rw [List.drop_eq_getElem_cons hlt, hget]
  refine ⟨?_, ?_, ?_⟩
  · refine (h.chain.drop _).append (List.isChain_singleton next) fun last hl first hfirst => ?_
    obtain rfl := Option.mem_some_iff.mp hfirst
    rw [List.getLast?_drop, if_neg (not_le.mpr hlt), hlast] at hl
    obtain rfl := Option.mem_some_iff.mp hl
    exact hedge
  · rw [List.getLast?_concat, hdrop]
    rfl
  · rw [hdrop, List.length_append, List.length_cons, List.length_singleton]
    omega

/-! ## The walk -/

/-- What is asked of the walks from single nodes: with as much depth as there are white nodes, a
cycle is found or the node is left. -/
def Walks (topology : Topology) (depth : ℕ)
    (walk : String → NodeWalk → Option (List String × NodeWalk)) : Prop :=
  ∀ w done node, Visited topology w done → node ∈ topology.nodes →
    w.color.get? node = some .white → (∀ last ∈ w.path.getLast?, topology.Edge last node) →
    (topology.whites w).card ≤ depth → Outcome topology w done [node] (walk node w)

/-- **The loop over the successors** of the last node of the path. -/
theorem Walks.visit {depth : ℕ} {walk : String → NodeWalk → Option (List String × NodeWalk)}
    (hwalk : Walks topology depth walk) {node : String} {nodes : List String}
    (h : Visited topology w done) (hlast : w.path.getLast? = some node)
    (hedge : ∀ v ∈ nodes, topology.Edge node v) (hcard : (topology.whites w).card ≤ depth) :
    Outcome topology w done nodes (Topology.visit walk nodes w) := by
  induction nodes generalizing w done with
  | nil => exact .left h rfl (List.Subset.refl _) (List.nil_subset _) (Finset.Subset.refl _)
  | cons next rest ih =>
    obtain ⟨hnext, hrest⟩ := List.forall_mem_cons.mp hedge
    have hmem : next ∈ topology.nodes := topology.closed node next hnext
    obtain ⟨color, hcolor⟩ := h.colored next hmem
    rw [Topology.visit, hcolor]
    cases color with
    | gray => exact .cycle (h.closedWalk hcolor hlast hnext)
    | white =>
      have hfrom : ∀ last ∈ w.path.getLast?, topology.Edge last next := by
        intro last hl
        rw [hlast] at hl
        obtain rfl := Option.mem_some_iff.mp hl
        exact hnext
      have houtcome := hwalk w done next h hmem hcolor hfrom hcard
      generalize walk next w = result at houtcome
      cases houtcome with
      | cycle hcycle =>
        show Outcome topology w done (next :: rest) (if _ then _ else _)
        rw [if_pos hcycle.ne_nil]
        exact .cycle hcycle
      | @left w' done' hvisited hpath hdone hnodes hwhites =>
        show Outcome topology w done (next :: rest) (if _ then _ else _)
        rw [if_neg (not_not.mpr rfl)]
        have houtcome := ih hvisited (hpath ▸ hlast) hrest
          ((Finset.card_le_card hwhites).trans hcard)
        generalize Topology.visit walk rest w' = result at houtcome
        cases houtcome with
        | cycle hcycle => exact .cycle hcycle
        | left hvisited' hpath' hdone' hnodes' hwhites' =>
          refine .left hvisited' (hpath'.trans hpath) (List.Subset.trans hdone hdone') ?_
            (hwhites'.trans hwhites)
          exact List.cons_subset.mpr ⟨hdone' (hnodes (List.mem_singleton_self next)), hnodes'⟩
    | black =>
      have houtcome := ih h hlast hrest hcard
      show Outcome topology w done (next :: rest) (Topology.visit walk rest w)
      generalize Topology.visit walk rest w = result at houtcome
      cases houtcome with
      | cycle hcycle => exact .cycle hcycle
      | left hvisited hpath hdone hnodes hwhites =>
        refine .left hvisited hpath hdone ?_ hwhites
        exact List.cons_subset.mpr ⟨hdone ((h.black next).mp hcolor), hnodes⟩

/-- **The walk** from a node finds a cycle or leaves the node, by induction on the depth. -/
theorem walks (topology : Topology) (depth : ℕ) :
    Walks topology depth (walk topology.edges depth) := by
  induction depth with
  | zero =>
    intro w done node _ hmem hwhite _ hcard
    have hnone := Finset.card_eq_zero.mp (Nat.le_zero.mp hcard)
    exact absurd (Finset.mem_filter.mpr ⟨hmem, hwhite⟩) (hnone ▸ Finset.notMem_empty node)
  | succ depth ih =>
    intro w done node h hmem hwhite hfrom hcard
    have hnot : node ∉ w.path := by
      rw [← h.gray, hwhite]
      exact fun heq => by cases heq
    have hlt := card_whites_set_lt hmem hwhite .gray (fun heq => by cases heq)
      (w.path ++ [node])
    have hedge : ∀ v ∈ topology.edges.getD node [], topology.Edge node v := fun v hv => hv
    have houtcome := ih.visit (h.enter hwhite hfrom) List.getLast?_concat hedge (by omega)
    rw [walk]
    generalize Topology.visit (walk topology.edges depth) (topology.edges.getD node [])
      { color := w.color.set node .gray, path := w.path ++ [node] } = result at houtcome
    cases houtcome with
    | cycle hcycle =>
      show Outcome topology w done [node] (if _ then _ else _)
      rw [if_pos hcycle.ne_nil]
      exact .cycle hcycle
    | @left w' done' hvisited hpath hdone hnodes hwhites =>
      show Outcome topology w done [node] (if _ then _ else _)
      rw [if_neg (not_not.mpr rfl)]
      refine .left (hvisited.leave hpath hnot fun v hv => hnodes hv) ?_ ?_ ?_ ?_
      · rw [hpath]
        exact List.dropLast_concat
      · exact List.subset_append_of_subset_left _ hdone
      · exact List.subset_append_right _ _
      · refine (whites_set_subset node (fun heq => by cases heq) _).trans (hwhites.trans ?_)
        exact whites_set_subset node (fun heq => by cases heq) _

/-- **The loop over the nodes** finds a cycle or leaves all of them. -/
theorem Walks.findCycleFrom {depth : ℕ}
    {walk : String → NodeWalk → Option (List String × NodeWalk)}
    (hwalk : Walks topology depth walk) {order : List String}
    (h : Visited topology w done) (hpath : w.path = [])
    (hmem : ∀ name ∈ order, name ∈ topology.nodes) (hcard : (topology.whites w).card ≤ depth) :
    ∃ found, Topology.findCycleFrom walk order w = some found ∧
      (ClosedWalk topology.Edge found ∨ found = [] ∧
        ∃ left, Ordered (Function.swap topology.Edge) left ∧ done ⊆ left ∧ order ⊆ left) := by
  induction order generalizing w done with
  | nil => exact ⟨[], rfl, .inr ⟨rfl, done, h.ordered, List.Subset.refl _, List.nil_subset _⟩⟩
  | cons node rest ih =>
    obtain ⟨hnode, hrest⟩ := List.forall_mem_cons.mp hmem
    obtain ⟨color, hcolor⟩ := h.colored node hnode
    rw [Topology.findCycleFrom, hcolor]
    cases color with
    | gray =>
      have hgray := (h.gray node).mp hcolor
      rw [hpath] at hgray
      exact absurd hgray List.not_mem_nil
    | white =>
      have hfrom : ∀ last ∈ w.path.getLast?, topology.Edge last node := by
        rw [hpath]
        exact fun _ hlast => by cases hlast
      have houtcome := hwalk w done node h hnode hcolor hfrom hcard
      generalize walk node w = result at houtcome
      cases houtcome with
      | @cycle found _ hcycle => exact ⟨found, if_pos hcycle.ne_nil, .inl hcycle⟩
      | @left w' done' hvisited hpath' hdone hnodes hwhites =>
        obtain ⟨found, hfound, hspec⟩ := ih hvisited (hpath'.trans hpath) hrest
          ((Finset.card_le_card hwhites).trans hcard)
        refine ⟨found, (if_neg (not_not.mpr rfl)).trans hfound, hspec.imp_right ?_⟩
        rintro ⟨hnil, left, hordered, hleft, horder⟩
        refine ⟨hnil, left, hordered, List.Subset.trans hdone hleft, ?_⟩
        exact List.cons_subset.mpr ⟨hleft (hnodes (List.mem_singleton_self node)), horder⟩
    | black =>
      obtain ⟨found, hfound, hspec⟩ := ih h hpath hrest hcard
      refine ⟨found, hfound, hspec.imp_right ?_⟩
      rintro ⟨hnil, left, hordered, hleft, horder⟩
      refine ⟨hnil, left, hordered, hleft, ?_⟩
      exact List.cons_subset.mpr ⟨hleft ((h.black node).mp hcolor), horder⟩

/-- **The cycle that is found.** There is a result, whatever the order of the loop over the nodes.
It is a cycle, or it is empty and there is no cycle. -/
theorem findCycle_spec (topology : Topology) {order : List String}
    (horder : ∀ name, name ∈ order ↔ name ∈ topology.nodes) :
    ∃ found, topology.findCycle order = some found ∧
      (ClosedWalk topology.Edge found ∨ found = [] ∧ Acyclic topology.Edge) := by
  have hcolor (name : String) :
      (Dict.ofList (order.map fun name => (name, NodeColor.white))).get? name =
        if name ∈ order then some .white else none :=
    Dict.get?_assign_map Dict.empty order NodeColor.white name
  have hvisited : Visited topology
      { color := Dict.ofList (order.map fun name => (name, .white)), path := [] } [] := by
    refine ⟨fun name hname => ?_, fun name => ?_, fun name => ?_, List.isChain_nil,
      justified_nil _⟩
    · exact ⟨.white, (hcolor name).trans (if_pos ((horder name).mpr hname))⟩
    · rw [hcolor]
      refine iff_of_false (fun heq => ?_) List.not_mem_nil
      split at heq <;> cases heq
    · rw [hcolor]
      refine iff_of_false (fun heq => ?_) List.not_mem_nil
      split at heq <;> cases heq
  obtain ⟨found, hfound, hspec⟩ := (walks topology topology.nodes.card).findCycleFrom hvisited rfl
    (fun name hname => (horder name).mp hname) (Finset.card_filter_le _ _)
  refine ⟨found, hfound, hspec.imp_right ?_⟩
  rintro ⟨hnil, left, hordered, -, hleft⟩
  refine ⟨hnil, hordered.acyclic_of_swap fun u v huv => ?_⟩
  exact hleft ((horder u).mpr (topology.mem_nodes_of_edge huv))

/-- **A topology is valid** exactly if it has no cycle. -/
theorem validate_spec (topology : Topology) {order : List String}
    (horder : ∀ name, name ∈ order ↔ name ∈ topology.nodes) :
    ∃ answer, topology.validate order = some answer ∧
      ((∃ report, answer = .ok report) ↔ Acyclic topology.Edge) := by
  obtain ⟨found, hfound, hspec⟩ := topology.findCycle_spec horder
  refine ⟨_, by rw [validate, hfound]; rfl, ?_⟩
  rcases hspec with hcycle | ⟨rfl, hacyclic⟩
  · refine iff_of_false ?_ hcycle.not_acyclic
    rintro ⟨report, heq⟩
    cases (if_pos hcycle.ne_nil).symm.trans heq
  · exact iff_of_true ⟨_, rfl⟩ hacyclic

end Topology

end Relay
