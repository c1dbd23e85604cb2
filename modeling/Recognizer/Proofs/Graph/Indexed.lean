import Mathlib.Data.Nat.Basic
import Recognizer.Graph.Indexed
import Recognizer.Proofs.Graph.Counting

/-!
# Indexed graphs that were built

The edges, the table and the number of nodes of a stored graph change one after the
other.  When a symbol was added they fit together again: the table gives the edges
the positions at which they stand, and as many nodes are counted as the edges call
for.  So the graph is `EdgeGraph.indexed` of its edges, and what is found through
the table is what would be found by going through the edges.

The number of nodes is stored in 64 bits and is right unless the last number that
they hold is a node.
-/

namespace Recognizer

theorem lookup_zipIdx {α : Type} [BEq α] [LawfulBEq α] (values : List α)
    (value : α) (first : Nat) :
    (values.zipIdx first).lookup value =
      (values.idxOf? value).map (· + first) := by
  induction values generalizing first with
  | nil => rfl
  | cons head tail ih =>
      rw [List.zipIdx_cons, List.lookup_cons, List.idxOf?_cons, ih]
      by_cases same : value = head
      · simp [same]
      · have different : (value == head) = false := beq_false_of_ne same
        have reverse : (head == value) = false :=
          beq_false_of_ne (Ne.symm same)
        simp [different, reverse, Function.comp_def, Nat.add_assoc,
          Nat.add_comm 1]

/-- A symbol goes to the first edge between its nodes, and makes a new edge if
there is none. -/
theorem EdgeGraph.addLabel_eq (origin destination : Nat) (symbol : String)
    (edges : List Edge) :
    addLabel origin destination symbol edges =
      match (edges.map Edge.ends).idxOf? (origin, destination) with
      | some position => edges.modify position (Edge.addLabel symbol)
      | none => edges ++ [⟨origin, destination, [symbol]⟩] := by
  induction edges with
  | nil => rfl
  | cons edge later ih =>
      rw [List.map_cons, List.idxOf?_cons, addLabel]
      by_cases joins : edge.joins origin destination = true
      · have first : (edge.ends == (origin, destination)) = true :=
          beq_iff_eq.mpr (joins_iff_ends.mp joins)
        simp [joins, first, Edge.addLabel]
      · have different : (edge.ends == (origin, destination)) = false :=
          beq_false_of_ne fun same => joins (joins_iff_ends.mpr same)
        simp only [joins, different, Bool.false_eq_true, if_false, ih]
        cases (later.map Edge.ends).idxOf? (origin, destination) with
        | none => rfl
        | some position => rfl

/-! ## Numbers in 64 bits -/

theorem storedSucc_of_lt {number : Nat} (notLast : number < 2 ^ 64 - 1) :
    storedSucc number = number + 1 := by
  have fits : number + 1 < 2 ^ 64 := by omega
  exact Nat.mod_eq_of_lt fits

theorem EdgeGraph.nodeCount_indexed {graph : EdgeGraph}
    (below : graph.Below (2 ^ 64 - 1)) :
    graph.indexed.nodeCount = graph.nodeCount :=
  countBy_congr (fun _ => storedSucc_of_lt) below

namespace IndexedGraph

/-! ## Adding a symbol -/

section Adding

variable (graph : IndexedGraph) {origin destination : Nat}

theorem locate_of_found {position : Fin graph.edges.length}
    (found : graph.position? origin destination = some position) :
    graph.locate origin destination = ⟨graph, position⟩ := by
  rw [locate, found]

theorem locate_of_missing
    (missing : graph.position? origin destination = none) :
    graph.locate origin destination =
      ⟨graph.append origin destination, graph.edges.length,
        graph.length_lt_append origin destination⟩ := by
  rw [locate, missing]

theorem edges_labelAt_append (symbol : String) :
    ((graph.append origin destination).labelAt
        ⟨graph.edges.length, graph.length_lt_append origin destination⟩
        symbol).edges =
      graph.edges ++ [⟨origin, destination, [symbol]⟩] := by
  simp [labelAt, append, List.modify_eq_take_cons_drop, Edge.bare,
    Edge.addLabel, Ascending.insert]

theorem add_of_found {position : Fin graph.edges.length}
    (found : graph.position? origin destination = some position)
    (symbol : String) :
    graph.add origin destination symbol =
      (graph.countNodes origin destination).labelAt position symbol := by
  -- Counting the nodes changes no position, so it may come first.
  have located :=
    (graph.countNodes origin destination).locate_of_found found
  rw [add, located]

theorem add_of_missing
    (missing : graph.position? origin destination = none) (symbol : String) :
    graph.add origin destination symbol =
      ((graph.countNodes origin destination).append origin destination).labelAt
        ⟨(graph.countNodes origin destination).edges.length,
          length_lt_append _ origin destination⟩ symbol := by
  have located :=
    (graph.countNodes origin destination).locate_of_missing missing
  rw [add, located]

end Adding

/-! ## The table of a list of edges -/

section Indexed

variable (graph : EdgeGraph) (origin destination : Nat)

theorem map_position?_indexed :
    (graph.indexed.position? origin destination).map Fin.val =
      (graph.edges.map Edge.ends).idxOf? (origin, destination) := by
  calc
    (graph.indexed.position? origin destination).map Fin.val =
        (graph.edges.map Edge.ends).zipIdx.lookup (origin, destination) := by
      rw [position?, Option.map_pmap, Option.pmap_eq_map, Option.map_id']
      rfl
    _ = ((graph.edges.map Edge.ends).idxOf? (origin, destination)).map
        (· + 0) :=
      lookup_zipIdx _ _ 0
    _ = (graph.edges.map Edge.ends).idxOf? (origin, destination) :=
      Option.map_id'

theorem edge?_indexed :
    graph.indexed.edge? origin destination =
      graph.edge? origin destination := by
  have known := map_position?_indexed graph origin destination
  cases found : graph.indexed.position? origin destination with
  | some position =>
      rw [found, Option.map_some] at known
      obtain ⟨_, stands, earlier⟩ := List.idxOf?_eq_some_iff.mp known.symm
      rw [List.getElem_map] at stands
      have first : graph.edge? origin destination =
          some graph.indexed.edges[position] := by
        rw [EdgeGraph.edge?, List.find?_eq_some_iff_getElem]
        refine ⟨EdgeGraph.joins_iff_ends.mpr stands, position, position.isLt,
          rfl, ?_⟩
        intro before isBefore
        have different := earlier before isBefore
        rw [List.getElem_map, ← EdgeGraph.joins_iff_ends] at different
        simpa using different
      rw [edge?, found, first]
      rfl
  | none =>
      rw [found, Option.map_none] at known
      have absent := List.idxOf?_eq_none_iff.mp known.symm
      rw [edge?, found, EdgeGraph.edge?_eq_none_iff.mpr absent]
      rfl

/-- When a symbol was added, the table and the number of nodes are again those of
the edges. -/
theorem indexed_add (symbol : String) :
    graph.indexed.add origin destination symbol =
      (graph.add origin destination symbol).indexed := by
  have known := map_position?_indexed graph origin destination
  have edges := EdgeGraph.addLabel_eq origin destination symbol graph.edges
  have ends := EdgeGraph.ends_addLabel origin destination symbol graph.edges
  have count :=
    (graph.countBy_add storedSucc origin destination symbol).symm
  cases found : graph.indexed.position? origin destination with
  | some position =>
      rw [found, Option.map_some] at known
      have joined : (origin, destination) ∈ graph.edges.map Edge.ends := by
        rw [← List.isSome_idxOf?, ← known]
        rfl
      rw [← known] at edges
      rw [if_pos joined] at ends
      rw [add_of_found _ found]
      apply IndexedGraph.ext
      · exact edges.symm
      · exact congrArg List.zipIdx ends.symm
      · exact count
  | none =>
      rw [found, Option.map_none] at known
      have absent := List.idxOf?_eq_none_iff.mp known.symm
      rw [← known] at edges
      rw [if_neg absent] at ends
      have entered :
          (graph.edges.map Edge.ends ++ [(origin, destination)]).zipIdx =
            graph.indexed.table ++
              [((origin, destination), graph.edges.length)] := by
        simp [List.zipIdx_append, EdgeGraph.indexed]
      rw [add_of_missing _ found]
      apply IndexedGraph.ext
      · exact (edges_labelAt_append _ symbol).trans edges.symm
      · exact entered.symm.trans (congrArg List.zipIdx ends.symm)
      · exact count

end Indexed

/-! ## Graphs built by adding symbols -/

/-- The graph that is built by adding symbols in order. -/
def ofLinks (links : List Link) : IndexedGraph :=
  links.foldl
    (fun graph link => graph.add link.origin link.destination link.symbol)
    empty

/-- However new and known edges alternate, the table and the number of nodes are
those of the edges in the end. -/
theorem ofLinks_eq (links : List Link) :
    ofLinks links = (EdgeGraph.ofLinks links).indexed := by
  have nothing : empty = EdgeGraph.empty.indexed := rfl
  rw [ofLinks, nothing]
  exact List.foldl_hom EdgeGraph.indexed fun graph link =>
    indexed_add graph link.origin link.destination link.symbol

theorem withoutTable_ofLinks (links : List Link) :
    (ofLinks links).withoutTable = EdgeGraph.ofLinks links := by
  rw [ofLinks_eq]
  rfl

/-- A graph shows the symbols that were added to it. -/
structure Shows (graph : IndexedGraph) (links : List Link) : Prop where
  /-- The edges come in the order of the first symbols between their nodes. -/
  joined : graph.edges.map Edge.ends = (links.map Link.ends).eraseDups
  joined_once : (graph.edges.map Edge.ends).Nodup
  labels_ascending : ∀ edge ∈ graph.edges, StrictlyAscending edge.labels
  mem_labels : ∀ edge ∈ graph.edges, ∀ symbol, symbol ∈ edge.labels ↔
    ⟨edge.origin, edge.destination, symbol⟩ ∈ links
  found : ∀ origin destination edge,
    graph.edge? origin destination = some edge ↔
      edge ∈ graph.edges ∧ edge.ends = (origin, destination)
  missing : ∀ origin destination,
    graph.edge? origin destination = none ↔
      ∀ link ∈ links, link.ends ≠ (origin, destination)
  alphabet_ascending : StrictlyAscending graph.alphabet
  mem_alphabet : ∀ symbol, symbol ∈ graph.alphabet ↔
    ∃ link ∈ links, link.symbol = symbol
  /-- The start and the sink count, and with a node all that are below it. -/
  nodeCount_greatest : (∀ link ∈ links, link.Below (2 ^ 64 - 1)) →
    IsGreatest
      {count | count = 2 ∨ ∃ link ∈ links,
        count = link.origin + 1 ∨ count = link.destination + 1}
      graph.nodeCount

/-- Whatever symbols are added, in whatever order and however often, there is one
edge for every two nodes between which a symbol was added, with exactly these
symbols, and the table and the number of nodes are those of the edges. -/
theorem shows_ofLinks (links : List Link) :
    ofLinks links = (EdgeGraph.ofLinks links).indexed ∧
      (ofLinks links).Shows links := by
  have distinct := EdgeGraph.endsDistinct_ofLinks links
  refine ⟨ofLinks_eq links, ?_⟩
  rw [ofLinks_eq]
  constructor
  case joined => exact EdgeGraph.ends_ofLinks links
  case joined_once => exact distinct
  case labels_ascending => exact EdgeGraph.labelsAscending_ofLinks links
  case mem_labels =>
    intro edge member symbol
    rw [← distinct.carries_iff member, EdgeGraph.carries_ofLinks]
  case found =>
    intro origin destination edge
    rw [edge?_indexed]
    exact distinct.edge?_eq_some_iff
  case missing =>
    intro origin destination
    rw [edge?_indexed, EdgeGraph.edge?_eq_none_iff, EdgeGraph.ends_ofLinks,
      List.mem_eraseDups, List.mem_map, not_exists]
    simp only [not_and, ne_eq]
  case alphabet_ascending => exact EdgeGraph.alphabet_ascending _
  case mem_alphabet => exact fun _ => EdgeGraph.mem_alphabet_ofLinks
  case nodeCount_greatest =>
    intro below
    rw [EdgeGraph.nodeCount_indexed (EdgeGraph.below_ofLinks.mpr below)]
    exact EdgeGraph.isGreatest_nodeCount links

/-- The number behind the last node is stored as 0, so this node is not counted. -/
theorem lastNode_uncounted :
    (ofLinks [⟨2 ^ 64 - 1, 1, "a"⟩]).nodeCount = 2 ∧
      ¬ IsGreatest
        {count | count = 2 ∨ ∃ link ∈ [(⟨2 ^ 64 - 1, 1, "a"⟩ : Link)],
          count = link.origin + 1 ∨ count = link.destination + 1}
        (ofLinks [⟨2 ^ 64 - 1, 1, "a"⟩]).nodeCount := by
  have stored : (ofLinks [⟨2 ^ 64 - 1, 1, "a"⟩]).nodeCount = 2 := by decide
  refine ⟨stored, fun greatest => ?_⟩
  have counted : 2 ^ 64 ≤ 2 :=
    stored ▸ greatest.2 (Or.inr ⟨_, List.mem_singleton_self _, Or.inl rfl⟩)
  exact absurd counted (by decide)

/-- Both edges get a symbol that they have, and one of them another one before. -/
example :
    let graph := ofLinks [⟨3, 1, "b"⟩, ⟨0, 3, "a"⟩, ⟨3, 1, "a"⟩, ⟨3, 1, "b"⟩,
      ⟨0, 3, "a"⟩]
    graph.edges = [⟨3, 1, ["a", "b"]⟩, ⟨0, 3, ["a"]⟩] ∧
      graph.edge? 0 3 = some ⟨0, 3, ["a"]⟩ ∧ graph.edge? 3 0 = none ∧
      graph.nodeCount = 4 := by
  decide +kernel

end IndexedGraph

end Recognizer
