import Recognizer.Graph.Potency

/-!
# Indexed graphs

A graph is stored with a table that gives, for two nodes, the position of the edge
between them, and with the number of its nodes.  A symbol is added in three steps:
its nodes are counted, their edge is looked up, where one that is missing is
appended without labels and put into the table, and the labels at the position
that was found are extended.

The positions in the table are followed without a check, so every stored graph
carries with it that there is an edge at each of them.

Nodes and their number are stored in 64 bits.  The number behind the last one that
fits is 0, so a graph with that node is stored with too small a number of nodes,
and the tables for its ranking have no room for it.  Tables for more nodes than
`tableCapacity` cannot be made at all.
-/

namespace Recognizer

/-- The number that follows another one in 64 bits. -/
def storedSucc (number : Nat) : Nat :=
  (number + 1) % Nat.pow 2 64

/-- A table takes less than `2 ^ 63` bytes, and the list of the successors of a
node takes 24 of them. -/
def tableCapacity : Nat :=
  (Nat.pow 2 63 - 1) / 24

namespace Edge

/-- An edge as it is created. -/
def bare (origin destination : Nat) : Edge := ⟨origin, destination, []⟩

def addLabel (symbol : String) (edge : Edge) : Edge :=
  { edge with labels := Ascending.insert symbol edge.labels }

end Edge

/-- Positions in a list of edges, by the nodes that the edges join. -/
abbrev EdgeTable := List ((Nat × Nat) × Nat)

/-- Every position in the table is one of a list with that many edges. -/
def EdgeTable.Within (table : EdgeTable) (edgeCount : Nat) : Prop :=
  ∀ entry ∈ table, entry.2 < edgeCount

namespace EdgeTable

theorem Within.lt_of_lookup {table : EdgeTable} {edgeCount position : Nat}
    (within : table.Within edgeCount) {ends : Nat × Nat}
    (found : table.lookup ends = some position) : position < edgeCount := by
  obtain ⟨before, after, split, _⟩ := List.lookup_eq_some_iff.mp found
  exact within (ends, position) (by simp [split])

theorem Within.append {table : EdgeTable} {edgeCount : Nat}
    (within : table.Within edgeCount) (ends : Nat × Nat) :
    EdgeTable.Within (table ++ [(ends, edgeCount)]) (edgeCount + 1) := by
  intro entry member
  rcases List.mem_append.mp member with old | new
  · exact Nat.lt_succ_of_lt (within entry old)
  · rw [List.mem_singleton.mp new]
    exact Nat.lt_succ_self edgeCount

theorem within_zipIdx (ends : List (Nat × Nat)) :
    EdgeTable.Within ends.zipIdx ends.length := by
  intro entry member
  simpa using List.snd_lt_of_mem_zipIdx member

end EdgeTable

/-- A graph as it is stored. -/
@[ext]
structure IndexedGraph where
  edges : List Edge
  table : EdgeTable
  nodeCount : Nat
  within : table.Within edges.length
deriving DecidableEq

namespace IndexedGraph

/-- Only the start and the sink are there. -/
def empty : IndexedGraph where
  edges := []
  table := []
  nodeCount := 2
  within := fun _ member => absurd member List.not_mem_nil

variable (graph : IndexedGraph)

/-- Where the edge between two nodes stands. -/
def position? (origin destination : Nat) : Option (Fin graph.edges.length) :=
  (graph.table.lookup (origin, destination)).pmap Fin.mk
    fun _ found => graph.within.lt_of_lookup found

/-- The edge between two nodes. -/
def edge? (origin destination : Nat) : Option Edge :=
  (graph.position? origin destination).map fun position =>
    graph.edges[position]

/-- Counts two nodes and all below them. -/
def countNodes (origin destination : Nat) : IndexedGraph :=
  { graph with
    nodeCount := max graph.nodeCount (storedSucc (max origin destination)) }

/-- Appends an edge between two nodes and puts it into the table. -/
def append (origin destination : Nat) : IndexedGraph where
  edges := graph.edges ++ [Edge.bare origin destination]
  table := graph.table ++ [((origin, destination), graph.edges.length)]
  nodeCount := graph.nodeCount
  within := by
    rw [List.length_append, List.length_singleton]
    exact graph.within.append (origin, destination)

theorem length_lt_append (origin destination : Nat) :
    graph.edges.length < (graph.append origin destination).edges.length := by
  rw [append, List.length_append, List.length_singleton]
  exact Nat.lt_succ_self _

/-- Finds the edge between two nodes, which is appended if there is none. -/
def locate (origin destination : Nat) :
    (located : IndexedGraph) × Fin located.edges.length :=
  match graph.position? origin destination with
  | some position => ⟨graph, position⟩
  | none =>
      ⟨graph.append origin destination, graph.edges.length,
        graph.length_lt_append origin destination⟩

/-- Adds a symbol to the edge at a position. -/
def labelAt (position : Fin graph.edges.length) (symbol : String) :
    IndexedGraph :=
  { graph with
    edges := graph.edges.modify position (Edge.addLabel symbol)
    within := by
      rw [List.length_modify]
      exact graph.within }

/-- Adds a symbol between two nodes. -/
def add (origin destination : Nat) (symbol : String) : IndexedGraph :=
  let place := (graph.countNodes origin destination).locate origin destination
  place.1.labelAt place.2 symbol

/-- The edges alone, from which the table and the number of nodes follow. -/
def withoutTable : EdgeGraph := ⟨graph.edges⟩

def alphabet : List String := graph.withoutTable.alphabet

/-- The edges by decreasing potency, in tables with room for as many nodes as are
stored.  Nothing when the tables cannot be made or have too little room. -/
def rank? : Option (List RankedEdge) :=
  if graph.nodeCount ≤ tableCapacity then
    graph.withoutTable.rankWithin? graph.nodeCount
  else none

end IndexedGraph

/-- The graph with its table and the number of its nodes. -/
def EdgeGraph.indexed (graph : EdgeGraph) : IndexedGraph where
  edges := graph.edges
  table := (graph.edges.map Edge.ends).zipIdx
  nodeCount := graph.countBy storedSucc
  within := by
    simpa using EdgeTable.within_zipIdx (graph.edges.map Edge.ends)

end Recognizer
