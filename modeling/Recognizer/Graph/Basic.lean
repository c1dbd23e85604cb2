import Recognizer.Ascending

/-!
# Edge graphs

A directed graph whose nodes are numbers and whose edges carry sets of
symbols.  Node 0 is where words start and node 1 is where they end.  There is
at most one edge between two nodes, and edges are kept in the order in which
they were first added.
-/

namespace Recognizer

/-- An edge with the ascending list of its symbols. -/
structure Edge where
  origin : Nat
  destination : Nat
  labels : List String
deriving DecidableEq

/-- The nodes that an edge joins. -/
def Edge.ends (edge : Edge) : Nat × Nat :=
  (edge.origin, edge.destination)

/-- Whether an edge leads from one given node to another. -/
def Edge.joins (edge : Edge) (origin destination : Nat) : Bool :=
  edge.origin == origin && edge.destination == destination

/-- A labelled directed graph, its edges in the order of their discovery. -/
structure EdgeGraph where
  edges : List Edge
deriving DecidableEq

namespace EdgeGraph

/-- The node at which every word starts. -/
def start : Nat := 0

/-- The node at which every word ends. -/
def sink : Nat := 1

/-- The graph without edges. -/
def empty : EdgeGraph := ⟨[]⟩

/-- Adds a symbol to the edge between two nodes, which is created behind all
others if there is none. -/
def addLabel (origin destination : Nat) (symbol : String) :
    List Edge → List Edge
  | [] => [⟨origin, destination, [symbol]⟩]
  | edge :: later =>
      if edge.joins origin destination then
        { edge with labels := Ascending.insert symbol edge.labels } :: later
      else
        edge :: addLabel origin destination symbol later

/-- Adds a symbol between two nodes. -/
def add (graph : EdgeGraph) (origin destination : Nat) (symbol : String) :
    EdgeGraph :=
  ⟨addLabel origin destination symbol graph.edges⟩

/-- The edge between two nodes. -/
def edge? (graph : EdgeGraph) (origin destination : Nat) : Option Edge :=
  graph.edges.find? (·.joins origin destination)

/-- The largest of 2 and of the numbers that follow the larger end of an edge. -/
def countBy (next : Nat → Nat) (graph : EdgeGraph) : Nat :=
  graph.edges.foldr
    (fun edge count => max count (next (max edge.origin edge.destination))) 2

/-- One more than the largest node, where the start and the sink always
count. -/
def nodeCount (graph : EdgeGraph) : Nat :=
  graph.countBy (· + 1)

/-- All symbols on the edges, ascending. -/
def alphabet (graph : EdgeGraph) : List String :=
  graph.edges.foldr (fun edge symbols => Ascending.union edge.labels symbols) []

end EdgeGraph

end Recognizer
