import Recognizer.Automaton.Draft
import Recognizer.Graph.Basic

/-!
# The automaton of an edge graph

Every node that is the start, the sink or the origin of an edge becomes a
state, labelled by its number, and every symbol of an edge becomes a
transition.  The automaton accepts the words along the paths from the start to
the sink.
-/

namespace Recognizer

namespace EdgeGraph

def nodeLabel (node : Nat) : String :=
  toString node

/-- What one edge declares. -/
def edgeDeclarations (edge : Edge) : List Declaration :=
  .states [nodeLabel edge.origin]
    :: edge.labels.map fun symbol =>
        .destination (nodeLabel edge.origin) symbol
          (nodeLabel edge.destination)

/-- The nondeterministic automaton of the graph.  It fails when an edge leads
to a node that is no state. -/
def exactAutomaton (graph : EdgeGraph) : Except DraftFault Automaton :=
  (Draft.ofDeclarations <|
    .states [nodeLabel start, nodeLabel sink]
      :: .alphabet graph.alphabet
      :: .initial (nodeLabel start)
      :: .finals [nodeLabel sink]
      :: graph.edges.flatMap edgeDeclarations).build .nondeterministic

end EdgeGraph

end Recognizer
