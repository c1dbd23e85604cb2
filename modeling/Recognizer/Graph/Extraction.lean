import Recognizer.Graph.Basic
import Recognizer.Trie

/-!
# The edge graph of a trie

Every trie node with children becomes a node of the graph: the root is the
start, the others are numbered from 2 in depth first order, a node before its
children.  A trie node at which a word ends gives an edge into the sink, so
all word ends fall together.
-/

namespace Recognizer

/-- A trie node that is still to be visited, with the graph node of its
parent and the symbol between them. -/
structure PendingNode where
  origin : Nat
  symbol : String
  node : TrieNode

namespace Trie

/-- The children of a path as nodes to be visited. -/
def pendingChildren (trie : Trie) (origin : Nat) (path : Word) :
    List PendingNode :=
  trie.nodes.filterMap fun node =>
    (path.extension? node.path).map fun symbol => ⟨origin, symbol, node⟩

/-- Visits the pending nodes depth first.  A node gives first its edge into
the sink and then, if it has children, an edge to the next unused number, after
which its children come before everything else that is pending. -/
def extractFrom (trie : Trie) :
    Nat → List PendingNode → Nat → EdgeGraph → EdgeGraph
  | 0, _, _, graph => graph
  | _ + 1, [], _, graph => graph
  | fuel + 1, pending :: later, unused, graph =>
      let path := pending.node.path
      let ended :=
        if pending.node.isWordEnd then
          graph.add pending.origin EdgeGraph.sink pending.symbol
        else graph
      if trie.hasChildren path then
        extractFrom trie fuel (trie.pendingChildren unused path ++ later)
          (unused + 1) (ended.add pending.origin unused pending.symbol)
      else
        extractFrom trie fuel later unused ended

/-- The edge graph of a trie.  Every node is visited once, which bounds the
search. -/
def edgeGraph (trie : Trie) : EdgeGraph :=
  trie.extractFrom trie.nodes.length
    (trie.pendingChildren EdgeGraph.start root) 2 EdgeGraph.empty

end Trie

end Recognizer
