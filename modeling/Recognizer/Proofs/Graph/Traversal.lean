import Recognizer.Graph.Extraction
import Recognizer.Proofs.Graph.Preorder

/-!
# The graph of a stored trie

The traversal of a stored trie draws the same graph as the search through the trie
that is stored, namely the one that is drawn by recursion.  Its nodes are the start,
the sink and one for each other trie node with children, numbered without gaps.
-/

namespace Recognizer

namespace Trie

/-- Children as nodes to be visited. -/
def pendingOf (trie : Trie) (origin : Nat) (children : List TrieChild) :
    List PendingNode :=
  children.filterMap fun child =>
    trie.nodes[child.position]?.map fun node => ⟨origin, child.symbol, node⟩

theorem pendingChildren_eq (trie : Trie) (origin : Nat) (path : Word) :
    trie.pendingChildren origin path =
      trie.pendingOf origin (trie.children path) := by
  rw [pendingOf, children, List.filterMap_filterMap]
  calc
    trie.pendingChildren origin path =
        trie.nodes.zipIdx.filterMap fun entry =>
          (path.extension? entry.1.path).map fun symbol =>
            ⟨origin, symbol, entry.1⟩ := by
      rw [pendingChildren]
      conv_lhs => rw [← List.zipIdx_map_fst 0 trie.nodes]
      rw [List.filterMap_map]
      rfl
    _ = _ := by
      apply List.filterMap_congr
      rintro ⟨node, position⟩ member
      have found := List.mk_mem_zipIdx_iff_getElem?.mp member
      cases extended : path.extension? node.path with
      | none => simp [extended]
      | some symbol => simp [extended, found]

end Trie

namespace LinkedTrie.Stores

variable {linked : LinkedTrie} {trie : Trie}

/-- The search through a trie visits the nodes below several children before
everything else that is pending. -/
theorem extractFrom_eq (stores : linked.Stores trie)
    (children : List TrieChild)
    (inRange : ∀ child ∈ children, child.position < linked.nodes.length)
    (fuel origin unused : Nat) (pending : List PendingNode)
    (graph : EdgeGraph) :
    trie.extractFrom (fuel + (linked.preorder children).length)
        (trie.pendingOf origin children ++ pending) unused graph =
      trie.extractFrom fuel pending
        (linked.depthFirst origin unused children).unused
        (graph.extend (linked.depthFirst origin unused children).links) := by
  -- One visit uses up one unit of fuel; what is below the child is visited with
  -- its later siblings still pending.
  induction children using preorder.induct linked
    generalizing fuel origin unused pending graph with
  | case1 =>
      rw [preorder_nil, depthFirst_nil]
      rfl
  | case2 child later ihBelow ihLater =>
      obtain ⟨childInRange, laterInRange⟩ := List.forall_mem_cons.mp inRange
      rw [stores.length_nodes] at childInRange
      have found := List.getElem?_eq_getElem childInRange
      generalize trie.nodes[child.position] = node at found
      have stands : trie.paths[child.position]? = some node.path := by
        rw [Trie.paths, List.getElem?_map, found, Option.map_some]
      have below := stores.children stands
      have ended : graph.extend (linked.endLinks origin child) =
          if node.isWordEnd then
            graph.add origin EdgeGraph.sink child.symbol
          else graph := by
        rw [extend_endLinks, drawEnd, stores.isWordEnd found]
      have first : trie.pendingOf origin (child :: later) =
          ⟨origin, child.symbol, node⟩ :: trie.pendingOf origin later := by
        simp [Trie.pendingOf, found]
      cases inner : linked.hasChildren child.position with
      | true =>
          have opens := inner
          rw [stores.hasChildren stands] at opens
          have enough : fuel + (linked.preorder (child :: later)).length =
              fuel + (linked.preorder later).length
                + (linked.preorder (linked.children child.position)).length
                + 1 := by
            simp only [preorder_cons, List.length_cons, List.length_append]
            omega
          rw [depthFirst_inner inner rfl rfl, first, enough, List.cons_append,
            Trie.extractFrom]
          simp only [opens, if_true, EdgeGraph.extend_append, ended,
            Trie.pendingChildren_eq, ← below]
          rw [ihBelow (fun _ member => (lt_of_mem_children member).2),
            ihLater laterInRange]
          rfl
      | false =>
          have leaf := inner
          rw [stores.hasChildren stands] at leaf
          have nothing := children_eq_nil_of_leaf inner
          have enough : fuel + (linked.preorder (child :: later)).length =
              fuel + (linked.preorder later).length + 1 := by
            rw [preorder_cons, nothing, preorder_nil, List.length_cons,
              List.nil_append]
            rfl
          rw [depthFirst_leaf inner, first, enough, List.cons_append,
            Trie.extractFrom]
          simp only [leaf, Bool.false_eq_true, if_false,
            EdgeGraph.extend_append, ended]
          rw [ihLater laterInRange]

/-- The traversal draws the graph of the trie that is stored. -/
theorem edgeGraph_eq (stores : linked.Stores trie) :
    trie.edgeGraph = linked.edgeGraph := by
  have visited : (linked.preorder (linked.children root)).length + 1 =
      trie.nodes.length := by
    rw [stores.preorder_perm.length_eq, List.length_range',
      ← stores.length_nodes]
    exact Nat.sub_add_cancel (List.length_pos_iff.mpr linked.nonempty)
  have searched := stores.extractFrom_eq (linked.children root)
    (fun _ member => (lt_of_mem_children member).2) 1 EdgeGraph.start 2 []
    EdgeGraph.empty
  have below : linked.children root = trie.children Trie.root :=
    stores.children stores.first
  have pending : trie.pendingOf EdgeGraph.start (linked.children root) =
      trie.pendingChildren EdgeGraph.start Trie.root := by
    rw [below, Trie.pendingChildren_eq]
  rw [List.append_nil, pending, Nat.add_comm, visited] at searched
  rw [Trie.edgeGraph, searched, LinkedTrie.edgeGraph_eq]
  rfl

end LinkedTrie.Stores

namespace LinkedTrie

/-- How many nodes other than the root have children. -/
def innerCount (trie : LinkedTrie) : Nat :=
  trie.nodes.tail.countP fun node => !node.children.isEmpty

/-- What is drawn of the whole trie. -/
def drawing (trie : LinkedTrie) : Drawing :=
  trie.depthFirst EdgeGraph.start 2 (trie.children root)

theorem Stores.innerBelow_root {linked : LinkedTrie} {trie : Trie}
    (stores : linked.Stores trie) :
    linked.innerBelow (linked.children root) = linked.innerCount := by
  have others : (List.range' 1 (linked.nodes.length - 1)).map
      linked.hasChildren =
        linked.nodes.tail.map fun node => !node.children.isEmpty := by
    apply List.ext_getElem
    · simp
    · intro position inRange _
      rw [List.length_map, List.length_range'] at inRange
      have stored := List.getElem?_eq_getElem
        (by omega : position + 1 < linked.nodes.length)
      simp [hasChildren_eq stored, Nat.add_comm]
  rw [innerBelow, stores.preorder_perm.countP_eq, innerCount,
    ← Function.id_comp linked.hasChildren, ← List.countP_map, others,
    List.countP_map, Function.id_comp]

/-- Going through the trie of a list of words ends, with the edges that are drawn by
recursion.  The nodes with children other than the root are numbered from 2 on in
the order in which they are entered, and there are no other nodes than these, the
start and the sink. -/
theorem extraction_ofWords (words : List Word) :
    let trie := ofWords words
    (∃ last : Traversal,
        Relation.ReflTransGen
            (fun before after => before.step trie = some after)
            Traversal.start last ∧
          last.frames = [] ∧ last.graph = trie.edgeGraph) ∧
      trie.edgeGraph.edges = Edge.grouped trie.drawing.links ∧
      (trie.edgeGraph.edges.map Edge.destination).filter
          (· ≠ EdgeGraph.sink) = List.range' 2 trie.innerCount ∧
      trie.edgeGraph.edges.map Edge.origin ⊆
        EdgeGraph.start :: List.range' 2 trie.innerCount ∧
      trie.edgeGraph.nodeCount = 2 + trie.innerCount ∧
      (Trie.ofWords words).edgeGraph = trie.edgeGraph := by
  intro trie
  have stores : trie.Stores (Trie.ofWords words) := stores_ofWords words
  have behind : EdgeGraph.sink < 2 := by decide
  have opened : Link.openedBy trie.drawing.links =
      List.range' 2 trie.innerCount := by
    rw [← stores.innerBelow_root]
    exact (trie.depthFirst_opens _ _ _ behind).1
  have origins := trie.depthFirst_origins EdgeGraph.start 2
    (trie.children root) behind
  rw [stores.innerBelow_root] at origins
  have graph : trie.edgeGraph = EdgeGraph.ofLinks trie.drawing.links :=
    trie.edgeGraph_eq
  refine ⟨Traversal.exists_finished trie Traversal.start, ?_, ?_, ?_, ?_,
    stores.edgeGraph_eq⟩
  · rw [graph, EdgeGraph.edges_ofLinks]
  · rw [graph, EdgeGraph.filter_destinations_ofLinks, opened]
    rw [opened]
    exact List.nodup_range'
  · rw [graph]
    exact List.Subset.trans (EdgeGraph.origins_ofLinks_subset _) origins
  · rw [graph]
    exact EdgeGraph.nodeCount_ofLinks opened origins

/-- All that is below `a` is numbered before its sibling `b`. -/
example :
    (ofWords [["a", "b", "c"], ["a", "d", "e"], ["b", "f"]]).edgeGraph.edges.map
        Edge.ends =
      [(0, 2), (2, 3), (3, 1), (2, 4), (4, 1), (0, 5), (5, 1)] := by
  cbv

end LinkedTrie

end Recognizer
