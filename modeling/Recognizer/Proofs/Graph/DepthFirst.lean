import Mathlib.Logic.Relation
import Recognizer.Graph.Traversal
import Recognizer.Proofs.Graph.Grouping
import Recognizer.Proofs.Trie.Linked

/-!
# Depth first extraction

What the traversal of a stored trie draws is said by recursion: for each child the
link into the sink, if a word ends there, and then, if it has children, a link to
the next unused number with all that is drawn below the child.

The stack of a traversal stands for what is still to be drawn (`outcome`), and no
step changes what is drawn in the end.
-/

namespace Recognizer

/-- What is drawn, in order, and the next unused number. -/
structure Drawing where
  links : List Link
  unused : Nat
deriving DecidableEq

namespace EdgeGraph

/-- Adds symbols in order. -/
def extend (graph : EdgeGraph) (links : List Link) : EdgeGraph :=
  links.foldl
    (fun graph link => graph.add link.origin link.destination link.symbol)
    graph

theorem extend_append (graph : EdgeGraph) (first second : List Link) :
    graph.extend (first ++ second) = (graph.extend first).extend second :=
  List.foldl_append

end EdgeGraph

namespace LinkedTrie

variable (trie : LinkedTrie)

/-- The link into the sink, if a word ends at the child. -/
def endLinks (origin : Nat) (child : TrieChild) : List Link :=
  if trie.isWordEnd child.position then
    [⟨origin, EdgeGraph.sink, child.symbol⟩]
  else []

/-- The recursive extraction of the children of a node with a number. -/
def depthFirst (origin unused : Nat) : List TrieChild → Drawing
  | [] => ⟨[], unused⟩
  | child :: later =>
      if _inner : trie.hasChildren child.position then
        let below :=
          depthFirst unused (unused + 1) (trie.children child.position)
        let rest := depthFirst origin below.unused later
        ⟨trie.endLinks origin child
            ++ ⟨origin, unused, child.symbol⟩ :: below.links ++ rest.links,
          rest.unused⟩
      else
        let rest := depthFirst origin unused later
        ⟨trie.endLinks origin child ++ rest.links, rest.unused⟩
termination_by children => trie.totalWeight children
decreasing_by
  · have lighter := totalWeight_children_lt _inner
    rw [totalWeight]
    omega
  · have positive := trie.weight_pos child.position
    rw [totalWeight]
    omega
  · have positive := trie.weight_pos child.position
    rw [totalWeight]
    omega

variable {trie} {origin unused : Nat} {child : TrieChild}
  {later : List TrieChild}

theorem depthFirst_nil : trie.depthFirst origin unused [] = ⟨[], unused⟩ := by
  rw [depthFirst]

theorem depthFirst_inner {below rest : Drawing}
    (inner : trie.hasChildren child.position = true)
    (drawsBelow : trie.depthFirst unused (unused + 1)
      (trie.children child.position) = below)
    (drawsRest : trie.depthFirst origin below.unused later = rest) :
    trie.depthFirst origin unused (child :: later) =
      ⟨trie.endLinks origin child
          ++ ⟨origin, unused, child.symbol⟩ :: below.links ++ rest.links,
        rest.unused⟩ := by
  subst drawsBelow drawsRest
  rw [depthFirst, dif_pos inner]

theorem depthFirst_leaf (leaf : trie.hasChildren child.position = false) :
    trie.depthFirst origin unused (child :: later) =
      ⟨trie.endLinks origin child
          ++ (trie.depthFirst origin unused later).links,
        (trie.depthFirst origin unused later).unused⟩ := by
  rw [depthFirst, dif_neg (Bool.eq_false_iff.mp leaf)]

theorem extend_endLinks (graph : EdgeGraph) :
    graph.extend (trie.endLinks origin child) =
      trie.drawEnd graph origin child := by
  unfold endLinks drawEnd
  split
  · rfl
  · rfl

end LinkedTrie

/-! ## What a traversal draws -/

namespace Traversal

variable {trie : LinkedTrie} {traversal moved : Traversal}

/-- What is still to be drawn with nodes on the way. -/
def outcome (trie : LinkedTrie) : List TraversalFrame → Nat → Drawing
  | [], unused => ⟨[], unused⟩
  | frame :: earlier, unused =>
      let here := trie.depthFirst frame.number unused
        ((trie.children frame.position).drop frame.visited)
      let rest := outcome trie earlier here.unused
      ⟨here.links ++ rest.links, rest.unused⟩

/-- What is drawn in the end. -/
def completed (trie : LinkedTrie) (traversal : Traversal) : EdgeGraph :=
  traversal.graph.extend (outcome trie traversal.frames traversal.unused).links

theorem completed_of_moves (moves : Moves trie traversal moved) :
    moved.completed trie = traversal.completed trie := by
  cases moves with
  | leave exhausted =>
      have nothing := List.drop_eq_nil_of_le
        (List.getElem?_eq_none_iff.mp exhausted)
      simp only [completed, outcome, nothing, LinkedTrie.depthFirst_nil,
        List.nil_append]
  | pass next leaf =>
      obtain ⟨inRange, isNext⟩ := List.getElem?_eq_some_iff.mp next
      simp only [completed, outcome, List.drop_eq_getElem_cons inRange, isNext,
        LinkedTrie.depthFirst_leaf leaf, EdgeGraph.extend_append,
        LinkedTrie.extend_endLinks]
  | enter next inner =>
      obtain ⟨inRange, isNext⟩ := List.getElem?_eq_some_iff.mp next
      simp only [completed, outcome, List.drop_eq_getElem_cons inRange, isNext,
        List.drop_zero, LinkedTrie.depthFirst_inner inner rfl rfl,
        EdgeGraph.extend_append, LinkedTrie.extend_endLinks]
      rfl

/-- A traversal draws what its nodes on the way stand for. -/
theorem run_eq_completed (traversal : Traversal) :
    traversal.run trie = traversal.completed trie := by
  fun_induction run trie traversal with
  | case1 traversal finished =>
      obtain ⟨frames, unused, graph⟩ := traversal
      cases step_eq_none_iff.mp finished
      rfl
  | case2 traversal moved stepped ih =>
      rw [ih, completed_of_moves (moves_of_step stepped)]

theorem exists_finished (trie : LinkedTrie) (traversal : Traversal) :
    ∃ last : Traversal,
      Relation.ReflTransGen
          (fun before after => before.step trie = some after)
          traversal last ∧
        last.frames = [] ∧ last.graph = traversal.run trie := by
  fun_induction run trie traversal with
  | case1 traversal finished =>
      exact ⟨traversal, .refl, step_eq_none_iff.mp finished, rfl⟩
  | case2 traversal moved stepped ih =>
      obtain ⟨last, steps, finished, drawn⟩ := ih
      exact ⟨last, .head stepped steps, finished, drawn⟩

end Traversal

theorem LinkedTrie.edgeGraph_eq (trie : LinkedTrie) :
    trie.edgeGraph = EdgeGraph.ofLinks
      (trie.depthFirst EdgeGraph.start 2
        (trie.children LinkedTrie.root)).links := by
  rw [edgeGraph, Traversal.run_eq_completed, Traversal.completed,
    Traversal.start, Traversal.outcome, Traversal.outcome, List.append_nil]
  rfl

end Recognizer
