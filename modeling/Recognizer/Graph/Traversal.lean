import Recognizer.Graph.Basic
import Recognizer.Trie.Linked

/-!
# Going through a stored trie

The edge graph of a stored trie is drawn depth first, with the way from the root
on a stack and on every node of it a count of the children that were visited.  A
child at which a word ends gives an edge into the sink, and a child with children
of its own an edge to the next unused number.

Links lead forward, so what hangs on a node weighs less than the node itself
(`LinkedTrie.weight`), and every step leaves less to be visited.
-/

namespace Recognizer

/-- A trie node on the way: its position, its number in the graph, and how many
of its children were visited. -/
structure TraversalFrame where
  position : Nat
  number : Nat
  visited : Nat
deriving DecidableEq

/-- A graph being drawn: the way from the root with its last node first, the next
unused number, and what was drawn. -/
structure Traversal where
  frames : List TraversalFrame
  unused : Nat
  graph : EdgeGraph
deriving DecidableEq

namespace LinkedTrie

/-- Draws the edge into the sink, if a word ends at the child. -/
def drawEnd (trie : LinkedTrie) (graph : EdgeGraph) (origin : Nat)
    (child : TrieChild) : EdgeGraph :=
  if trie.isWordEnd child.position then
    graph.add origin EdgeGraph.sink child.symbol
  else graph

end LinkedTrie

namespace Traversal

/-- Nothing is drawn, and the root is the start. -/
def start : Traversal :=
  ⟨[⟨LinkedTrie.root, EdgeGraph.start, 0⟩], 2, EdgeGraph.empty⟩

/-- Visits the next child of the last node, which is entered if it has children.
A node without further children is left.  The end is reached where no node is on
the way. -/
def step (trie : LinkedTrie) (traversal : Traversal) : Option Traversal :=
  match traversal.frames with
  | [] => none
  | frame :: earlier =>
      match (trie.children frame.position)[frame.visited]? with
      | none => some { traversal with frames := earlier }
      | some child =>
          let advanced := { frame with visited := frame.visited + 1 } :: earlier
          let ended := trie.drawEnd traversal.graph frame.number child
          if trie.hasChildren child.position then
            some
              { frames := ⟨child.position, traversal.unused, 0⟩ :: advanced
                unused := traversal.unused + 1
                graph := ended.add frame.number traversal.unused child.symbol }
          else
            some { traversal with frames := advanced, graph := ended }

/-- The steps, each with what allows it. -/
inductive Moves (trie : LinkedTrie) : Traversal → Traversal → Prop where
  | leave {frame : TraversalFrame} {earlier : List TraversalFrame}
      {unused : Nat} {graph : EdgeGraph} :
      (trie.children frame.position)[frame.visited]? = none →
      Moves trie ⟨frame :: earlier, unused, graph⟩ ⟨earlier, unused, graph⟩
  | pass {position number visited unused : Nat} {child : TrieChild}
      {earlier : List TraversalFrame} {graph : EdgeGraph} :
      (trie.children position)[visited]? = some child →
      trie.hasChildren child.position = false →
      Moves trie ⟨⟨position, number, visited⟩ :: earlier, unused, graph⟩
        ⟨⟨position, number, visited + 1⟩ :: earlier, unused,
          trie.drawEnd graph number child⟩
  | enter {position number visited unused : Nat} {child : TrieChild}
      {earlier : List TraversalFrame} {graph : EdgeGraph} :
      (trie.children position)[visited]? = some child →
      trie.hasChildren child.position = true →
      Moves trie ⟨⟨position, number, visited⟩ :: earlier, unused, graph⟩
        ⟨⟨child.position, unused, 0⟩ :: ⟨position, number, visited + 1⟩
            :: earlier, unused + 1,
          (trie.drawEnd graph number child).add number unused child.symbol⟩

theorem moves_of_step {trie : LinkedTrie} {traversal moved : Traversal}
    (stepped : traversal.step trie = some moved) :
    Moves trie traversal moved := by
  obtain ⟨frames, unused, graph⟩ := traversal
  cases frames with
  | nil => cases stepped
  | cons frame earlier =>
      simp only [step] at stepped
      split at stepped
      · rename_i exhausted
        cases stepped
        exact .leave exhausted
      · rename_i child next
        split at stepped
        · rename_i inner
          cases stepped
          exact .enter next inner
        · rename_i leaf
          cases stepped
          exact .pass next (Bool.eq_false_iff.mpr leaf)

theorem step_eq_none_iff {trie : LinkedTrie} {traversal : Traversal} :
    traversal.step trie = none ↔ traversal.frames = [] := by
  obtain ⟨frames, unused, graph⟩ := traversal
  cases frames with
  | nil => simp [step]
  | cons frame earlier =>
      simp only [step, reduceCtorEq, iff_false]
      split
      · simp
      · split
        · simp
        · simp

end Traversal

/-! ## Every traversal ends -/

namespace LinkedTrie

variable (trie : LinkedTrie)

/-- How many links there are. -/
def linkCount : Nat :=
  (trie.nodes.flatMap LinkedNode.children).length

/-- The weight of a node with some positions from it on: more than that of all
nodes that one node can have as children further on. -/
def weightAhead : Nat → Nat
  | 0 => 1
  | ahead + 1 => (trie.linkCount + 2) * weightAhead ahead

def weight (position : Nat) : Nat :=
  trie.weightAhead (trie.nodes.length - position)

def totalWeight : List TrieChild → Nat
  | [] => 0
  | child :: later => trie.weight child.position + totalWeight later

theorem weightAhead_pos (ahead : Nat) : 0 < trie.weightAhead ahead := by
  induction ahead with
  | zero => exact Nat.one_pos
  | succ ahead ih => exact Nat.mul_pos (Nat.succ_pos _) ih

theorem weight_pos (position : Nat) : 0 < trie.weight position :=
  trie.weightAhead_pos _

theorem weightAhead_le {ahead more : Nat} (atMost : ahead ≤ more) :
    trie.weightAhead ahead ≤ trie.weightAhead more := by
  induction atMost with
  | refl => exact Nat.le_refl _
  | step _ ih =>
      exact Nat.le_trans ih (Nat.le_mul_of_pos_left _ (Nat.succ_pos _))

variable {trie}

theorem totalWeight_le {bound : Nat} {children : List TrieChild}
    (light : ∀ child ∈ children, trie.weight child.position ≤ bound) :
    trie.totalWeight children ≤ children.length * bound := by
  induction children with
  | nil => exact Nat.zero_le _
  | cons child later ih =>
      have first := light child List.mem_cons_self
      have rest := ih fun other member =>
        light other (List.mem_cons_of_mem child member)
      rw [totalWeight, List.length_cons, Nat.succ_mul]
      omega

theorem length_children_le (trie : LinkedTrie) (position : Nat) :
    (trie.children position).length ≤ trie.linkCount := by
  cases stored : trie.nodes[position]? with
  | none => simp [children, stored]
  | some node =>
      have sublist := List.sublist_flatten_of_mem
        (List.mem_map_of_mem (List.mem_of_getElem? stored)
          : node.children ∈ trie.nodes.map LinkedNode.children)
      simpa [children, stored, linkCount, List.flatMap] using
        sublist.length_le

/-- What hangs on a node weighs less than the node. -/
theorem totalWeight_children_lt {position : Nat}
    (inner : trie.hasChildren position = true) :
    trie.totalWeight (trie.children position) + 1 < trie.weight position := by
  obtain ⟨child, member⟩ :=
    List.exists_mem_of_ne_nil _ (hasChildren_iff.mp inner)
  have inRange := lt_of_mem_children member
  obtain ⟨below, split⟩ : ∃ below, trie.nodes.length - position = below + 1 :=
    ⟨trie.nodes.length - position - 1, by omega⟩
  have light : ∀ child ∈ trie.children position,
      trie.weight child.position ≤ trie.weightAhead below := by
    intro child member
    have later := lt_of_mem_children member
    exact trie.weightAhead_le (by omega)
  have total := totalWeight_le light
  have few := Nat.mul_le_mul_right (trie.weightAhead below)
    (trie.length_children_le position)
  have positive := trie.weightAhead_pos below
  rw [weight, split, weightAhead, Nat.add_mul]
  omega

end LinkedTrie

namespace Traversal

/-- The weight of what is left to visit, and of leaving the nodes on the way. -/
def effortFrom (trie : LinkedTrie) : List TraversalFrame → Nat
  | [] => 0
  | frame :: earlier =>
      trie.totalWeight ((trie.children frame.position).drop frame.visited) + 1
        + effortFrom trie earlier

def effort (trie : LinkedTrie) (traversal : Traversal) : Nat :=
  effortFrom trie traversal.frames

theorem effort_lt_of_moves {trie : LinkedTrie} {traversal moved : Traversal}
    (moves : Moves trie traversal moved) :
    moved.effort trie < traversal.effort trie := by
  cases moves with
  | leave exhausted =>
      simp only [effort, effortFrom]
      omega
  | @pass _ _ _ _ child _ _ next _ =>
      obtain ⟨inRange, isNext⟩ := List.getElem?_eq_some_iff.mp next
      have positive := trie.weight_pos child.position
      simp only [effort, effortFrom]
      rw [List.drop_eq_getElem_cons inRange, isNext, LinkedTrie.totalWeight]
      omega
  | enter next inner =>
      obtain ⟨inRange, isNext⟩ := List.getElem?_eq_some_iff.mp next
      have lighter := LinkedTrie.totalWeight_children_lt inner
      simp only [effort, effortFrom, List.drop_zero]
      rw [List.drop_eq_getElem_cons inRange, isNext, LinkedTrie.totalWeight]
      omega

/-- Goes on until no node is on the way. -/
def run (trie : LinkedTrie) (traversal : Traversal) : EdgeGraph :=
  match _stepped : traversal.step trie with
  | none => traversal.graph
  | some moved => run trie moved
termination_by traversal.effort trie
decreasing_by exact effort_lt_of_moves (moves_of_step _stepped)

end Traversal

/-- The edge graph of a stored trie. -/
def LinkedTrie.edgeGraph (trie : LinkedTrie) : EdgeGraph :=
  Traversal.start.run trie

end Recognizer
