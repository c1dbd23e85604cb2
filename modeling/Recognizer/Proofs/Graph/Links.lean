import Mathlib.Order.Bounds.Basic
import Recognizer.Proofs.Graph.Extraction

/-!
# Graphs built by adding symbols

A graph is built from nothing by adding symbols one after the other.  Between two
nodes there is then at most one edge, so an edge is known by its ends, and all
ends are below the number of nodes.
-/

namespace Recognizer

/-- A symbol to be added between two nodes. -/
structure Link where
  origin : Nat
  destination : Nat
  symbol : String
deriving DecidableEq

/-- Both nodes are below a bound. -/
def Link.Below (bound : Nat) (link : Link) : Prop :=
  link.origin < bound ∧ link.destination < bound

namespace EdgeGraph

/-- The graph that is built by adding symbols in order. -/
def ofLinks (links : List Link) : EdgeGraph :=
  links.foldl
    (fun graph link => graph.add link.origin link.destination link.symbol)
    empty

def Built (graph : EdgeGraph) : Prop :=
  ∃ links, graph = ofLinks links

theorem built_empty : empty.Built :=
  ⟨[], rfl⟩

theorem Built.add {graph : EdgeGraph} (built : graph.Built)
    (origin destination : Nat) (symbol : String) :
    (graph.add origin destination symbol).Built := by
  obtain ⟨links, rfl⟩ := built
  exact ⟨links ++ [⟨origin, destination, symbol⟩], by simp [ofLinks]⟩

/-- What adding a symbol preserves holds of every graph that is built. -/
theorem ofLinks_induction {holds : EdgeGraph → Prop} (nothing : holds empty)
    (add : ∀ graph origin destination symbol, holds graph →
      holds (graph.add origin destination symbol))
    (links : List Link) : holds (ofLinks links) :=
  List.foldlRecOn links _ nothing
    fun _ known link _ => add _ link.origin link.destination link.symbol known

theorem ofLinks_concat (links : List Link) (link : Link) :
    ofLinks (links ++ [link]) =
      (ofLinks links).add link.origin link.destination link.symbol := by
  simp [ofLinks]

theorem carries_ofLinks {links : List Link} {origin destination : Nat}
    {symbol : String} :
    (ofLinks links).Carries origin symbol destination ↔
      ⟨origin, destination, symbol⟩ ∈ links := by
  induction links using List.reverseRecOn with
  | nil => simp [ofLinks, not_carries_empty]
  | append_singleton earlier link ih =>
      obtain ⟨_, _, _⟩ := link
      rw [ofLinks_concat, carries_add, ih, List.mem_append,
        List.mem_singleton, Link.mk.injEq, or_comm]
      grind

theorem mem_alphabet_ofLinks {links : List Link} {symbol : String} :
    symbol ∈ (ofLinks links).alphabet ↔
      ∃ link ∈ links, link.symbol = symbol := by
  simp only [mem_alphabet_iff_carries, carries_ofLinks]
  constructor
  · intro carried
    obtain ⟨origin, destination, added⟩ := carried
    exact ⟨⟨origin, destination, symbol⟩, added, rfl⟩
  · intro used
    obtain ⟨link, added, rfl⟩ := used
    exact ⟨link.origin, link.destination, added⟩

/-! ## The ends of the edges -/

/-- There is at most one edge between two nodes. -/
def EndsDistinct (graph : EdgeGraph) : Prop :=
  (graph.edges.map Edge.ends).Nodup

/-- Only the first symbol between two nodes makes an edge. -/
theorem ends_addLabel (origin destination : Nat) (symbol : String)
    (edges : List Edge) :
    (addLabel origin destination symbol edges).map Edge.ends =
      if (origin, destination) ∈ edges.map Edge.ends then
        edges.map Edge.ends
      else edges.map Edge.ends ++ [(origin, destination)] := by
  induction edges with
  | nil => simp [addLabel, Edge.ends]
  | cons edge later ih =>
      unfold addLabel
      by_cases joins : edge.joins origin destination
      · obtain ⟨rfl, rfl⟩ := joins_iff.mp joins
        simp [joins, Edge.ends]
      · have different : (origin, destination) ≠ edge.ends := by
          intro same
          cases same
          exact joins (joins_iff.mpr ⟨rfl, rfl⟩)
        simp only [joins, Bool.false_eq_true, if_false, List.map_cons, ih,
          List.mem_cons, different, false_or]
        split
        · rfl
        · rfl

theorem EndsDistinct.add {graph : EdgeGraph} (distinct : graph.EndsDistinct)
    (origin destination : Nat) (symbol : String) :
    (graph.add origin destination symbol).EndsDistinct := by
  unfold EndsDistinct EdgeGraph.add
  rw [ends_addLabel]
  split
  · exact distinct
  · rename_i isNew
    apply List.nodup_append.mpr
    refine ⟨distinct, List.nodup_singleton _, ?_⟩
    intro old oldMember new newMember same
    rw [List.mem_singleton.mp newMember] at same
    exact isNew (same ▸ oldMember)

theorem endsDistinct_ofLinks (links : List Link) :
    (ofLinks links).EndsDistinct :=
  ofLinks_induction List.nodup_nil (fun _ _ _ _ known => known.add _ _ _) links

theorem Built.endsDistinct {graph : EdgeGraph} (built : graph.Built) :
    graph.EndsDistinct := by
  obtain ⟨links, rfl⟩ := built
  exact endsDistinct_ofLinks links

theorem EndsDistinct.edge_eq {graph : EdgeGraph}
    (distinct : graph.EndsDistinct) {edge other : Edge}
    (member : edge ∈ graph.edges) (otherMember : other ∈ graph.edges)
    (sameOrigin : edge.origin = other.origin)
    (sameDestination : edge.destination = other.destination) :
    edge = other :=
  List.inj_on_of_nodup_map distinct member otherMember
    (Prod.ext sameOrigin sameDestination)

theorem joins_iff_ends {edge : Edge} {origin destination : Nat} :
    edge.joins origin destination = true ↔
      edge.ends = (origin, destination) := by
  rw [joins_iff, Edge.ends, Prod.mk.injEq]

theorem EndsDistinct.edge?_eq_some_iff {graph : EdgeGraph}
    (distinct : graph.EndsDistinct) {origin destination : Nat} {edge : Edge} :
    graph.edge? origin destination = some edge ↔
      edge ∈ graph.edges ∧ edge.ends = (origin, destination) := by
  have stands : ∀ {other}, graph.edge? origin destination = some other →
      other ∈ graph.edges ∧ other.ends = (origin, destination) := by
    intro other found
    rw [edge?] at found
    have joins := List.find?_some found
    exact ⟨List.mem_of_find?_eq_some found, joins_iff_ends.mp joins⟩
  constructor
  · exact stands
  · intro edgeStands
    obtain ⟨member, joined⟩ := edgeStands
    have isSome : (graph.edge? origin destination).isSome = true :=
      List.find?_isSome.mpr ⟨edge, member, joins_iff_ends.mpr joined⟩
    obtain ⟨other, found⟩ := Option.isSome_iff_exists.mp isSome
    obtain ⟨otherMember, alsoJoined⟩ := stands found
    rw [found, List.inj_on_of_nodup_map distinct otherMember member
      (alsoJoined.trans joined.symm)]

theorem edge?_eq_none_iff {graph : EdgeGraph} {origin destination : Nat} :
    graph.edge? origin destination = none ↔
      (origin, destination) ∉ graph.edges.map Edge.ends := by
  simp only [edge?, List.find?_eq_none, joins_iff_ends, List.mem_map,
    not_exists, not_and]

/-! ## The number of nodes -/

/-- All nodes are below a bound. -/
def Below (graph : EdgeGraph) (bound : Nat) : Prop :=
  ∀ edge ∈ graph.edges, edge.origin < bound ∧ edge.destination < bound

theorem Below.mono {graph : EdgeGraph} {bound more : Nat}
    (below : graph.Below bound) (atMost : bound ≤ more) : graph.Below more :=
  fun edge member => (below edge member).imp
    (Nat.lt_of_lt_of_le · atMost) (Nat.lt_of_lt_of_le · atMost)

theorem countBy_le_iff {graph : EdgeGraph} {next : Nat → Nat} {bound : Nat} :
    graph.countBy next ≤ bound ↔
      2 ≤ bound ∧ ∀ edge ∈ graph.edges,
        next (max edge.origin edge.destination) ≤ bound := by
  unfold countBy
  induction graph.edges with
  | nil => simp
  | cons edge later ih =>
      rw [List.foldr_cons, Nat.max_le, ih, List.forall_mem_cons, and_assoc]
      exact and_congr_right fun _ => and_comm

theorem nodeCount_le_iff {graph : EdgeGraph} {bound : Nat} :
    graph.nodeCount ≤ bound ↔ 2 ≤ bound ∧ graph.Below bound := by
  simp only [nodeCount, countBy_le_iff, Nat.succ_le_iff, Nat.max_lt, Below]

theorem lt_nodeCount {graph : EdgeGraph} {edge : Edge}
    (member : edge ∈ graph.edges) :
    edge.origin < graph.nodeCount ∧ edge.destination < graph.nodeCount :=
  (nodeCount_le_iff.mp (Nat.le_refl _)).2 edge member

/-- Whether the edge is new or not, its nodes are counted. -/
theorem countBy_add (next : Nat → Nat) (graph : EdgeGraph)
    (origin destination : Nat) (symbol : String) :
    (graph.add origin destination symbol).countBy next =
      max (graph.countBy next) (next (max origin destination)) := by
  apply eq_of_forall_ge_iff
  intro bound
  have byEnds : ∀ edges : List Edge,
      (∀ edge ∈ edges, next (max edge.origin edge.destination) ≤ bound) ↔
        ∀ ends ∈ edges.map Edge.ends, next (max ends.1 ends.2) ≤ bound := by
    intro edges
    rw [List.forall_mem_map]
    rfl
  rw [Nat.max_le, countBy_le_iff, countBy_le_iff, byEnds, byEnds, add,
    ends_addLabel, and_assoc]
  apply and_congr_right
  intro _
  split
  · rename_i known
    constructor
    · intro bounded
      exact ⟨bounded, bounded _ known⟩
    · exact And.left
  · rw [List.forall_mem_append, List.forall_mem_singleton]

theorem countBy_congr {graph : EdgeGraph} {next other : Nat → Nat} {bound : Nat}
    (same : ∀ node < bound, next node = other node)
    (below : graph.Below bound) :
    graph.countBy next = graph.countBy other := by
  apply eq_of_forall_ge_iff
  intro number
  rw [countBy_le_iff, countBy_le_iff]
  refine and_congr_right fun _ => forall₂_congr fun edge member => ?_
  rw [same _ (Nat.max_lt.mpr (below edge member))]

/-- The number of nodes is 2 or one more than the largest node between which a
symbol was added. -/
theorem isGreatest_nodeCount (links : List Link) :
    IsGreatest
      {count | count = 2 ∨ ∃ link ∈ links,
        count = link.origin + 1 ∨ count = link.destination + 1}
      (ofLinks links).nodeCount := by
  induction links using List.reverseRecOn with
  | nil => simp [ofLinks, empty, nodeCount, countBy]
  | append_singleton earlier link ih =>
      have grown : {count | count = 2 ∨ ∃ other ∈ earlier ++ [link],
            count = other.origin + 1 ∨ count = other.destination + 1} =
          insert (link.origin + 1) (insert (link.destination + 1)
            {count | count = 2 ∨ ∃ other ∈ earlier,
              count = other.origin + 1 ∨ count = other.destination + 1}) := by
        ext count
        simp only [List.mem_append, List.mem_singleton, Set.mem_insert_iff,
          Set.mem_ofPred_eq]
        grind
      have largest : (ofLinks (earlier ++ [link])).nodeCount =
          max (link.origin + 1)
            (max (link.destination + 1) (ofLinks earlier).nodeCount) := by
        rw [ofLinks_concat, nodeCount, countBy_add, ← nodeCount]
        omega
      rw [grown, largest]
      exact (ih.insert _).insert _

end EdgeGraph

theorem Trie.edgeGraph_built (trie : Trie) : trie.edgeGraph.Built :=
  extractFrom_preserves (fun _ _ _ _ built => built.add _ _ _) trie
    EdgeGraph.built_empty

end Recognizer
