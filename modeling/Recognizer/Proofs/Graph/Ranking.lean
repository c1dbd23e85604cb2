import Recognizer.Proofs.Graph.Indexed
import Recognizer.Proofs.Graph.SimplePaths

/-!
# The ranking of the edges

A potency that was noted is the one that would be counted again, so all edges
get the potencies of their destinations, in the order of discovery.  They are
placed from the last one to the first: an edge goes in front of those that are
less potent and of those as potent as it, which were discovered after it.

That holds when the tables have room for every node.  A stored graph makes them
with room for the number of nodes that is stored, which is possible, and enough,
exactly if all nodes are below `tableCapacity`.
-/

namespace Recognizer

namespace EdgeGraph

variable {graph : EdgeGraph}

/-! ## Potencies that were noted -/

/-- There is room for the potency of every node, and what is there is right. -/
structure Noted (graph : EdgeGraph) (known : List (Option Nat)) : Prop where
  length_eq : known.length = graph.nodeCount
  noted : ∀ node potency, known[node]? = some (some potency) →
    potency = graph.potencyOf node

theorem noted_nothing (graph : EdgeGraph) :
    graph.Noted (List.replicate graph.nodeCount none) where
  length_eq := List.length_replicate
  noted := by
    intro node potency found
    have impossible := List.eq_of_mem_replicate (List.mem_of_getElem? found)
    cases impossible

/-- Looking a potency up and counting it give the same, and nothing wrong is
noted. -/
theorem Noted.potency?_eq {known : List (Option Nat)}
    (noted : graph.Noted known) {node : Nat}
    (inRange : node < graph.nodeCount) :
    ∃ more, potency? graph.successorTable known node =
      some (graph.potencyOf node, more) ∧ graph.Noted more := by
  obtain ⟨entry, found⟩ : ∃ entry, known[node]? = some entry :=
    ⟨_, List.getElem?_eq_getElem (noted.length_eq ▸ inRange)⟩
  cases entry with
  | some potency =>
      cases noted.noted node potency found
      exact ⟨known, by simp [potency?, found], noted⟩
  | none =>
      refine ⟨known.set node (some (graph.potencyOf node)), ?_, ?_⟩
      · simp [potency?, found, countPaths_eq inRange]
      · constructor
        · rw [List.length_set]
          exact noted.length_eq
        · intro other potency isNoted
          rw [List.getElem?_set] at isNoted
          split at isNoted
          · rename_i same
            subst same
            rw [if_pos (noted.length_eq ▸ inRange)] at isNoted
            cases isNoted
            rfl
          · exact noted.noted other potency isNoted

/-- An edge and its position with the potency of its destination. -/
def withPotency (graph : EdgeGraph) (entry : Edge × Nat) : RankedEdge :=
  ⟨entry.2, entry.1, graph.potencyOf entry.1.destination⟩

theorem Noted.rankFrom?_eq {known : List (Option Nat)}
    (noted : graph.Noted known) {entries : List (Edge × Nat)}
    (inside : ∀ entry ∈ entries, entry.1.destination < graph.nodeCount) :
    rankFrom? graph.successorTable known entries =
      some (entries.map graph.withPotency) := by
  induction entries generalizing known with
  | nil => rfl
  | cons entry later ih =>
      obtain ⟨here, others⟩ := List.forall_mem_cons.mp inside
      obtain ⟨more, lookedUp, stillNoted⟩ := noted.potency?_eq here
      simp only [rankFrom?, lookedUp, ih stillNoted others, Option.map_some,
        List.map_cons, withPotency]

/-! ## The order of the edges -/

/-- An edge stands before another one that is less potent, or as potent and
discovered later. -/
def Precedes (earlier later : RankedEdge) : Prop :=
  later.potency < earlier.potency ∨
    later.potency = earlier.potency ∧ earlier.position < later.position

theorem placeByPotency_perm (ranked : RankedEdge) (others : List RankedEdge) :
    (placeByPotency ranked others).Perm (ranked :: others) := by
  induction others with
  | nil => exact List.Perm.refl _
  | cons head tail ih =>
      unfold placeByPotency
      split
      · exact List.Perm.refl _
      · exact (ih.cons head).trans (List.Perm.swap ranked head tail)

theorem placed_perm (edges : List RankedEdge) :
    (edges.foldr placeByPotency []).Perm edges := by
  induction edges with
  | nil => exact List.Perm.refl _
  | cons head tail ih =>
      exact (placeByPotency_perm head _).trans (ih.cons head)

/-- An edge finds its place among edges that were discovered after it. -/
theorem pairwise_placeByPotency {ranked : RankedEdge}
    {others : List RankedEdge} (ordered : others.Pairwise Precedes)
    (first : ∀ other ∈ others, ranked.position < other.position) :
    (placeByPotency ranked others).Pairwise Precedes := by
  induction others with
  | nil => exact List.pairwise_singleton _ _
  | cons head tail ih =>
      obtain ⟨leads, tailOrdered⟩ := List.pairwise_cons.mp ordered
      obtain ⟨beforeHead, beforeTail⟩ := List.forall_mem_cons.mp first
      unfold placeByPotency
      split
      · rename_i atLeast
        refine List.pairwise_cons.mpr ⟨?_, ordered⟩
        intro other member
        -- What follows the head is not more potent than it.
        have notMore : other.potency ≤ ranked.potency := by
          rcases List.mem_cons.mp member with rfl | inTail
          · exact atLeast
          · rcases leads other inTail with less | ⟨same, _⟩
            · exact Nat.le_trans (Nat.le_of_lt less) atLeast
            · exact same ▸ atLeast
        rcases Nat.lt_or_eq_of_le notMore with less | same
        · exact Or.inl less
        · exact Or.inr ⟨same, first other member⟩
      · rename_i less
        refine List.pairwise_cons.mpr ⟨?_, ih tailOrdered beforeTail⟩
        intro other member
        rcases List.mem_cons.mp
          ((placeByPotency_perm ranked tail).mem_iff.mp member) with
          rfl | inTail
        · exact Or.inl (Nat.lt_of_not_le less)
        · exact leads other inTail

theorem pairwise_placed {edges : List RankedEdge}
    (discovered : edges.Pairwise fun earlier later =>
      earlier.position < later.position) :
    (edges.foldr placeByPotency []).Pairwise Precedes := by
  induction edges with
  | nil => exact List.Pairwise.nil
  | cons head tail ih =>
      obtain ⟨first, later⟩ := List.pairwise_cons.mp discovered
      apply pairwise_placeByPotency (ih later)
      intro other member
      exact first other ((placed_perm tail).mem_iff.mp member)

/-! ## The whole ranking -/

theorem rank?_eq (graph : EdgeGraph) :
    graph.rank? =
      some ((graph.edges.zipIdx.map graph.withPotency).foldr
        placeByPotency []) := by
  have inside : ∀ entry ∈ graph.edges.zipIdx,
      entry.1.destination < graph.nodeCount :=
    fun _ member => (lt_nodeCount (List.fst_mem_of_mem_zipIdx member)).2
  rw [rank?, rankWithin?, successors?_eq, Option.bind_some,
    graph.noted_nothing.rankFrom?_eq inside, Option.map_some]

theorem rank?_eq_some_ranked (graph : EdgeGraph) :
    graph.rank? = some graph.ranked := by
  rw [ranked, rank?_eq, Option.getD_some]

theorem ranked_perm (graph : EdgeGraph) :
    graph.ranked.Perm (graph.edges.zipIdx.map graph.withPotency) := by
  rw [ranked, rank?_eq, Option.getD_some]
  exact placed_perm _

theorem ranked_edges_perm (graph : EdgeGraph) :
    (graph.ranked.map RankedEdge.edge).Perm graph.edges := by
  have placed := graph.ranked_perm.map RankedEdge.edge
  rw [List.map_map] at placed
  exact placed.trans (.of_eq (List.zipIdx_map_fst 0 graph.edges))

theorem pairwise_ranked (graph : EdgeGraph) :
    graph.ranked.Pairwise Precedes := by
  have positions : (graph.edges.zipIdx.map Prod.snd).Pairwise (· < ·) := by
    rw [List.zipIdx_map_snd]
    exact List.pairwise_lt_range'
  rw [ranked, rank?_eq, Option.getD_some]
  exact pairwise_placed (List.pairwise_map.mpr (List.pairwise_map.mp positions))

theorem edge_of_mem_ranked {ranked : RankedEdge}
    (member : ranked ∈ graph.ranked) : ranked.edge ∈ graph.edges := by
  obtain ⟨entry, found, rfl⟩ :=
    List.mem_map.mp (graph.ranked_perm.mem_iff.mp member)
  exact List.fst_mem_of_mem_zipIdx found

theorem potency_of_mem_ranked {ranked : RankedEdge}
    (member : ranked ∈ graph.ranked) :
    ranked.potency = graph.potencyOf ranked.edge.destination := by
  obtain ⟨entry, _, rfl⟩ :=
    List.mem_map.mp (graph.ranked_perm.mem_iff.mp member)
  rfl

/-- A ranking has every edge once, with the number of simple paths from its
destination to the sink.  More potent edges come first, and equally potent ones in
the order of their discovery. -/
structure IsRanking (graph : EdgeGraph) (ranked : List RankedEdge) : Prop where
  edges : (ranked.map fun placed => (placed.edge, placed.position)).Perm
    graph.edges.zipIdx
  potencies : ∀ placed ∈ ranked,
    {nodes | graph.SimplePath placed.edge.destination sink nodes}.encard =
      placed.potency
  ordered : ranked.Pairwise Precedes

theorem EndsDistinct.isRanking (distinct : graph.EndsDistinct) :
    graph.IsRanking graph.ranked where
  edges := by
    have placed := graph.ranked_perm.map
      fun placed => (placed.edge, placed.position)
    rw [List.map_map] at placed
    exact placed.trans (.of_eq (List.map_id _))
  potencies := by
    intro placed member
    rw [potency_of_mem_ranked member]
    exact distinct.encard_eq_potencyOf
      (lt_nodeCount (edge_of_mem_ranked member)).2
  ordered := graph.pairwise_ranked

/-- Walking around the cycle of 2 and 3 adds no path. -/
example :
    (ofLinks [⟨2, 1, "a"⟩, ⟨0, 2, "b"⟩, ⟨2, 3, "c"⟩, ⟨3, 2, "d"⟩,
        ⟨3, 1, "e"⟩]).ranked.map
      (fun placed => (placed.position, placed.potency)) =
        [(1, 2), (2, 2), (3, 2), (0, 1), (4, 1)] := by
  decide +kernel

/-! ## Tables with room for some nodes -/

theorem origin_lt_of_listed {edges : List Edge} {table listed : SuccessorTable}
    (made : edges.foldlM listSuccessor? table = some listed) :
    ∀ edge ∈ edges, edge.origin < table.length := by
  induction edges generalizing table with
  | nil => exact fun _ member => absurd member List.not_mem_nil
  | cons edge later ih =>
      rw [List.foldlM_cons, Option.bind_eq_bind, Option.bind_eq_some_iff] at made
      obtain ⟨more, stepped, rest⟩ := made
      rw [listSuccessor?, Option.map_eq_some_iff] at stepped
      obtain ⟨successors, found, rfl⟩ := stepped
      have others := ih rest
      rw [List.length_set] at others
      exact List.forall_mem_cons.mpr
        ⟨(List.getElem?_eq_some_iff.mp found).1, others⟩

theorem lt_of_potency? {table : SuccessorTable} {known more : List (Option Nat)}
    {node potency : Nat}
    (given : potency? table known node = some (potency, more)) :
    node < known.length ∧ more.length = known.length := by
  unfold potency? at given
  split at given
  · cases given
  · rename_i found
    cases given
    exact ⟨(List.getElem?_eq_some_iff.mp found).1, rfl⟩
  · rename_i found
    obtain ⟨_, _, same⟩ := Option.map_eq_some_iff.mp given
    cases same
    exact ⟨(List.getElem?_eq_some_iff.mp found).1, List.length_set⟩

theorem destination_lt_of_rankFrom? {table : SuccessorTable}
    {known : List (Option Nat)} {entries : List (Edge × Nat)}
    {ranked : List RankedEdge}
    (given : rankFrom? table known entries = some ranked) :
    ∀ entry ∈ entries, entry.1.destination < known.length := by
  induction entries generalizing known ranked with
  | nil => exact fun _ member => absurd member List.not_mem_nil
  | cons entry later ih =>
      rw [rankFrom?] at given
      split at given
      · cases given
      · rename_i potency more lookedUp
        obtain ⟨others, rest, _⟩ := Option.map_eq_some_iff.mp given
        obtain ⟨inRange, sameLength⟩ := lt_of_potency? lookedUp
        exact List.forall_mem_cons.mpr ⟨inRange, sameLength ▸ ih rest⟩

theorem below_of_rankWithin? {room : Nat} {ranked : List RankedEdge}
    (given : graph.rankWithin? room = some ranked) : graph.Below room := by
  obtain ⟨table, made, placed⟩ := Option.bind_eq_some_iff.mp given
  obtain ⟨inOrder, rankedInOrder, _⟩ := Option.map_eq_some_iff.mp placed
  have origins := origin_lt_of_listed made
  have destinations := destination_lt_of_rankFrom? rankedInOrder
  rw [List.length_replicate] at origins destinations
  intro edge member
  rw [← List.zipIdx_map_fst 0 graph.edges] at member
  obtain ⟨entry, numbered, rfl⟩ := List.mem_map.mp member
  exact ⟨origins _ (List.fst_mem_of_mem_zipIdx numbered),
    destinations entry numbered⟩

theorem rank?_indexed (below : graph.Below tableCapacity) :
    graph.indexed.rank? = some graph.ranked := by
  have possible : graph.nodeCount ≤ tableCapacity :=
    nodeCount_le_iff.mpr ⟨by decide, below⟩
  have stored : graph.indexed.nodeCount = graph.nodeCount :=
    nodeCount_indexed (below.mono (by decide))
  rw [IndexedGraph.rank?, stored, if_pos possible]
  exact rank?_eq_some_ranked graph

/-- The tables of a stored graph can be made and have room for every node exactly
if all nodes are below the capacity of a table. -/
theorem rank?_indexed_eq_some_iff {ranked : List RankedEdge} :
    graph.indexed.rank? = some ranked ↔
      graph.Below tableCapacity ∧ ranked = graph.ranked := by
  constructor
  · intro given
    have below : graph.Below tableCapacity := by
      unfold IndexedGraph.rank? at given
      split at given
      · rename_i possible
        exact (below_of_rankWithin? given).mono possible
      · cases given
    rw [rank?_indexed below] at given
    exact ⟨below, (Option.some.inj given).symm⟩
  · intro fits
    obtain ⟨below, rfl⟩ := fits
    exact rank?_indexed below

end EdgeGraph

namespace IndexedGraph

theorem rank?_ofLinks_eq_some_iff {links : List Link}
    {ranked : List RankedEdge} :
    (ofLinks links).rank? = some ranked ↔
      (∀ link ∈ links, link.Below tableCapacity) ∧
        ranked = (EdgeGraph.ofLinks links).ranked := by
  rw [ofLinks_eq, EdgeGraph.rank?_indexed_eq_some_iff,
    EdgeGraph.below_ofLinks]

theorem exists_rank?_ofLinks_iff {links : List Link} :
    (∃ ranked, (ofLinks links).rank? = some ranked) ↔
      ∀ link ∈ links, link.Below tableCapacity := by
  simp only [rank?_ofLinks_eq_some_iff, exists_and_left, exists_eq, and_true]

/-- A graph to which symbols were added is ranked exactly if all its nodes are
below the capacity of a table, and what is given then is a ranking. -/
theorem ranking_ofLinks (links : List Link) :
    ((∃ ranked, (ofLinks links).rank? = some ranked) ↔
        ∀ link ∈ links, link.Below tableCapacity) ∧
      ∀ ranked, (ofLinks links).rank? = some ranked →
        (ofLinks links).withoutTable.IsRanking ranked := by
  refine ⟨exists_rank?_ofLinks_iff, ?_⟩
  intro ranked given
  rw [withoutTable_ofLinks, (rank?_ofLinks_eq_some_iff.mp given).2]
  exact (EdgeGraph.endsDistinct_ofLinks links).isRanking

/-- For the first node the tables cannot be made, and for the last one, which is
not counted, they have no room. -/
theorem hugeNode_unranked :
    (ofLinks [⟨2 ^ 62, 1, "a"⟩]).rank? = none ∧
      (ofLinks [⟨2 ^ 64 - 1, 1, "a"⟩]).rank? = none := by
  decide +kernel

end IndexedGraph

end Recognizer
