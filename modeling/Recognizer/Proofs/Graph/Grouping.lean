import Recognizer.Proofs.Ascending
import Recognizer.Proofs.Graph.Links

/-!
# The edges of a built graph

Adding symbols groups them: there is one edge for every two nodes between which a
symbol was added, in the order in which they were joined first, and it carries the
symbols that were added there, in order and each once.
-/

namespace Recognizer

/-- The nodes that a symbol is added between. -/
def Link.ends (link : Link) : Nat × Nat :=
  (link.origin, link.destination)

/-- The destinations of links other than the sink. -/
def Link.openedBy (links : List Link) : List Nat :=
  (links.map Link.destination).filter (· ≠ EdgeGraph.sink)

theorem Link.openedBy_append (first second : List Link) :
    openedBy (first ++ second) = openedBy first ++ openedBy second := by
  simp [openedBy]

/-- The edge of the symbols between two nodes. -/
def Edge.ofLinks (links : List Link) (ends : Nat × Nat) : Edge where
  origin := ends.1
  destination := ends.2
  labels :=
    Ascending.ofList ((links.filter (·.ends = ends)).map Link.symbol)

/-- The edges of all symbols, by their first occurrences. -/
def Edge.grouped (links : List Link) : List Edge :=
  (links.map Link.ends).eraseDups.map (Edge.ofLinks links)

section FirstOccurrences

variable {α : Type} [BEq α] [LawfulBEq α]

theorem eraseDups_concat (earlier : List α) (value : α) :
    (earlier ++ [value]).eraseDups =
      if value ∈ earlier then earlier.eraseDups
      else earlier.eraseDups ++ [value] := by
  rw [List.eraseDups_append]
  split
  · rename_i known
    have nothing : [value].removeAll earlier = [] := by
      simpa [List.removeAll] using known
    rw [nothing, List.eraseDups_nil, List.append_nil]
  · rename_i isNew
    have single : [value].removeAll earlier = [value] := by
      simpa [List.removeAll] using isNew
    rw [single]
    rfl

theorem filter_eraseDups_of_nodup {keeps : α → Bool} {values : List α}
    (distinct : (values.filter keeps).Nodup) :
    values.eraseDups.filter keeps = values.filter keeps := by
  induction values using List.reverseRecOn with
  | nil => rfl
  | append_singleton earlier value ih =>
      rw [List.filter_append] at distinct ⊢
      rw [eraseDups_concat]
      split
      · rename_i known
        have dropped : ¬ keeps value = true := by
          intro kept
          exact List.disjoint_of_nodup_append distinct
            (List.mem_filter.mpr ⟨known, kept⟩)
            (List.mem_filter.mpr ⟨List.mem_cons_self, kept⟩)
        rw [ih distinct.of_append_left, List.filter_cons_of_neg dropped,
          List.filter_nil, List.append_nil]
      · rw [List.filter_append, ih distinct.of_append_left]

end FirstOccurrences

namespace EdgeGraph

variable {graph : EdgeGraph}

/-- The symbols of every edge are listed in order. -/
def LabelsAscending (graph : EdgeGraph) : Prop :=
  ∀ edge ∈ graph.edges, StrictlyAscending edge.labels

theorem LabelsAscending.add (ascending : graph.LabelsAscending)
    (origin destination : Nat) (symbol : String) :
    (graph.add origin destination symbol).LabelsAscending := by
  obtain ⟨edges⟩ := graph
  simp only [LabelsAscending, EdgeGraph.add] at ascending ⊢
  induction edges with
  | nil => simp [addLabel]
  | cons edge later ih =>
      obtain ⟨here, others⟩ := List.forall_mem_cons.mp ascending
      unfold addLabel
      split
      · exact List.forall_mem_cons.mpr
          ⟨Ascending.insert_strictlyAscending symbol here, others⟩
      · exact List.forall_mem_cons.mpr ⟨here, ih others⟩

theorem labelsAscending_ofLinks (links : List Link) :
    (ofLinks links).LabelsAscending :=
  ofLinks_induction (fun _ member => absurd member List.not_mem_nil)
    (fun _ _ _ _ ascending => ascending.add _ _ _) links

/-- What is said between the nodes of an edge is what the edge carries. -/
theorem EndsDistinct.carries_iff (distinct : graph.EndsDistinct) {edge : Edge}
    (member : edge ∈ graph.edges) {symbol : String} :
    graph.Carries edge.origin symbol edge.destination ↔
      symbol ∈ edge.labels := by
  constructor
  · intro carries
    obtain ⟨other, otherMember, leaves, enters, onEdge⟩ := carries
    rw [distinct.edge_eq member otherMember leaves.symm enters.symm]
    exact onEdge
  · intro onEdge
    exact ⟨edge, member, rfl, rfl, onEdge⟩

theorem ends_ofLinks (links : List Link) :
    (ofLinks links).edges.map Edge.ends = (links.map Link.ends).eraseDups := by
  induction links using List.reverseRecOn with
  | nil => rfl
  | append_singleton earlier link ih =>
      rw [ofLinks_concat, add, ends_addLabel, ih, List.map_append,
        List.map_singleton, eraseDups_concat]
      simp only [List.mem_eraseDups]
      rfl

theorem exists_edge_iff {links : List Link} {ends : Nat × Nat} :
    (∃ edge ∈ (ofLinks links).edges, edge.ends = ends) ↔
      ∃ link ∈ links, link.ends = ends := by
  rw [← List.mem_map, ends_ofLinks, List.mem_eraseDups, List.mem_map]

theorem origins_ofLinks_subset (links : List Link) :
    (ofLinks links).edges.map Edge.origin ⊆ links.map Link.origin := by
  intro origin leaves
  obtain ⟨edge, member, rfl⟩ := List.mem_map.mp leaves
  obtain ⟨link, added, same⟩ := exists_edge_iff.mp ⟨edge, member, rfl⟩
  exact List.mem_map.mpr ⟨link, added, congrArg Prod.fst same⟩

theorem below_ofLinks {links : List Link} {bound : Nat} :
    (ofLinks links).Below bound ↔ ∀ link ∈ links, link.Below bound := by
  have byEnds : (ofLinks links).Below bound ↔
      ∀ ends ∈ (ofLinks links).edges.map Edge.ends,
        ends.1 < bound ∧ ends.2 < bound := by
    rw [List.forall_mem_map]
    rfl
  rw [byEnds, ends_ofLinks]
  simp only [List.mem_eraseDups, List.forall_mem_map]
  rfl

/-- Nodes that are entered as the next numbers behind the sink, and are left only
when they were entered, are all there are. -/
theorem nodeCount_ofLinks {links : List Link} {count : Nat}
    (opened : Link.openedBy links = List.range' 2 count)
    (origins : links.map Link.origin ⊆ start :: List.range' 2 count) :
    (ofLinks links).nodeCount = 2 + count := by
  apply Nat.le_antisymm
  · refine nodeCount_le_iff.mpr ⟨Nat.le_add_right 2 count, ?_⟩
    intro edge member
    obtain ⟨link, added, same⟩ := exists_edge_iff.mp ⟨edge, member, rfl⟩
    obtain ⟨sameOrigin, sameDestination⟩ := Prod.mk.inj same
    rw [← sameOrigin, ← sameDestination]
    constructor
    · have left := origins (List.mem_map_of_mem added)
      rw [List.mem_cons, List.mem_range'_1, start] at left
      omega
    · by_cases ends : link.destination = sink
      · rw [ends, sink]
        omega
      · have entered : link.destination ∈ Link.openedBy links :=
          List.mem_filter.mpr
            ⟨List.mem_map_of_mem added, decide_eq_true ends⟩
        rw [opened, List.mem_range'_1] at entered
        exact entered.2
  · cases count with
    | zero => exact (nodeCount_le_iff.mp (Nat.le_refl _)).1
    | succ earlier =>
        have last : 2 + earlier ∈ Link.openedBy links := by
          rw [opened, List.mem_range'_1]
          omega
        obtain ⟨link, added, enters⟩ :=
          List.mem_map.mp (List.mem_filter.mp last).1
        obtain ⟨edge, member, same⟩ := exists_edge_iff.mpr ⟨link, added, rfl⟩
        have within := (lt_nodeCount member).2
        have sameDestination : edge.destination = link.destination :=
          congrArg Prod.snd same
        omega

/-- Where every node other than the sink is entered once, the edges enter these
nodes in the order of the links. -/
theorem filter_destinations_ofLinks {links : List Link}
    (distinct : (Link.openedBy links).Nodup) :
    ((ofLinks links).edges.map Edge.destination).filter (· ≠ sink) =
      Link.openedBy links := by
  have opened : Link.openedBy links =
      ((links.map Link.ends).filter (·.2 ≠ sink)).map Prod.snd := by
    rw [Link.openedBy, List.filter_map, List.filter_map, List.map_map]
    rfl
  have destinations : (ofLinks links).edges.map Edge.destination =
      (links.map Link.ends).eraseDups.map Prod.snd := by
    rw [← ends_ofLinks, List.map_map]
    rfl
  rw [opened] at distinct ⊢
  rw [destinations, List.filter_map,
    ← filter_eraseDups_of_nodup (List.Nodup.of_map _ distinct)]
  rfl

/-- The edges of a graph are the symbols that were added, grouped by the nodes
that they join. -/
theorem edges_ofLinks (links : List Link) :
    (ofLinks links).edges = Edge.grouped links := by
  have exactly : ∀ edge ∈ (ofLinks links).edges,
      edge = Edge.ofLinks links edge.ends := by
    intro edge member
    have labels : edge.labels = Ascending.ofList
        ((links.filter (·.ends = edge.ends)).map Link.symbol) := by
      apply Ascending.eq_of_mem_iff
      · exact labelsAscending_ofLinks links edge member
      · exact Ascending.ofList_strictlyAscending _
      · intro symbol
        rw [Ascending.mem_ofList, List.mem_map,
          ← (endsDistinct_ofLinks links).carries_iff member, carries_ofLinks]
        constructor
        · intro added
          exact ⟨_, List.mem_filter.mpr ⟨added, decide_eq_true rfl⟩, rfl⟩
        · intro listed
          obtain ⟨link, added, rfl⟩ := listed
          obtain ⟨added, sameEnds⟩ := List.mem_filter.mp added
          obtain ⟨sameOrigin, sameDestination⟩ :=
            Prod.mk.inj (of_decide_eq_true sameEnds)
          rw [← sameOrigin, ← sameDestination]
          exact added
    exact congrArg (Edge.mk edge.origin edge.destination) labels
  calc
    (ofLinks links).edges =
        (ofLinks links).edges.map fun edge => Edge.ofLinks links edge.ends :=
      (List.map_id _).symm.trans (List.map_congr_left exactly)
    _ = Edge.grouped links := by
      rw [Edge.grouped, ← ends_ofLinks, List.map_map]
      rfl

end EdgeGraph

end Recognizer
