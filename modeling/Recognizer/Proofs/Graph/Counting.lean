import Mathlib.Algebra.GroupWithZero.Nat
import Recognizer.Proofs.Automaton.TransitionCount
import Recognizer.Proofs.Graph.Closed
import Recognizer.Proofs.Graph.Grouping

/-!
# The symbols of a graph, counted

In a graph that was built every symbol between two nodes is listed once, with the
only edge between them.  The automaton of the graph has one transition for each of
these symbols, and their alphabet.
-/

namespace Recognizer

namespace EdgeGraph

variable {graph : EdgeGraph}

theorem alphabet_ascending (graph : EdgeGraph) :
    StrictlyAscending graph.alphabet := by
  unfold alphabet
  induction graph.edges with
  | nil => exact List.Pairwise.nil
  | cons edge later ih => exact Ascending.union_strictlyAscending _ ih

/-- All symbols with the nodes between which they stand, edge by edge. -/
def links (graph : EdgeGraph) : List Link :=
  graph.edges.flatMap fun edge =>
    edge.labels.map fun symbol => ⟨edge.origin, edge.destination, symbol⟩

theorem mem_links {link : Link} :
    link ∈ graph.links ↔
      graph.Carries link.origin link.symbol link.destination := by
  simp only [links, List.mem_flatMap, List.mem_map]
  constructor
  · rintro ⟨edge, member, symbol, onEdge, rfl⟩
    exact ⟨edge, member, rfl, rfl, onEdge⟩
  · rintro ⟨edge, member, leaves, enters, onEdge⟩
    exact ⟨edge, member, link.symbol, onEdge, by rw [leaves, enters]⟩

theorem length_links (graph : EdgeGraph) :
    graph.links.length = (graph.edges.map (·.labels.length)).sum := by
  simp [links, List.length_flatMap]

theorem nodup_links (distinct : graph.EndsDistinct)
    (ascending : graph.LabelsAscending) : graph.links.Nodup := by
  rw [links, List.nodup_flatMap]
  constructor
  · intro edge member
    refine (ascending edge member).nodup.map ?_
    intro first second same
    exact congrArg Link.symbol same
  · apply (List.pairwise_map.mp distinct).imp
    intro first second different
    apply List.disjoint_left.mpr
    intro link ofFirst ofSecond
    obtain ⟨_, _, rfl⟩ := List.mem_map.mp ofFirst
    obtain ⟨_, _, same⟩ := List.mem_map.mp ofSecond
    simp only [Link.mk.injEq] at same
    exact different (Prod.ext same.1.symm same.2.1.symm)

namespace Realizes

variable {automaton : Automaton}

theorem alphabet_eq (realizes : Realizes automaton graph) :
    automaton.alphabet = graph.alphabet :=
  Ascending.eq_of_mem_iff realizes.wellFormed.alphabet_ascending
    graph.alphabet_ascending realizes.alphabet_iff

/-- A transition with its labels. -/
def spelled (automaton : Automaton) (arrow : Arrow) :
    String × String × String :=
  (automaton.stateLabel arrow.state, automaton.symbolLabel arrow.symbol,
    automaton.stateLabel arrow.destination)

/-- A symbol between two nodes with the labels of the nodes. -/
def written (link : Link) : String × String × String :=
  (nodeLabel link.origin, link.symbol, nodeLabel link.destination)

theorem mem_spelled_iff (realizes : Realizes automaton graph)
    (closed : graph.Closed) {labels : String × String × String} :
    labels ∈ automaton.arrows.map (spelled automaton) ↔
      labels ∈ graph.links.map written := by
  have wellFormed := realizes.wellFormed
  simp only [List.mem_map, wellFormed.mem_arrows, mem_links]
  constructor
  · rintro ⟨arrow, leads, rfl⟩
    obtain ⟨stateInRange, symbolInRange⟩ := wellFormed.lt_of_leads leads
    obtain ⟨_, source, target, carries, leaves, enters⟩ :=
      (realizes.leads_iff _ stateInRange _ symbolInRange _).mp leads
    refine ⟨⟨source, target, automaton.symbolLabel arrow.symbol⟩, carries, ?_⟩
    rw [written, spelled, leaves, enters]
  · rintro ⟨link, carries, rfl⟩
    obtain ⟨state, stateFound⟩ := realizes.exists_stateIndex? carries.isNode
    obtain ⟨next, nextFound⟩ :=
      realizes.exists_stateIndex? (closed _ _ _ carries)
    obtain ⟨symbol, known⟩ := realizes.exists_symbolIndex? carries
    refine ⟨⟨state, symbol, next⟩, ?_, ?_⟩
    · exact (realizes.leads_iff_carries stateFound known).mpr
        ⟨_, carries, nextFound⟩
    · rw [spelled, written, (wellFormed.stateIndex?_eq_some_iff.mp stateFound).2,
        (wellFormed.stateIndex?_eq_some_iff.mp nextFound).2,
        (wellFormed.symbolIndex?_eq_some_iff.mp known).2]

theorem written_inj {first second : Link} (same : written first = written second) :
    first = second := by
  cases first
  cases second
  simp only [written, Prod.mk.injEq, nodeLabel_inj] at same
  simp only [Link.mk.injEq]
  exact ⟨same.1, same.2.2, same.2.1⟩

theorem spelled_inj (realizes : Realizes automaton graph)
    {first second : Arrow} (firstMember : first ∈ automaton.arrows)
    (secondMember : second ∈ automaton.arrows)
    (same : spelled automaton first = spelled automaton second) :
    first = second := by
  have wellFormed := realizes.wellFormed
  have firstLeads := wellFormed.mem_arrows.mp firstMember
  have secondLeads := wellFormed.mem_arrows.mp secondMember
  obtain ⟨firstState, firstSymbol⟩ := wellFormed.lt_of_leads firstLeads
  obtain ⟨secondState, secondSymbol⟩ := wellFormed.lt_of_leads secondLeads
  simp only [spelled, Prod.mk.injEq] at same
  obtain ⟨sameState, sameSymbol, sameNext⟩ := same
  cases first
  cases second
  simp only [Arrow.mk.injEq]
  exact ⟨(getD_inj wellFormed.states_nodup firstState secondState).mp sameState,
    (getD_inj wellFormed.alphabet_nodup firstSymbol secondSymbol).mp sameSymbol,
    (getD_inj wellFormed.states_nodup (wellFormed.destination_lt firstLeads)
      (wellFormed.destination_lt secondLeads)).mp sameNext⟩

/-- The automaton of a graph has as many transitions as there are symbols on the
edges. -/
theorem transitionCount_eq (realizes : Realizes automaton graph)
    (closed : graph.Closed) (distinct : graph.EndsDistinct)
    (ascending : graph.LabelsAscending) :
    automaton.transitionCount =
      (graph.edges.map (·.labels.length)).sum := by
  have wellFormed := realizes.wellFormed
  have spelledOnce : (automaton.arrows.map (spelled automaton)).Nodup := by
    apply wellFormed.nodup_arrows.map_on
    intro first firstMember second secondMember
    exact realizes.spelled_inj firstMember secondMember
  have writtenOnce : (graph.links.map written).Nodup :=
    (nodup_links distinct ascending).map fun _ _ => written_inj
  have same : (automaton.arrows.map (spelled automaton)).Perm
      (graph.links.map written) :=
    (List.perm_ext_iff_of_nodup spelledOnce writtenOnce).mpr
      fun _ => realizes.mem_spelled_iff closed
  have lengths := same.length_eq
  rw [List.length_map, List.length_map] at lengths
  rw [← wellFormed.length_arrows, lengths, length_links]

end Realizes

end EdgeGraph

end Recognizer
