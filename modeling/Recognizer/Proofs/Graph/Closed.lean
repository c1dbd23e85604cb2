import Recognizer.Proofs.Automaton.Outcome
import Recognizer.Proofs.Graph.Exact
import Recognizer.Proofs.Graph.Links

/-!
# Graphs that have an automaton

The start, the sink and the origins of edges are the states of the automaton of a
graph.  Its declarations therefore lack nothing but the destinations from which no
edge leads on, and the automaton is built exactly when there are none apart from
the sink.
-/

namespace Recognizer

namespace EdgeGraph

open Declaration

variable {graph : EdgeGraph}

/-- What the automaton of a graph is built from. -/
def declarations (graph : EdgeGraph) : List Declaration :=
  .states [nodeLabel start, nodeLabel sink]
    :: .alphabet graph.alphabet
    :: .initial (nodeLabel start)
    :: .finals [nodeLabel sink]
    :: graph.edges.flatMap edgeDeclarations

theorem exactAutomaton_eq (graph : EdgeGraph) :
    graph.exactAutomaton =
      (Draft.ofDeclarations graph.declarations).build .nondeterministic := rfl

theorem mem_allStates {label : String} :
    label ∈ allStates graph.declarations ↔
      ∃ node, graph.IsNode node ∧ label = nodeLabel node := by
  rw [allStates, ← Draft.states_ofDeclarations]
  exact mem_draft_states

theorem IsNode.declared {node : Nat} (isNode : graph.IsNode node) :
    nodeLabel node ∈ allStates graph.declarations :=
  mem_allStates.mpr ⟨node, isNode, rfl⟩

theorem allSymbols_declarations :
    allSymbols graph.declarations = graph.alphabet := by
  rw [allSymbols, ← Draft.alphabet_ofDeclarations]
  exact draft_alphabet

theorem allFinals_declarations :
    allFinals graph.declarations = [nodeLabel sink] := by
  rw [allFinals, ← Draft.finals_ofDeclarations]
  exact draft_finals

theorem lastInitial?_declarations :
    lastInitial? graph.declarations = some (nodeLabel start) := by
  rw [lastInitial?, ← Draft.initial_ofDeclarations]
  exact draft_initial

theorem mem_recorded_iff {origin symbol destination : String} :
    (∃ destinations,
        Recorded graph.declarations ⟨origin, symbol, destinations⟩ ∧
          destination ∈ destinations) ↔
      ∃ source target, graph.Carries source symbol target ∧
        origin = nodeLabel source ∧ destination = nodeLabel target := by
  rw [← Draft.mem_destinations_ofDeclarations]
  exact mem_draft_destinations

theorem exists_carries_of_recorded {entry : Transition}
    (recorded : Recorded graph.declarations entry) :
    ∃ source target, graph.Carries source entry.symbol target ∧
      entry.origin = nodeLabel source := by
  have some : entry.destinations ≠ [] := by
    cases recorded with
    | accumulated _ added => exact added
    | @replaced origin symbol _ _ destinations split _ =>
        have listed : .transition ⟨origin, symbol, destinations⟩ ∈
            graph.declarations := by simp [split]
        simp [declarations, edgeDeclarations] at listed
  obtain ⟨destination, member⟩ := List.exists_mem_of_ne_nil _ some
  obtain ⟨source, target, carries, leaves, _⟩ :=
    mem_recorded_iff.mp ⟨entry.destinations, recorded, member⟩
  exact ⟨source, target, carries, leaves⟩

/-- The only fault is a symbol that leads to no node. -/
theorem exists_carries_of_error {fault : DraftFault}
    (failed : graph.exactAutomaton = .error fault) :
    ∃ origin symbol destination, graph.Carries origin symbol destination ∧
      ¬ graph.IsNode destination ∧
        fault = .unknownState (nodeLabel destination) := by
  rw [exactAutomaton_eq, Draft.build_ofDeclarations_eq_error_iff] at failed
  have startDeclared : nodeLabel start ∈ allStates graph.declarations :=
    IsNode.declared (Or.inl rfl)
  cases failed with
  | determinism impossible => cases impossible
  | declaration undeclared =>
      cases undeclared with
      | noStates none => exact absurd none (List.ne_nil_of_mem startDeclared)
      | missingInitialState _ none =>
          rw [lastInitial?_declarations] at none
          cases none
      | unknownInitialState _ given unknown =>
          rw [lastInitial?_declarations] at given
          cases given
          exact absurd startDeclared unknown
      | @unknownFinal _ _ label _ split _ unknown =>
          have isSink : label ∈ allFinals graph.declarations := by simp [split]
          rw [allFinals_declarations, List.mem_singleton] at isSink
          rw [isSink] at unknown
          exact absurd (IsNode.declared (Or.inr (Or.inl rfl))) unknown
      | @entry entry _ _ _ recorded _ found =>
          obtain ⟨source, _, carries, leaves⟩ :=
            exists_carries_of_recorded recorded
          cases found with
          | origin unknown =>
              rw [leaves] at unknown
              exact absurd carries.isNode.declared unknown
          | symbol _ unknown =>
              rw [allSymbols_declarations] at unknown
              exact absurd carries.mem_alphabet unknown
          | @destination _ _ label _ _ split _ unknown =>
              obtain ⟨origin, target, leads, _, rfl⟩ :=
                mem_recorded_iff.mp ⟨entry.destinations, recorded,
                  show label ∈ entry.destinations by simp [split]⟩
              exact ⟨origin, _, target, leads,
                fun isNode => unknown isNode.declared, rfl⟩

theorem closed_of_exactAutomaton {automaton : Automaton}
    (built : graph.exactAutomaton = .ok automaton) : graph.Closed := by
  rw [exactAutomaton_eq, Draft.build_ofDeclarations_eq_ok_iff] at built
  intro origin symbol destination carries
  obtain ⟨destinations, recorded, member⟩ :=
    mem_recorded_iff.mpr ⟨origin, destination, carries, rfl, rfl⟩
  obtain ⟨node, isNode, same⟩ := mem_allStates.mp
    ((built.1.entries _ recorded).2.2 _ member)
  rw [nodeLabel_inj.mp same]
  exact isNode

theorem realizes_of_exactAutomaton {automaton : Automaton}
    (built : graph.exactAutomaton = .ok automaton) :
    Realizes automaton graph := by
  obtain ⟨other, otherBuilt, realizes⟩ :=
    exactAutomaton_realizes (closed_of_exactAutomaton built)
  cases otherBuilt.symm.trans built
  exact realizes

theorem labelled_ofLinks (links : List Link) : (ofLinks links).Labelled :=
  ofLinks_induction (fun _ member => absurd member List.not_mem_nil)
    (fun _ _ _ _ labelled => labelled.add _ _ _) links

theorem Labelled.closed_iff (labelled : graph.Labelled) :
    graph.Closed ↔ ∀ edge ∈ graph.edges, graph.IsNode edge.destination := by
  constructor
  · intro closed edge member
    obtain ⟨symbol, carries⟩ := labelled.carries member
    exact closed _ _ _ carries
  · rintro known _ _ _ ⟨edge, member, _, rfl, _⟩
    exact known edge member

/-- The automaton of a graph is built exactly when every edge leads to the start,
to the sink or to the origin of an edge.  It then reads the paths from the start
to the sink, and otherwise a destination that is no such node is reported. -/
theorem exactAutomaton_ofLinks (links : List Link) :
    ((∃ automaton, (ofLinks links).exactAutomaton = .ok automaton) ↔
      ∀ edge ∈ (ofLinks links).edges,
        (ofLinks links).IsNode edge.destination) ∧
    (∀ automaton, (ofLinks links).exactAutomaton = .ok automaton →
      ∀ word : Word, automaton.accepts word = true ↔
        (ofLinks links).Path start word sink) ∧
    ∀ fault, (ofLinks links).exactAutomaton = .error fault →
      ∃ edge ∈ (ofLinks links).edges,
        ¬ (ofLinks links).IsNode edge.destination ∧
          fault = .unknownState (nodeLabel edge.destination) := by
  refine ⟨?_, ?_, ?_⟩
  · rw [← (labelled_ofLinks links).closed_iff]
    constructor
    · rintro ⟨_, built⟩
      exact closed_of_exactAutomaton built
    · intro closed
      obtain ⟨automaton, built, _⟩ := exactAutomaton_realizes closed
      exact ⟨automaton, built⟩
  · intro automaton built word
    exact (realizes_of_exactAutomaton built).accepts_iff_path
      (closed_of_exactAutomaton built)
  · intro fault failed
    obtain ⟨_, _, _, ⟨edge, member, _, rfl, _⟩, notNode, isFault⟩ :=
      exists_carries_of_error failed
    exact ⟨edge, member, notNode, isFault⟩

/-- Cycles through the start and the sink, two ways on with one symbol, an empty
symbol, and labels of nodes that are not in the order of their numbers. -/
def winding : List Link :=
  [⟨0, 10, "a"⟩, ⟨0, 2, "a"⟩, ⟨10, 0, "b"⟩, ⟨2, 1, "b"⟩, ⟨1, 2, ""⟩,
    ⟨2, 1, "a"⟩]

/-- The start and the sink are passed on the way.  With one more edge there is no
automaton any more, because no edge leads on from its destination. -/
theorem winding_exactAutomaton :
    (∃ automaton, (ofLinks winding).exactAutomaton = .ok automaton ∧
      automaton.accepts ["a", "b", "a", "b", "", "a"] = true ∧
      (ofLinks winding).Path start ["a", "b", "a", "b", "", "a"] sink) ∧
    ∃ edge ∈ (ofLinks (winding ++ [⟨2, 7, "b"⟩])).edges,
      ¬ (ofLinks (winding ++ [⟨2, 7, "b"⟩])).IsNode edge.destination ∧
        DraftFault.unknownState "7" =
          .unknownState (nodeLabel edge.destination) := by
  obtain ⟨succeeds, language, _⟩ := exactAutomaton_ofLinks winding
  obtain ⟨_, _, faults⟩ := exactAutomaton_ofLinks (winding ++ [⟨2, 7, "b"⟩])
  constructor
  · obtain ⟨automaton, built⟩ := succeeds.mpr (by unfold IsNode; decide)
    have path : (ofLinks winding).Path start ["a", "b", "a", "b", "", "a"]
        sink := by
      have leads : ∀ link ∈ winding,
          (ofLinks winding).Carries link.origin link.symbol link.destination :=
        fun _ member => carries_ofLinks.mpr member
      exact .follow (leads ⟨0, 10, "a"⟩ (by decide)) <|
        .follow (leads ⟨10, 0, "b"⟩ (by decide)) <|
        .follow (leads ⟨0, 2, "a"⟩ (by decide)) <|
        .follow (leads ⟨2, 1, "b"⟩ (by decide)) <|
        .follow (leads ⟨1, 2, ""⟩ (by decide)) <|
        .follow (leads ⟨2, 1, "a"⟩ (by decide)) (.stay sink)
    exact ⟨automaton, built, (language automaton built _).mpr path, path⟩
  · exact faults _ (by decide +kernel)

end EdgeGraph

end Recognizer
