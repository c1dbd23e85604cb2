import Recognizer.Proofs.Automaton.Building
import Recognizer.Proofs.Automaton.Runs
import Recognizer.Proofs.Graph.Paths
import Recognizer.Proofs.Labels

/-!
# The automaton of a graph reads its paths

The automaton of a closed graph has one state for every node, labelled by its
number, and the transitions are the symbols of the graph.  Different nodes have
different labels, so runs and paths are the same, and a word is accepted exactly
when it labels a path from the start to the sink.
-/

namespace Recognizer

namespace EdgeGraph

variable {graph : EdgeGraph}

/-! ## The draft -/

/-- The draft of the automaton of a graph. -/
def draft (graph : EdgeGraph) : Draft :=
  Draft.ofDeclarations <|
    .states [nodeLabel start, nodeLabel sink]
      :: .alphabet graph.alphabet
      :: .initial (nodeLabel start)
      :: .finals [nodeLabel sink]
      :: graph.edges.flatMap edgeDeclarations

theorem mem_edgeDeclarations {edge : Edge} {declaration : Declaration} :
    declaration ∈ edgeDeclarations edge ↔
      declaration = .states [nodeLabel edge.origin] ∨
        ∃ symbol ∈ edge.labels,
          declaration = .destination (nodeLabel edge.origin) symbol
            (nodeLabel edge.destination) := by
  simp only [edgeDeclarations, List.mem_cons, List.mem_map,
    eq_comm (a := declaration)]

theorem mem_draft_states {label : String} :
    label ∈ graph.draft.states ↔
      ∃ node, graph.IsNode node ∧ label = nodeLabel node := by
  have ofEdges : label ∈ (graph.edges.flatMap edgeDeclarations).flatMap
      Declaration.stateLabels ↔
        ∃ edge ∈ graph.edges, label = nodeLabel edge.origin := by
    rw [List.flatMap_assoc, List.mem_flatMap]
    simp [edgeDeclarations, Declaration.stateLabels, List.flatMap_map]
  rw [draft, Draft.states_ofDeclarations]
  simp only [List.flatMap_cons, List.mem_append, ofEdges,
    Declaration.stateLabels, List.mem_cons, List.not_mem_nil, or_false,
    false_or]
  constructor
  · intro declared
    rcases declared with (isStart | isSink) | ⟨edge, member, named⟩
    · exact ⟨start, Or.inl rfl, isStart⟩
    · exact ⟨sink, Or.inr (Or.inl rfl), isSink⟩
    · exact ⟨edge.origin, Or.inr (Or.inr ⟨edge, member, rfl⟩), named⟩
  · intro labelled
    obtain ⟨node, rfl | rfl | ⟨edge, member, rfl⟩, named⟩ := labelled
    · exact Or.inl (Or.inl named)
    · exact Or.inl (Or.inr named)
    · exact Or.inr ⟨edge, member, named⟩

theorem draft_alphabet : graph.draft.alphabet = graph.alphabet := by
  rw [draft, Draft.alphabet_ofDeclarations]
  simp [Declaration.symbols, List.flatMap_assoc, edgeDeclarations,
    List.flatMap_map]

theorem draft_initial : graph.draft.initial = some (nodeLabel start) := by
  have none : (graph.edges.flatMap edgeDeclarations).filterMap
      Declaration.initial? = [] := by
    simp [List.filterMap_flatMap, edgeDeclarations, List.filterMap_cons,
      List.filterMap_map, Function.comp_def, Declaration.initial?]
  rw [draft, Draft.initial_ofDeclarations]
  simp [List.filterMap_cons, Declaration.initial?, none]

theorem draft_finals : graph.draft.finals = [nodeLabel sink] := by
  rw [draft, Draft.finals_ofDeclarations]
  simp [Declaration.finalLabels, List.flatMap_assoc, edgeDeclarations,
    List.flatMap_map]

theorem mem_draft_destinations {origin symbol destination : String} :
    destination ∈ TransitionTable.destinations graph.draft.transitions
        origin symbol ↔
      ∃ source target, graph.Carries source symbol target ∧
        origin = nodeLabel source ∧ destination = nodeLabel target := by
  rw [draft, Draft.destinations_ofDeclarations, Declaration.mem_foldl_record]
  · simp only [List.not_mem_nil, List.mem_cons, List.mem_flatMap,
      mem_edgeDeclarations, reduceCtorEq, false_or,
      Declaration.destination.injEq]
    constructor
    · intro declared
      obtain ⟨edge, member, label, onEdge, leaves, rfl, leads⟩ := declared
      exact ⟨edge.origin, edge.destination, ⟨edge, member, rfl, rfl, onEdge⟩,
        leaves, leads⟩
    · intro carried
      obtain ⟨_, _, ⟨edge, member, rfl, rfl, onEdge⟩, leaves, leads⟩ := carried
      exact ⟨edge, member, symbol, onEdge, leaves, rfl, leads⟩
  · simp [mem_edgeDeclarations]

theorem draft_consistent (closed : graph.Closed) : graph.draft.Consistent := by
  have declared : ∀ {node : Nat}, graph.IsNode node →
      nodeLabel node ∈ graph.draft.states :=
    fun isNode => mem_draft_states.mpr ⟨_, isNode, rfl⟩
  constructor
  · exact ⟨nodeLabel start, declared (Or.inl rfl), draft_initial⟩
  · intro label member
    rw [draft_finals] at member
    rw [List.mem_singleton.mp member]
    exact declared (Or.inr (Or.inl rfl))
  · apply Draft.transitions_ofDeclarations_within
    intro declaration member
    simp only [List.mem_cons, List.mem_flatMap, mem_edgeDeclarations] at member
    rcases member with rfl | rfl | rfl | rfl |
      ⟨edge, edgeMember, rfl | ⟨symbol, onEdge, rfl⟩⟩
    · trivial
    · trivial
    · exact declared (Or.inl rfl)
    · intro label isSink
      rw [List.mem_singleton.mp isSink]
      exact declared (Or.inr (Or.inl rfl))
    · trivial
    · have carries : graph.Carries edge.origin symbol edge.destination :=
        ⟨edge, edgeMember, rfl, rfl, onEdge⟩
      refine ⟨declared carries.isNode, ?_, ?_⟩
      · change symbol ∈ graph.draft.alphabet
        rw [draft_alphabet]
        exact carries.mem_alphabet
      · intro label isDestination
        rw [List.mem_singleton.mp isDestination]
        exact declared (closed _ _ _ carries)

/-! ## Nodes and states -/

/-- The automaton has one state for every node, labelled by its number, and
its transitions are the symbols of the graph. -/
structure Realizes (automaton : Automaton) (graph : EdgeGraph) : Prop where
  wellFormed : automaton.WellFormed
  kind_eq : automaton.kind = .nondeterministic
  mem_states : ∀ label, label ∈ automaton.states ↔
    ∃ node, graph.IsNode node ∧ label = nodeLabel node
  alphabet_iff : ∀ label, label ∈ automaton.alphabet ↔ label ∈ graph.alphabet
  initialLabel_eq : automaton.initialLabel = nodeLabel start
  isFinal_iff : ∀ state < automaton.states.length,
    (automaton.isFinal state = true ↔
      automaton.stateLabel state = nodeLabel sink)
  leads_iff : ∀ state < automaton.states.length,
    ∀ symbol < automaton.alphabet.length, ∀ next,
      (next ∈ automaton.destinations state symbol ↔
        next < automaton.states.length ∧
          ∃ source target,
            graph.Carries source (automaton.symbolLabel symbol) target ∧
              automaton.stateLabel state = nodeLabel source ∧
              automaton.stateLabel next = nodeLabel target)

/-- The automaton of a closed graph is built. -/
theorem exactAutomaton_realizes (closed : graph.Closed) :
    ∃ automaton, graph.exactAutomaton = .ok automaton ∧
      Realizes automaton graph := by
  have consistent := draft_consistent closed
  have notDeterministic : Kind.nondeterministic = .deterministic →
      (graph.draft.assemble .nondeterministic).violation? = none := by
    intro impossible
    cases impossible
  have built : graph.exactAutomaton =
      .ok (graph.draft.assemble .nondeterministic) :=
    Draft.build_eq_ok_iff.mpr ⟨consistent, notDeterministic, rfl⟩
  refine ⟨_, built, Draft.build_wellFormed built, rfl, ?_, ?_, ?_, ?_, ?_⟩
  · intro label
    rw [Draft.mem_states_assemble]
    exact mem_draft_states
  · intro label
    rw [Draft.mem_alphabet_assemble, draft_alphabet]
  · exact Draft.initialLabel_assemble consistent draft_initial
  · intro state inRange
    rw [Draft.isFinal_assemble, draft_finals, List.mem_singleton]
    exact and_iff_right inRange
  · intro state stateInRange symbol symbolInRange next
    rw [Draft.mem_destinations_assemble stateInRange symbolInRange]
    exact and_congr_right fun _ => mem_draft_destinations

namespace Realizes

variable {automaton : Automaton}

theorem stateIndex?_initial (realizes : Realizes automaton graph) :
    automaton.stateIndex? (nodeLabel start) = some automaton.initial :=
  realizes.wellFormed.stateIndex?_eq_some_iff.mpr
    ⟨realizes.wellFormed.initial_lt, realizes.initialLabel_eq⟩

theorem exists_stateIndex? (realizes : Realizes automaton graph) {node : Nat}
    (isNode : graph.IsNode node) :
    ∃ state, automaton.stateIndex? (nodeLabel node) = some state := by
  apply Option.isSome_iff_exists.mp
  apply List.isSome_idxOf?.mpr
  exact (realizes.mem_states _).mpr ⟨node, isNode, rfl⟩

/-- Every symbol of the graph is in the alphabet. -/
theorem exists_symbolIndex? (realizes : Realizes automaton graph)
    {origin destination : Nat} {label : String}
    (carries : graph.Carries origin label destination) :
    ∃ symbol, automaton.symbolIndex? label = some symbol := by
  apply Option.isSome_iff_exists.mp
  apply List.isSome_idxOf?.mpr
  exact (realizes.alphabet_iff _).mpr carries.mem_alphabet

theorem leads_iff_carries (realizes : Realizes automaton graph)
    {origin state symbol next : Nat} {label : String}
    (originFound : automaton.stateIndex? (nodeLabel origin) = some state)
    (known : automaton.symbolIndex? label = some symbol) :
    next ∈ automaton.destinations state symbol ↔
      ∃ target, graph.Carries origin label target ∧
        automaton.stateIndex? (nodeLabel target) = some next := by
  obtain ⟨stateInRange, named⟩ :=
    realizes.wellFormed.stateIndex?_eq_some_iff.mp originFound
  obtain ⟨symbolInRange, spelled⟩ :=
    realizes.wellFormed.symbolIndex?_eq_some_iff.mp known
  rw [realizes.leads_iff state stateInRange symbol symbolInRange, spelled,
    named]
  constructor
  · intro leads
    obtain ⟨inRange, source, target, carries, isSource, isTarget⟩ := leads
    cases nodeLabel_inj.mp isSource
    exact ⟨target, carries,
      realizes.wellFormed.stateIndex?_eq_some_iff.mpr ⟨inRange, isTarget⟩⟩
  · intro carried
    obtain ⟨target, carries, found⟩ := carried
    obtain ⟨inRange, isTarget⟩ :=
      realizes.wellFormed.stateIndex?_eq_some_iff.mp found
    exact ⟨inRange, origin, target, carries, rfl, isTarget⟩

/-- A run passes through the states of the nodes of a path. -/
theorem run_iff_path (realizes : Realizes automaton graph)
    (closed : graph.Closed) {word : Word} {origin state last : Nat}
    (originFound : automaton.stateIndex? (nodeLabel origin) = some state) :
    automaton.Run state word last ↔
      ∃ target, graph.Path origin word target ∧
        automaton.stateIndex? (nodeLabel target) = some last := by
  constructor
  · intro run
    induction run generalizing origin with
    | stay state => exact ⟨origin, .stay origin, originFound⟩
    | read known leads _ ih =>
        obtain ⟨middle, carries, middleFound⟩ :=
          (realizes.leads_iff_carries originFound known).mp leads
        obtain ⟨target, path, targetFound⟩ := ih middleFound
        exact ⟨target, .follow carries path, targetFound⟩
  · intro pathEnds
    obtain ⟨target, path, targetFound⟩ := pathEnds
    induction path generalizing state with
    | stay node =>
        rw [originFound] at targetFound
        cases targetFound
        exact .stay _
    | follow carries _ ih =>
        obtain ⟨next, nextFound⟩ := realizes.exists_stateIndex? (closed _ _ _ carries)
        obtain ⟨symbol, known⟩ := realizes.exists_symbolIndex? carries
        have leads := (realizes.leads_iff_carries originFound known).mpr
          ⟨_, carries, nextFound⟩
        exact .read known leads (ih nextFound targetFound)

/-- A word is accepted when it labels a path from the start to the sink. -/
theorem accepts_iff_path (realizes : Realizes automaton graph)
    (closed : graph.Closed) {word : Word} :
    automaton.accepts word = true ↔ graph.Path start word sink := by
  rw [Automaton.accepts_iff_run]
  constructor
  · intro accepted
    obtain ⟨last, run, final⟩ := accepted
    obtain ⟨target, path, targetFound⟩ :=
      (realizes.run_iff_path closed realizes.stateIndex?_initial).mp run
    obtain ⟨inRange, isTarget⟩ :=
      realizes.wellFormed.stateIndex?_eq_some_iff.mp targetFound
    have isSink := (realizes.isFinal_iff last inRange).mp final
    rw [isTarget] at isSink
    rw [nodeLabel_inj.mp isSink] at path
    exact path
  · intro path
    obtain ⟨last, sinkFound⟩ :=
      realizes.exists_stateIndex? (Or.inr (Or.inl rfl))
    obtain ⟨inRange, isSink⟩ :=
      realizes.wellFormed.stateIndex?_eq_some_iff.mp sinkFound
    refine ⟨last, ?_, (realizes.isFinal_iff last inRange).mpr isSink⟩
    exact (realizes.run_iff_path closed realizes.stateIndex?_initial).mpr
      ⟨sink, path, sinkFound⟩

end Realizes

end EdgeGraph

end Recognizer
