import Recognizer.Proofs.Graph.Counting
import Recognizer.Proofs.Learning.Training

/-!
# The tally of a generalization

In the automaton of a graph no candidate is there already: its symbol is on no
edge between its two nodes, and other edges add other transitions.  So every symbol
that an edge does not carry is tried once, and the tally tells exactly by how many
transitions the automaton has grown.
-/

namespace Recognizer

namespace Generalization

variable (harmful : Automaton → Bool) {base : Automaton} {tried : Nat}
  {run : Generalization}

/-- A run that has tried so many candidates, and whose tally agrees with what it
did to the automaton. -/
structure Accounted (base : Automaton) (tried : Nat) (run : Generalization) :
    Prop where
  running : run.fault = none
  wellFormed : run.automaton.WellFormed
  grows : Automaton.Extends base run.automaton
  candidates_eq : run.tally.candidates = tried
  decided : run.tally.candidates = run.tally.kept + run.tally.rolledBack
  transitions_eq :
    run.automaton.transitionCount = base.transitionCount + run.tally.kept

theorem accounted_start (wellFormed : base.WellFormed) :
    Accounted base 0 (start base) where
  running := rfl
  wellFormed := wellFormed
  grows := Automaton.Extends.refl base
  candidates_eq := rfl
  decided := rfl
  transitions_eq := rfl

/-- What the second automaton has more are transitions from the first state to the
second. -/
def GrowsBetween (origin destination : Nat) (before after : Automaton) : Prop :=
  ∀ arrow : Arrow,
    arrow.destination ∈ after.destinations arrow.state arrow.symbol →
      arrow.destination ∈ before.destinations arrow.state arrow.symbol ∨
        arrow.state = origin ∧ arrow.destination = destination

theorem GrowsBetween.trans {origin destination : Nat}
    {first second third : Automaton}
    (earlier : GrowsBetween origin destination first second)
    (later : GrowsBetween origin destination second third) :
    GrowsBetween origin destination first third := by
  intro arrow leads
  rcases later arrow leads with old | new
  · exact earlier arrow old
  · exact Or.inr new

section Tried

variable (accounted : Accounted base tried run)
  (nondeterministic : base.kind = .nondeterministic)
  {origin destination : Nat} (originInRange : origin < base.states.length)
  (destinationInRange : destination < base.states.length)

include accounted nondeterministic originInRange destinationInRange

/-- A transition that is not there is a candidate, and it is kept or rolled
back. -/
theorem Accounted.attempt {symbol : Nat}
    (symbolInRange : symbol < base.alphabet.length)
    (absent : destination ∉ run.automaton.destinations origin symbol) :
    Accounted base (tried + 1)
        (attempt harmful origin destination run symbol) ∧
      ∀ arrow : Arrow,
        arrow.destination ∈ (Generalization.attempt harmful origin destination
          run symbol).automaton.destinations arrow.state arrow.symbol →
        arrow = ⟨origin, symbol, destination⟩ ∨ arrow.destination ∈
          run.automaton.destinations arrow.state arrow.symbol := by
  have wellFormed := accounted.wellFormed
  rw [← accounted.grows.states_eq] at originInRange destinationInRange
  rw [← accounted.grows.alphabet_eq] at symbolInRange
  have outcome := attempt_outcome harmful destination accounted.running
    wellFormed originInRange symbolInRange
  generalize Generalization.attempt harmful origin destination run symbol =
    after at outcome ⊢
  have counted := accounted.candidates_eq
  have decided := accounted.decided
  cases outcome with
  | present present => exact absurd present absent
  | refused refused =>
      have deterministic := (Automaton.add_eq_error_iff.mp refused).2.1
      rw [accounted.grows.kind_eq, nondeterministic] at deterministic
      cases deterministic
  | rolledBack _ _ =>
      refine ⟨⟨accounted.running, wellFormed, accounted.grows, ?_, ?_,
        accounted.transitions_eq⟩, fun _ => Or.inr⟩
      · simp only [Tally.rollBack]
        omega
      · simp only [Tally.rollBack]
        omega
  | kept added _ =>
      have one := wellFormed.transitionCount_add originInRange symbolInRange
        destinationInRange added absent
      have before := accounted.transitions_eq
      refine ⟨⟨accounted.running, wellFormed.add destinationInRange added,
        accounted.grows.trans
          (wellFormed.extends_add originInRange symbolInRange added),
        ?_, ?_, ?_⟩, ?_⟩
      · simp only [Tally.keep]
        omega
      · simp only [Tally.keep]
        omega
      · simp only [Tally.keep]
        omega
      · intro arrow
        exact (wellFormed.leads_add_iff originInRange symbolInRange added).mp

/-- Different symbols between the same states do not get in each other's way. -/
theorem Accounted.attempts {symbols : List Nat} (distinct : symbols.Nodup)
    (symbolsInRange : ∀ symbol ∈ symbols, symbol < base.alphabet.length)
    (absent : ∀ symbol ∈ symbols,
      destination ∉ run.automaton.destinations origin symbol) :
    Accounted base (tried + symbols.length)
        (symbols.foldl (Generalization.attempt harmful origin destination)
          run) ∧
      GrowsBetween origin destination run.automaton
        (symbols.foldl (Generalization.attempt harmful origin destination)
          run).automaton := by
  induction symbols generalizing run tried with
  | nil => exact ⟨accounted, fun _ => Or.inl⟩
  | cons first later ih =>
      obtain ⟨isNew, laterDistinct⟩ := List.nodup_cons.mp distinct
      obtain ⟨firstInRange, laterInRange⟩ :=
        List.forall_mem_cons.mp symbolsInRange
      obtain ⟨firstAbsent, laterAbsent⟩ := List.forall_mem_cons.mp absent
      obtain ⟨counted, onlyFirst⟩ := accounted.attempt harmful
        nondeterministic originInRange destinationInRange firstInRange
        firstAbsent
      have stillAbsent : ∀ symbol ∈ later,
          destination ∉ (Generalization.attempt harmful origin destination run
            first).automaton.destinations origin symbol := by
        intro symbol member leads
        rcases onlyFirst ⟨origin, symbol, destination⟩ leads with same | old
        · simp only [Arrow.mk.injEq, true_and, and_true] at same
          exact isNew (same ▸ member)
        · exact laterAbsent symbol member old
      obtain ⟨whole, grown⟩ := ih counted laterDistinct laterInRange stillAbsent
      rw [List.foldl_cons, List.length_cons, Nat.add_comm later.length,
        ← Nat.add_assoc]
      refine ⟨whole, GrowsBetween.trans ?_ grown⟩
      intro arrow leads
      rcases onlyFirst arrow leads with rfl | old
      · exact Or.inr ⟨rfl, rfl⟩
      · exact Or.inl old

end Tried

/-- The ends of the edge are states, and none of its candidates is there in the
current automaton. -/
def Untouched (base current : Automaton) (edge : Edge) : Prop :=
  ∃ origin destination,
    base.stateIndex? (EdgeGraph.nodeLabel edge.origin) = some origin ∧
    base.stateIndex? (EdgeGraph.nodeLabel edge.destination) =
      some destination ∧
    ∀ symbol ∈ missingSymbols base edge,
      destination ∉ current.destinations origin symbol

theorem Untouched.visit (wellFormed : base.WellFormed)
    {before after : Automaton} {edge visited : Edge}
    (untouched : Untouched base before edge)
    (different : edge.ends ≠ visited.ends) {origin destination : Nat}
    (originFound : base.stateIndex? (EdgeGraph.nodeLabel visited.origin) =
      some origin)
    (destinationFound :
      base.stateIndex? (EdgeGraph.nodeLabel visited.destination) =
        some destination)
    (grown : GrowsBetween origin destination before after) :
    Untouched base after edge := by
  obtain ⟨state, next, stateFound, nextFound, absent⟩ := untouched
  refine ⟨state, next, stateFound, nextFound, ?_⟩
  intro symbol member leads
  rcases grown ⟨state, symbol, next⟩ leads with old | ⟨rfl, rfl⟩
  · exact absent symbol member old
  · have sameOrigin := (wellFormed.stateIndex?_eq_some_iff.mp stateFound).2.symm
      |>.trans (wellFormed.stateIndex?_eq_some_iff.mp originFound).2
    have sameDestination :=
      (wellFormed.stateIndex?_eq_some_iff.mp nextFound).2.symm
        |>.trans (wellFormed.stateIndex?_eq_some_iff.mp destinationFound).2
    exact different (Prod.ext (EdgeGraph.nodeLabel_inj.mp sameOrigin)
      (EdgeGraph.nodeLabel_inj.mp sameDestination))

theorem Accounted.visit (accounted : Accounted base tried run)
    (wellFormed : base.WellFormed)
    (nondeterministic : base.kind = .nondeterministic) {edge : Edge}
    (untouched : Untouched base run.automaton edge) :
    Accounted base (tried + (missingSymbols base edge).length)
        (Generalization.visit harmful run edge) ∧
      ∀ other, other.ends ≠ edge.ends →
        Untouched base run.automaton other →
        Untouched base (Generalization.visit harmful run edge).automaton
          other := by
  obtain ⟨origin, destination, originFound, destinationFound, absent⟩ :=
    untouched
  have notStopped : ¬ run.fault.isSome = true := by simp [accounted.running]
  have missing := missingSymbols_of_extends accounted.grows edge
  have tries : Generalization.visit harmful run edge =
      (missingSymbols base edge).foldl
        (Generalization.attempt harmful origin destination) run := by
    rw [Generalization.visit, if_neg notStopped, accounted.grows.stateIndex?,
      accounted.grows.stateIndex?]
    simp only [originFound, destinationFound, missing]
  have distinct : (missingSymbols base edge).Nodup :=
    List.nodup_range.filter _
  obtain ⟨counted, grown⟩ := accounted.attempts harmful nondeterministic
    (wellFormed.stateIndex?_eq_some_iff.mp originFound).1
    (wellFormed.stateIndex?_eq_some_iff.mp destinationFound).1 distinct
    (fun _ member => (mem_missingSymbols.mp member).1) absent
  rw [tries]
  exact ⟨counted, fun _ different others =>
    others.visit wellFormed different originFound destinationFound grown⟩

theorem Accounted.visits (accounted : Accounted base tried run)
    (wellFormed : base.WellFormed)
    (nondeterministic : base.kind = .nondeterministic) {edges : List Edge}
    (distinct : (edges.map Edge.ends).Nodup)
    (untouched : ∀ edge ∈ edges, Untouched base run.automaton edge) :
    Accounted base
      (tried + (edges.map fun edge => (missingSymbols base edge).length).sum)
      (edges.foldl (Generalization.visit harmful) run) := by
  induction edges generalizing run tried with
  | nil => exact accounted
  | cons first later ih =>
      obtain ⟨isNew, laterDistinct⟩ := List.nodup_cons.mp distinct
      obtain ⟨firstUntouched, laterUntouched⟩ :=
        List.forall_mem_cons.mp untouched
      obtain ⟨counted, others⟩ := accounted.visit harmful wellFormed
        nondeterministic firstUntouched
      rw [List.map_cons, List.sum_cons, ← Nat.add_assoc, List.foldl_cons]
      apply ih counted laterDistinct
      intro edge member
      apply others edge _ (laterUntouched edge member)
      intro same
      exact isNew (List.mem_map.mpr ⟨edge, member, same⟩)

end Generalization

namespace EdgeGraph

variable {graph : EdgeGraph} {automaton : Automaton}

/-- The automaton of a graph has no candidate yet: the only edge between two nodes
carries all that lead from one to the other. -/
theorem Realizes.untouched (realizes : Realizes automaton graph)
    (closed : graph.Closed) (labelled : graph.Labelled)
    (distinct : graph.EndsDistinct) {edge : Edge}
    (member : edge ∈ graph.edges) :
    Generalization.Untouched automaton automaton edge := by
  obtain ⟨_, carries⟩ := labelled.carries member
  obtain ⟨origin, originFound⟩ := realizes.exists_stateIndex? carries.isNode
  obtain ⟨destination, destinationFound⟩ :=
    realizes.exists_stateIndex? (closed _ _ _ carries)
  refine ⟨origin, destination, originFound, destinationFound, ?_⟩
  intro symbol missing leads
  obtain ⟨symbolInRange, notOnEdge⟩ :=
    Generalization.mem_missingSymbols.mp missing
  have wellFormed := realizes.wellFormed
  have known := wellFormed.symbolIndex?_eq_some_iff.mpr ⟨symbolInRange, rfl⟩
  obtain ⟨target, ⟨other, otherMember, leaves, enters, onOther⟩, found⟩ :=
    (realizes.leads_iff_carries originFound known).mp leads
  have sameTarget : target = edge.destination := by
    apply nodeLabel_inj.mp
    exact (wellFormed.stateIndex?_eq_some_iff.mp found).2.symm.trans
      (wellFormed.stateIndex?_eq_some_iff.mp destinationFound).2
  rw [distinct.edge_eq otherMember member leaves (enters.trans sameTarget)]
    at onOther
  exact notOnEdge onOther

theorem Realizes.length_missingSymbols (realizes : Realizes automaton graph)
    (ascending : graph.LabelsAscending) {edge : Edge}
    (member : edge ∈ graph.edges) :
    (Generalization.missingSymbols automaton edge).length =
      graph.alphabet.length - edge.labels.length := by
  have spelled : automaton.symbolIndices.map automaton.symbolLabel =
      graph.alphabet := by
    rw [← realizes.alphabet_eq]
    apply List.ext_getElem
    · simp [Automaton.symbolIndices]
    · intro position _ inRange
      simp [Automaton.symbolIndices, Automaton.symbolLabel, inRange]
  have carried : (graph.alphabet.filter (· ∈ edge.labels)) = edge.labels := by
    apply Ascending.eq_of_mem_iff (graph.alphabet_ascending.filter _)
      (ascending edge member)
    intro symbol
    rw [List.mem_filter, decide_eq_true_iff, and_iff_right_iff_imp]
    exact fun onEdge => mem_alphabet.mpr ⟨edge, member, onEdge⟩
  have split := List.length_eq_length_filter_add
    (l := graph.alphabet) (· ∈ edge.labels)
  have missing : (Generalization.missingSymbols automaton edge).length =
      (graph.alphabet.filter (¬ · ∈ edge.labels)).length := by
    rw [← spelled, List.filter_map, List.length_map]
    rfl
  rw [carried] at split
  simp only [decide_not] at missing
  omega

/-- What a run does that tries every symbol that an edge of the graph does not
carry once along it: the automaton grows by the transitions that are kept. -/
structure Tallied (graph : EdgeGraph) (automaton : Automaton)
    (run : Generalization) : Prop where
  running : run.fault = none
  candidates_eq : run.tally.candidates =
    (graph.edges.map fun edge =>
      graph.alphabet.length - edge.labels.length).sum
  decided : run.tally.candidates = run.tally.kept + run.tally.rolledBack
  transitions_eq : run.automaton.transitionCount =
    (graph.edges.map (·.labels.length)).sum + run.tally.kept
  kind_eq : run.automaton.kind = automaton.kind
  states_eq : run.automaton.states = automaton.states
  alphabet_eq : run.automaton.alphabet = automaton.alphabet
  initial_eq : run.automaton.initial = automaton.initial
  finals_eq : run.automaton.finals = automaton.finals

theorem generalize_ranked (links : List Link) (workers : Nat)
    (negative : List Word) {automaton : Automaton}
    (built : (ofLinks links).exactAutomaton = .ok automaton) :
    (ofLinks links).Tallied automaton
      (automaton.generalize workers negative
        ((ofLinks links).ranked.map RankedEdge.edge)) := by
  have closed := closed_of_exactAutomaton built
  have realizes := realizes_of_exactAutomaton built
  have distinct := endsDistinct_ofLinks links
  have ascending := labelsAscending_ofLinks links
  have placed := (ofLinks links).ranked_edges_perm
  have accounted := (Generalization.accounted_start realizes.wellFormed).visits
    (fun extended => extended.acceptsAny workers negative) realizes.wellFormed
    realizes.kind_eq ((placed.map Edge.ends).nodup_iff.mpr distinct)
    (fun edge member => realizes.untouched closed (labelled_ofLinks links)
      distinct (placed.mem_iff.mp member))
  constructor
  case running => exact accounted.running
  case candidates_eq =>
    refine accounted.candidates_eq.trans ?_
    rw [Nat.zero_add, (placed.map _).sum_eq]
    congr 1
    apply List.map_congr_left
    intro edge member
    exact realizes.length_missingSymbols ascending member
  case decided => exact accounted.decided
  case transitions_eq =>
    rw [← realizes.transitionCount_eq closed distinct ascending]
    exact accounted.transitions_eq
  case kind_eq => exact accounted.grows.kind_eq
  case states_eq => exact accounted.grows.states_eq
  case alphabet_eq => exact accounted.grows.alphabet_eq
  case initial_eq => exact accounted.grows.initial_eq
  case finals_eq => exact accounted.grows.finals_eq

end EdgeGraph

namespace IndexedGraph

/-- Where a graph has an automaton, it is ranked exactly if all its nodes are below
the capacity of a table.  A run along the ranked edges then tries every symbol that
an edge does not carry once along it and meets no fault, and the automaton has
grown by exactly the transitions that were kept. -/
theorem generalize_tally (links : List Link) (workers : Nat)
    (negative : List Word) {automaton : Automaton}
    (built : (ofLinks links).withoutTable.exactAutomaton = .ok automaton) :
    ((∃ ranked, (ofLinks links).rank? = some ranked) ↔
        ∀ link ∈ links, link.Below tableCapacity) ∧
      ∀ ranked, (ofLinks links).rank? = some ranked →
        (ofLinks links).withoutTable.Tallied automaton
          (automaton.generalize workers negative
            (ranked.map RankedEdge.edge)) := by
  refine ⟨exists_rank?_ofLinks_iff, ?_⟩
  intro ranked given
  rw [withoutTable_ofLinks] at built ⊢
  rw [(rank?_ofLinks_eq_some_iff.mp given).2]
  exact EdgeGraph.generalize_ranked links workers negative built

/-- Five edges with six of fifteen symbols. -/
theorem winding_tally :
    ∃ automaton ranked,
      (ofLinks EdgeGraph.winding).withoutTable.exactAutomaton =
        .ok automaton ∧
      (ofLinks EdgeGraph.winding).rank? = some ranked ∧
      (automaton.generalize 2 [["b", "b"], ["", ""], ["a"]]
        (ranked.map RankedEdge.edge)).tally = ⟨9, 7, 2⟩ ∧
      (ofLinks EdgeGraph.winding).withoutTable.Tallied automaton
        (automaton.generalize 2 [["b", "b"], ["", ""], ["a"]]
          (ranked.map RankedEdge.edge)) := by
  have closed := (EdgeGraph.labelled_ofLinks EdgeGraph.winding).closed_iff.mpr
    (by unfold EdgeGraph.IsNode; decide)
  obtain ⟨automaton, built, _⟩ := EdgeGraph.exactAutomaton_realizes closed
  rw [← withoutTable_ofLinks] at built
  obtain ⟨isRanked, tallied⟩ :=
    generalize_tally EdgeGraph.winding 2 [["b", "b"], ["", ""], ["a"]] built
  obtain ⟨ranked, isRanking⟩ := isRanked.mpr
    (by unfold Link.Below; decide)
  have evaluated :
      ((ofLinks EdgeGraph.winding).withoutTable.exactAutomaton.toOption.map
        fun exact => (exact.generalize 2 [["b", "b"], ["", ""], ["a"]]
          (((ofLinks EdgeGraph.winding).rank?.getD []).map
            RankedEdge.edge)).tally) = some ⟨9, 7, 2⟩ := by decide +kernel
  rw [built, isRanking] at evaluated
  exact ⟨automaton, ranked, built, isRanking, Option.some.inj evaluated,
    tallied ranked isRanking⟩

/-- A way through a node for which no table has room. -/
def farNode : List Link :=
  [⟨0, 2 ^ 62, "a"⟩, ⟨2 ^ 62, 1, "b"⟩]

/-- The automaton has a state for every node, whatever its number is. -/
theorem farNode_unranked :
    (∃ automaton,
      (ofLinks farNode).withoutTable.exactAutomaton = .ok automaton) ∧
      (ofLinks farNode).rank? = none := by
  have closed := (EdgeGraph.labelled_ofLinks farNode).closed_iff.mpr
    (by unfold EdgeGraph.IsNode; decide)
  obtain ⟨automaton, built, _⟩ := EdgeGraph.exactAutomaton_realizes closed
  rw [← withoutTable_ofLinks] at built
  exact ⟨⟨automaton, built⟩, by decide +kernel⟩

end IndexedGraph

end Recognizer
