import Recognizer.Proofs.Automaton.Building
import Recognizer.Snapshot.Basic

/-!
# Restoring snapshots

A snapshot names everything by labels and leaves out the entries without
destinations.  Nothing is lost by that: the draft of the snapshot of an
automaton records the labels of all destinations, and since labels and positions
determine each other, the automaton that is built is the one that was copied.
-/

namespace Recognizer

namespace Snapshot

variable (snapshot : Snapshot)

/-- The draft from which a snapshot is restored. -/
def draft : Draft :=
  Draft.ofDeclarations snapshot.declarations

variable {snapshot}

theorem mem_declarations {declaration : Declaration} :
    declaration ∈ snapshot.declarations ↔
      declaration = .states snapshot.states ∨
      declaration = .alphabet snapshot.alphabet ∨
      declaration = .initial snapshot.initial ∨
      declaration = .finals snapshot.finals ∨
      ∃ entry ∈ snapshot.transitions, declaration = .transition entry := by
  simp only [declarations, List.mem_cons, List.mem_map,
    eq_comm (a := declaration)]

theorem draft_states : snapshot.draft.states = snapshot.states := by
  rw [draft, Draft.states_ofDeclarations]
  simp [declarations, Declaration.stateLabels, List.flatMap_map]

theorem draft_alphabet : snapshot.draft.alphabet = snapshot.alphabet := by
  rw [draft, Draft.alphabet_ofDeclarations]
  simp [declarations, Declaration.symbols, List.flatMap_map]

theorem draft_initial : snapshot.draft.initial = some snapshot.initial := by
  have none : (snapshot.transitions.map Declaration.transition).filterMap
      Declaration.initial? = [] := by
    simp [List.filterMap_map, Function.comp_def, Declaration.initial?]
  rw [draft, Draft.initial_ofDeclarations]
  simp [declarations, List.filterMap_cons, Declaration.initial?, none]

theorem draft_finals : snapshot.draft.finals = snapshot.finals := by
  rw [draft, Draft.finals_ofDeclarations]
  simp [declarations, Declaration.finalLabels, List.flatMap_map]

end Snapshot

namespace Automaton

variable {automaton : Automaton} (wellFormed : automaton.WellFormed)

include wellFormed

theorem record_snapshot {state symbol : Nat}
    (stateInRange : state < automaton.states.length)
    (symbolInRange : symbol < automaton.alphabet.length)
    {declaration : Declaration}
    (member : declaration ∈ automaton.snapshot.declarations)
    (previous : List String) :
    declaration.record (automaton.stateLabel state)
        (automaton.symbolLabel symbol) previous =
          automaton.destinationLabels state symbol ∨
      declaration.record (automaton.stateLabel state)
        (automaton.symbolLabel symbol) previous = previous := by
  rcases Snapshot.mem_declarations.mp member with
    rfl | rfl | rfl | rfl | ⟨entry, listed, rfl⟩
  · exact Or.inr rfl
  · exact Or.inr rfl
  · exact Or.inr rfl
  · exact Or.inr rfl
  · obtain ⟨arc, arcMember, rfl⟩ := List.mem_map.mp listed
    obtain ⟨arcState, arcSymbol, equal, _⟩ := mem_arcs.mp arcMember
    simp only [Declaration.record]
    split
    · rename_i sameKey
      simp only [Transition.key, transitionOf, List.cons.injEq, and_true]
        at sameKey
      have stateEq : arc.state = state :=
        (getD_inj wellFormed.states_nodup arcState stateInRange).mp sameKey.1
      have symbolEq : arc.symbol = symbol :=
        (getD_inj wellFormed.alphabet_nodup arcSymbol symbolInRange).mp
          sameKey.2
      rw [stateEq, symbolEq] at equal
      exact Or.inl (congrArg (List.map automaton.stateLabel) equal)
    · exact Or.inr rfl

theorem snapshot_destinations {state symbol : Nat}
    (stateInRange : state < automaton.states.length)
    (symbolInRange : symbol < automaton.alphabet.length) :
    TransitionTable.destinations automaton.snapshot.draft.transitions
        (automaton.stateLabel state) (automaton.symbolLabel symbol) =
      automaton.destinationLabels state symbol := by
  have agree : ∀ declaration ∈ automaton.snapshot.declarations, ∀ previous,
      _ ∨ _ := fun _ member previous =>
    record_snapshot wellFormed stateInRange symbolInRange member previous
  rw [Snapshot.draft, Draft.destinations_ofDeclarations]
  by_cases empty : automaton.destinations state symbol = []
  · have noLabels : automaton.destinationLabels state symbol = [] := by
      rw [destinationLabels, empty, List.map_nil]
    rw [noLabels] at agree ⊢
    exact Declaration.foldl_record_self agree
  · let arc : Arc := ⟨state, symbol, automaton.destinations state symbol⟩
    have arcMember : arc ∈ automaton.arcs :=
      mem_arcs.mpr ⟨stateInRange, symbolInRange, rfl, empty⟩
    apply Declaration.foldl_record_of_agree agree
    refine ⟨.transition (automaton.transitionOf arc), ?_, fun _ => if_pos rfl⟩
    apply Snapshot.mem_declarations.mpr
    simp only [reduceCtorEq, false_or]
    exact ⟨_, List.mem_map_of_mem arcMember, rfl⟩

theorem snapshot_consistent : automaton.snapshot.draft.Consistent := by
  have label_mem : ∀ {state}, state < automaton.states.length →
      automaton.stateLabel state ∈ automaton.states :=
    fun inRange => getD_mem inRange
  have final_mem : ∀ label ∈ automaton.finalLabels,
      label ∈ automaton.states := by
    intro label member
    obtain ⟨state, final, rfl⟩ := List.mem_map.mp member
    exact label_mem (wellFormed.finals_lt state final)
  constructor
  · rw [Snapshot.draft_states, Snapshot.draft_initial]
    exact ⟨_, label_mem wellFormed.initial_lt, rfl⟩
  · rw [Snapshot.draft_states, Snapshot.draft_finals]
    exact final_mem
  · rw [Snapshot.draft_states, Snapshot.draft_alphabet]
    apply Draft.transitions_ofDeclarations_within
    intro declaration member
    rcases Snapshot.mem_declarations.mp member with
      rfl | rfl | rfl | rfl | ⟨entry, listed, rfl⟩
    · trivial
    · trivial
    · exact label_mem wellFormed.initial_lt
    · exact final_mem
    · obtain ⟨arc, arcMember, rfl⟩ := List.mem_map.mp listed
      obtain ⟨arcState, arcSymbol, equal, _⟩ := mem_arcs.mp arcMember
      refine ⟨label_mem arcState, getD_mem arcSymbol, ?_⟩
      intro label destination
      obtain ⟨target, leads, rfl⟩ := List.mem_map.mp destination
      rw [equal] at leads
      exact label_mem (wellFormed.destination_lt leads)

/-! ## The restored automaton -/

theorem snapshot_assemble_states (kind : Kind) :
    (automaton.snapshot.draft.assemble kind).states = automaton.states := by
  rw [Draft.states_assemble, Snapshot.draft_states]
  exact Ascending.ofList_eq_self wellFormed.states_ascending

theorem snapshot_assemble_alphabet (kind : Kind) :
    (automaton.snapshot.draft.assemble kind).alphabet =
      automaton.alphabet := by
  rw [Draft.alphabet_assemble, Snapshot.draft_alphabet]
  exact Ascending.ofList_eq_self wellFormed.alphabet_ascending

theorem snapshot_assemble_initial (kind : Kind) :
    (automaton.snapshot.draft.assemble kind).initial =
      automaton.initial := by
  have inRange := wellFormed.initial_lt
  have label : automaton.snapshot.initial =
      automaton.states[automaton.initial] :=
    List.getD_eq_getElem _ _ inRange
  rw [Draft.initial_assemble, snapshot_assemble_states wellFormed,
    Snapshot.draft_initial, Option.getD_some, label]
  exact wellFormed.states_nodup.idxOf_getElem _ inRange

theorem snapshot_assemble_finals (kind : Kind) :
    (automaton.snapshot.draft.assemble kind).finals = automaton.finals := by
  rw [Draft.finals_assemble, snapshot_assemble_states wellFormed,
    Snapshot.draft_finals]
  exact Draft.positions_map_getD wellFormed.states_nodup
    wellFormed.finals_ascending wellFormed.finals_lt

theorem snapshot_assemble_destinations (kind : Kind) {state symbol : Nat}
    (stateInRange : state < automaton.states.length)
    (symbolInRange : symbol < automaton.alphabet.length) :
    (automaton.snapshot.draft.assemble kind).destinations state symbol =
      automaton.destinations state symbol := by
  have states := snapshot_assemble_states wellFormed kind
  have alphabet := snapshot_assemble_alphabet wellFormed kind
  have assembled := Draft.destinations_assemble
    (states.symm ▸ stateInRange) (alphabet.symm ▸ symbolInRange)
  rw [assembled, stateLabel, symbolLabel, states, alphabet]
  have recorded := snapshot_destinations wellFormed stateInRange symbolInRange
  rw [stateLabel, symbolLabel] at recorded
  rw [recorded]
  exact Draft.positions_map_getD wellFormed.states_nodup
    (wellFormed.destinations_ascending state symbol)
    (fun _ leads => wellFormed.destination_lt leads)

theorem restore_snapshot : automaton.snapshot.restore = .ok automaton := by
  have consistent := snapshot_consistent wellFormed
  have states := snapshot_assemble_states wellFormed automaton.kind
  have alphabet := snapshot_assemble_alphabet wellFormed automaton.kind
  have atMostOne : automaton.kind = .deterministic →
      (automaton.snapshot.draft.assemble automaton.kind).violation? =
        none := by
    intro deterministic
    apply violation?_eq_none_iff.mpr
    intro state stateInRange symbol symbolInRange
    rw [states] at stateInRange
    rw [alphabet] at symbolInRange
    rw [snapshot_assemble_destinations wellFormed _ stateInRange
      symbolInRange]
    exact wellFormed.destinations_le_one deterministic state symbol
  apply Draft.build_eq_ok_iff.mpr
  refine ⟨consistent, atMostOne, ?_⟩
  apply (Draft.assemble_wellFormed consistent atMostOne).ext wellFormed rfl
    states alphabet (snapshot_assemble_initial wellFormed _)
    (snapshot_assemble_finals wellFormed _)
  intro state stateInRange symbol symbolInRange
  rw [states] at stateInRange
  rw [alphabet] at symbolInRange
  exact snapshot_assemble_destinations wellFormed _ stateInRange
    symbolInRange

end Automaton

end Recognizer
