import Recognizer.Proofs.Automaton.Shape

/-!
# Renaming states

When the states of an automaton get new names they take new positions, because
states stand in the order of their labels.  What a renaming says is therefore
said by labels: the new states are the new names, and initial state, final states
and destinations are the renamed ones.  There is only one such automaton, and an
automaton whose states have the new names already is its own renaming.
-/

namespace Recognizer

namespace Automaton

/-- The second automaton is the first one with the state at every position
renamed. -/
structure Renaming (name : Nat → String) (automaton renamed : Automaton) :
    Prop where
  wellFormed : renamed.WellFormed
  kind_eq : renamed.kind = automaton.kind
  alphabet_eq : renamed.alphabet = automaton.alphabet
  states_perm : renamed.states.Perm (automaton.stateIndices.map name)
  initialLabel_eq : renamed.initialLabel = name automaton.initial
  finals_perm : renamed.finalLabels.Perm (automaton.finals.map name)
  destinations_perm : ∀ state < automaton.states.length, ∀ position,
    renamed.stateIndex? (name state) = some position →
      ∀ symbol < automaton.alphabet.length,
        (renamed.destinationLabels position symbol).Perm
          ((automaton.destinations state symbol).map name)

theorem map_stateLabel_stateIndices (automaton : Automaton) :
    automaton.stateIndices.map automaton.stateLabel = automaton.states := by
  apply List.ext_getElem
  · simp [stateIndices]
  · intro position _ inRange
    simp [stateIndices, stateLabel, List.getD, inRange]

namespace Renaming

variable {name : Nat → String} {automaton renamed other : Automaton}

theorem length_states (renames : Renaming name automaton renamed) :
    renamed.states.length = automaton.states.length := by
  rw [renames.states_perm.length_eq]
  simp [stateIndices]

theorem exists_stateIndex? (renames : Renaming name automaton renamed)
    {position : Nat} (inRange : position < renamed.states.length) :
    ∃ state < automaton.states.length,
      renamed.stateIndex? (name state) = some position := by
  have named : renamed.stateLabel position ∈
      automaton.stateIndices.map name :=
    renames.states_perm.mem_iff.mp (getD_mem inRange)
  obtain ⟨state, member, same⟩ := List.mem_map.mp named
  refine ⟨state, List.mem_range.mp member, ?_⟩
  exact renames.wellFormed.stateIndex?_eq_some_iff.mpr ⟨inRange, same.symm⟩

theorem unique (first : Renaming name automaton renamed)
    (second : Renaming name automaton other) : renamed = other := by
  have states_eq : renamed.states = other.states := by
    apply Ascending.eq_of_mem_iff first.wellFormed.states_ascending
      second.wellFormed.states_ascending
    intro label
    rw [first.states_perm.mem_iff, second.states_perm.mem_iff]
  apply first.wellFormed.eq_of_labels second.wellFormed
  · exact first.kind_eq.trans second.kind_eq.symm
  · exact states_eq
  · exact first.alphabet_eq.trans second.alphabet_eq.symm
  · exact first.initialLabel_eq.trans second.initialLabel_eq.symm
  · intro label
    rw [first.finals_perm.mem_iff, second.finals_perm.mem_iff]
  · intro position inRange symbol symbolInRange label
    obtain ⟨state, stateInRange, found⟩ := first.exists_stateIndex? inRange
    have foundOther : other.stateIndex? (name state) = some position := by
      rw [stateIndex?, ← states_eq]
      exact found
    rw [first.alphabet_eq] at symbolInRange
    rw [(first.destinations_perm state stateInRange position found symbol
        symbolInRange).mem_iff,
      (second.destinations_perm state stateInRange position foundOther symbol
        symbolInRange).mem_iff]

theorem of_named (wellFormed : automaton.WellFormed)
    (named : ∀ state < automaton.states.length,
      automaton.stateLabel state = name state) :
    Renaming name automaton automaton where
  wellFormed := wellFormed
  kind_eq := rfl
  alphabet_eq := rfl
  states_perm := by
    apply List.Perm.of_eq
    rw [← map_stateLabel_stateIndices]
    apply List.map_congr_left
    intro state member
    exact named state (List.mem_range.mp member)
  initialLabel_eq := named _ wellFormed.initial_lt
  finals_perm := by
    apply List.Perm.of_eq
    apply List.map_congr_left
    intro state member
    exact named state (wellFormed.finals_lt state member)
  destinations_perm := by
    intro state inRange position found symbol _
    rw [← named state inRange] at found
    have same : position = state :=
      Option.some.inj (found.symm.trans
        (wellFormed.stateIndex?_eq_some_iff.mpr ⟨inRange, rfl⟩))
    rw [same]
    apply List.Perm.of_eq
    apply List.map_congr_left
    intro next leads
    exact named next (wellFormed.destination_lt leads)

end Renaming

end Automaton

end Recognizer
