import Recognizer.Automaton.Undo
import Recognizer.Proofs.Automaton.Runs

/-!
# Adding transitions and taking them back

Everything an addition can do is said once, in `add_eq_ok_iff` and
`add_eq_error_iff`.  From it follows what an addition keeps: the shape of the
automaton, and every transition that was there.
-/

namespace Recognizer

namespace Automaton

/-- An addition that goes through records the destinations that were there,
and either finds the new one among them or inserts it. -/
theorem add_eq_ok_iff {automaton extended : Automaton} {record : Undo}
    {state symbol destination : Nat} :
    automaton.add state symbol destination = .ok (extended, record) ↔
      record = ⟨state, symbol, automaton.destinations state symbol⟩ ∧
      ((destination ∈ automaton.destinations state symbol ∧
          extended = automaton) ∨
        (destination ∉ automaton.destinations state symbol ∧
          (automaton.kind = .deterministic →
            automaton.destinations state symbol = []) ∧
          extended = automaton.setDestinations state symbol
            (Ascending.insert destination
              (automaton.destinations state symbol)))) := by
  rw [add_eq]
  by_cases present : destination ∈ automaton.destinations state symbol
  · rw [if_pos present, Except.ok.injEq, Prod.mk.injEq]
    constructor
    · intro equal
      exact ⟨equal.2.symm, Or.inl ⟨present, equal.1.symm⟩⟩
    · intro outcome
      obtain ⟨sameRecord, ⟨_, same⟩ | ⟨absent, _⟩⟩ := outcome
      · exact ⟨same.symm, sameRecord.symm⟩
      · exact absurd present absent
  · rw [if_neg present]
    by_cases refused : automaton.kind = .deterministic ∧
        automaton.destinations state symbol ≠ []
    · rw [if_pos refused]
      constructor
      · intro impossible
        cases impossible
      · intro outcome
        obtain ⟨_, ⟨old, _⟩ | ⟨_, alone, _⟩⟩ := outcome
        · exact absurd old present
        · exact absurd (alone refused.1) refused.2
    · rw [if_neg refused, Except.ok.injEq, Prod.mk.injEq]
      constructor
      · intro equal
        refine ⟨equal.2.symm, Or.inr ⟨present, ?_, equal.1.symm⟩⟩
        intro deterministic
        exact Decidable.byContradiction fun occupied =>
          refused ⟨deterministic, occupied⟩
      · intro outcome
        obtain ⟨sameRecord, ⟨old, _⟩ | ⟨_, _, same⟩⟩ := outcome
        · exact absurd old present
        · exact ⟨same.symm, sameRecord.symm⟩

/-- Only a second destination in a deterministic automaton is refused. -/
theorem add_eq_error_iff {automaton : Automaton}
    {violation : DeterminismViolation} {state symbol destination : Nat} :
    automaton.add state symbol destination = .error violation ↔
      destination ∉ automaton.destinations state symbol ∧
      automaton.kind = .deterministic ∧
      automaton.destinations state symbol ≠ [] ∧
      violation =
        { state := automaton.stateLabel state
          symbol := automaton.symbolLabel symbol
          count := (automaton.destinations state symbol).length + 1 } := by
  rw [add_eq]
  by_cases present : destination ∈ automaton.destinations state symbol
  · simp [present]
  · rw [if_neg present]
    by_cases refused : automaton.kind = .deterministic ∧
        automaton.destinations state symbol ≠ []
    · rw [if_pos refused, Except.error.injEq]
      constructor
      · intro equal
        exact ⟨present, refused.1, refused.2, equal.symm⟩
      · exact fun violated => violated.2.2.2.symm
    · rw [if_neg refused]
      constructor
      · intro impossible
        cases impossible
      · exact fun violated => absurd ⟨violated.2.1, violated.2.2.1⟩ refused

theorem add_of_nondeterministic {automaton : Automaton}
    (nondeterministic : automaton.kind = .nondeterministic)
    (state symbol destination : Nat) :
    ∃ extended record,
      automaton.add state symbol destination = .ok (extended, record) := by
  cases result : automaton.add state symbol destination with
  | ok added => exact ⟨added.1, added.2, rfl⟩
  | error violation =>
      have refused := (add_eq_error_iff.mp result).2.1
      rw [nondeterministic] at refused
      cases refused

end Automaton

/-- A record whose destinations fit the shape of an automaton. -/
structure Undo.Fits (record : Undo) (automaton : Automaton) : Prop where
  ascending : StrictlyAscending record.previous
  inRange : ∀ destination ∈ record.previous,
    destination < automaton.states.length
  atMostOne : automaton.kind = .deterministic → record.previous.length ≤ 1

theorem Undo.isNoop_iff {record : Undo} {automaton : Automaton} :
    record.isNoop automaton = true ↔
      automaton.destinations record.state record.symbol = record.previous :=
  beq_iff_eq

theorem Undo.Fits.congr {record : Undo} {first second : Automaton}
    (fits : record.Fits first) (statesEq : second.states = first.states)
    (kindEq : second.kind = first.kind) : record.Fits second where
  ascending := fits.ascending
  inRange := by
    rw [statesEq]
    exact fits.inRange
  atMostOne := by
    rw [kindEq]
    exact fits.atMostOne

namespace Automaton

section Added

variable {automaton extended : Automaton} {record : Undo}
  {state symbol destination : Nat}

theorem add_states
    (added : automaton.add state symbol destination = .ok (extended, record)) :
    extended.states = automaton.states := by
  obtain ⟨_, ⟨_, rfl⟩ | ⟨_, _, rfl⟩⟩ := add_eq_ok_iff.mp added
  · rfl
  · rfl

theorem add_alphabet
    (added : automaton.add state symbol destination = .ok (extended, record)) :
    extended.alphabet = automaton.alphabet := by
  obtain ⟨_, ⟨_, rfl⟩ | ⟨_, _, rfl⟩⟩ := add_eq_ok_iff.mp added
  · rfl
  · rfl

theorem add_kind
    (added : automaton.add state symbol destination = .ok (extended, record)) :
    extended.kind = automaton.kind := by
  obtain ⟨_, ⟨_, rfl⟩ | ⟨_, _, rfl⟩⟩ := add_eq_ok_iff.mp added
  · rfl
  · rfl

variable (wellFormed : automaton.WellFormed)

include wellFormed

theorem WellFormed.add (inRange : destination < automaton.states.length)
    (added : automaton.add state symbol destination = .ok (extended, record)) :
    extended.WellFormed := by
  obtain ⟨_, ⟨_, rfl⟩ | ⟨_, alone, rfl⟩⟩ := add_eq_ok_iff.mp added
  · exact wellFormed
  · apply wellFormed.setDestinations
    · exact Ascending.insert_strictlyAscending destination
        (wellFormed.destinations_ascending state symbol)
    · intro other member
      rcases Ascending.mem_insert.mp member with new | old
      · exact new ▸ inRange
      · exact wellFormed.destination_lt old
    · intro deterministic
      rw [alone deterministic]
      simp [Ascending.insert]

theorem WellFormed.fits_add
    (added : automaton.add state symbol destination = .ok (extended, record)) :
    record.Fits automaton := by
  obtain ⟨rfl, _⟩ := add_eq_ok_iff.mp added
  constructor
  · exact wellFormed.destinations_ascending state symbol
  · exact fun _ leads => wellFormed.destination_lt leads
  · exact fun deterministic =>
      wellFormed.destinations_le_one deterministic state symbol

/-- Undoing a record that fits keeps the shape, also when the record is an
old one. -/
theorem WellFormed.undo (fits : record.Fits automaton) :
    (automaton.undo record).WellFormed :=
  wellFormed.setDestinations record.state record.symbol fits.ascending
    fits.inRange fits.atMostOne

variable (stateInRange : state < automaton.states.length)
  (symbolInRange : symbol < automaton.alphabet.length)

include stateInRange symbolInRange

theorem WellFormed.mem_destinations_add
    (added : automaton.add state symbol destination = .ok (extended, record))
    (other : Nat) :
    other ∈ extended.destinations state symbol ↔
      other = destination ∨ other ∈ automaton.destinations state symbol := by
  obtain ⟨_, ⟨present, rfl⟩ | ⟨_, _, rfl⟩⟩ := add_eq_ok_iff.mp added
  · constructor
    · exact Or.inr
    · intro either
      rcases either with new | old
      · exact new ▸ present
      · exact old
  · rw [wellFormed.destinations_setDestinations stateInRange symbolInRange]
    exact Ascending.mem_insert

theorem WellFormed.extends_add
    (added : automaton.add state symbol destination = .ok (extended, record)) :
    Extends automaton extended := by
  obtain ⟨_, ⟨_, rfl⟩ | ⟨_, _, rfl⟩⟩ := add_eq_ok_iff.mp added
  · exact Extends.refl extended
  · apply extends_setDestinations
    · intro other member
      exact Ascending.mem_insert.mpr (Or.inr member)
    · exact wellFormed.destinations_setDestinations stateInRange
        symbolInRange _

/-- The record is that of a no-op exactly when the destination was there. -/
theorem WellFormed.isNoop_add
    (added : automaton.add state symbol destination = .ok (extended, record)) :
    record.isNoop extended = true ↔
      destination ∈ automaton.destinations state symbol := by
  rw [Undo.isNoop_iff]
  have members := wellFormed.mem_destinations_add stateInRange symbolInRange
    added destination
  obtain ⟨rfl, ⟨present, rfl⟩ | ⟨absent, _, rfl⟩⟩ := add_eq_ok_iff.mp added
  · simp [present]
  · constructor
    · intro same
      rw [same] at members
      exact members.mpr (Or.inl rfl)
    · exact fun present => absurd present absent

end Added

theorem Extends.add {base extended baseAdded extendedAdded : Automaton}
    {baseRecord extendedRecord : Undo} {state symbol destination : Nat}
    (grows : Extends base extended) (baseShape : base.WellFormed)
    (extendedShape : extended.WellFormed)
    (stateInRange : state < base.states.length)
    (symbolInRange : symbol < base.alphabet.length)
    (baseAddition : base.add state symbol destination =
      .ok (baseAdded, baseRecord))
    (extendedAddition : extended.add state symbol destination =
      .ok (extendedAdded, extendedRecord)) :
    Extends baseAdded extendedAdded := by
  have extendedStateInRange : state < extended.states.length := by
    rw [grows.states_eq]
    exact stateInRange
  have extendedSymbolInRange : symbol < extended.alphabet.length := by
    rw [grows.alphabet_eq]
    exact symbolInRange
  have baseGrows := baseShape.extends_add stateInRange symbolInRange
    baseAddition
  have extendedGrows := extendedShape.extends_add extendedStateInRange
    extendedSymbolInRange extendedAddition
  have whole := grows.trans extendedGrows
  refine
    { kind_eq := whole.kind_eq.trans baseGrows.kind_eq.symm
      states_eq := whole.states_eq.trans baseGrows.states_eq.symm
      alphabet_eq := whole.alphabet_eq.trans baseGrows.alphabet_eq.symm
      initial_eq := whole.initial_eq.trans baseGrows.initial_eq.symm
      finals_eq := whole.finals_eq.trans baseGrows.finals_eq.symm
      keeps := ?_ }
  intro otherState otherSymbol other leads
  by_cases same : state = otherState ∧ symbol = otherSymbol
  · obtain ⟨rfl, rfl⟩ := same
    apply (extendedShape.mem_destinations_add extendedStateInRange
      extendedSymbolInRange extendedAddition other).mpr
    rcases (baseShape.mem_destinations_add stateInRange symbolInRange
      baseAddition other).mp leads with new | old
    · exact Or.inl new
    · exact Or.inr (grows.keeps old)
  · apply whole.keeps
    obtain ⟨_, ⟨_, rfl⟩ | ⟨_, _, rfl⟩⟩ := add_eq_ok_iff.mp baseAddition
    · exact leads
    · rw [destinations_setDestinations_of_ne] at leads
      · exact leads
      · by_cases sameState : state = otherState
        · exact Or.inr fun sameSymbol => same ⟨sameState, sameSymbol⟩
        · exact Or.inl sameState

end Automaton

end Recognizer
