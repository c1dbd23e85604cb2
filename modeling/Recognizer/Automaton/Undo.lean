import Recognizer.Automaton.Basic

/-!
# Adding transitions and taking them back

Adding a transition changes the automaton and returns a record of the
destinations that its state and symbol had before.  Undoing a record restores
those destinations and touches no other entry, so records of different entries
can be undone in any order, and records of one entry newest first.

An addition that is refused also leaves an automaton behind.  That it is the one
from before is a result (`addTransition_of_error`) and not part of the definition.
-/

namespace Recognizer

/-- The destinations of one state and symbol before a transition was added. -/
structure Undo where
  state : Nat
  symbol : Nat
  previous : List Nat
deriving DecidableEq

/-- The automaton that an addition leaves behind, and its record if it went
through. -/
structure Addition (α : Type) where
  automaton : α
  outcome : Except DeterminismViolation Undo

namespace Automaton

/-- Adds a destination to a state and symbol.  A destination that is there
already is recorded as well; a second one for a deterministic automaton is
refused. -/
def addTransition (automaton : Automaton) (state symbol destination : Nat) :
    Addition Automaton :=
  let previous := automaton.destinations state symbol
  if destination ∈ previous then
    ⟨automaton, .ok ⟨state, symbol, previous⟩⟩
  else if automaton.kind = .deterministic ∧ previous ≠ [] then
    ⟨automaton, .error
      { state := automaton.stateLabel state
        symbol := automaton.symbolLabel symbol
        count := previous.length + 1 }⟩
  else
    ⟨automaton.setDestinations state symbol
        (Ascending.insert destination previous),
      .ok ⟨state, symbol, previous⟩⟩

/-- An addition that goes through, with its record. -/
def add (automaton : Automaton) (state symbol destination : Nat) :
    Except DeterminismViolation (Automaton × Undo) :=
  let addition := automaton.addTransition state symbol destination
  addition.outcome.map fun record => (addition.automaton, record)

theorem add_eq (automaton : Automaton) (state symbol destination : Nat) :
    automaton.add state symbol destination =
      if destination ∈ automaton.destinations state symbol then
        .ok (automaton,
          ⟨state, symbol, automaton.destinations state symbol⟩)
      else if automaton.kind = .deterministic ∧
          automaton.destinations state symbol ≠ [] then
        .error
          { state := automaton.stateLabel state
            symbol := automaton.symbolLabel symbol
            count := (automaton.destinations state symbol).length + 1 }
      else
        .ok (automaton.setDestinations state symbol
            (Ascending.insert destination
              (automaton.destinations state symbol)),
          ⟨state, symbol, automaton.destinations state symbol⟩) := by
  simp only [add, addTransition]
  split
  · rfl
  · split
    · rfl
    · rfl

theorem addTransition_of_ok {automaton extended : Automaton} {record : Undo}
    {state symbol destination : Nat}
    (added : automaton.add state symbol destination =
      .ok (extended, record)) :
    automaton.addTransition state symbol destination =
      ⟨extended, .ok record⟩ := by
  unfold add at added
  generalize automaton.addTransition state symbol destination = addition
    at added
  obtain ⟨left, outcome⟩ := addition
  cases outcome with
  | error violation => cases added
  | ok made =>
      cases added
      rfl

theorem add_eq_error_of_outcome {automaton : Automaton}
    {violation : DeterminismViolation} {state symbol destination : Nat}
    (refused : (automaton.addTransition state symbol destination).outcome =
      .error violation) :
    automaton.add state symbol destination = .error violation := by
  simp only [add, refused, Except.map]

theorem addTransition_of_error {automaton : Automaton}
    {violation : DeterminismViolation} {state symbol destination : Nat}
    (refused : automaton.add state symbol destination = .error violation) :
    automaton.addTransition state symbol destination =
      ⟨automaton, .error violation⟩ := by
  rw [add_eq] at refused
  unfold addTransition
  split at refused
  · cases refused
  · rename_i absent
    split at refused
    · rename_i occupied
      cases refused
      rw [if_neg absent, if_pos occupied]
    · cases refused

/-- Restores the destinations that a record holds. -/
def undo (automaton : Automaton) (record : Undo) : Automaton :=
  automaton.setDestinations record.state record.symbol record.previous

/-- Undoing the addition that was made last restores the automaton. -/
theorem undo_add {automaton extended : Automaton} {record : Undo}
    {state symbol destination : Nat}
    (added : automaton.add state symbol destination =
      .ok (extended, record)) :
    extended.undo record = automaton := by
  rw [add_eq] at added
  split at added
  · cases added
    exact setDestinations_destinations automaton state symbol
  · split at added
    · cases added
    · cases added
      exact (setDestinations_setDestinations automaton state symbol _ _).trans
        (setDestinations_destinations automaton state symbol)

end Automaton

/-- Whether the recorded destinations are the present ones. -/
def Undo.isNoop (record : Undo) (automaton : Automaton) : Bool :=
  automaton.destinations record.state record.symbol == record.previous

end Recognizer
