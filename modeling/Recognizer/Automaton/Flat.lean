import Recognizer.Automaton.Undo

/-!
# Automata in one table

An automaton is stored with the entries of all rows in one table, one row behind
the other, and the place of an entry is computed from its state and symbol.  It is
computed for a state and a symbol of the automaton: another symbol would lead into
the row of another state.
-/

namespace Recognizer

/-- An automaton with the entries of all rows in one table. -/
structure FlatAutomaton where
  kind : Kind
  states : List String
  alphabet : List String
  initial : Nat
  finals : List Nat
  /-- The ascending destinations, by state and then by symbol. -/
  table : List (List Nat)
deriving DecidableEq

namespace FlatAutomaton

/-- The place of a state and symbol in the table. -/
def transitionIndex (automaton : FlatAutomaton) (state symbol : Nat) : Nat :=
  state * automaton.alphabet.length + symbol

def destinations (automaton : FlatAutomaton) (state symbol : Nat) : List Nat :=
  automaton.table.getD (automaton.transitionIndex state symbol) []

/-- The same automaton with other destinations for one state and symbol. -/
def setDestinations (automaton : FlatAutomaton) (state symbol : Nat)
    (destinations : List Nat) : FlatAutomaton :=
  { automaton with
    table := automaton.table.set (automaton.transitionIndex state symbol)
      destinations }

/-- Adds a destination to a state and symbol, with the refusals of
`Automaton.addTransition`. -/
def addTransition (automaton : FlatAutomaton)
    (state symbol destination : Nat) : Addition FlatAutomaton :=
  let previous := automaton.destinations state symbol
  if destination ∈ previous then
    ⟨automaton, .ok ⟨state, symbol, previous⟩⟩
  else if automaton.kind = .deterministic ∧ previous ≠ [] then
    ⟨automaton, .error
      { state := automaton.states.getD state ""
        symbol := automaton.alphabet.getD symbol ""
        count := previous.length + 1 }⟩
  else
    ⟨automaton.setDestinations state symbol
        (Ascending.insert destination previous),
      .ok ⟨state, symbol, previous⟩⟩

/-- Restores the destinations that a record holds. -/
def undo (automaton : FlatAutomaton) (record : Undo) : FlatAutomaton :=
  automaton.setDestinations record.state record.symbol record.previous

end FlatAutomaton

/-- The automaton as it is stored. -/
def Automaton.flat (automaton : Automaton) : FlatAutomaton where
  kind := automaton.kind
  states := automaton.states
  alphabet := automaton.alphabet
  initial := automaton.initial
  finals := automaton.finals
  table := automaton.rows.flatten

end Recognizer
