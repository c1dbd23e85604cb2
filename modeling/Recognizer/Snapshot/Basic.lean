import Recognizer.Automaton.Draft

/-!
# Snapshots

A snapshot is the copy of an automaton that is stored: labels only, and only
those transition entries that have a destination.  Restoring one goes through
a draft, so a snapshot that was changed by hand is checked like any other
declaration.
-/

namespace Recognizer

/-- A label based copy of an automaton. -/
structure Snapshot where
  kind : Kind
  states : List String
  alphabet : List String
  initial : String
  finals : List String
  transitions : List Transition
deriving DecidableEq

/-- The entry of a snapshot for one arc. -/
def Automaton.transitionOf (automaton : Automaton) (arc : Arc) :
    Transition :=
  { origin := automaton.stateLabel arc.state
    symbol := automaton.symbolLabel arc.symbol
    destinations := arc.destinations.map automaton.stateLabel }

def Automaton.snapshot (automaton : Automaton) : Snapshot :=
  { kind := automaton.kind
    states := automaton.states
    alphabet := automaton.alphabet
    initial := automaton.initialLabel
    finals := automaton.finalLabels
    transitions := automaton.arcs.map automaton.transitionOf }

namespace Snapshot

/-- What a snapshot declares; a later entry for the same origin and symbol
replaces an earlier one. -/
def declarations (snapshot : Snapshot) : List Declaration :=
  .states snapshot.states
    :: .alphabet snapshot.alphabet
    :: .initial snapshot.initial
    :: .finals snapshot.finals
    :: snapshot.transitions.map .transition

/-- The automaton that a snapshot describes. -/
def restore (snapshot : Snapshot) : Except DraftFault Automaton :=
  (Draft.ofDeclarations snapshot.declarations).build snapshot.kind

end Snapshot

end Recognizer
