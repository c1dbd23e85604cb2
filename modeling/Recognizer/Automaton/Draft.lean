import Recognizer.Automaton.Basic
import Recognizer.Transition.Table

/-!
# Drafts of automata

A draft collects declarations in any order.  Building it checks them all and
reports the first fault: first the states, then the initial state, the final
states as given, the transitions in the order of their origin and symbol, and
last, for a deterministic automaton, the number of destinations.
-/

namespace Recognizer

/-- Why a draft does not describe an automaton. -/
inductive DraftFault where
  | noStates
  | missingInitialState
  | unknownInitialState (label : String)
  | unknownState (label : String)
  | unknownSymbol (label : String)
  | determinism (violation : DeterminismViolation)
deriving DecidableEq

def DraftFault.message : DraftFault → String
  | .noStates => "An automaton needs at least one state"
  | .missingInitialState => "An initial state must be provided"
  | .unknownInitialState label =>
      "Initial state " ++ label ++ " is not one of the states"
  | .unknownState label => "State " ++ label ++ " is not one of the states"
  | .unknownSymbol label =>
      "Symbol " ++ label ++ " is not one of the input symbols"
  | .determinism violation => violation.message

/-- The declarations collected so far. -/
structure Draft where
  states : List String
  alphabet : List String
  initial : Option String
  finals : List String
  transitions : TransitionTable
deriving DecidableEq

/-- One declaration. -/
inductive Declaration where
  | states (labels : List String)
  | alphabet (symbols : List String)
  /-- The last initial state counts. -/
  | initial (label : String)
  | finals (labels : List String)
  /-- Replaces the destinations of an origin and symbol. -/
  | transition (transition : Transition)
  /-- Adds one destination to an origin and symbol. -/
  | destination (origin symbol destination : String)
deriving DecidableEq

namespace Draft

/-- The draft without declarations. -/
def empty : Draft :=
  ⟨[], [], none, [], []⟩

/-- Adds one declaration to a draft. -/
def declare (draft : Draft) : Declaration → Draft
  | .states labels => { draft with states := draft.states ++ labels }
  | .alphabet symbols => { draft with alphabet := draft.alphabet ++ symbols }
  | .initial label => { draft with initial := some label }
  | .finals labels => { draft with finals := draft.finals ++ labels }
  | .transition transition =>
      { draft with
        transitions := TransitionTable.set transition draft.transitions }
  | .destination origin symbol destination =>
      { draft with
        transitions :=
          TransitionTable.add origin symbol destination draft.transitions }

/-- The draft of a list of declarations, made in order. -/
def ofDeclarations (declarations : List Declaration) : Draft :=
  declarations.foldl declare empty

/-- The fault of a label that should be one of the given states. -/
def stateFaults (states : List String) (label : String) : List DraftFault :=
  if label ∈ states then [] else [.unknownState label]

/-- The faults of one transition entry: its origin, its symbol and then its
destinations in order. -/
def transitionFaults (states alphabet : List String)
    (transition : Transition) : List DraftFault :=
  stateFaults states transition.origin
    ++ (if transition.symbol ∈ alphabet then []
        else [.unknownSymbol transition.symbol])
    ++ transition.destinations.flatMap (stateFaults states)

/-- The faults of the declarations, in the order in which they are checked,
except for the number of destinations. -/
def declarationFaults (draft : Draft) : List DraftFault :=
  (if draft.states.isEmpty then [.noStates] else [])
    ++ (match draft.initial with
        | none => [.missingInitialState]
        | some label =>
            if label ∈ draft.states then []
            else [.unknownInitialState label])
    ++ draft.finals.flatMap (stateFaults draft.states)
    ++ draft.transitions.flatMap
        (transitionFaults draft.states draft.alphabet)

/-- The ascending positions of labels in a list; a label that is not in the
list has none. -/
def positions (labels members : List String) : List Nat :=
  Ascending.ofList (members.filterMap labels.idxOf?)

/-- The automaton that a draft without faults describes. -/
def assemble (draft : Draft) (kind : Kind) : Automaton :=
  let states := Ascending.ofList draft.states
  let alphabet := Ascending.ofList draft.alphabet
  { kind := kind
    states := states
    alphabet := alphabet
    initial := states.idxOf (draft.initial.getD "")
    finals := positions states draft.finals
    rows := states.map fun origin =>
      alphabet.map fun symbol =>
        positions states (draft.transitions.destinations origin symbol) }

/-- Builds the automaton, or reports the first fault. -/
def build (draft : Draft) (kind : Kind) : Except DraftFault Automaton :=
  match draft.declarationFaults with
  | fault :: _ => .error fault
  | [] =>
      let automaton := draft.assemble kind
      match kind, automaton.violation? with
      | .deterministic, some violation => .error (.determinism violation)
      | _, _ => .ok automaton

end Draft

end Recognizer
