import Recognizer.Automaton.Basic

/-!
# Automata as text

Two texts of an automaton: the table, which lists labels in quotes and one line
for every state and symbol with destinations, and the list of single arrows.
Labels are written as they are.
-/

namespace Recognizer

/-- Labels in quotes, separated by commas, in brackets. -/
def quotedList (labels : List String) : String :=
  "[" ++ ", ".intercalate (labels.map fun label => "'" ++ label ++ "'") ++ "]"

namespace Automaton

/-- One line of the table: a deterministic automaton shows its only
destination, any other the list of destinations. -/
def renderArc (automaton : Automaton) (arc : Arc) : String :=
  let labels := arc.destinations.map automaton.stateLabel
  automaton.stateLabel arc.state ++ " x " ++ automaton.symbolLabel arc.symbol
    ++ " -> "
    ++ (match automaton.kind with
        | .deterministic => labels.headD ""
        | .nondeterministic => quotedList labels)

/-- The table of an automaton, without a final line end. -/
def render (automaton : Automaton) : String :=
  "\n".intercalate
    (["States: " ++ quotedList automaton.states,
      "Input Symbols: " ++ quotedList automaton.alphabet,
      "Initial State: " ++ automaton.initialLabel,
      "Final States: " ++ quotedList automaton.finalLabels,
      "Transitions:"]
      ++ automaton.arcs.map automaton.renderArc)

/-- The arrows of one entry, a line each. -/
def arrowLines (automaton : Automaton) (arc : Arc) : List String :=
  arc.destinations.map fun destination =>
    automaton.stateLabel arc.state
      ++ " --[" ++ automaton.symbolLabel arc.symbol ++ "]-> "
      ++ automaton.stateLabel destination

/-- Kind, initial state, number of transitions and every single arrow, each
line ended. -/
def renderArrows (automaton : Automaton) : String :=
  String.join
    ((["Kind: " ++ automaton.kind.name,
        "Initial state: " ++ automaton.initialLabel,
        "Number of transitions: " ++ toString automaton.transitionCount]
        ++ automaton.arcs.flatMap automaton.arrowLines).map (· ++ "\n"))

end Automaton

end Recognizer
