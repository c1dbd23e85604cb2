/-!
# Labelled transitions

A transition entry gives the destinations of one origin and symbol by their
labels.
-/

namespace Recognizer

/-- The destinations of one origin and symbol, all as labels. -/
structure Transition where
  origin : String
  symbol : String
  destinations : List String
deriving DecidableEq

namespace Transition

/-- Entries are ordered by their origin and then by their symbol. -/
def key (transition : Transition) : List String :=
  [transition.origin, transition.symbol]

/-- Whether an entry is that of the given origin and symbol. -/
def leaves (transition : Transition) (origin symbol : String) : Bool :=
  transition.origin == origin && transition.symbol == symbol

theorem leaves_iff_key {transition : Transition} {origin symbol : String} :
    transition.leaves origin symbol = true ↔
      transition.key = [origin, symbol] := by
  simp [leaves, key]

end Transition

end Recognizer
