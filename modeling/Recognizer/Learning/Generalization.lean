import Recognizer.Automaton.Undo
import Recognizer.Graph.Exact
import Recognizer.Learning.Screening

/-!
# Generalization along edges

The automaton of a graph is generalized edge by edge.  Every symbol that an
edge does not carry is a candidate: its transition is added, kept when no
negative word is accepted afterwards, and rolled back otherwise.  A decision is
never taken up again.  A fault stops the run and leaves the automaton as it was
at that moment.
-/

namespace Recognizer

/-- Why a generalization stopped or could not begin. -/
inductive LearningFault where
  | unknownNode (node : Nat)
  | automaton (fault : DraftFault)
  | determinism (violation : DeterminismViolation)
deriving DecidableEq

def LearningFault.message : LearningFault → String
  | .unknownNode node =>
      "Node " ++ toString node
        ++ " of the edge graph is not a state of the automaton"
  | .automaton fault => fault.message
  | .determinism violation => violation.message

/-- How many candidates were tried and what became of them. -/
structure Tally where
  candidates : Nat
  kept : Nat
  rolledBack : Nat
deriving DecidableEq

namespace Tally

/-- No candidates yet. -/
def zero : Tally := ⟨0, 0, 0⟩

/-- One more candidate, which was kept. -/
def keep (tally : Tally) : Tally :=
  { tally with candidates := tally.candidates + 1, kept := tally.kept + 1 }

/-- One more candidate, which was rolled back. -/
def rollBack (tally : Tally) : Tally :=
  { tally with
    candidates := tally.candidates + 1
    rolledBack := tally.rolledBack + 1 }

end Tally

/-- A generalization under way, or stopped by a fault. -/
structure Generalization where
  automaton : Automaton
  tally : Tally
  fault : Option LearningFault
deriving DecidableEq

namespace Generalization

/-- Before the first candidate. -/
def start (automaton : Automaton) : Generalization :=
  ⟨automaton, .zero, none⟩

/-- Stops a run. -/
def stop (run : Generalization) (fault : LearningFault) : Generalization :=
  { run with fault := some fault }

/-- Tries one transition.  A transition that is there already is no
candidate. -/
def attempt (harmful : Automaton → Bool) (origin destination : Nat)
    (run : Generalization) (symbol : Nat) : Generalization :=
  if run.fault.isSome then run
  else
    let addition := run.automaton.addTransition origin symbol destination
    let extended := { run with automaton := addition.automaton }
    match addition.outcome with
    | .error violation => extended.stop (.determinism violation)
    | .ok record =>
        if record.isNoop addition.automaton then extended
        else if harmful addition.automaton then
          { extended with
            automaton := addition.automaton.undo record
            tally := run.tally.rollBack }
        else
          { extended with tally := run.tally.keep }

/-- The symbols of the alphabet that an edge does not carry. -/
def missingSymbols (automaton : Automaton) (edge : Edge) : List Nat :=
  automaton.symbolIndices.filter fun symbol =>
    automaton.symbolLabel symbol ∉ edge.labels

/-- Tries all missing symbols of one edge. -/
def visit (harmful : Automaton → Bool) (run : Generalization) (edge : Edge) :
    Generalization :=
  if run.fault.isSome then run
  else
    match run.automaton.stateIndex? (EdgeGraph.nodeLabel edge.origin) with
    | none => run.stop (.unknownNode edge.origin)
    | some origin =>
        match run.automaton.stateIndex?
            (EdgeGraph.nodeLabel edge.destination) with
        | none => run.stop (.unknownNode edge.destination)
        | some destination =>
            (missingSymbols run.automaton edge).foldl
              (attempt harmful origin destination) run

end Generalization

/-- Generalizes an automaton along the edges in the given order, rejecting
every extension with which it accepts a negative word. -/
def Automaton.generalize (automaton : Automaton) (workers : Nat)
    (negative : List Word) (edges : List Edge) : Generalization :=
  edges.foldl
    (Generalization.visit fun extended => extended.acceptsAny workers negative)
    (Generalization.start automaton)

end Recognizer
