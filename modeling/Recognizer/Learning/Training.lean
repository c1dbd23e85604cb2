import Recognizer.Graph.Extraction
import Recognizer.Graph.Potency
import Recognizer.Learning.Generalization

/-!
# Training

Learning an automaton from examples: the positive words are put into a trie,
the graph of the trie gives the automaton that accepts exactly these words, and
that is generalized along the edges by decreasing potency as far as the
negative words allow.
-/

namespace Recognizer

/-- A learned automaton and how it came about. -/
structure Training where
  automaton : Automaton
  tally : Tally
deriving DecidableEq

/-- Learns an automaton that accepts every non-empty positive word and rejects
every negative word that is not also positive. -/
def Training.ofWords (workers : Nat) (positive negative : List Word) :
    Except LearningFault Training :=
  let graph := (Trie.ofWords positive).edgeGraph
  match graph.exactAutomaton with
  | .error fault => .error (.automaton fault)
  | .ok exact =>
      -- A trie that can be stored has nodes for which the tables have room.
      let run :=
        exact.generalize workers negative (graph.ranked.map (·.edge))
      match run.fault with
      | some fault => .error fault
      | none => .ok ⟨run.automaton, run.tally⟩

/-- Learns an automaton from texts, every character being one symbol. -/
def Training.ofTexts (workers : Nat) (positive negative : List String) :
    Except LearningFault Training :=
  Training.ofWords workers (positive.map Word.ofText)
    (negative.map Word.ofText)

end Recognizer
