import Recognizer.Automaton.Acceptance

/-!
# Screening words in batches

The words that must not be accepted are divided into one batch for every
worker, as even as batches of one size can be.  The verdict is about all words
and does not depend on the division.
-/

namespace Recognizer

/-- Consecutive batches of the given size, the last one possibly shorter. -/
def batches {α : Type} (size : Nat) (values : List α) : List (List α) :=
  (List.range ((values.length + size - 1) / size)).map fun index =>
    (values.drop (index * size)).take size

/-- The size of the batches for a number of workers, rounded up. -/
def batchSize (count workers : Nat) : Nat :=
  (count + workers - 1) / workers

/-- Whether the automaton accepts any of the words. -/
def Automaton.acceptsAny (automaton : Automaton) (workers : Nat)
    (words : List Word) : Bool :=
  if workers ≤ 1 ∨ words.length < 2 then
    words.any automaton.accepts
  else
    (batches (batchSize words.length workers) words).any fun batch =>
      batch.any automaton.accepts

end Recognizer
