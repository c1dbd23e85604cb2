import Recognizer.Proofs.Learning.Training

/-!
# Independence of the screening

A generalization asks for nothing but the verdict on each automaton that it
tries.  The verdict depends on the set of the negative words only, so two runs
that screen the same words decide alike at every candidate, whatever the order
and the repetitions of the words and the numbers of workers are.  They try the
same automata, and if one of them is stopped by a fault so is the other.
-/

namespace Recognizer

theorem Automaton.generalize_congr {first second : List Word}
    (same : ∀ word, word ∈ first ↔ word ∈ second) (automaton : Automaton)
    (workers otherWorkers : Nat) (edges : List Edge) :
    automaton.generalize workers first edges =
      automaton.generalize otherWorkers second edges := by
  have verdicts : (fun extended : Automaton =>
      extended.acceptsAny workers first) =
      fun extended => extended.acceptsAny otherWorkers second := by
    apply funext
    intro extended
    exact Automaton.acceptsAny_congr same extended workers otherWorkers
  rw [Automaton.generalize, Automaton.generalize, verdicts]

namespace Training

/-- With the same set of negative words, every generalization and every training
ends in the same way, with the same automaton, the same counts and the same
fault. -/
theorem independent_of_screening {first second : List Word}
    (same : ∀ word, word ∈ first ↔ word ∈ second)
    (workers otherWorkers : Nat) :
    (∀ (automaton : Automaton) (edges : List Edge),
      automaton.generalize workers first edges =
        automaton.generalize otherWorkers second edges) ∧
    ∀ positive : List Word,
      Training.ofWords workers positive first =
        Training.ofWords otherWorkers positive second := by
  have runs : ∀ (automaton : Automaton) (edges : List Edge),
      automaton.generalize workers first edges =
        automaton.generalize otherWorkers second edges := by
    intro automaton edges
    exact automaton.generalize_congr same workers otherWorkers edges
  refine ⟨runs, ?_⟩
  intro positive
  simp only [Training.ofWords, runs]

/-- One run screens two words one after the other, the other one three words by
nine workers. -/
theorem repeated_screening :
    (∀ word, word ∈ [["b"], ["a", "a"]] ↔
      word ∈ [["a", "a"], ["b"], ["a", "a"]]) ∧
    Training.ofWords 0 [["a", "b"], ["c"]] [["b"], ["a", "a"]] =
      Training.ofWords 9 [["a", "b"], ["c"]]
        [["a", "a"], ["b"], ["a", "a"]] ∧
    ∃ training,
      Training.ofWords 0 [["a", "b"], ["c"]] [["b"], ["a", "a"]] =
        .ok training ∧
      training.tally = ⟨6, 4, 2⟩ := by
  have same : ∀ word, word ∈ [["b"], ["a", "a"]] ↔
      word ∈ [["a", "a"], ["b"], ["a", "a"]] := by
    intro word
    simp only [List.mem_cons, List.not_mem_nil, or_false]
    constructor
    · intro either
      exact either.elim (fun isB => Or.inr (Or.inl isB)) Or.inl
    · intro either
      rcases either with isAA | isB | isAA
      · exact Or.inr isAA
      · exact Or.inl isB
      · exact Or.inr isAA
  refine ⟨same, (independent_of_screening same 0 9).2 _, ?_⟩
  refine ⟨⟨{ kind := .nondeterministic
             states := ["0", "1", "2"]
             alphabet := ["a", "b", "c"]
             initial := 0
             finals := [1]
             rows := [[[1, 2], [2], [1, 2]], [[], [], []], [[], [1], [1]]] },
    ⟨6, 4, 2⟩⟩, ?_, rfl⟩
  decide +kernel

end Training

end Recognizer
