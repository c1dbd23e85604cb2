import Recognizer.Proofs.Learning.Generalization

/-!
# Generalizations are safe

A generalization may end behind the last edge, or anywhere before it with a
fault.  A fault leaves the additions in place that were kept until then, and
nothing is taken back.  The automaton is safe to use all the same, because
`Advances` relates the beginning of a run to each of its moments, and not only
to the last one.
-/

namespace Recognizer

namespace Automaton

/-- However a generalization ends, all words that were accepted still are.  If
all negative words were rejected they still are, and if one was accepted the
automaton is the one from before. -/
theorem generalize_safe {automaton : Automaton}
    (wellFormed : automaton.WellFormed) (workers : Nat)
    (negative : List Word) (edges : List Edge) :
    (∀ word, automaton.accepts word = true →
      (automaton.generalize workers negative edges).automaton.accepts word =
        true) ∧
    ((∀ word ∈ negative, automaton.accepts word = false) →
      ∀ word ∈ negative,
        (automaton.generalize workers negative edges).automaton.accepts word =
          false) ∧
    ((∃ word ∈ negative, automaton.accepts word = true) →
      (automaton.generalize workers negative edges).automaton = automaton) := by
  have advanced := automaton.generalize_advances wellFormed workers negative
    edges
  refine ⟨fun word accepted => advanced.grows.accepts accepted, ?_, ?_⟩
  · exact fun rejected word member =>
      advanced.rejects member (rejected word member)
  · intro found
    exact advanced.unchanged (acceptsAny_iff.mpr found)

/-- A deterministic automaton of the word `a`. -/
def oneWay : Automaton where
  kind := .deterministic
  states := ["0", "1"]
  alphabet := ["a", "b"]
  initial := 0
  finals := [1]
  rows := [[[1], []], [[], []]]

theorem oneWay_wellFormed : oneWay.WellFormed where
  states_ascending := by decide
  alphabet_ascending := by decide
  initial_lt := by decide
  finals_ascending := by decide
  finals_lt := by decide
  row_per_state := by decide
  entry_per_symbol := by decide
  entry_ascending := by decide
  entry_lt := by decide
  entry_le_one := by decide

/-- The first edge adds the symbol `b`, the second one is refused, and the
third one is not visited any more. -/
def oneWayStopped : Generalization :=
  oneWay.generalize 2 [["a", "b"], []]
    [⟨0, 1, ["a"]⟩, ⟨0, 0, []⟩, ⟨1, 1, []⟩]

/-- The run that was stopped has added a transition and is safe.  The word `a`
is accepted from the start; as a negative word it keeps the automaton as it
is. -/
theorem oneWay_generalize :
    oneWayStopped.fault = some (.determinism ⟨"0", "a", 2⟩) ∧
    oneWayStopped.automaton.rows = [[[1], [1]], [[], []]] ∧
    oneWayStopped.automaton.accepts ["a"] = true ∧
    (∀ word ∈ [["a", "b"], []],
      oneWayStopped.automaton.accepts word = false) ∧
    (oneWay.generalize 2 [["a"]]
      [⟨0, 1, ["a"]⟩, ⟨5, 1, []⟩]).automaton = oneWay := by
  have stopped := generalize_safe oneWay_wellFormed 2 [["a", "b"], []]
    [⟨0, 1, ["a"]⟩, ⟨0, 0, []⟩, ⟨1, 1, []⟩]
  have harmed := generalize_safe oneWay_wellFormed 2 [["a"]]
    [⟨0, 1, ["a"]⟩, ⟨5, 1, []⟩]
  refine ⟨by decide +kernel, by decide +kernel, ?_, ?_, ?_⟩
  · exact stopped.1 ["a"] (by decide +kernel)
  · exact stopped.2.1 (by decide +kernel)
  · exact harmed.2.2 ⟨["a"], List.mem_singleton.mpr rfl, by decide +kernel⟩

end Automaton

end Recognizer
