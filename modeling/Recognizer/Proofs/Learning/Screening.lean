import Recognizer.Learning.Screening

/-!
# The verdict of a screening

The batches put one after the other are the list that was divided, whatever
their size is.  Every word is therefore screened exactly once, and the verdict is
about the words and neither about the number of workers nor about the order of
the words.
-/

namespace Recognizer

theorem flatten_map_range_batches {α : Type} (size : Nat) (values : List α)
    (count : Nat) :
    ((List.range count).map fun index =>
        (values.drop (index * size)).take size).flatten =
      values.take (count * size) := by
  induction count with
  | zero => simp
  | succ count ih =>
      rw [List.range_succ, List.map_append, List.flatten_append, ih,
        Nat.succ_mul, List.take_add]
      simp

theorem flatten_batches {α : Type} {size : Nat} (positive : 0 < size)
    (values : List α) : (batches size values).flatten = values := by
  rw [batches, flatten_map_range_batches]
  apply List.take_of_length_le
  have rounded := Nat.lt_div_mul_add (a := values.length + size - 1) positive
  omega

theorem batchSize_pos {count workers : Nat} (someWords : 0 < count)
    (someWorkers : 0 < workers) : 0 < batchSize count workers := by
  apply Nat.div_pos
  · omega
  · exact someWorkers

namespace Automaton

/-- Screening in batches is screening one word after the other. -/
theorem acceptsAny_eq_any (automaton : Automaton) (workers : Nat)
    (words : List Word) :
    automaton.acceptsAny workers words = words.any automaton.accepts := by
  unfold acceptsAny
  split
  · rfl
  · rename_i divided
    have positive : 0 < batchSize words.length workers := by
      apply batchSize_pos
      · omega
      · omega
    rw [← List.any_flatten, flatten_batches positive]

theorem acceptsAny_iff {automaton : Automaton} {workers : Nat}
    {words : List Word} :
    automaton.acceptsAny workers words = true ↔
      ∃ word ∈ words, automaton.accepts word = true := by
  rw [acceptsAny_eq_any, List.any_eq_true]

theorem acceptsAny_congr {first second : List Word}
    (same : ∀ word, word ∈ first ↔ word ∈ second) (automaton : Automaton)
    (workers otherWorkers : Nat) :
    automaton.acceptsAny workers first =
      automaton.acceptsAny otherWorkers second := by
  rw [Bool.eq_iff_iff, acceptsAny_iff, acceptsAny_iff]
  constructor
  · intro found
    obtain ⟨word, member, accepted⟩ := found
    exact ⟨word, (same word).mp member, accepted⟩
  · intro found
    obtain ⟨word, member, accepted⟩ := found
    exact ⟨word, (same word).mpr member, accepted⟩

end Automaton

end Recognizer
