import Recognizer.Proofs.Automaton.Runs

/-!
# The states of a run

A run leaves out the states on its way.  `Visits` lists them all, from the first
to the last, one more than there are symbols in the word.  An accepting run is
such a list that begins with the initial state and ends with a final one.
-/

namespace Recognizer

namespace Automaton

/-- Reading the word from the first state on, the automaton can visit the listed
states one after the other. -/
inductive Visits (automaton : Automaton) : Nat → Word → List Nat → Prop where
  | stay (state : Nat) : Visits automaton state [] [state]
  | read {state symbol next : Nat} {label : String} {rest : Word}
      {states : List Nat} :
      automaton.symbolIndex? label = some symbol →
      next ∈ automaton.destinations state symbol →
      Visits automaton next rest states →
      Visits automaton state (label :: rest) (state :: states)

structure AcceptingRun (automaton : Automaton) (word : Word)
    (states : List Nat) : Prop where
  visits : automaton.Visits automaton.initial word states
  ends : ∃ last, states.getLast? = some last ∧ automaton.isFinal last = true

variable {automaton : Automaton}

theorem Visits.length_eq {state : Nat} {word : Word} {states : List Nat}
    (visits : automaton.Visits state word states) :
    states.length = word.length + 1 := by
  induction visits with
  | stay state => rfl
  | read _ _ _ ih => rw [List.length_cons, ih, List.length_cons]

theorem Visits.mem_alphabet {state : Nat} {word : Word} {states : List Nat}
    (visits : automaton.Visits state word states) :
    ∀ label ∈ word, label ∈ automaton.alphabet := by
  induction visits with
  | stay state => exact fun _ member => absurd member List.not_mem_nil
  | read known _ _ ih =>
      intro label member
      rcases List.mem_cons.mp member with rfl | later
      · apply List.isSome_idxOf?.mp
        exact Option.isSome_of_eq_some known
      · exact ih label later

theorem run_iff_visits {first last : Nat} {word : Word} :
    automaton.Run first word last ↔
      ∃ states, automaton.Visits first word states ∧
        states.getLast? = some last := by
  constructor
  · intro run
    induction run with
    | stay state => exact ⟨[state], .stay state, rfl⟩
    | read known leads _ ih =>
        obtain ⟨states, visits, ends⟩ := ih
        refine ⟨_, .read known leads visits, ?_⟩
        rw [List.getLast?_cons, ends, Option.getD_some]
  · intro listed
    obtain ⟨states, visits, ends⟩ := listed
    induction visits with
    | stay state =>
        cases ends
        exact .stay state
    | read known leads visits ih =>
        apply Run.read known leads
        apply ih
        -- What is left of the list is not empty, so it has the same last state.
        rw [List.getLast?_cons_of_ne_nil] at ends
        · exact ends
        · intro empty
          have listed := visits.length_eq
          rw [empty] at listed
          cases listed

theorem accepts_iff_acceptingRun {word : Word} :
    automaton.accepts word = true ↔
      ∃ states, automaton.AcceptingRun word states := by
  rw [accepts_iff_run]
  constructor
  · intro accepted
    obtain ⟨last, run, final⟩ := accepted
    obtain ⟨states, visits, ends⟩ := run_iff_visits.mp run
    exact ⟨states, visits, last, ends, final⟩
  · intro accepted
    obtain ⟨states, visits, last, ends, final⟩ := accepted
    exact ⟨last, run_iff_visits.mpr ⟨states, visits, ends⟩, final⟩

end Automaton

end Recognizer
