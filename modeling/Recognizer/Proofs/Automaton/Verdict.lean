import Recognizer.Proofs.Automaton.Visits

/-!
# The verdict on a word

A word is accepted when its symbols are known and some states, one more than
there are symbols, lead from the initial state to a final one.  Reading keeps the
active states sorted and without repetitions and stops when there are none; it
gives the verdict that plain reading gives, which does nothing of this kind.
-/

namespace Recognizer

namespace Automaton

/-- Each of the states, after the first, is among the destinations of the state
before it on the symbol between the two. -/
structure Follows (automaton : Automaton) (word : Word) (states : List Nat) :
    Prop where
  length_eq : states.length = word.length + 1
  leads : ∀ position label symbol state next,
    word[position]? = some label →
    automaton.symbolIndex? label = some symbol →
    states[position]? = some state →
    states[position + 1]? = some next →
      next ∈ automaton.destinations state symbol

/-- Reading with a list of active states that is neither sorted nor freed from
repetitions, to the end of the word in any case. -/
def readPlainly (automaton : Automaton) (active : List Nat) : Word → List Nat
  | [] => active
  | label :: rest =>
      match automaton.symbolIndex? label with
      | none => automaton.readPlainly [] rest
      | some symbol =>
          automaton.readPlainly
            (active.flatMap fun state => automaton.destinations state symbol)
            rest

variable {automaton : Automaton}

theorem Visits.head?_eq {state : Nat} {word : Word} {states : List Nat}
    (visits : automaton.Visits state word states) :
    states.head? = some state := by
  cases visits with
  | stay => rfl
  | read _ _ _ => rfl

theorem Visits.follows {state : Nat} {word : Word} {states : List Nat}
    (visits : automaton.Visits state word states) :
    automaton.Follows word states where
  length_eq := visits.length_eq
  leads := by
    induction visits with
    | stay state =>
        intro position label symbol state next listed
        cases listed
    | @read state symbol next label rest states known leads visits ih =>
        intro position other otherSymbol first second listed found
          firstListed secondListed
        cases position with
        | zero =>
            rw [List.getElem?_cons_succ, ← List.head?_eq_getElem?,
              visits.head?_eq] at secondListed
            cases listed
            cases firstListed
            cases secondListed
            cases known.symm.trans found
            exact leads
        | succ position =>
            exact ih position other otherSymbol first second listed found
              firstListed secondListed

theorem Follows.visits {word : Word} {states : List Nat} {state : Nat}
    (follows : automaton.Follows word states)
    (known : ∀ label ∈ word, label ∈ automaton.alphabet)
    (starts : states.head? = some state) :
    automaton.Visits state word states := by
  obtain ⟨length_eq, leads⟩ := follows
  induction word generalizing state states with
  | nil =>
      obtain ⟨only, rfl⟩ := List.length_eq_one_iff.mp length_eq
      cases starts
      exact .stay state
  | cons label rest ih =>
      match states, length_eq with
      | first :: second :: later, length_eq =>
          cases starts
          obtain ⟨symbol, found⟩ := Option.isSome_iff_exists.mp
            (List.isSome_idxOf?.mpr (known label List.mem_cons_self))
          apply Visits.read found (leads 0 label symbol state second rfl found
            rfl rfl)
          apply ih
          · exact fun other member => known other (List.mem_cons_of_mem _ member)
          · rfl
          · exact Nat.succ.inj length_eq
          · intro position
            exact leads (position + 1)

theorem mem_readPlainly {active : List Nat} {word : Word} {last : Nat} :
    last ∈ automaton.readPlainly active word ↔
      ∃ state ∈ active, automaton.Run state word last := by
  induction word generalizing active with
  | nil =>
      constructor
      · exact fun member => ⟨last, member, .stay last⟩
      · intro runs
        obtain ⟨state, member, run⟩ := runs
        cases run with
        | stay => exact member
  | cons label rest ih =>
      rw [readPlainly]
      constructor
      · intro reached
        cases known : automaton.symbolIndex? label with
        | none =>
            simp only [known] at reached
            obtain ⟨_, impossible, _⟩ := ih.mp reached
            exact absurd impossible List.not_mem_nil
        | some symbol =>
            simp only [known] at reached
            obtain ⟨next, listed, run⟩ := ih.mp reached
            obtain ⟨state, member, leads⟩ := List.mem_flatMap.mp listed
            exact ⟨state, member, .read known leads run⟩
      · intro runs
        obtain ⟨state, member, run⟩ := runs
        cases run with
        | read known leads run =>
            simp only [known]
            exact ih.mpr ⟨_, List.mem_flatMap.mpr ⟨state, member, leads⟩, run⟩

/-- Acceptance is the existence of accepting states that follow each other, and
plain reading decides it as well. -/
theorem accepts_iff_follows (automaton : Automaton) (word : Word) :
    (automaton.accepts word = true ↔
      (∀ label ∈ word, label ∈ automaton.alphabet) ∧
      ∃ states, automaton.Follows word states ∧
        states.head? = some automaton.initial ∧
        ∃ last, states.getLast? = some last ∧
          automaton.isFinal last = true) ∧
    automaton.accepts word =
      (automaton.readPlainly [automaton.initial] word).any
        automaton.isFinal := by
  constructor
  · rw [accepts_iff_acceptingRun]
    constructor
    · intro accepted
      obtain ⟨states, visits, ends⟩ := accepted
      exact ⟨visits.mem_alphabet, states, visits.follows, visits.head?_eq, ends⟩
    · intro accepted
      obtain ⟨known, states, follows, starts, ends⟩ := accepted
      exact ⟨states, follows.visits known starts, ends⟩
  · rw [Bool.eq_iff_iff, accepts_iff_run, List.any_eq_true]
    simp only [mem_readPlainly, List.mem_singleton, exists_eq_left]

end Automaton

end Recognizer
