import Recognizer.Proofs.Automaton.Runs

/-!
# Sets of active states

After a word an automaton can be in every state in which some run on the word
ends.  One more symbol takes this set to all destinations of its states.  The
reachable sets are those that belong to some word over the alphabet; the empty
set is one of them where a word has no run.
-/

namespace Recognizer

namespace Automaton

/-- The set of states in which the automaton can be after the word, as its
ascending list. -/
structure ActiveAfter (automaton : Automaton) (word : Word)
    (active : List Nat) : Prop where
  ascending : StrictlyAscending active
  mem_iff : ∀ state,
    state ∈ active ↔ automaton.Run automaton.initial word state

/-- The sets of states in which the automaton can be after some word over its
alphabet. -/
def ReachableSet (automaton : Automaton) (active : List Nat) : Prop :=
  ∃ word : Word, (∀ label ∈ word, label ∈ automaton.alphabet) ∧
    automaton.ActiveAfter word active

variable {automaton : Automaton}

theorem run_concat_iff {first last : Nat} {word : Word} {label : String} :
    automaton.Run first (word ++ [label]) last ↔
      ∃ state symbol, automaton.Run first word state ∧
        automaton.symbolIndex? label = some symbol ∧
        last ∈ automaton.destinations state symbol := by
  induction word generalizing first with
  | nil =>
      constructor
      · intro run
        cases run with
        | read known leads rest =>
            cases rest with
            | stay => exact ⟨first, _, .stay first, known, leads⟩
      · intro split
        obtain ⟨state, symbol, run, known, leads⟩ := split
        cases run with
        | stay => exact .read known leads (.stay last)
  | cons head tail ih =>
      constructor
      · intro run
        cases run with
        | read known leads rest =>
            obtain ⟨state, symbol, before, lastKnown, lastLeads⟩ := ih.mp rest
            exact ⟨state, symbol, .read known leads before, lastKnown,
              lastLeads⟩
      · intro split
        obtain ⟨state, symbol, run, lastKnown, lastLeads⟩ := split
        cases run with
        | read known leads before =>
            exact .read known leads
              (ih.mpr ⟨state, symbol, before, lastKnown, lastLeads⟩)

theorem activeAfter_nil : automaton.ActiveAfter [] [automaton.initial] where
  ascending := List.pairwise_singleton _ _
  mem_iff := by
    intro state
    rw [List.mem_singleton]
    constructor
    · intro same
      rw [same]
      exact .stay _
    · intro run
      cases run with
      | stay => rfl

namespace ActiveAfter

variable {word : Word} {active : List Nat}

theorem unique {other : List Nat} (after : automaton.ActiveAfter word active)
    (otherAfter : automaton.ActiveAfter word other) : active = other :=
  Ascending.eq_of_mem_iff after.ascending otherAfter.ascending fun state =>
    (after.mem_iff state).trans (otherAfter.mem_iff state).symm

theorem concat (after : automaton.ActiveAfter word active) {label : String}
    {symbol : Nat} (known : automaton.symbolIndex? label = some symbol) :
    automaton.ActiveAfter (word ++ [label]) (automaton.step active symbol) where
  ascending := step_strictlyAscending automaton active symbol
  mem_iff := by
    intro last
    rw [mem_step, run_concat_iff]
    constructor
    · intro reached
      obtain ⟨state, member, leads⟩ := reached
      exact ⟨state, symbol, (after.mem_iff state).mp member, known, leads⟩
    · intro split
      obtain ⟨state, other, run, otherKnown, leads⟩ := split
      rw [known] at otherKnown
      cases otherKnown
      exact ⟨state, (after.mem_iff state).mpr run, leads⟩

end ActiveAfter

/-! ## Reachable sets -/

theorem reachableSet_initial : automaton.ReachableSet [automaton.initial] :=
  ⟨[], fun _ member => absurd member List.not_mem_nil, activeAfter_nil⟩

theorem ReachableSet.step (wellFormed : automaton.WellFormed)
    {active : List Nat} (reachable : automaton.ReachableSet active)
    {symbol : Nat} (inRange : symbol < automaton.alphabet.length) :
    automaton.ReachableSet (automaton.step active symbol) := by
  obtain ⟨word, overAlphabet, after⟩ := reachable
  refine ⟨word ++ [automaton.symbolLabel symbol], ?_, after.concat
    (wellFormed.symbolIndex?_eq_some_iff.mpr ⟨inRange, rfl⟩)⟩
  intro label member
  rcases List.mem_append.mp member with early | last
  · exact overAlphabet label early
  · rw [List.mem_singleton.mp last]
    exact getD_mem inRange

/-- What holds of the initial state alone and passes on with every symbol holds
of all reachable sets. -/
theorem ReachableSet.induction {property : List Nat → Prop}
    (wellFormed : automaton.WellFormed)
    (start : property [automaton.initial])
    (passes : ∀ active, property active →
      ∀ symbol < automaton.alphabet.length,
        property (automaton.step active symbol))
    {active : List Nat} (reachable : automaton.ReachableSet active) :
    property active := by
  -- Every word over the alphabet has a set with the property, by induction on
  -- the word from its end, and a word has no other set.
  have exists_after : ∀ word : Word,
      (∀ label ∈ word, label ∈ automaton.alphabet) →
        ∃ other, automaton.ActiveAfter word other ∧ property other := by
    intro word
    induction word using List.reverseRecOn with
    | nil => exact fun _ => ⟨_, activeAfter_nil, start⟩
    | append_singleton word label ih =>
        intro overAlphabet
        obtain ⟨other, after, holds⟩ := ih fun symbol member =>
          overAlphabet symbol (List.mem_append_left _ member)
        obtain ⟨symbol, known⟩ := Option.isSome_iff_exists.mp
          (List.isSome_idxOf?.mpr (overAlphabet label (by simp)))
        exact ⟨_, after.concat known, passes other holds symbol
          (wellFormed.symbolIndex?_eq_some_iff.mp known).1⟩
  obtain ⟨word, overAlphabet, after⟩ := reachable
  obtain ⟨other, otherAfter, holds⟩ := exists_after word overAlphabet
  rw [after.unique otherAfter]
  exact holds

end Automaton

end Recognizer
