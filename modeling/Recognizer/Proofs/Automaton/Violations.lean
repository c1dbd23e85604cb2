import Recognizer.Proofs.Automaton.Building
import Recognizer.Proofs.Automaton.Recording

/-!
# The first violation

An automaton has as many destinations for a state and symbol as its draft records
different labels for them.  Entries stand in the order of their positions, so the
first violation of determinism is that of the first entry with two different
destinations.
-/

namespace Recognizer

namespace Draft

variable {draft : Draft} {kind : Kind}

theorem length_destinations_assemble (consistent : draft.Consistent)
    {state symbol : Nat}
    (stateInRange : state < (draft.assemble kind).states.length)
    (symbolInRange : symbol < (draft.assemble kind).alphabet.length) :
    ((draft.assemble kind).destinations state symbol).length =
      (TransitionTable.destinations draft.transitions
        ((draft.assemble kind).stateLabel state)
        ((draft.assemble kind).symbolLabel symbol)).dedup.length := by
  rw [destinations_assemble stateInRange symbolInRange]
  apply length_positions states_assemble_nodup
  intro label member
  rcases TransitionTable.destinations_eq_nil_or_mem draft.transitions
    ((draft.assemble kind).stateLabel state)
    ((draft.assemble kind).symbolLabel symbol) with none | entry
  · rw [none] at member
    exact absurd member List.not_mem_nil
  · exact mem_states_assemble.mpr
      ((consistent.transitions_declared _ entry).2.2 label member)

/-- An entry and the positions of its labels, where there are as many
destinations as it has different ones. -/
structure Placed (draft : Draft) (kind : Kind) (entry : Transition)
    (state symbol : Nat) : Prop where
  state_lt : state < (draft.assemble kind).states.length
  symbol_lt : symbol < (draft.assemble kind).alphabet.length
  origin_eq : (draft.assemble kind).stateLabel state = entry.origin
  symbol_eq : (draft.assemble kind).symbolLabel symbol = entry.symbol
  count_eq : ((draft.assemble kind).destinations state symbol).length =
    entry.destinations.dedup.length

theorem exists_placed (consistent : draft.Consistent)
    (ordered : TransitionTable.Ordered draft.transitions)
    {entry : Transition} (member : entry ∈ draft.transitions) :
    ∃ state symbol, Placed draft kind entry state symbol := by
  obtain ⟨originDeclared, symbolDeclared, _⟩ :=
    consistent.transitions_declared entry member
  obtain ⟨state, stateInRange, originEq⟩ :=
    exists_getD_eq (mem_states_assemble.mpr originDeclared)
  obtain ⟨symbol, symbolInRange, symbolEq⟩ :=
    exists_getD_eq (mem_alphabet_assemble.mpr symbolDeclared)
  refine ⟨state, symbol, stateInRange, symbolInRange, originEq, symbolEq, ?_⟩
  calc
    ((draft.assemble kind).destinations state symbol).length =
        (TransitionTable.destinations draft.transitions
          ((draft.assemble kind).stateLabel state)
          ((draft.assemble kind).symbolLabel symbol)).dedup.length :=
      length_destinations_assemble consistent stateInRange symbolInRange
    _ = (TransitionTable.destinations draft.transitions entry.origin
          entry.symbol).dedup.length := by
      rw [← originEq, ← symbolEq]
      rfl
    _ = entry.destinations.dedup.length := by
      rw [TransitionTable.destinations_of_mem ordered member]

theorem destinations_eq_nil_or_placed (consistent : draft.Consistent)
    {state symbol : Nat}
    (stateInRange : state < (draft.assemble kind).states.length)
    (symbolInRange : symbol < (draft.assemble kind).alphabet.length) :
    (draft.assemble kind).destinations state symbol = [] ∨
      ∃ entry ∈ draft.transitions, Placed draft kind entry state symbol := by
  have count :=
    length_destinations_assemble consistent stateInRange symbolInRange
  rcases TransitionTable.destinations_eq_nil_or_mem draft.transitions
    ((draft.assemble kind).stateLabel state)
    ((draft.assemble kind).symbolLabel symbol) with none | member
  · left
    rw [none] at count
    exact List.length_eq_zero_iff.mp count
  · exact Or.inr ⟨_, member, stateInRange, symbolInRange, rfl, rfl, count⟩

theorem Placed.key_lt_iff {first second : Transition}
    {firstState firstSymbol secondState secondSymbol : Nat}
    (firstPlaced : Placed draft kind first firstState firstSymbol)
    (secondPlaced : Placed draft kind second secondState secondSymbol) :
    first.key < second.key ↔
      firstState < secondState ∨
        firstState = secondState ∧ firstSymbol < secondSymbol := by
  have statesAscending : StrictlyAscending (draft.assemble kind).states :=
    Ascending.ofList_strictlyAscending _
  have alphabetAscending : StrictlyAscending (draft.assemble kind).alphabet :=
    Ascending.ofList_strictlyAscending _
  rw [Transition.key, Transition.key, ← firstPlaced.origin_eq,
    ← firstPlaced.symbol_eq, ← secondPlaced.origin_eq,
    ← secondPlaced.symbol_eq, List.cons_lt_cons_iff, List.cons_lt_cons_iff]
  simp only [Automaton.stateLabel, Automaton.symbolLabel, List.lt_irrefl,
    and_false, or_false]
  rw [getD_lt_getD_iff statesAscending firstPlaced.state_lt
      secondPlaced.state_lt,
    getD_lt_getD_iff alphabetAscending firstPlaced.symbol_lt
      secondPlaced.symbol_lt,
    getD_inj statesAscending.nodup firstPlaced.state_lt secondPlaced.state_lt]

theorem violation?_assemble_eq_none_iff (consistent : draft.Consistent)
    (ordered : TransitionTable.Ordered draft.transitions) :
    (draft.assemble kind).violation? = none ↔
      ∀ entry ∈ draft.transitions, entry.destinations.dedup.length ≤ 1 := by
  rw [Automaton.violation?_eq_none_iff]
  constructor
  · intro single entry member
    obtain ⟨state, symbol, placed⟩ := exists_placed consistent ordered member
    rw [← placed.count_eq]
    exact single state placed.state_lt symbol placed.symbol_lt
  · intro single state stateInRange symbol symbolInRange
    rcases destinations_eq_nil_or_placed consistent stateInRange symbolInRange
      with none | ⟨entry, member, placed⟩
    · simp [none]
    · rw [placed.count_eq]
      exact single entry member

/-- The violation of an assembled automaton is that of the first entry with
several destinations. -/
theorem violation?_assemble_eq_some_iff (consistent : draft.Consistent)
    (ordered : TransitionTable.Ordered draft.transitions)
    {violation : DeterminismViolation} :
    (draft.assemble kind).violation? = some violation ↔
      ∃ entry ∈ draft.transitions, 1 < entry.destinations.dedup.length ∧
        (∀ other ∈ draft.transitions, other.key < entry.key →
          other.destinations.dedup.length ≤ 1) ∧
        violation =
          ⟨entry.origin, entry.symbol, entry.destinations.dedup.length⟩ := by
  rw [Automaton.violation?_eq_some_iff]
  constructor
  · intro first
    obtain ⟨state, stateInRange, symbol, symbolInRange, several, single, rfl⟩ :=
      first
    rcases destinations_eq_nil_or_placed consistent stateInRange symbolInRange
      with none | ⟨entry, member, placed⟩
    · simp [none] at several
    · rw [placed.origin_eq, placed.symbol_eq, placed.count_eq]
      rw [placed.count_eq] at several
      refine ⟨entry, member, several, ?_, rfl⟩
      intro other otherMember below
      obtain ⟨otherState, otherSymbol, otherPlaced⟩ :=
        exists_placed consistent ordered otherMember
      rw [← otherPlaced.count_eq]
      exact single otherState otherPlaced.state_lt otherSymbol
        otherPlaced.symbol_lt ((otherPlaced.key_lt_iff placed).mp below)
  · intro first
    obtain ⟨entry, member, several, single, rfl⟩ := first
    obtain ⟨state, symbol, placed⟩ := exists_placed consistent ordered member
    refine ⟨state, placed.state_lt, symbol, placed.symbol_lt, ?_, ?_, ?_⟩
    · rw [placed.count_eq]
      exact several
    · intro otherState stateInRange otherSymbol symbolInRange precedes
      rcases destinations_eq_nil_or_placed consistent stateInRange symbolInRange
        with none | ⟨other, otherMember, otherPlaced⟩
      · simp [none]
      · rw [otherPlaced.count_eq]
        exact single other otherMember
          ((otherPlaced.key_lt_iff placed).mpr precedes)
    · rw [placed.origin_eq, placed.symbol_eq, placed.count_eq]

end Draft

end Recognizer
