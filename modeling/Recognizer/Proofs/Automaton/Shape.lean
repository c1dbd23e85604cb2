import Recognizer.Automaton.Basic
import Recognizer.Proofs.Ascending

/-!
# The shape of automata

In a well-formed automaton labels and positions determine each other, and the
destinations of a state and symbol can be replaced without touching anything
else.  Replacing them by destinations that are in range keeps the shape.
-/

namespace Recognizer

namespace Automaton

@[simp] theorem setDestinations_kind (automaton : Automaton)
    (state symbol : Nat) (destinations : List Nat) :
    (automaton.setDestinations state symbol destinations).kind =
      automaton.kind := rfl

@[simp] theorem setDestinations_states (automaton : Automaton)
    (state symbol : Nat) (destinations : List Nat) :
    (automaton.setDestinations state symbol destinations).states =
      automaton.states := rfl

@[simp] theorem setDestinations_alphabet (automaton : Automaton)
    (state symbol : Nat) (destinations : List Nat) :
    (automaton.setDestinations state symbol destinations).alphabet =
      automaton.alphabet := rfl

@[simp] theorem setDestinations_initial (automaton : Automaton)
    (state symbol : Nat) (destinations : List Nat) :
    (automaton.setDestinations state symbol destinations).initial =
      automaton.initial := rfl

@[simp] theorem setDestinations_finals (automaton : Automaton)
    (state symbol : Nat) (destinations : List Nat) :
    (automaton.setDestinations state symbol destinations).finals =
      automaton.finals := rfl

theorem destinations_eq_nil_or_mem (automaton : Automaton)
    (state symbol : Nat) :
    automaton.destinations state symbol = [] ∨
      ∃ row ∈ automaton.rows, automaton.destinations state symbol ∈ row := by
  unfold destinations
  by_cases stateInRange : state < automaton.rows.length
  · rw [List.getD_eq_getElem _ _ stateInRange]
    by_cases symbolInRange : symbol < automaton.rows[state].length
    · rw [List.getD_eq_getElem _ _ symbolInRange]
      exact Or.inr ⟨automaton.rows[state], List.getElem_mem stateInRange,
        List.getElem_mem symbolInRange⟩
    · exact Or.inl (List.getD_eq_default _ _ (Nat.le_of_not_lt symbolInRange))
  · left
    rw [List.getD_eq_default _ _ (Nat.le_of_not_lt stateInRange)]
    rfl

theorem mem_rows_setDestinations {automaton : Automaton}
    {state symbol : Nat} {destinations : List Nat} {row : List (List Nat)}
    (member : row ∈
      (automaton.setDestinations state symbol destinations).rows) :
    row ∈ automaton.rows ∨
      ∃ old ∈ automaton.rows, row = old.set symbol destinations := by
  obtain ⟨position, inRange, found⟩ := List.mem_iff_getElem.mp member
  simp only [setDestinations, List.length_modify] at inRange
  simp only [setDestinations, List.getElem_modify] at found
  by_cases same : state = position
  · rw [if_pos same] at found
    exact Or.inr ⟨_, List.getElem_mem inRange, found.symm⟩
  · rw [if_neg same] at found
    exact Or.inl (found ▸ List.getElem_mem inRange)

theorem mem_entry_setDestinations {automaton : Automaton}
    {state symbol : Nat} {destinations entry : List Nat}
    {row : List (List Nat)}
    (rowMember : row ∈
      (automaton.setDestinations state symbol destinations).rows)
    (entryMember : entry ∈ row) :
    entry = destinations ∨ ∃ old ∈ automaton.rows, entry ∈ old := by
  rcases mem_rows_setDestinations rowMember with kept | ⟨old, member, rfl⟩
  · exact Or.inr ⟨row, kept, entryMember⟩
  · rcases List.mem_or_eq_of_mem_set entryMember with kept | replaced
    · exact Or.inr ⟨old, member, kept⟩
    · exact Or.inl replaced

theorem getElem_rows (automaton : Automaton) {state symbol : Nat}
    (stateInRange : state < automaton.rows.length)
    (symbolInRange : symbol < automaton.rows[state].length) :
    automaton.rows[state][symbol] = automaton.destinations state symbol := by
  simp [destinations, List.getD, stateInRange, symbolInRange]

namespace WellFormed

variable {automaton : Automaton}

theorem states_nodup (wellFormed : automaton.WellFormed) :
    automaton.states.Nodup :=
  wellFormed.states_ascending.nodup

theorem alphabet_nodup (wellFormed : automaton.WellFormed) :
    automaton.alphabet.Nodup :=
  wellFormed.alphabet_ascending.nodup

theorem stateIndex?_eq_some_iff (wellFormed : automaton.WellFormed)
    {label : String} {state : Nat} :
    automaton.stateIndex? label = some state ↔
      state < automaton.states.length ∧ automaton.stateLabel state = label :=
  idxOf?_eq_some_iff_getD wellFormed.states_nodup

theorem stateLabel_lt_iff (wellFormed : automaton.WellFormed)
    {first second : Nat} (firstInRange : first < automaton.states.length)
    (secondInRange : second < automaton.states.length) :
    automaton.stateLabel first < automaton.stateLabel second ↔
      first < second :=
  getD_lt_getD_iff wellFormed.states_ascending firstInRange secondInRange

theorem symbolIndex?_eq_some_iff (wellFormed : automaton.WellFormed)
    {label : String} {symbol : Nat} :
    automaton.symbolIndex? label = some symbol ↔
      symbol < automaton.alphabet.length ∧
        automaton.symbolLabel symbol = label :=
  idxOf?_eq_some_iff_getD wellFormed.alphabet_nodup

theorem destinations_ascending (wellFormed : automaton.WellFormed)
    (state symbol : Nat) :
    StrictlyAscending (automaton.destinations state symbol) := by
  rcases destinations_eq_nil_or_mem automaton state symbol with
    empty | ⟨row, rowMember, member⟩
  · rw [empty]
    exact List.Pairwise.nil
  · exact wellFormed.entry_ascending row rowMember _ member

theorem destination_lt (wellFormed : automaton.WellFormed)
    {state symbol destination : Nat}
    (leads : destination ∈ automaton.destinations state symbol) :
    destination < automaton.states.length := by
  rcases destinations_eq_nil_or_mem automaton state symbol with
    empty | ⟨row, rowMember, member⟩
  · rw [empty] at leads
    exact absurd leads List.not_mem_nil
  · exact wellFormed.entry_lt row rowMember _ member destination leads

/-- Only the states lead anywhere, and only on the symbols. -/
theorem lt_of_leads (wellFormed : automaton.WellFormed)
    {state symbol destination : Nat}
    (leads : destination ∈ automaton.destinations state symbol) :
    state < automaton.states.length ∧ symbol < automaton.alphabet.length := by
  unfold destinations at leads
  by_cases stateInRange : state < automaton.rows.length
  · rw [List.getD_eq_getElem _ _ stateInRange] at leads
    rw [← wellFormed.row_per_state,
      ← wellFormed.entry_per_symbol _ (List.getElem_mem stateInRange)]
    refine ⟨stateInRange, Decidable.byContradiction fun outOfRange => ?_⟩
    rw [List.getD_eq_default _ _ (Nat.le_of_not_lt outOfRange)] at leads
    exact List.not_mem_nil leads
  · rw [List.getD_eq_default _ _ (Nat.le_of_not_lt stateInRange)] at leads
    exact absurd leads List.not_mem_nil

theorem destinations_le_one (wellFormed : automaton.WellFormed)
    (deterministic : automaton.kind = .deterministic) (state symbol : Nat) :
    (automaton.destinations state symbol).length ≤ 1 := by
  rcases destinations_eq_nil_or_mem automaton state symbol with
    empty | ⟨row, rowMember, member⟩
  · simp [empty]
  · exact wellFormed.entry_le_one deterministic row rowMember _ member

theorem finalLabels_nodup (wellFormed : automaton.WellFormed) :
    automaton.finalLabels.Nodup := by
  apply wellFormed.finals_ascending.nodup.map_on
  intro first firstFinal second secondFinal same
  exact (getD_inj wellFormed.states_nodup
    (wellFormed.finals_lt first firstFinal)
    (wellFormed.finals_lt second secondFinal)).mp same

theorem destinations_setDestinations (wellFormed : automaton.WellFormed)
    {state symbol : Nat} (stateInRange : state < automaton.states.length)
    (symbolInRange : symbol < automaton.alphabet.length)
    (destinations : List Nat) :
    (automaton.setDestinations state symbol destinations).destinations
      state symbol = destinations := by
  have rowInRange : state < automaton.rows.length := by
    rw [wellFormed.row_per_state]
    exact stateInRange
  have entryInRange : symbol < automaton.rows[state].length := by
    rw [wellFormed.entry_per_symbol _ (List.getElem_mem rowInRange)]
    exact symbolInRange
  simp [Automaton.destinations, setDestinations, List.getD, rowInRange,
    entryInRange]

theorem setDestinations (wellFormed : automaton.WellFormed)
    (state symbol : Nat) {destinations : List Nat}
    (ascending : StrictlyAscending destinations)
    (inRange : ∀ destination ∈ destinations,
      destination < automaton.states.length)
    (atMostOne : automaton.kind = .deterministic → destinations.length ≤ 1) :
    (automaton.setDestinations state symbol destinations).WellFormed where
  states_ascending := wellFormed.states_ascending
  alphabet_ascending := wellFormed.alphabet_ascending
  initial_lt := wellFormed.initial_lt
  finals_ascending := wellFormed.finals_ascending
  finals_lt := wellFormed.finals_lt
  row_per_state := by
    simpa [Automaton.setDestinations] using wellFormed.row_per_state
  entry_per_symbol := by
    intro row member
    rcases mem_rows_setDestinations member with kept | ⟨old, oldMember, rfl⟩
    · exact wellFormed.entry_per_symbol row kept
    · rw [List.length_set]
      exact wellFormed.entry_per_symbol old oldMember
  entry_ascending := by
    intro row rowMember entry entryMember
    rcases mem_entry_setDestinations rowMember entryMember with
      rfl | ⟨old, oldMember, kept⟩
    · exact ascending
    · exact wellFormed.entry_ascending old oldMember entry kept
  entry_lt := by
    intro row rowMember entry entryMember
    rcases mem_entry_setDestinations rowMember entryMember with
      rfl | ⟨old, oldMember, kept⟩
    · exact inRange
    · exact wellFormed.entry_lt old oldMember entry kept
  entry_le_one := by
    intro deterministic row rowMember entry entryMember
    rcases mem_entry_setDestinations rowMember entryMember with
      rfl | ⟨old, oldMember, kept⟩
    · exact atMostOne deterministic
    · exact wellFormed.entry_le_one deterministic old oldMember entry kept

theorem length_flatten_rows (wellFormed : automaton.WellFormed) :
    automaton.rows.flatten.length =
      automaton.states.length * automaton.alphabet.length := by
  have lengths : automaton.rows.map List.length =
      List.replicate automaton.states.length automaton.alphabet.length := by
    rw [← wellFormed.row_per_state]
    exact List.map_eq_replicate_iff.mpr wellFormed.entry_per_symbol
  rw [List.length_flatten, lengths, List.sum_replicate_nat]

/-- Automata with the same labels, marks and destinations are equal. -/
theorem ext {first second : Automaton} (firstShape : first.WellFormed)
    (secondShape : second.WellFormed) (kind_eq : first.kind = second.kind)
    (states_eq : first.states = second.states)
    (alphabet_eq : first.alphabet = second.alphabet)
    (initial_eq : first.initial = second.initial)
    (finals_eq : first.finals = second.finals)
    (destinations_eq : ∀ state < first.states.length,
      ∀ symbol < first.alphabet.length,
        first.destinations state symbol = second.destinations state symbol) :
    first = second := by
  have rows_eq : first.rows = second.rows := by
    apply List.ext_getElem
    · rw [firstShape.row_per_state, secondShape.row_per_state, states_eq]
    · intro state inFirst inSecond
      have firstLength :=
        firstShape.entry_per_symbol _ (List.getElem_mem inFirst)
      have secondLength :=
        secondShape.entry_per_symbol _ (List.getElem_mem inSecond)
      apply List.ext_getElem
      · rw [firstLength, secondLength, alphabet_eq]
      · intro symbol symbolInFirst symbolInSecond
        rw [getElem_rows, getElem_rows]
        apply destinations_eq
        · rw [← firstShape.row_per_state]
          exact inFirst
        · rw [← firstLength]
          exact symbolInFirst
  cases first
  cases second
  simp only [mk.injEq]
  exact ⟨kind_eq, states_eq, alphabet_eq, initial_eq, finals_eq, rows_eq⟩

theorem eq_of_labels {first second : Automaton}
    (firstShape : first.WellFormed) (secondShape : second.WellFormed)
    (kind_eq : first.kind = second.kind)
    (states_eq : first.states = second.states)
    (alphabet_eq : first.alphabet = second.alphabet)
    (initialLabel_eq : first.initialLabel = second.initialLabel)
    (finals_iff : ∀ label,
      label ∈ first.finalLabels ↔ label ∈ second.finalLabels)
    (destinations_iff : ∀ state < first.states.length,
      ∀ symbol < first.alphabet.length, ∀ label,
        label ∈ first.destinationLabels state symbol ↔
          label ∈ second.destinationLabels state symbol) :
    first = second := by
  have stateLabel_eq : second.stateLabel = first.stateLabel := by
    funext position
    rw [stateLabel, stateLabel, states_eq]
  have initialInRange : second.initial < first.states.length :=
    states_eq ▸ secondShape.initial_lt
  -- With equal states, lists of states are compared by their labels.
  have compare : ∀ {left right : List Nat}, StrictlyAscending left →
      StrictlyAscending right →
      (∀ position ∈ left, position < first.states.length) →
      (∀ position ∈ right, position < second.states.length) →
      (∀ label, label ∈ left.map first.stateLabel ↔
        label ∈ right.map second.stateLabel) → left = right := by
    intro left right leftAscending rightAscending leftInRange rightInRange same
    rw [← states_eq] at rightInRange
    rw [stateLabel_eq] at same
    exact eq_of_mem_labels firstShape.states_nodup leftAscending rightAscending
      leftInRange rightInRange same
  apply firstShape.ext secondShape kind_eq states_eq alphabet_eq
  · rw [initialLabel, initialLabel, stateLabel_eq] at initialLabel_eq
    exact (getD_inj firstShape.states_nodup firstShape.initial_lt
      initialInRange).mp initialLabel_eq
  · exact compare firstShape.finals_ascending secondShape.finals_ascending
      firstShape.finals_lt secondShape.finals_lt finals_iff
  · intro state stateInRange symbol symbolInRange
    exact compare (firstShape.destinations_ascending state symbol)
      (secondShape.destinations_ascending state symbol)
      (fun _ => firstShape.destination_lt)
      (fun _ => secondShape.destination_lt)
      (destinations_iff state stateInRange symbol symbolInRange)

end WellFormed

end Automaton

end Recognizer
