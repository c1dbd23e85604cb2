import Recognizer.Automaton.Flat
import Recognizer.Proofs.Automaton.Additions

/-!
# Automata in one table

Different pairs of a state and a symbol have different places in the table, so an
entry can be changed without touching another one.  For pairs of the automaton the
table is read and written like the rows.
-/

namespace Recognizer

/-! ## Rows of one length -/

section Rows

variable {α : Type} {width column : Nat}

theorem place_succ (position width column : Nat) :
    (position + 1) * width + column = width + (position * width + column) := by
  rw [Nat.succ_mul]
  omega

theorem getElem?_flatten_rows {rows : List (List α)}
    (uniform : ∀ row ∈ rows, row.length = width) (inRow : column < width)
    (position : Nat) :
    rows.flatten[position * width + column]? =
      rows[position]?.bind (·[column]?) := by
  induction rows generalizing position with
  | nil => rfl
  | cons first later ih =>
      obtain ⟨rfl, laterUniform⟩ := List.forall_mem_cons.mp uniform
      rw [List.flatten_cons]
      cases position with
      | zero =>
          rw [Nat.zero_mul, Nat.zero_add, List.getElem?_append_left inRow]
          rfl
      | succ position =>
          rw [place_succ, List.getElem?_append_right (Nat.le_add_right _ _),
            Nat.add_sub_cancel_left, ih laterUniform]
          rfl

theorem set_flatten_rows {rows : List (List α)}
    (uniform : ∀ row ∈ rows, row.length = width) (inRow : column < width)
    (position : Nat) (value : α) :
    rows.flatten.set (position * width + column) value =
      (rows.modify position (·.set column value)).flatten := by
  induction rows generalizing position with
  | nil => simp
  | cons first later ih =>
      obtain ⟨rfl, laterUniform⟩ := List.forall_mem_cons.mp uniform
      rw [List.flatten_cons]
      cases position with
      | zero =>
          rw [Nat.zero_mul, Nat.zero_add, List.set_append_left _ _ inRow]
          rfl
      | succ position =>
          rw [place_succ, List.set_append_right _ _ (Nat.le_add_right _ _),
            Nat.add_sub_cancel_left, ih laterUniform]
          rfl

end Rows

namespace FlatAutomaton

variable {automaton : FlatAutomaton} {state symbol otherState otherSymbol : Nat}

/-- Different pairs have different places. -/
theorem transitionIndex_inj (inRow : symbol < automaton.alphabet.length)
    (otherInRow : otherSymbol < automaton.alphabet.length) :
    automaton.transitionIndex state symbol =
        automaton.transitionIndex otherState otherSymbol ↔
      state = otherState ∧ symbol = otherSymbol := by
  have width : 0 < automaton.alphabet.length := Nat.zero_lt_of_lt inRow
  have quotient : ∀ row {column : Nat}, column < automaton.alphabet.length →
      (row * automaton.alphabet.length + column) /
        automaton.alphabet.length = row := by
    intro row column inside
    rw [Nat.mul_comm, Nat.mul_add_div width, Nat.div_eq_of_lt inside,
      Nat.add_zero]
  constructor
  · intro same
    have sameState : state = otherState := by
      rw [← quotient state inRow, ← quotient otherState otherInRow]
      exact congrArg (· / automaton.alphabet.length) same
    subst sameState
    exact ⟨rfl, Nat.add_left_cancel same⟩
  · rintro ⟨rfl, rfl⟩
    rfl

/-! ## Entries of the table -/

theorem setDestinations_destinations (automaton : FlatAutomaton)
    (state symbol : Nat) :
    automaton.setDestinations state symbol
      (automaton.destinations state symbol) = automaton := by
  have unchanged : automaton.table.set (automaton.transitionIndex state symbol)
      (automaton.destinations state symbol) = automaton.table := by
    apply List.ext_getElem?
    intro position
    rw [List.getElem?_set]
    split
    · rename_i same
      subst same
      split
      · rename_i inRange
        rw [destinations, List.getD_eq_getElem _ _ inRange,
          List.getElem?_eq_getElem inRange]
      · rename_i outside
        exact (List.getElem?_eq_none (Nat.le_of_not_lt outside)).symm
    · rfl
  simp only [setDestinations, unchanged]

theorem setDestinations_setDestinations (automaton : FlatAutomaton)
    (state symbol : Nat) (first second : List Nat) :
    (automaton.setDestinations state symbol first).setDestinations state
        symbol second =
      automaton.setDestinations state symbol second := by
  simp only [setDestinations, transitionIndex, List.set_set]

section Different

variable (inRow : symbol < automaton.alphabet.length)
  (otherInRow : otherSymbol < automaton.alphabet.length)
  (different : state ≠ otherState ∨ symbol ≠ otherSymbol)

include inRow otherInRow different

theorem transitionIndex_ne :
    automaton.transitionIndex state symbol ≠
      automaton.transitionIndex otherState otherSymbol := by
  rw [ne_eq, transitionIndex_inj inRow otherInRow, not_and_or]
  exact different

theorem setDestinations_comm (destinations others : List Nat) :
    (automaton.setDestinations state symbol destinations).setDestinations
        otherState otherSymbol others =
      (automaton.setDestinations otherState otherSymbol others).setDestinations
        state symbol destinations := by
  have apart := transitionIndex_ne inRow otherInRow different
  simp only [setDestinations, FlatAutomaton.mk.injEq, true_and]
  exact List.set_comm _ _ apart

theorem destinations_setDestinations_of_ne (destinations : List Nat) :
    (automaton.setDestinations state symbol destinations).destinations
        otherState otherSymbol =
      automaton.destinations otherState otherSymbol := by
  have kept : (automaton.table.set (automaton.transitionIndex state symbol)
        destinations)[automaton.transitionIndex otherState otherSymbol]? =
      automaton.table[automaton.transitionIndex otherState otherSymbol]? :=
    List.getElem?_set_ne (transitionIndex_ne inRow otherInRow different)
  exact congrArg (·.getD []) kept

end Different

theorem undo_add {automaton extended : FlatAutomaton} {record : Undo}
    {state symbol destination : Nat}
    (added : automaton.addTransition state symbol destination =
      ⟨extended, .ok record⟩) :
    extended.undo record = automaton := by
  simp only [addTransition] at added
  split at added
  · cases added
    exact setDestinations_destinations automaton state symbol
  · split at added
    · cases added
    · cases added
      exact (setDestinations_setDestinations automaton state symbol _ _).trans
        (setDestinations_destinations automaton state symbol)

end FlatAutomaton

/-! ## The table and the rows -/

def Addition.map {α β : Type} (change : α → β) (addition : Addition α) :
    Addition β :=
  ⟨change addition.automaton, addition.outcome⟩

namespace Automaton

/-- Every row has one entry for every symbol. -/
def Uniform (automaton : Automaton) : Prop :=
  ∀ row ∈ automaton.rows, row.length = automaton.alphabet.length

theorem Uniform.setDestinations {automaton : Automaton}
    (uniform : automaton.Uniform) (state symbol : Nat)
    (destinations : List Nat) :
    (automaton.setDestinations state symbol destinations).Uniform := by
  intro row member
  rcases mem_rows_setDestinations member with kept | ⟨old, was, rfl⟩
  · exact uniform row kept
  · rw [List.length_set]
    exact uniform old was

section Flat

variable {automaton : Automaton} {state symbol : Nat}
  (uniform : automaton.Uniform) (inRow : symbol < automaton.alphabet.length)

include uniform inRow

theorem destinations_flat :
    automaton.flat.destinations state symbol =
      automaton.destinations state symbol := by
  have found := getElem?_flatten_rows uniform inRow state
  simp only [FlatAutomaton.destinations, FlatAutomaton.transitionIndex,
    Automaton.destinations, flat, List.getD, found]
  cases automaton.rows[state]? with
  | none => rfl
  | some row => rfl

theorem setDestinations_flat (destinations : List Nat) :
    automaton.flat.setDestinations state symbol destinations =
      (automaton.setDestinations state symbol destinations).flat := by
  have written := set_flatten_rows uniform inRow state destinations
  simp only [FlatAutomaton.setDestinations, FlatAutomaton.transitionIndex,
    Automaton.setDestinations, flat, written]

theorem addTransition_flat (destination : Nat) :
    automaton.flat.addTransition state symbol destination =
      (automaton.addTransition state symbol destination).map flat := by
  have kind : automaton.flat.kind = automaton.kind := rfl
  simp only [FlatAutomaton.addTransition, addTransition, kind,
    destinations_flat uniform inRow, setDestinations_flat uniform inRow]
  split
  · rfl
  · split
    · rfl
    · rfl

end Flat

theorem WellFormed.transitionIndex_lt {automaton : Automaton}
    (wellFormed : automaton.WellFormed) {state symbol : Nat}
    (stateInRange : state < automaton.states.length)
    (inRow : symbol < automaton.alphabet.length) :
    automaton.flat.transitionIndex state symbol <
      automaton.flat.table.length :=
  calc state * automaton.alphabet.length + symbol
      < (state + 1) * automaton.alphabet.length := by
        rw [Nat.succ_mul]
        omega
    _ ≤ automaton.states.length * automaton.alphabet.length :=
        Nat.mul_le_mul_right _ stateInRange
    _ = automaton.flat.table.length := wellFormed.length_flatten_rows.symm

theorem undo_flat {automaton : Automaton} (uniform : automaton.Uniform)
    {record : Undo} (inRow : record.symbol < automaton.alphabet.length) :
    automaton.flat.undo record = (automaton.undo record).flat :=
  setDestinations_flat uniform inRow record.previous

end Automaton

end Recognizer
