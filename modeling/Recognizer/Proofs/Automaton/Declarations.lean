import Recognizer.Automaton.Draft

/-!
# What declarations record

Labels accumulate, the last initial state counts, and the destinations of an
origin and symbol are those of its last transition entry together with all
destinations that are added later.
-/

namespace Recognizer

namespace TransitionTable

theorem mem_update {origin symbol : String}
    {change : List String → List String} {table : TransitionTable}
    {entry : Transition}
    (member : entry ∈ update origin symbol change table) :
    entry ∈ table ∨ entry = ⟨origin, symbol, change []⟩ ∨
      ∃ old ∈ table, old.key = [origin, symbol] ∧
        entry = ⟨origin, symbol, change old.destinations⟩ := by
  induction table with
  | nil =>
      simp only [update, List.mem_singleton] at member
      exact Or.inr (Or.inl member)
  | cons head tail ih =>
      unfold update at member
      split at member
      · rcases List.mem_cons.mp member with new | old
        · exact Or.inr (Or.inl new)
        · exact Or.inl old
      · split at member
        · rcases List.mem_cons.mp member with first | later
          · exact Or.inl (by simp [first])
          · rcases ih later with kept | new | ⟨old, oldMember, sameKey, equal⟩
            · exact Or.inl (List.mem_cons_of_mem head kept)
            · exact Or.inr (Or.inl new)
            · exact Or.inr (Or.inr
                ⟨old, List.mem_cons_of_mem head oldMember, sameKey, equal⟩)
        · rename_i notBelow notAbove
          rcases List.mem_cons.mp member with changed | later
          · exact Or.inr (Or.inr ⟨head, by simp,
              (key_eq_of_not_lt notBelow notAbove).symm, changed⟩)
          · exact Or.inl (List.mem_cons_of_mem head later)

end TransitionTable

/-- An entry that only uses the given states and symbols. -/
def Transition.Within (states alphabet : List String)
    (transition : Transition) : Prop :=
  transition.origin ∈ states ∧ transition.symbol ∈ alphabet ∧
    ∀ destination ∈ transition.destinations, destination ∈ states

namespace Declaration

/-- The states that are declared. -/
def stateLabels : Declaration → List String
  | .states labels => labels
  | _ => []

/-- The symbols that are declared. -/
def symbols : Declaration → List String
  | .alphabet labels => labels
  | _ => []

/-- The initial state that is declared. -/
def initial? : Declaration → Option String
  | .initial label => some label
  | _ => none

/-- The final states that are declared. -/
def finalLabels : Declaration → List String
  | .finals labels => labels
  | _ => []

/-- The destinations of an origin and symbol after a declaration. -/
def record (origin symbol : String) (previous : List String) :
    Declaration → List String
  | .transition entry =>
      if entry.key = [origin, symbol] then entry.destinations else previous
  | .destination source label target =>
      if [source, label] = [origin, symbol] then previous ++ [target]
      else previous
  | _ => previous

/-- The destination that a declaration adds to an origin and symbol. -/
def added? (origin symbol : String) : Declaration → Option String
  | .destination source label target =>
      if [source, label] = [origin, symbol] then some target else none
  | _ => none

/-- A declaration that only refers to the given states and symbols. -/
def Within (states alphabet : List String) : Declaration → Prop
  | .states _ => True
  | .alphabet _ => True
  | .initial label => label ∈ states
  | .finals labels => ∀ label ∈ labels, label ∈ states
  | .transition entry => entry.Within states alphabet
  | .destination origin symbol target =>
      Transition.Within states alphabet ⟨origin, symbol, [target]⟩

end Declaration

namespace Draft

theorem declare_ordered {draft : Draft}
    (ordered : TransitionTable.Ordered draft.transitions)
    (declaration : Declaration) :
    TransitionTable.Ordered (draft.declare declaration).transitions := by
  cases declaration with
  | transition transition => exact TransitionTable.update_ordered ordered
  | destination origin symbol destination =>
      exact TransitionTable.update_ordered ordered
  | states labels => exact ordered
  | alphabet labels => exact ordered
  | initial label => exact ordered
  | finals labels => exact ordered

theorem declare_destinations {draft : Draft}
    (ordered : TransitionTable.Ordered draft.transitions)
    (declaration : Declaration) (origin symbol : String) :
    TransitionTable.destinations (draft.declare declaration).transitions
        origin symbol =
      declaration.record origin symbol
        (TransitionTable.destinations draft.transitions origin symbol) := by
  cases declaration with
  | transition transition =>
      simp only [declare, TransitionTable.set, Declaration.record,
        TransitionTable.destinations_update ordered]
      rfl
  | destination source label destination =>
      simp only [declare, TransitionTable.add, Declaration.record,
        TransitionTable.destinations_update ordered]
      by_cases same : [source, label] = [origin, symbol]
      · obtain ⟨rfl, rfl⟩ : source = origin ∧ label = symbol := by
          simpa using same
        simp
      · rw [if_neg same, if_neg same]
  | states labels => rfl
  | alphabet labels => rfl
  | initial label => rfl
  | finals labels => rfl

section Collected

/-! Each field of a draft is a view of the declarations.  The inductions start
from any draft, because declarations are made one after the other. -/

private theorem foldl_states (declarations : List Declaration)
    (draft : Draft) :
    (declarations.foldl declare draft).states =
      draft.states ++ declarations.flatMap Declaration.stateLabels := by
  induction declarations generalizing draft with
  | nil => simp
  | cons declaration later ih =>
      rw [List.foldl_cons, ih, List.flatMap_cons, ← List.append_assoc]
      cases declaration <;> simp [declare, Declaration.stateLabels]

private theorem foldl_alphabet (declarations : List Declaration)
    (draft : Draft) :
    (declarations.foldl declare draft).alphabet =
      draft.alphabet ++ declarations.flatMap Declaration.symbols := by
  induction declarations generalizing draft with
  | nil => simp
  | cons declaration later ih =>
      rw [List.foldl_cons, ih, List.flatMap_cons, ← List.append_assoc]
      cases declaration <;> simp [declare, Declaration.symbols]

private theorem foldl_finals (declarations : List Declaration)
    (draft : Draft) :
    (declarations.foldl declare draft).finals =
      draft.finals ++ declarations.flatMap Declaration.finalLabels := by
  induction declarations generalizing draft with
  | nil => simp
  | cons declaration later ih =>
      rw [List.foldl_cons, ih, List.flatMap_cons, ← List.append_assoc]
      cases declaration <;> simp [declare, Declaration.finalLabels]

private theorem foldl_initial (declarations : List Declaration)
    (draft : Draft) :
    (declarations.foldl declare draft).initial =
      (declarations.filterMap Declaration.initial?).getLast?.or
        draft.initial := by
  induction declarations generalizing draft with
  | nil => simp
  | cons declaration later ih =>
      rw [List.foldl_cons, ih]
      cases declaration with
      | initial label =>
          simp only [declare, Declaration.initial?, List.filterMap_cons,
            List.getLast?_cons]
          cases (later.filterMap Declaration.initial?).getLast? <;> rfl
      | states labels => rfl
      | alphabet labels => rfl
      | finals labels => rfl
      | transition transition => rfl
      | destination origin symbol destination => rfl

private theorem foldl_destinations (declarations : List Declaration)
    {draft : Draft} (ordered : TransitionTable.Ordered draft.transitions)
    (origin symbol : String) :
    TransitionTable.destinations
        (declarations.foldl declare draft).transitions origin symbol =
      declarations.foldl (Declaration.record origin symbol)
        (TransitionTable.destinations draft.transitions origin symbol) := by
  induction declarations generalizing draft with
  | nil => rfl
  | cons declaration later ih =>
      rw [List.foldl_cons, List.foldl_cons,
        ih (declare_ordered ordered declaration),
        declare_destinations ordered]

private theorem foldl_within {states alphabet : List String}
    (declarations : List Declaration) {draft : Draft}
    (start : ∀ entry ∈ draft.transitions, entry.Within states alphabet)
    (within : ∀ declaration ∈ declarations,
      declaration.Within states alphabet) :
    ∀ entry ∈ (declarations.foldl declare draft).transitions,
      entry.Within states alphabet := by
  induction declarations generalizing draft with
  | nil => exact start
  | cons declaration later ih =>
      rw [List.foldl_cons]
      apply ih
      · intro entry member
        have allowed := within declaration (by simp)
        cases declaration with
        | states labels => exact start entry member
        | alphabet labels => exact start entry member
        | initial label => exact start entry member
        | finals labels => exact start entry member
        | transition transition =>
            rcases TransitionTable.mem_update member with
              kept | rfl | ⟨old, _, _, rfl⟩
            · exact start entry kept
            · exact allowed
            · exact allowed
        | destination origin symbol destination =>
            obtain ⟨originIn, symbolIn, destinationIn⟩ := allowed
            rcases TransitionTable.mem_update member with
              kept | rfl | ⟨old, oldMember, _, rfl⟩
            · exact start entry kept
            · exact ⟨originIn, symbolIn, destinationIn⟩
            · refine ⟨originIn, symbolIn, ?_⟩
              intro other otherMember
              rcases List.mem_append.mp otherMember with earlier | added
              · exact (start old oldMember).2.2 other earlier
              · exact destinationIn other added
      · exact fun other member => within other (List.mem_cons_of_mem _ member)

variable (declarations : List Declaration)

theorem states_ofDeclarations :
    (ofDeclarations declarations).states =
      declarations.flatMap Declaration.stateLabels := by
  simp [ofDeclarations, foldl_states, empty]

theorem alphabet_ofDeclarations :
    (ofDeclarations declarations).alphabet =
      declarations.flatMap Declaration.symbols := by
  simp [ofDeclarations, foldl_alphabet, empty]

theorem finals_ofDeclarations :
    (ofDeclarations declarations).finals =
      declarations.flatMap Declaration.finalLabels := by
  simp [ofDeclarations, foldl_finals, empty]

theorem initial_ofDeclarations :
    (ofDeclarations declarations).initial =
      (declarations.filterMap Declaration.initial?).getLast? := by
  simp [ofDeclarations, foldl_initial, empty]

theorem destinations_ofDeclarations (origin symbol : String) :
    TransitionTable.destinations (ofDeclarations declarations).transitions
        origin symbol =
      declarations.foldl (Declaration.record origin symbol) [] :=
  foldl_destinations declarations List.Pairwise.nil origin symbol

theorem transitions_ofDeclarations_within {states alphabet : List String}
    {declarations : List Declaration}
    (within : ∀ declaration ∈ declarations,
      declaration.Within states alphabet) :
    ∀ entry ∈ (ofDeclarations declarations).transitions,
      entry.Within states alphabet :=
  foldl_within declarations
    (fun _ member => absurd member List.not_mem_nil) within

end Collected

end Draft

namespace Declaration

/-- Declarations that set some destinations or nothing leave these destinations
alone. -/
theorem foldl_record_self {origin symbol : String}
    {destinations : List String} {declarations : List Declaration}
    (agree : ∀ declaration ∈ declarations, ∀ previous,
      declaration.record origin symbol previous = destinations ∨
        declaration.record origin symbol previous = previous) :
    declarations.foldl (record origin symbol) destinations = destinations := by
  apply List.foldlRecOn (motive := (· = destinations))
  · rfl
  · intro previous same declaration member
    rcases agree declaration member previous with replaced | kept
    · exact replaced
    · exact kept.trans same

/-- When every declaration about an origin and symbol sets the same
destinations, and there is one, these are the ones recorded. -/
theorem foldl_record_of_agree {origin symbol : String}
    {destinations : List String} {declarations : List Declaration}
    (agree : ∀ declaration ∈ declarations, ∀ previous,
      declaration.record origin symbol previous = destinations ∨
        declaration.record origin symbol previous = previous)
    (declared : ∃ declaration ∈ declarations, ∀ previous,
      declaration.record origin symbol previous = destinations)
    (previous : List String) :
    declarations.foldl (record origin symbol) previous = destinations := by
  obtain ⟨setter, member, sets⟩ := declared
  obtain ⟨before, after, rfl⟩ := List.append_of_mem member
  rw [List.foldl_append, List.foldl_cons, sets]
  exact foldl_record_self fun other otherMember =>
    agree other (by simp [otherMember])

theorem added?_eq_some_iff {origin symbol : String}
    {declaration : Declaration} {target : String} :
    declaration.added? origin symbol = some target ↔
      declaration = .destination origin symbol target := by
  cases declaration with
  | destination source label other =>
      simp [added?, and_assoc]
  | transition entry => simp [added?]
  | states labels => simp [added?]
  | alphabet labels => simp [added?]
  | initial label => simp [added?]
  | finals labels => simp [added?]

theorem foldl_record_accumulated {origin symbol : String}
    {declarations : List Declaration}
    (onlyAdded : ∀ others,
      .transition ⟨origin, symbol, others⟩ ∉ declarations)
    (previous : List String) :
    declarations.foldl (record origin symbol) previous =
      previous ++ declarations.filterMap (added? origin symbol) := by
  induction declarations generalizing previous with
  | nil => simp
  | cons declaration later ih =>
      rw [List.foldl_cons,
        ih fun others member => onlyAdded others (List.mem_cons_of_mem _ member)]
      cases declaration with
      | transition entry =>
          have different : entry.key ≠ [origin, symbol] := by
            intro same
            obtain ⟨source, label, targets⟩ := entry
            simp only [Transition.key, List.cons.injEq, and_true] at same
            obtain ⟨rfl, rfl⟩ := same
            exact onlyAdded targets List.mem_cons_self
          rw [record, if_neg different]
          rfl
      | destination source label target =>
          rw [record]
          by_cases same : [source, label] = [origin, symbol]
          · simp [added?, same]
          · simp [added?, same]
      | states labels => rfl
      | alphabet labels => rfl
      | initial label => rfl
      | finals labels => rfl

/-- Without transition entries, the destinations of an origin and symbol are
those that were added to it. -/
theorem mem_foldl_record {origin symbol destination : String}
    {declarations : List Declaration}
    (onlyAdded : ∀ entry, .transition entry ∉ declarations)
    (previous : List String) :
    destination ∈ declarations.foldl (record origin symbol) previous ↔
      destination ∈ previous ∨
        .destination origin symbol destination ∈ declarations := by
  rw [foldl_record_accumulated (fun _ => onlyAdded _), List.mem_append,
    List.mem_filterMap]
  simp only [added?_eq_some_iff, exists_eq_right]

end Declaration

end Recognizer
