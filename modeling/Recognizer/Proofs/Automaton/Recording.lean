import Recognizer.Proofs.Automaton.Declarations

/-!
# What is recorded of an origin and symbol

The last transition entry of an origin and symbol clears what was said before it,
and every later destination adds to it.  `Recorded` says so of the list of
declarations, with no table in between.  The table of a draft holds an entry for
exactly the recorded pairs, each with its recorded destinations.
-/

namespace Recognizer

namespace Declaration

/-- A declaration of the origin and symbol, also one without destinations. -/
def Concerns (origin symbol : String) : Declaration → Prop
  | .transition entry => entry.key = [origin, symbol]
  | .destination source label _ => [source, label] = [origin, symbol]
  | _ => False

end Declaration

open Declaration in
/-- An origin and symbol with their destinations: those of the last transition
entry and all that are added later, or all that are added where there is no such
entry. -/
inductive Recorded (declarations : List Declaration) : Transition → Prop where
  | replaced {origin symbol : String} {before after : List Declaration}
      {destinations : List String} :
      declarations =
        before ++ .transition ⟨origin, symbol, destinations⟩ :: after →
      (∀ others, .transition ⟨origin, symbol, others⟩ ∉ after) →
      Recorded declarations ⟨origin, symbol,
        destinations ++ after.filterMap (added? origin symbol)⟩
  | accumulated {origin symbol : String} :
      (∀ others, .transition ⟨origin, symbol, others⟩ ∉ declarations) →
      declarations.filterMap (added? origin symbol) ≠ [] →
      Recorded declarations ⟨origin, symbol,
        declarations.filterMap (added? origin symbol)⟩

namespace TransitionTable

theorem exists_key_update {origin symbol : String}
    {change : List String → List String} {table : TransitionTable}
    {key : List String} :
    (∃ entry ∈ update origin symbol change table, entry.key = key) ↔
      [origin, symbol] = key ∨ ∃ entry ∈ table, entry.key = key := by
  induction table with
  | nil => simp [update, Transition.key]
  | cons head tail ih =>
      unfold update
      split
      · simp [Transition.key]
      · split
        · simp only [List.mem_cons, exists_eq_or_imp, ih]
          exact or_left_comm
        · rename_i notBelow notAbove
          have same : [origin, symbol] = head.key :=
            key_eq_of_not_lt notBelow notAbove
          simp only [List.mem_cons, exists_eq_or_imp, ← same]
          simp [Transition.key]

theorem destinations_eq_nil_or_mem (table : TransitionTable)
    (origin symbol : String) :
    destinations table origin symbol = [] ∨
      ⟨origin, symbol, destinations table origin symbol⟩ ∈ table := by
  induction table with
  | nil => exact Or.inl rfl
  | cons head tail ih =>
      rw [destinations_cons]
      by_cases same : head.key = [origin, symbol]
      · right
        obtain ⟨source, label, targets⟩ := head
        obtain ⟨rfl, rfl⟩ : source = origin ∧ label = symbol := by
          simpa [Transition.key] using same
        rw [if_pos same]
        exact List.mem_cons_self
      · rw [if_neg same]
        exact ih.imp_right (List.mem_cons_of_mem head)

theorem destinations_of_mem {table : TransitionTable}
    (ordered : Ordered table) {entry : Transition} (member : entry ∈ table) :
    destinations table entry.origin entry.symbol = entry.destinations := by
  induction table with
  | nil => exact absurd member List.not_mem_nil
  | cons head tail ih =>
      obtain ⟨headBelow, tailOrdered⟩ := List.pairwise_cons.mp ordered
      rw [destinations_cons]
      rcases List.mem_cons.mp member with rfl | later
      · exact if_pos rfl
      · have different : head.key ≠ [entry.origin, entry.symbol] := by
          intro same
          have below := headBelow entry later
          rw [same] at below
          exact List.lt_irrefl _ below
        rw [if_neg different, ih tailOrdered later]

end TransitionTable

namespace Declaration

variable {origin symbol : String}

theorem concerns_iff {declaration : Declaration} :
    declaration.Concerns origin symbol ↔
      (∃ destinations,
        declaration = .transition ⟨origin, symbol, destinations⟩) ∨
      ∃ target, declaration = .destination origin symbol target := by
  cases declaration with
  | transition entry =>
      obtain ⟨source, label, targets⟩ := entry
      simp [Concerns, Transition.key]
  | destination source label target => simp [Concerns]
  | states labels => simp [Concerns]
  | alphabet labels => simp [Concerns]
  | initial label => simp [Concerns]
  | finals labels => simp [Concerns]

/-- A transition entry of the pair clears what was said before it. -/
theorem foldl_record_replaced {before after : List Declaration}
    {destinations : List String}
    (onlyAdded : ∀ others,
      .transition ⟨origin, symbol, others⟩ ∉ after)
    (previous : List String) :
    (before ++ .transition ⟨origin, symbol, destinations⟩ :: after).foldl
        (record origin symbol) previous =
      destinations ++ after.filterMap (added? origin symbol) := by
  rw [List.foldl_append, List.foldl_cons, foldl_record_accumulated onlyAdded,
    record]
  exact congrArg (· ++ _) (if_pos rfl)

theorem exists_last_transition (origin symbol : String)
    (declarations : List Declaration) :
    (∀ others, .transition ⟨origin, symbol, others⟩ ∉ declarations) ∨
      ∃ before destinations after, declarations =
          before ++ .transition ⟨origin, symbol, destinations⟩ :: after ∧
        ∀ others, .transition ⟨origin, symbol, others⟩ ∉ after := by
  induction declarations with
  | nil => exact Or.inl fun _ => List.not_mem_nil
  | cons declaration later ih =>
      rcases ih with onlyAdded | ⟨before, destinations, after, rfl, onlyAdded⟩
      · by_cases first : ∃ destinations,
            declaration = .transition ⟨origin, symbol, destinations⟩
        · obtain ⟨destinations, rfl⟩ := first
          exact Or.inr ⟨[], destinations, later, rfl, onlyAdded⟩
        · left
          intro others member
          rcases List.mem_cons.mp member with same | old
          · exact first ⟨others, same.symm⟩
          · exact onlyAdded others old
      · exact Or.inr ⟨declaration :: before, destinations, after, rfl,
          onlyAdded⟩

theorem filterMap_added_ne_nil_iff {declarations : List Declaration}
    (onlyAdded : ∀ others,
      .transition ⟨origin, symbol, others⟩ ∉ declarations) :
    declarations.filterMap (added? origin symbol) ≠ [] ↔
      ∃ declaration ∈ declarations, declaration.Concerns origin symbol := by
  constructor
  · intro filled
    obtain ⟨target, member⟩ := List.exists_mem_of_ne_nil _ filled
    obtain ⟨declaration, listed, adds⟩ := List.mem_filterMap.mp member
    exact ⟨declaration, listed,
      concerns_iff.mpr (Or.inr ⟨target, added?_eq_some_iff.mp adds⟩)⟩
  · intro concerned
    obtain ⟨declaration, listed, concerns⟩ := concerned
    rcases concerns_iff.mp concerns with ⟨destinations, rfl⟩ | ⟨target, rfl⟩
    · exact absurd listed (onlyAdded destinations)
    · exact List.ne_nil_of_mem
        (List.mem_filterMap.mpr ⟨_, listed, added?_eq_some_iff.mpr rfl⟩)

end Declaration

open Declaration

variable {declarations : List Declaration} {origin symbol : String}

/-- What is recorded is what recording one declaration after the other gives. -/
theorem recorded_iff_foldl {destinations : List String} :
    Recorded declarations ⟨origin, symbol, destinations⟩ ↔
      (∃ declaration ∈ declarations, declaration.Concerns origin symbol) ∧
        destinations = declarations.foldl (record origin symbol) [] := by
  constructor
  · intro recorded
    cases recorded with
    | @replaced _ _ before after destinations split onlyAdded =>
        subst split
        refine ⟨⟨_, by simp, concerns_iff.mpr (Or.inl ⟨destinations, rfl⟩)⟩, ?_⟩
        rw [foldl_record_replaced onlyAdded]
    | accumulated onlyAdded filled =>
        refine ⟨(filterMap_added_ne_nil_iff onlyAdded).mp filled, ?_⟩
        rw [foldl_record_accumulated onlyAdded, List.nil_append]
  · intro recorded
    obtain ⟨concerned, rfl⟩ := recorded
    rcases exists_last_transition origin symbol declarations with
      onlyAdded | ⟨before, destinations, after, rfl, onlyAdded⟩
    · rw [foldl_record_accumulated onlyAdded, List.nil_append]
      exact .accumulated onlyAdded
        ((filterMap_added_ne_nil_iff onlyAdded).mpr concerned)
    · rw [foldl_record_replaced onlyAdded]
      exact .replaced rfl onlyAdded

namespace Draft

theorem foldl_ordered (declarations : List Declaration) {draft : Draft}
    (ordered : TransitionTable.Ordered draft.transitions) :
    TransitionTable.Ordered (declarations.foldl declare draft).transitions := by
  induction declarations generalizing draft with
  | nil => exact ordered
  | cons declaration later ih => exact ih (declare_ordered ordered declaration)

theorem transitions_ofDeclarations_ordered
    (declarations : List Declaration) :
    TransitionTable.Ordered (ofDeclarations declarations).transitions :=
  foldl_ordered declarations List.Pairwise.nil

theorem exists_key_foldl (declarations : List Declaration) (draft : Draft) :
    (∃ entry ∈ (declarations.foldl declare draft).transitions,
      entry.key = [origin, symbol]) ↔
      (∃ entry ∈ draft.transitions, entry.key = [origin, symbol]) ∨
        ∃ declaration ∈ declarations,
          declaration.Concerns origin symbol := by
  induction declarations generalizing draft with
  | nil => simp
  | cons declaration later ih =>
      rw [List.foldl_cons, ih]
      simp only [List.mem_cons, exists_eq_or_imp]
      cases declaration with
      | transition entry =>
          rw [or_left_comm, ← or_assoc]
          exact or_congr_left TransitionTable.exists_key_update
      | destination source label target =>
          rw [or_left_comm, ← or_assoc]
          exact or_congr_left TransitionTable.exists_key_update
      | states labels => simp [declare, Concerns]
      | alphabet labels => simp [declare, Concerns]
      | initial label => simp [declare, Concerns]
      | finals labels => simp [declare, Concerns]

theorem exists_key_ofDeclarations :
    (∃ entry ∈ (ofDeclarations declarations).transitions,
      entry.key = [origin, symbol]) ↔
      ∃ declaration ∈ declarations, declaration.Concerns origin symbol :=
  (exists_key_foldl declarations empty).trans (by simp [empty])

/-- The table of a draft holds exactly what is recorded. -/
theorem mem_transitions_ofDeclarations {entry : Transition} :
    entry ∈ (ofDeclarations declarations).transitions ↔
      Recorded declarations entry := by
  have ordered := transitions_ofDeclarations_ordered declarations
  obtain ⟨origin, symbol, destinations⟩ := entry
  rw [recorded_iff_foldl, ← destinations_ofDeclarations]
  constructor
  · intro member
    exact ⟨exists_key_ofDeclarations.mp ⟨_, member, rfl⟩,
      (TransitionTable.destinations_of_mem ordered member).symm⟩
  · intro recorded
    obtain ⟨concerned, same⟩ := recorded
    obtain ⟨⟨source, label, others⟩, member, sameKey⟩ :=
      exists_key_ofDeclarations.mpr concerned
    obtain ⟨rfl, rfl⟩ : source = origin ∧ label = symbol := by
      simpa [Transition.key] using sameKey
    have found := TransitionTable.destinations_of_mem ordered member
    rw [same.trans found]
    exact member

theorem mem_destinations_ofDeclarations {destination : String} :
    destination ∈ TransitionTable.destinations
        (ofDeclarations declarations).transitions origin symbol ↔
      ∃ destinations, Recorded declarations ⟨origin, symbol, destinations⟩ ∧
        destination ∈ destinations := by
  simp only [← mem_transitions_ofDeclarations]
  constructor
  · intro member
    rcases TransitionTable.destinations_eq_nil_or_mem
      (ofDeclarations declarations).transitions origin symbol with none | entry
    · rw [none] at member
      exact absurd member List.not_mem_nil
    · exact ⟨_, entry, member⟩
  · intro found
    obtain ⟨destinations, entry, member⟩ := found
    rw [TransitionTable.destinations_of_mem
      (transitions_ofDeclarations_ordered declarations) entry]
    exact member

end Draft

end Recognizer
