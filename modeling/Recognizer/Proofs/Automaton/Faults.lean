import Recognizer.Proofs.Automaton.Building
import Recognizer.Proofs.Automaton.Recording

/-!
# The first fault

A list of declarations describes an automaton when everything it refers to is
declared.  Where something is missing or not declared, one fault is reported.  The
checks come in a fixed order: the states, the initial state, the final states as
given, and what is recorded, by origin and symbol.
-/

namespace Recognizer

namespace Declaration

def allStates (declarations : List Declaration) : List String :=
  declarations.flatMap stateLabels

def allSymbols (declarations : List Declaration) : List String :=
  declarations.flatMap symbols

def allFinals (declarations : List Declaration) : List String :=
  declarations.flatMap finalLabels

def lastInitial? (declarations : List Declaration) : Option String :=
  (declarations.filterMap initial?).getLast?

end Declaration

open Declaration

/-! ## What has to hold -/

/-- The first label of an entry that is not declared. -/
inductive EntryFault (states alphabet : List String) (entry : Transition) :
    DraftFault → Prop where
  | origin : entry.origin ∉ states →
      EntryFault states alphabet entry (.unknownState entry.origin)
  | symbol : entry.origin ∈ states → entry.symbol ∉ alphabet →
      EntryFault states alphabet entry (.unknownSymbol entry.symbol)
  | destination {before after : List String} {label : String} :
      entry.origin ∈ states → entry.symbol ∈ alphabet →
      entry.destinations = before ++ label :: after →
      (∀ earlier ∈ before, earlier ∈ states) → label ∉ states →
      EntryFault states alphabet entry (.unknownState label)

section Conditions

variable (declarations : List Declaration)

def InitialDeclared : Prop :=
  ∃ label ∈ allStates declarations, lastInitial? declarations = some label

def FinalsDeclared : Prop :=
  ∀ label ∈ allFinals declarations, label ∈ allStates declarations

structure AllDeclared : Prop where
  some_state : allStates declarations ≠ []
  initial : InitialDeclared declarations
  finals : FinalsDeclared declarations
  entries : ∀ entry, Recorded declarations entry →
    entry.Within (allStates declarations) (allSymbols declarations)

/-- The first label that is missing or not declared, all earlier ones being
declared. -/
inductive DeclarationFault : DraftFault → Prop where
  | noStates : allStates declarations = [] → DeclarationFault .noStates
  | missingInitialState : allStates declarations ≠ [] →
      lastInitial? declarations = none →
      DeclarationFault .missingInitialState
  | unknownInitialState {label : String} : allStates declarations ≠ [] →
      lastInitial? declarations = some label →
      label ∉ allStates declarations →
      DeclarationFault (.unknownInitialState label)
  | unknownFinal {before after : List String} {label : String} :
      InitialDeclared declarations →
      allFinals declarations = before ++ label :: after →
      (∀ earlier ∈ before, earlier ∈ allStates declarations) →
      label ∉ allStates declarations →
      DeclarationFault (.unknownState label)
  | entry {entry : Transition} {fault : DraftFault} :
      InitialDeclared declarations → FinalsDeclared declarations →
      Recorded declarations entry →
      (∀ other, Recorded declarations other → other.key < entry.key →
        other.Within (allStates declarations) (allSymbols declarations)) →
      EntryFault (allStates declarations) (allSymbols declarations) entry fault →
      DeclarationFault fault

end Conditions

/-! ## The fault of a draft -/

theorem head?_flatMap_eq_some_iff {α β : Type} {values : List α}
    {faults : α → List β} {fault : β} :
    (values.flatMap faults).head? = some fault ↔
      ∃ before value after, values = before ++ value :: after ∧
        (∀ earlier ∈ before, faults earlier = []) ∧
        (faults value).head? = some fault := by
  rw [List.head?_flatMap, List.findSome?_eq_some_iff]
  simp only [List.head?_eq_none_iff]
  constructor
  · intro found
    obtain ⟨before, value, after, split, head, none⟩ := found
    exact ⟨before, value, after, split, none, head⟩
  · intro found
    obtain ⟨before, value, after, split, none, head⟩ := found
    exact ⟨before, value, after, split, head, none⟩

theorem head?_append_eq_some_iff {α : Type} {first second : List α}
    {value : α} :
    (first ++ second).head? = some value ↔
      first.head? = some value ∨ first = [] ∧ second.head? = some value := by
  rw [List.head?_append, Option.or_eq_some_iff, List.head?_eq_none_iff]

namespace Draft

variable {states alphabet : List String} {fault : DraftFault}

theorem head?_stateFaults_eq_some_iff {label : String} :
    (stateFaults states label).head? = some fault ↔
      label ∉ states ∧ fault = .unknownState label := by
  by_cases known : label ∈ states
  · simp [stateFaults, known]
  · simp [stateFaults, known, eq_comm]

theorem head?_flatMap_stateFaults_eq_some_iff {labels : List String} :
    (labels.flatMap (stateFaults states)).head? = some fault ↔
      ∃ before label after, labels = before ++ label :: after ∧
        (∀ earlier ∈ before, earlier ∈ states) ∧
        label ∉ states ∧ fault = .unknownState label := by
  simp only [head?_flatMap_eq_some_iff, stateFaults_eq_nil_iff,
    head?_stateFaults_eq_some_iff]

theorem head?_transitionFaults_eq_some_iff {entry : Transition} :
    (transitionFaults states alphabet entry).head? = some fault ↔
      EntryFault states alphabet entry fault := by
  simp only [transitionFaults, head?_append_eq_some_iff,
    head?_stateFaults_eq_some_iff, head?_flatMap_stateFaults_eq_some_iff,
    List.append_eq_nil_iff, stateFaults_eq_nil_iff]
  constructor
  · intro first
    rcases first with (⟨unknown, rfl⟩ | ⟨known, unknown⟩) |
      ⟨⟨known, symbolFaults⟩, before, label, after, split, declared, unknown,
        rfl⟩
    · exact .origin unknown
    · split at unknown
      · cases unknown
      · rename_i unknownSymbol
        cases unknown
        exact .symbol known unknownSymbol
    · split at symbolFaults
      · rename_i knownSymbol
        exact .destination known knownSymbol split declared unknown
      · cases symbolFaults
  · intro first
    cases first with
    | origin unknown => exact Or.inl (Or.inl ⟨unknown, rfl⟩)
    | symbol known unknown =>
        exact Or.inl (Or.inr ⟨known, by simp [unknown]⟩)
    | destination known knownSymbol split declared unknown =>
        exact Or.inr ⟨⟨known, by simp [knownSymbol]⟩, _, _, _, split, declared,
          unknown, rfl⟩

/-- The checks of a draft, in their order. -/
theorem head?_declarationFaults_eq_some_iff {draft : Draft} :
    draft.declarationFaults.head? = some fault ↔
      (draft.states = [] ∧ fault = .noStates) ∨
      (draft.states ≠ [] ∧ draft.initial = none ∧
        fault = .missingInitialState) ∨
      (draft.states ≠ [] ∧ ∃ label, draft.initial = some label ∧
        label ∉ draft.states ∧ fault = .unknownInitialState label) ∨
      ((∃ label ∈ draft.states, draft.initial = some label) ∧
        ((draft.finals.flatMap (stateFaults draft.states)).head? = some fault ∨
          (∀ label ∈ draft.finals, label ∈ draft.states) ∧
          (draft.transitions.flatMap
            (transitionFaults draft.states draft.alphabet)).head? =
              some fault)) := by
  simp only [declarationFaults, head?_append_eq_some_iff,
    List.append_eq_nil_iff, List.flatMap_eq_nil_iff, stateFaults_eq_nil_iff]
  by_cases empty : draft.states = []
  · simp [empty, @eq_comm _ fault]
  · cases given : draft.initial with
    | none => simp [empty, @eq_comm _ fault]
    | some label =>
        by_cases declared : label ∈ draft.states
        · simp [empty, declared]
        · simp [empty, declared, @eq_comm _ fault]

/-! ## The fault of declarations -/

variable {declarations : List Declaration} {kind : Kind}

theorem consistent_ofDeclarations_iff :
    (ofDeclarations declarations).Consistent ↔ AllDeclared declarations := by
  constructor
  · intro consistent
    obtain ⟨initial, finals, transitions⟩ := consistent
    rw [states_ofDeclarations, initial_ofDeclarations] at initial
    rw [states_ofDeclarations, finals_ofDeclarations] at finals
    rw [states_ofDeclarations, alphabet_ofDeclarations] at transitions
    refine ⟨?_, initial, finals, ?_⟩
    · obtain ⟨label, member, _⟩ := initial
      exact List.ne_nil_of_mem member
    · intro entry recorded
      exact transitions entry (mem_transitions_ofDeclarations.mpr recorded)
  · intro declared
    constructor
    · rw [states_ofDeclarations, initial_ofDeclarations]
      exact declared.initial
    · rw [states_ofDeclarations, finals_ofDeclarations]
      exact declared.finals
    · rw [states_ofDeclarations, alphabet_ofDeclarations]
      intro entry member
      exact declared.entries entry (mem_transitions_ofDeclarations.mp member)

/-- The first entry of the table with a fault is the first one recorded by origin
and symbol. -/
theorem head?_entryFaults_eq_some_iff :
    ((ofDeclarations declarations).transitions.flatMap
        (transitionFaults states alphabet)).head? = some fault ↔
      ∃ entry, Recorded declarations entry ∧
        (∀ other, Recorded declarations other → other.key < entry.key →
          other.Within states alphabet) ∧
        EntryFault states alphabet entry fault := by
  have ordered := transitions_ofDeclarations_ordered declarations
  simp only [head?_flatMap_eq_some_iff, transitionFaults_eq_nil_iff,
    head?_transitionFaults_eq_some_iff, ← mem_transitions_ofDeclarations]
  have asymmetric : ∀ first second : Transition, first.key < second.key →
      ¬ second.key < first.key := fun _ _ => List.lt_asymm
  constructor
  · intro first
    obtain ⟨before, entry, after, split, declared, found⟩ := first
    rw [split] at ordered ⊢
    refine ⟨entry, by simp, ?_, found⟩
    intro other member below
    exact declared other
      ((mem_before_iff asymmetric ordered).mpr ⟨member, below⟩)
  · intro first
    obtain ⟨entry, member, declared, found⟩ := first
    obtain ⟨before, after, split⟩ := List.append_of_mem member
    refine ⟨before, entry, after, split, ?_, found⟩
    rw [split] at ordered declared
    intro other early
    obtain ⟨listed, below⟩ := (mem_before_iff asymmetric ordered).mp early
    exact declared other listed below

theorem head?_declarationFaults_ofDeclarations :
    (ofDeclarations declarations).declarationFaults.head? = some fault ↔
      DeclarationFault declarations fault := by
  rw [head?_declarationFaults_eq_some_iff, head?_entryFaults_eq_some_iff,
    head?_flatMap_stateFaults_eq_some_iff, states_ofDeclarations,
    alphabet_ofDeclarations, finals_ofDeclarations, initial_ofDeclarations]
  constructor
  · intro first
    rcases first with ⟨none, rfl⟩ | ⟨filled, none, rfl⟩ |
      ⟨filled, label, given, unknown, rfl⟩ | ⟨initial, final | later⟩
    · exact .noStates none
    · exact .missingInitialState filled none
    · exact .unknownInitialState filled given unknown
    · obtain ⟨before, label, after, split, declared, unknown, rfl⟩ := final
      exact .unknownFinal initial split declared unknown
    · obtain ⟨finals, entry, recorded, declared, found⟩ := later
      exact .entry initial finals recorded declared found
  · intro first
    cases first with
    | noStates none => exact Or.inl ⟨none, rfl⟩
    | missingInitialState filled none => exact Or.inr (Or.inl ⟨filled, none, rfl⟩)
    | unknownInitialState filled given unknown =>
        exact Or.inr (Or.inr (Or.inl ⟨filled, _, given, unknown, rfl⟩))
    | unknownFinal initial split declared unknown =>
        exact Or.inr (Or.inr (Or.inr ⟨initial,
          Or.inl ⟨_, _, _, split, declared, unknown, rfl⟩⟩))
    | entry initial finals recorded declared found =>
        exact Or.inr (Or.inr (Or.inr ⟨initial,
          Or.inr ⟨finals, _, recorded, declared, found⟩⟩))

end Draft

end Recognizer
