import Recognizer.Proofs.Automaton.Faults
import Recognizer.Proofs.Automaton.Violations

/-!
# What is built from declarations

Building gives the one automaton that is described, or the first fault.  Different
destinations of one origin and symbol are a fault of deterministic automata only,
and the last one to be reported.
-/

namespace Recognizer

open Declaration

section Outcome

variable (declarations : List Declaration)

/-- No origin and symbol have two different destinations. -/
def SingleDestinations : Prop :=
  ∀ entry, Recorded declarations entry →
    entry.destinations.dedup.length ≤ 1

/-- The first check that fails. -/
inductive FirstFault (kind : Kind) : DraftFault → Prop where
  | declaration {fault : DraftFault} :
      DeclarationFault declarations fault → FirstFault kind fault
  | determinism {entry : Transition} :
      kind = .deterministic → AllDeclared declarations →
      Recorded declarations entry → 1 < entry.destinations.dedup.length →
      (∀ other, Recorded declarations other → other.key < entry.key →
        other.destinations.dedup.length ≤ 1) →
      FirstFault kind (.determinism
        ⟨entry.origin, entry.symbol, entry.destinations.dedup.length⟩)

/-- The automaton has exactly the labels, marks and destinations that are
declared. -/
structure Described (kind : Kind) (automaton : Automaton) : Prop where
  wellFormed : automaton.WellFormed
  kind_eq : automaton.kind = kind
  mem_states : ∀ label,
    label ∈ automaton.states ↔ label ∈ allStates declarations
  mem_alphabet : ∀ label,
    label ∈ automaton.alphabet ↔ label ∈ allSymbols declarations
  initial_eq : lastInitial? declarations = some automaton.initialLabel
  mem_finals : ∀ label,
    label ∈ automaton.finalLabels ↔ label ∈ allFinals declarations
  mem_destinations : ∀ origin state label symbol,
    automaton.stateIndex? origin = some state →
    automaton.symbolIndex? label = some symbol →
      ∀ destination,
        destination ∈ automaton.destinationLabels state symbol ↔
          ∃ destinations, Recorded declarations ⟨origin, label, destinations⟩ ∧
            destination ∈ destinations

end Outcome

variable {declarations : List Declaration} {kind : Kind}

theorem Described.unique {first second : Automaton}
    (firstDescribed : Described declarations kind first)
    (secondDescribed : Described declarations kind second) :
    first = second := by
  have firstShape := firstDescribed.wellFormed
  have secondShape := secondDescribed.wellFormed
  have states_eq : first.states = second.states := by
    apply Ascending.eq_of_mem_iff firstShape.states_ascending
      secondShape.states_ascending
    intro label
    rw [firstDescribed.mem_states, secondDescribed.mem_states]
  have alphabet_eq : first.alphabet = second.alphabet := by
    apply Ascending.eq_of_mem_iff firstShape.alphabet_ascending
      secondShape.alphabet_ascending
    intro label
    rw [firstDescribed.mem_alphabet, secondDescribed.mem_alphabet]
  apply firstShape.eq_of_labels secondShape _ states_eq alphabet_eq
  · have given := firstDescribed.initial_eq
    rw [secondDescribed.initial_eq] at given
    exact (Option.some.inj given).symm
  · intro label
    rw [firstDescribed.mem_finals, secondDescribed.mem_finals]
  · intro state stateInRange symbol symbolInRange label
    have stateFound := firstShape.stateIndex?_eq_some_iff.mpr
      ⟨stateInRange, rfl⟩
    have symbolFound := firstShape.symbolIndex?_eq_some_iff.mpr
      ⟨symbolInRange, rfl⟩
    rw [firstDescribed.mem_destinations _ _ _ _ stateFound symbolFound]
    rw [Automaton.stateIndex?, states_eq] at stateFound
    rw [Automaton.symbolIndex?, alphabet_eq] at symbolFound
    rw [secondDescribed.mem_destinations _ _ _ _ stateFound symbolFound]
  · exact firstDescribed.kind_eq.trans secondDescribed.kind_eq.symm

namespace Draft

variable {fault : DraftFault}

theorem build_eq_error_iff {draft : Draft} {kind : Kind} :
    draft.build kind = .error fault ↔
      draft.declarationFaults.head? = some fault ∨
        draft.declarationFaults = [] ∧ kind = .deterministic ∧
          ∃ violation, (draft.assemble kind).violation? = some violation ∧
            fault = .determinism violation := by
  unfold build
  cases draft.declarationFaults with
  | cons first later => simp
  | nil =>
      cases kind with
      | nondeterministic => simp
      | deterministic =>
          cases found : (draft.assemble .deterministic).violation? with
          | none => simp [found]
          | some violation => simp [found, eq_comm]

theorem build_ofDeclarations_eq_ok_iff {automaton : Automaton} :
    (ofDeclarations declarations).build kind = .ok automaton ↔
      AllDeclared declarations ∧
        (kind = .deterministic → SingleDestinations declarations) ∧
        (ofDeclarations declarations).assemble kind = automaton := by
  have ordered := transitions_ofDeclarations_ordered declarations
  rw [build_eq_ok_iff, ← consistent_ofDeclarations_iff]
  apply and_congr_right
  intro consistent
  rw [violation?_assemble_eq_none_iff consistent ordered]
  simp only [mem_transitions_ofDeclarations, SingleDestinations]

theorem build_ofDeclarations_eq_error_iff :
    (ofDeclarations declarations).build kind = .error fault ↔
      FirstFault declarations kind fault := by
  have ordered := transitions_ofDeclarations_ordered declarations
  rw [build_eq_error_iff, head?_declarationFaults_ofDeclarations,
    declarationFaults_eq_nil_iff]
  constructor
  · intro failed
    rcases failed with undeclared | ⟨consistent, deterministic, _, found, rfl⟩
    · exact .declaration undeclared
    · obtain ⟨entry, member, several, single, rfl⟩ :=
        (violation?_assemble_eq_some_iff consistent ordered).mp found
      simp only [mem_transitions_ofDeclarations] at member single
      exact .determinism deterministic
        (consistent_ofDeclarations_iff.mp consistent) member several single
  · intro first
    cases first with
    | declaration undeclared => exact Or.inl undeclared
    | determinism deterministic declared recorded several single =>
        have consistent := consistent_ofDeclarations_iff.mpr declared
        simp only [← mem_transitions_ofDeclarations] at recorded single
        exact Or.inr ⟨consistent, deterministic, _,
          (violation?_assemble_eq_some_iff consistent ordered).mpr
            ⟨_, recorded, several, single, rfl⟩, rfl⟩

theorem described_of_build {automaton : Automaton}
    (built : (ofDeclarations declarations).build kind = .ok automaton) :
    Described declarations kind automaton := by
  have wellFormed := build_wellFormed built
  obtain ⟨consistent, _, rfl⟩ := build_eq_ok_iff.mp built
  constructor
  · exact wellFormed
  · rfl
  · intro label
    rw [mem_states_assemble, states_ofDeclarations]
    rfl
  · intro label
    rw [mem_alphabet_assemble, alphabet_ofDeclarations]
    rfl
  · obtain ⟨label, _, given⟩ := consistent.initial_declared
    rw [initialLabel_assemble consistent given, ← given,
      initial_ofDeclarations]
    rfl
  · intro label
    rw [mem_finalLabels_assemble,
      and_iff_right_of_imp (consistent.finals_declared label),
      finals_ofDeclarations]
    rfl
  · intro origin state label symbol stateFound symbolFound destination
    obtain ⟨stateInRange, rfl⟩ :=
      wellFormed.stateIndex?_eq_some_iff.mp stateFound
    obtain ⟨symbolInRange, rfl⟩ :=
      wellFormed.symbolIndex?_eq_some_iff.mp symbolFound
    rw [mem_destinationLabels_assemble stateInRange symbolInRange,
      mem_destinations_ofDeclarations]
    apply and_iff_right_of_imp
    intro found
    obtain ⟨destinations, recorded, member⟩ := found
    exact (consistent.transitions_declared _
      (mem_transitions_ofDeclarations.mpr recorded)).2.2 destination member

/-- Building succeeds exactly when everything is declared and destinations are
single where they have to be.  It then gives the one automaton that is described,
and otherwise reports the first fault. -/
theorem build_ofDeclarations (declarations : List Declaration) (kind : Kind) :
    ((∃ automaton, (ofDeclarations declarations).build kind = .ok automaton) ↔
      AllDeclared declarations ∧
        (kind = .deterministic → SingleDestinations declarations)) ∧
    (∀ automaton, (ofDeclarations declarations).build kind = .ok automaton ↔
      AllDeclared declarations ∧
        (kind = .deterministic → SingleDestinations declarations) ∧
        Described declarations kind automaton) ∧
    ∀ fault, (ofDeclarations declarations).build kind = .error fault ↔
      FirstFault declarations kind fault := by
  refine ⟨?_, ?_, fun _ => build_ofDeclarations_eq_error_iff⟩
  · simp only [build_ofDeclarations_eq_ok_iff, exists_and_left, exists_eq',
      and_true]
  · intro automaton
    constructor
    · intro built
      obtain ⟨declared, single, _⟩ := build_ofDeclarations_eq_ok_iff.mp built
      exact ⟨declared, single, described_of_build built⟩
    · intro described
      obtain ⟨declared, single, described⟩ := described
      have built := build_ofDeclarations_eq_ok_iff.mpr ⟨declared, single, rfl⟩
      rw [built, (described_of_build built).unique described]

end Draft

end Recognizer
