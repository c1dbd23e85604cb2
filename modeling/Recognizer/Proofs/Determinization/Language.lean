import Recognizer.Proofs.Determinization.Reachability

/-!
# Determinization keeps the language

A state of the determinized automaton stands for the set of states that are
active after the words leading to it.  With separated keys no two sets fall
together, so reading a word side by side keeps the two in step, and a set is
final exactly when its state is.
-/

namespace Recognizer

namespace Automaton

variable {automaton : Automaton} {style : KeyStyle}

/-! ## The construction succeeds -/

theorem determinizationDraft_consistent (wellFormed : automaton.WellFormed)
    (style : KeyStyle) : (automaton.determinizationDraft style).Consistent := by
  have nameDeclared : ∀ subset ∈ automaton.representatives style,
      automaton.nameFor style subset ∈
        (automaton.determinizationDraft style).states :=
    fun subset member => mem_determinizationDraft_states.mpr
      ⟨subset, member, rfl⟩
  have initialDeclared := nameDeclared _ (initial_mem_representatives style)
  constructor
  · exact ⟨_, initialDeclared, determinizationDraft_initial⟩
  · intro label member
    obtain ⟨subset, subsetMember, _, rfl⟩ :=
      mem_determinizationDraft_finals.mp member
    exact nameDeclared subset subsetMember
  · apply Draft.transitions_ofDeclarations_within
    intro declaration declared
    rcases mem_determinizationDeclarations.mp declared with
      rfl | rfl | ⟨subset, subsetMember, rfl | rfl | ⟨symbol, inRange, rfl⟩⟩
    · trivial
    · exact initialDeclared
    · trivial
    · intro label member
      split at member
      · rw [List.mem_singleton.mp member]
        exact nameDeclared subset subsetMember
      · exact absurd member List.not_mem_nil
    · refine ⟨nameDeclared subset subsetMember,
        mem_determinizationDraft_alphabet.mpr (getD_mem inRange), ?_⟩
      intro label member
      rw [List.mem_singleton.mp member]
      obtain ⟨known, knownMember, _, sameName⟩ :=
        name_step_known wellFormed subsetMember inRange
      rw [← sameName]
      exact nameDeclared known knownMember

theorem determinization_alphabet (wellFormed : automaton.WellFormed)
    (style : KeyStyle) :
    ((automaton.determinizationDraft style).assemble .deterministic).alphabet =
      automaton.alphabet := by
  apply Ascending.eq_of_mem_iff (Ascending.ofList_strictlyAscending _)
    wellFormed.alphabet_ascending
  intro label
  rw [Ascending.mem_ofList]
  exact mem_determinizationDraft_alphabet

theorem determinization_destinations (wellFormed : automaton.WellFormed)
    {subset : List Nat} (member : subset ∈ automaton.representatives style)
    {symbol : Nat} (inRange : symbol < automaton.alphabet.length)
    {state : Nat}
    (stateInRange : state < ((automaton.determinizationDraft style).assemble
      .deterministic).states.length)
    (named : ((automaton.determinizationDraft style).assemble
      .deterministic).stateLabel state = automaton.nameFor style subset) :
    ((automaton.determinizationDraft style).assemble
        .deterministic).destinations state symbol =
      Draft.positions
        ((automaton.determinizationDraft style).assemble .deterministic).states
        [automaton.nameFor style (automaton.step subset symbol)] := by
  have alphabetEq := determinization_alphabet wellFormed style
  have sameSymbol : ((automaton.determinizationDraft style).assemble
      .deterministic).symbolLabel symbol = automaton.symbolLabel symbol := by
    rw [symbolLabel, symbolLabel, alphabetEq]
  rw [Draft.destinations_assemble stateInRange (by rw [alphabetEq]; exact inRange),
    named, sameSymbol, determinizationDraft_destinations wellFormed member
      inRange]

theorem positions_singleton {labels : List String} {label : String}
    {position : Nat} (found : labels.idxOf? label = some position) :
    Draft.positions labels [label] = [position] := by
  rw [Draft.positions]
  simp [found, Ascending.ofList_singleton]

theorem determinization_violation? (wellFormed : automaton.WellFormed)
    (style : KeyStyle) :
    ((automaton.determinizationDraft style).assemble
      .deterministic).violation? = none := by
  apply violation?_eq_none_iff.mpr
  intro state stateInRange symbol symbolInRange
  rw [determinization_alphabet wellFormed style] at symbolInRange
  obtain ⟨subset, member, named⟩ := mem_determinizationDraft_states.mp
    (Ascending.mem_ofList.mp (getD_mem stateInRange))
  rw [determinization_destinations wellFormed member symbolInRange
    stateInRange named]
  apply Ascending.ofList_length_le_one
  intro first firstMember second secondMember
  simp only [List.filterMap_cons, List.filterMap_nil] at firstMember secondMember
  split at firstMember
  · exact absurd firstMember List.not_mem_nil
  · rw [List.mem_singleton] at firstMember
    split at secondMember
    · exact absurd secondMember List.not_mem_nil
    · rename_i firstFound _ _ secondFound
      rw [List.mem_singleton] at secondMember
      rw [firstMember, secondMember]
      exact Option.some.inj (firstFound.symm.trans secondFound)

/-! ## Representatives and states -/

/-- The deterministic automaton has one state for every representative, named
after it, which behaves as the representative does. -/
structure StandsFor (automaton : Automaton) (style : KeyStyle)
    (deterministic : Automaton) : Prop where
  wellFormed : deterministic.WellFormed
  kind_eq : deterministic.kind = .deterministic
  alphabet_eq : deterministic.alphabet = automaton.alphabet
  mem_states : ∀ label, label ∈ deterministic.states ↔
    ∃ subset ∈ automaton.representatives style,
      label = automaton.nameFor style subset
  initialLabel_eq : deterministic.initialLabel =
    automaton.nameFor style [automaton.initial]
  isFinal_iff : ∀ subset ∈ automaton.representatives style, ∀ state,
    deterministic.stateIndex? (automaton.nameFor style subset) = some state →
      (deterministic.isFinal state = true ↔
        subset.any automaton.isFinal = true)
  destinations_eq : ∀ subset ∈ automaton.representatives style, ∀ state,
    deterministic.stateIndex? (automaton.nameFor style subset) = some state →
      ∀ symbol < automaton.alphabet.length, ∃ next,
        deterministic.stateIndex? (automaton.nameFor style
          (automaton.step subset symbol)) = some next ∧
        deterministic.destinations state symbol = [next]

/-- The construction succeeds with either kind of keys. -/
theorem determinize_standsFor (wellFormed : automaton.WellFormed)
    (style : KeyStyle) :
    ∃ deterministic, automaton.determinize style =
        .ok ⟨deterministic, (automaton.representatives style).map
          automaton.subsetLabels⟩ ∧
      StandsFor automaton style deterministic := by
  have consistent := determinizationDraft_consistent wellFormed style
  have atMostOne := determinization_violation? wellFormed style
  have shape := Draft.assemble_wellFormed consistent fun _ => atMostOne
  refine ⟨(automaton.determinizationDraft style).assemble .deterministic,
    ?_, ?_⟩
  · have built : (automaton.determinizationDraft style).build .deterministic =
        .ok ((automaton.determinizationDraft style).assemble
          .deterministic) :=
      Draft.build_eq_ok_iff.mpr ⟨consistent, fun _ => atMostOne, rfl⟩
    rw [determinize_eq wellFormed]
    exact congrArg (Except.map _) built
  · refine ⟨shape, rfl, determinization_alphabet wellFormed style, ?_, ?_,
      ?_, ?_⟩
    · intro label
      rw [Draft.mem_states_assemble]
      exact mem_determinizationDraft_states
    · exact Draft.initialLabel_assemble consistent determinizationDraft_initial
    · intro subset member state found
      obtain ⟨inRange, named⟩ := shape.stateIndex?_eq_some_iff.mp found
      rw [Draft.isFinal_assemble, named, mem_determinizationDraft_finals]
      constructor
      · intro final
        obtain ⟨other, otherMember, otherFinal, sameName⟩ := final.2
        rw [(nameFor_inj_of_mem wellFormed member otherMember).mp sameName]
        exact otherFinal
      · exact fun final => ⟨inRange, subset, member, final, rfl⟩
    · intro subset member state found symbol inRange
      obtain ⟨stateInRange, named⟩ := shape.stateIndex?_eq_some_iff.mp found
      obtain ⟨known, knownMember, _, sameName⟩ :=
        name_step_known wellFormed member inRange
      have declared : automaton.nameFor style (automaton.step subset symbol) ∈
          ((automaton.determinizationDraft style).assemble
            .deterministic).states := by
        rw [Draft.mem_states_assemble, ← sameName]
        exact mem_determinizationDraft_states.mpr ⟨known, knownMember, rfl⟩
      obtain ⟨next, nextFound⟩ := Option.isSome_iff_exists.mp
        (List.isSome_idxOf?.mpr declared)
      refine ⟨next, nextFound, ?_⟩
      rw [determinization_destinations wellFormed member inRange stateInRange
        named]
      exact positions_singleton nextFound

namespace StandsFor

variable {deterministic : Automaton}

theorem symbolIndex?_eq (stands : StandsFor automaton style deterministic)
    (label : String) :
    deterministic.symbolIndex? label = automaton.symbolIndex? label := by
  rw [symbolIndex?, symbolIndex?, stands.alphabet_eq]

/-- As long as no two subsets fall together, a state accepts what its
representative does. -/
theorem acceptsFrom (stands : StandsFor automaton style deterministic)
    (separate : ∀ subset ∈ automaton.representatives style,
      ∀ symbol < automaton.alphabet.length,
        automaton.step subset symbol ∈ automaton.representatives style)
    (alphabetDistinct : automaton.alphabet.Nodup) (word : Word) :
    ∀ subset ∈ automaton.representatives style, ∀ state,
      deterministic.stateIndex? (automaton.nameFor style subset) =
        some state →
      deterministic.acceptsFrom [state] word =
        automaton.acceptsFrom subset word := by
  induction word with
  | nil =>
      intro subset member state found
      rw [Bool.eq_iff_iff]
      simp only [Automaton.acceptsFrom, List.any_cons, List.any_nil,
        Bool.or_false]
      exact stands.isFinal_iff subset member state found
  | cons label rest ih =>
      intro subset member state found
      rw [acceptsFrom_cons, acceptsFrom_cons, stands.symbolIndex?_eq]
      cases known : automaton.symbolIndex? label with
      | none => rfl
      | some symbol =>
          have inRange : symbol < automaton.alphabet.length :=
            ((idxOf?_eq_some_iff_getD alphabetDistinct).mp known).1
          obtain ⟨next, nextFound, destinations⟩ :=
            stands.destinations_eq subset member state found symbol inRange
          have reached : deterministic.step [state] symbol = [next] := by
            rw [step_singleton stands.wellFormed, destinations]
          simp only [reached]
          exact ih _ (separate subset member symbol inRange) next nextFound

theorem stateIndex?_initial
    (stands : StandsFor automaton style deterministic) :
    deterministic.stateIndex? (automaton.nameFor style [automaton.initial]) =
      some deterministic.initial :=
  stands.wellFormed.stateIndex?_eq_some_iff.mpr
    ⟨stands.wellFormed.initial_lt, stands.initialLabel_eq⟩

theorem states_perm (stands : StandsFor automaton style deterministic)
    (wellFormed : automaton.WellFormed) :
    deterministic.states.Perm
      ((List.range (automaton.representatives style).length).map
        subsetName) := by
  apply (List.perm_ext_iff_of_nodup stands.wellFormed.states_nodup _).mpr
  · intro label
    rw [stands.mem_states]
    constructor
    · intro named
      obtain ⟨subset, member, rfl⟩ := named
      obtain ⟨position, inRange, rfl⟩ := List.mem_iff_getElem.mp member
      rw [nameFor_getElem wellFormed style inRange]
      exact List.mem_map_of_mem (List.mem_range.mpr inRange)
    · intro numbered
      obtain ⟨position, member, rfl⟩ := List.mem_map.mp numbered
      have inRange := List.mem_range.mp member
      exact ⟨_, List.getElem_mem inRange,
        (nameFor_getElem wellFormed style inRange).symm⟩
  · apply List.Nodup.map _ List.nodup_range
    intro first second same
    exact subsetName_inj.mp same

end StandsFor

/-- Where no two reachable sets share a key, the language is kept. -/
theorem StandsFor.accepts_of_separates {deterministic : Automaton}
    (stands : StandsFor automaton style deterministic)
    (separates : automaton.Separates style)
    (wellFormed : automaton.WellFormed) (word : Word) :
    deterministic.accepts word = automaton.accepts word :=
  stands.acceptsFrom
    (fun _ member _ inRange =>
      separates.step_mem_representatives wellFormed member inRange)
    wellFormed.alphabet_nodup word _ (initial_mem_representatives style)
    _ stands.stateIndex?_initial

theorem StandsFor.accepts {deterministic : Automaton}
    (stands : StandsFor automaton .separated deterministic)
    (wellFormed : automaton.WellFormed) (word : Word) :
    deterministic.accepts word = automaton.accepts word :=
  stands.accepts_of_separates wellFormed.separates_separated wellFormed word

end Automaton

end Recognizer
