import Recognizer.Proofs.Automaton.Building
import Recognizer.Proofs.Automaton.Runs
import Recognizer.Proofs.Determinization.Exploration
import Recognizer.Proofs.Labels

/-!
# The determinized automaton

The search ends with subsets of distinct keys that lead to no key outside, so
every name that a declaration refers to is declared and the construction always
succeeds.  Each representative then has a state of its own, which goes on every
symbol to the one state with the key of the next subset.
-/

namespace Recognizer

namespace Automaton

/-- A set of states of the automaton, as its ascending list. -/
structure IsSubset (automaton : Automaton) (subset : List Nat) : Prop where
  ascending : StrictlyAscending subset
  inRange : ∀ state ∈ subset, state < automaton.states.length

variable {automaton : Automaton}

theorem WellFormed.isSubset_initial (wellFormed : automaton.WellFormed) :
    automaton.IsSubset [automaton.initial] where
  ascending := List.pairwise_singleton _ _
  inRange := by
    intro state member
    rw [List.mem_singleton.mp member]
    exact wellFormed.initial_lt

theorem WellFormed.isSubset_step (wellFormed : automaton.WellFormed)
    (active : List Nat) (symbol : Nat) :
    automaton.IsSubset (automaton.step active symbol) where
  ascending := step_strictlyAscending automaton active symbol
  inRange := fun _ reached => step_lt wellFormed reached

theorem mem_successors {subset next : List Nat} :
    next ∈ automaton.successors subset ↔
      ∃ symbol < automaton.alphabet.length,
        automaton.step subset symbol = next := by
  simp [successors, symbolIndices]

theorem subsetLabels_inj (wellFormed : automaton.WellFormed)
    {first second : List Nat}
    (firstInRange : ∀ state ∈ first, state < automaton.states.length)
    (secondInRange : ∀ state ∈ second, state < automaton.states.length) :
    automaton.subsetLabels first = automaton.subsetLabels second ↔
      first = second := by
  constructor
  · intro same
    have position : ∀ state < automaton.states.length,
        automaton.states.idxOf (automaton.stateLabel state) = state := by
      intro state inRange
      have present : automaton.stateLabel state ∈ automaton.states :=
        getD_mem inRange
      have found : (automaton.states.idxOf (automaton.stateLabel state)) <
          automaton.states.length := List.idxOf_lt_length_of_mem present
      apply (getD_inj wellFormed.states_nodup found inRange).mp
      rw [List.getD_eq_getElem _ _ found]
      exact List.getElem_idxOf found
    have restore : ∀ subset : List Nat,
        (∀ state ∈ subset, state < automaton.states.length) →
        (automaton.subsetLabels subset).map automaton.states.idxOf =
          subset := by
      intro subset inRange
      rw [subsetLabels, List.map_map]
      exact (List.map_congr_left fun state member =>
        position state (inRange state member)).trans (List.map_id subset)
    rw [← restore first firstInRange, same, restore second secondInRange]
  · exact fun same => congrArg automaton.subsetLabels same

/-! ## Representatives -/

section Representatives

variable (wellFormed : automaton.WellFormed) (style : KeyStyle)

include wellFormed

theorem isSubset_of_mem_discovered :
    ∀ subset ∈ automaton.discovered style, automaton.IsSubset subset := by
  apply Subset.exploreFrom_forall
  · intro subset _ next leads
    obtain ⟨symbol, _, rfl⟩ := mem_successors.mp leads
    exact wellFormed.isSubset_step subset symbol
  · intro subset member
    rw [List.mem_singleton.mp member]
    exact wellFormed.isSubset_initial

/-- The search ends because nothing is waiting: there are at most as many keys as
sets of states. -/
theorem discovered_search :
    Subset.Search (automaton.subsetKey style) automaton.successors []
      [[automaton.initial]] (automaton.discovered style) := by
  apply Subset.exploreFrom_search automaton.IsSubset
    (Nat.pow 2 automaton.states.length)
  · intro subset _ next leads
    obtain ⟨symbol, _, rfl⟩ := mem_successors.mp leads
    exact wellFormed.isSubset_step subset symbol
  · intro subsets distinct areSubsets
    exact Ascending.length_le_pow (List.Nodup.of_map _ distinct)
      (fun subset member => (areSubsets subset member).ascending)
      (fun subset member => (areSubsets subset member).inRange)
  · exact Subset.Frontier.start _
  · intro subset member
    rw [List.mem_singleton.mp member]
    exact wellFormed.isSubset_initial
  · exact Nat.le_add_right _ _

theorem discovered_frontier :
    Subset.Frontier (automaton.subsetKey style) automaton.successors
      (automaton.discovered style) [] :=
  (discovered_search wellFormed style).frontier (Subset.Frontier.start _)

theorem representatives_distinct :
    ((automaton.representatives style).map
      (automaton.subsetKey style)).Nodup := by
  have distinct := (discovered_frontier wellFormed style).distinct
  rw [List.append_nil] at distinct
  exact ((Subset.arrange_perm _).map _).nodup_iff.mpr distinct

theorem representatives_nodup : (automaton.representatives style).Nodup :=
  (representatives_distinct wellFormed style).of_map

theorem representatives_ascending :
    (automaton.representatives style).Pairwise fun first second =>
      automaton.subsetKey style first < automaton.subsetKey style second := by
  have distinct := (discovered_frontier wellFormed style).distinct
  rw [List.append_nil] at distinct
  exact Subset.arrange_ascending distinct

/-- The order of the keys determines the list. -/
theorem representatives_eq_of_perm {subsets : List (List Nat)}
    (same : (automaton.representatives style).Perm subsets)
    (ascending : subsets.Pairwise fun first second =>
      automaton.subsetKey style first < automaton.subsetKey style second) :
    automaton.representatives style = subsets := by
  apply same.eq_of_pairwise _ (representatives_ascending wellFormed style)
    ascending
  intro first second _ _ below above
  exact absurd (List.lt_trans below above) (List.lt_irrefl _)

theorem isSubset_of_mem_representatives {subset : List Nat}
    (member : subset ∈ automaton.representatives style) :
    automaton.IsSubset subset :=
  isSubset_of_mem_discovered wellFormed style subset
    (Subset.mem_arrange.mp member)

omit wellFormed in
theorem initial_mem_representatives :
    [automaton.initial] ∈ automaton.representatives style := by
  apply Subset.mem_arrange.mpr
  exact (Subset.exploreFrom_keeps _ [] [[automaton.initial]]).subset (by simp)

theorem key_step_known {subset : List Nat}
    (member : subset ∈ automaton.representatives style) {symbol : Nat}
    (inRange : symbol < automaton.alphabet.length) :
    ∃ known ∈ automaton.representatives style,
      automaton.subsetKey style known =
        automaton.subsetKey style (automaton.step subset symbol) := by
  obtain ⟨known, knownMember, same⟩ :=
    (discovered_frontier wellFormed style).closed subset
      (Subset.mem_arrange.mp member) _
      (mem_successors.mpr ⟨symbol, inRange, rfl⟩)
  rw [List.append_nil] at knownMember
  exact ⟨known, Subset.mem_arrange.mpr knownMember, same⟩

end Representatives

/-! ## Names -/

/-- The name of the state for a subset that has the key of a representative. -/
def nameFor (automaton : Automaton) (style : KeyStyle)
    (subset : List Nat) : String :=
  subsetName <| (automaton.representatives style).findIdx
    fun representative =>
      automaton.subsetKey style representative
        == automaton.subsetKey style subset

theorem nameOfSubset?_eq_some {style : KeyStyle} {subset : List Nat}
    (known : ∃ known ∈ automaton.representatives style,
      automaton.subsetKey style known = automaton.subsetKey style subset) :
    automaton.nameOfSubset? style (automaton.representatives style) subset =
      some (automaton.nameFor style subset) := by
  obtain ⟨representative, member, same⟩ := known
  have found : ∃ known ∈ automaton.representatives style,
      (automaton.subsetKey style known ==
        automaton.subsetKey style subset) = true :=
    ⟨representative, member, beq_iff_eq.mpr same⟩
  rw [nameOfSubset?, List.findIdx?_eq_some_of_exists found]
  rfl

theorem nameFor_inj {style : KeyStyle} {first second : List Nat}
    (firstKnown : ∃ known ∈ automaton.representatives style,
      automaton.subsetKey style known = automaton.subsetKey style first)
    (secondKnown : ∃ known ∈ automaton.representatives style,
      automaton.subsetKey style known = automaton.subsetKey style second) :
    automaton.nameFor style first = automaton.nameFor style second ↔
      automaton.subsetKey style first = automaton.subsetKey style second := by
  have found : ∀ {subset : List Nat},
      (∃ known ∈ automaton.representatives style,
        automaton.subsetKey style known = automaton.subsetKey style subset) →
      ∃ known, (automaton.representatives style)[
          (automaton.representatives style).findIdx fun representative =>
            automaton.subsetKey style representative ==
              automaton.subsetKey style subset]? = some known ∧
        automaton.subsetKey style known =
          automaton.subsetKey style subset := by
    intro subset known
    obtain ⟨representative, member, same⟩ := known
    have inRange := List.findIdx_lt_length_of_exists (p := fun representative =>
      automaton.subsetKey style representative ==
        automaton.subsetKey style subset)
      ⟨representative, member, beq_iff_eq.mpr same⟩
    exact ⟨_, List.getElem?_eq_getElem inRange,
      beq_iff_eq.mp (List.findIdx_getElem (w := inRange))⟩
  obtain ⟨firstRepresentative, firstFound, firstSame⟩ := found firstKnown
  obtain ⟨secondRepresentative, secondFound, secondSame⟩ := found secondKnown
  unfold nameFor
  rw [subsetName_inj]
  constructor
  · intro same
    rw [same, secondFound] at firstFound
    cases firstFound
    exact firstSame.symm.trans secondSame
  · intro same
    rw [same]

theorem nameFor_inj_of_mem (wellFormed : automaton.WellFormed)
    {style : KeyStyle} {first second : List Nat}
    (firstMember : first ∈ automaton.representatives style)
    (secondMember : second ∈ automaton.representatives style) :
    automaton.nameFor style first = automaton.nameFor style second ↔
      first = second := by
  rw [nameFor_inj ⟨first, firstMember, rfl⟩ ⟨second, secondMember, rfl⟩]
  constructor
  · exact List.inj_on_of_nodup_map (representatives_distinct wellFormed style)
      firstMember secondMember
  · exact fun same => congrArg _ same

/-- Representatives are named by their positions. -/
theorem nameFor_getElem (wellFormed : automaton.WellFormed)
    (style : KeyStyle) {position : Nat}
    (inRange : position < (automaton.representatives style).length) :
    automaton.nameFor style (automaton.representatives style)[position] =
      subsetName position := by
  have distinct := representatives_distinct wellFormed style
  unfold nameFor
  rw [subsetName_inj, List.findIdx_eq inRange]
  refine ⟨beq_self_eq_true _, ?_⟩
  intro earlier before
  rw [beq_eq_false_iff_ne]
  intro same
  have equal : earlier = position :=
    (List.Nodup.getElem_inj_iff distinct.of_map).mp
      (List.inj_on_of_nodup_map distinct (List.getElem_mem _)
        (List.getElem_mem inRange) same)
  omega

theorem nameFor_of_getElem? (wellFormed : automaton.WellFormed)
    {style : KeyStyle} {position : Nat} {subset : List Nat}
    (listed : (automaton.representatives style)[position]? = some subset) :
    automaton.nameFor style subset = subsetName position := by
  obtain ⟨inRange, found⟩ := List.getElem?_eq_some_iff.mp listed
  rw [← found]
  exact nameFor_getElem wellFormed style inRange

theorem name_step_known (wellFormed : automaton.WellFormed)
    {style : KeyStyle} {subset : List Nat}
    (member : subset ∈ automaton.representatives style) {symbol : Nat}
    (inRange : symbol < automaton.alphabet.length) :
    ∃ known ∈ automaton.representatives style,
      automaton.subsetKey style known =
        automaton.subsetKey style (automaton.step subset symbol) ∧
      automaton.nameFor style known =
        automaton.nameFor style (automaton.step subset symbol) := by
  obtain ⟨known, knownMember, same⟩ :=
    key_step_known wellFormed style member inRange
  refine ⟨known, knownMember, same, ?_⟩
  exact (nameFor_inj ⟨known, knownMember, rfl⟩
    ⟨known, knownMember, same⟩).mpr same

/-! ## Declarations -/

/-- What is declared for one representative. -/
def subsetDeclarations (automaton : Automaton) (style : KeyStyle)
    (subset : List Nat) : List Declaration :=
  .states [automaton.nameFor style subset]
    :: .finals (if subset.any automaton.isFinal then
        [automaton.nameFor style subset] else [])
    :: automaton.symbolIndices.map fun symbol =>
        .transition
          { origin := automaton.nameFor style subset
            symbol := automaton.symbolLabel symbol
            destinations :=
              [automaton.nameFor style (automaton.step subset symbol)] }

/-- What the construction declares. -/
def determinizationDeclarations (automaton : Automaton) (style : KeyStyle) :
    List Declaration :=
  .alphabet automaton.alphabet
    :: .initial (automaton.nameFor style [automaton.initial])
    :: (automaton.representatives style).flatMap
        (automaton.subsetDeclarations style)

section Lookups

variable (wellFormed : automaton.WellFormed) (style : KeyStyle)

include wellFormed

theorem subsetDeclarations?_eq_some {subset : List Nat}
    (member : subset ∈ automaton.representatives style) :
    automaton.subsetDeclarations? style (automaton.representatives style)
      subset = some (automaton.subsetDeclarations style subset) := by
  have named := nameOfSubset?_eq_some ⟨subset, member, rfl⟩
  have next : ∀ symbol ∈ automaton.symbolIndices,
      automaton.nameOfSubset? style (automaton.representatives style)
        (automaton.step subset symbol) =
          some (automaton.nameFor style (automaton.step subset symbol)) := by
    intro symbol listed
    exact nameOfSubset?_eq_some (key_step_known wellFormed style member
      (List.mem_range.mp listed))
  simp only [subsetDeclarations?, named, Option.bind_eq_bind,
    Option.bind_some]
  rw [mapM_eq_some_map fun symbol listed =>
    congrArg (Option.map _) (next symbol listed)]
  rfl

/-- No look-up of a name fails: the keys of the initial set and of every next set
are listed. -/
theorem determinizationDeclarations?_eq_some :
    automaton.determinizationDeclarations? style =
      some (automaton.determinizationDeclarations style) := by
  have initialMember : [automaton.initial] ∈ automaton.representatives style :=
    initial_mem_representatives style
  have initial := nameOfSubset?_eq_some ⟨_, initialMember, rfl⟩
  have declarations := mapM_eq_some_map
    fun _ member => subsetDeclarations?_eq_some wellFormed style member
  simp only [determinizationDeclarations?, initial, declarations,
    Option.bind_eq_bind, Option.bind_some]
  rfl

theorem determinize?_eq_some :
    automaton.determinize? style = some (automaton.determinize style) := by
  rw [determinize, determinize?,
    determinizationDeclarations?_eq_some wellFormed style, Option.map_some,
    Option.getD_some]

theorem determinize_eq :
    automaton.determinize style =
      ((Draft.ofDeclarations
        (automaton.determinizationDeclarations style)).build
          .deterministic).map fun deterministic =>
        { automaton := deterministic
          subsets := (automaton.representatives style).map
            automaton.subsetLabels } := by
  rw [determinize, determinize?,
    determinizationDeclarations?_eq_some wellFormed style, Option.map_some,
    Option.getD_some]

end Lookups

theorem mem_determinizationDeclarations {style : KeyStyle}
    {declaration : Declaration} :
    declaration ∈ automaton.determinizationDeclarations style ↔
      declaration = .alphabet automaton.alphabet ∨
      declaration = .initial (automaton.nameFor style [automaton.initial]) ∨
      ∃ subset ∈ automaton.representatives style,
        declaration = .states [automaton.nameFor style subset] ∨
        declaration = .finals
          (if subset.any automaton.isFinal then
            [automaton.nameFor style subset] else []) ∨
        ∃ symbol < automaton.alphabet.length,
          declaration = .transition
            { origin := automaton.nameFor style subset
              symbol := automaton.symbolLabel symbol
              destinations :=
                [automaton.nameFor style (automaton.step subset symbol)] } := by
  simp only [determinizationDeclarations, subsetDeclarations, symbolIndices,
    List.mem_cons, List.mem_flatMap, List.mem_map, List.mem_range]
  simp only [eq_comm (a := declaration)]

/-- The draft of the construction. -/
def determinizationDraft (automaton : Automaton) (style : KeyStyle) : Draft :=
  Draft.ofDeclarations (automaton.determinizationDeclarations style)

theorem mem_determinizationDraft_states {style : KeyStyle} {label : String} :
    label ∈ (automaton.determinizationDraft style).states ↔
      ∃ subset ∈ automaton.representatives style,
        label = automaton.nameFor style subset := by
  rw [determinizationDraft, Draft.states_ofDeclarations, List.mem_flatMap]
  constructor
  · intro listed
    obtain ⟨declaration, declared, member⟩ := listed
    rcases mem_determinizationDeclarations.mp declared with
      rfl | rfl | ⟨subset, subsetMember, rfl | rfl | ⟨symbol, _, rfl⟩⟩
    · exact absurd member List.not_mem_nil
    · exact absurd member List.not_mem_nil
    · exact ⟨subset, subsetMember, List.mem_singleton.mp member⟩
    · exact absurd member List.not_mem_nil
    · exact absurd member List.not_mem_nil
  · intro named
    obtain ⟨subset, subsetMember, rfl⟩ := named
    exact ⟨.states [automaton.nameFor style subset],
      mem_determinizationDeclarations.mpr
        (Or.inr (Or.inr ⟨subset, subsetMember, Or.inl rfl⟩)),
      by simp [Declaration.stateLabels]⟩

theorem mem_determinizationDraft_alphabet {style : KeyStyle}
    {label : String} :
    label ∈ (automaton.determinizationDraft style).alphabet ↔
      label ∈ automaton.alphabet := by
  rw [determinizationDraft, Draft.alphabet_ofDeclarations, List.mem_flatMap]
  constructor
  · intro listed
    obtain ⟨declaration, declared, member⟩ := listed
    rcases mem_determinizationDeclarations.mp declared with
      rfl | rfl | ⟨subset, _, rfl | rfl | ⟨symbol, _, rfl⟩⟩
    · exact member
    · exact absurd member List.not_mem_nil
    · exact absurd member List.not_mem_nil
    · exact absurd member List.not_mem_nil
    · exact absurd member List.not_mem_nil
  · intro member
    exact ⟨.alphabet automaton.alphabet,
      mem_determinizationDeclarations.mpr (Or.inl rfl), member⟩

theorem mem_determinizationDraft_finals {style : KeyStyle} {label : String} :
    label ∈ (automaton.determinizationDraft style).finals ↔
      ∃ subset ∈ automaton.representatives style,
        subset.any automaton.isFinal = true ∧
          label = automaton.nameFor style subset := by
  rw [determinizationDraft, Draft.finals_ofDeclarations, List.mem_flatMap]
  constructor
  · intro listed
    obtain ⟨declaration, declared, member⟩ := listed
    rcases mem_determinizationDeclarations.mp declared with
      rfl | rfl | ⟨subset, subsetMember, rfl | rfl | ⟨symbol, _, rfl⟩⟩
    · exact absurd member List.not_mem_nil
    · exact absurd member List.not_mem_nil
    · exact absurd member List.not_mem_nil
    · rw [Declaration.finalLabels] at member
      split at member
      · rename_i final
        exact ⟨subset, subsetMember, final, List.mem_singleton.mp member⟩
      · exact absurd member List.not_mem_nil
    · exact absurd member List.not_mem_nil
  · intro named
    obtain ⟨subset, subsetMember, final, rfl⟩ := named
    refine ⟨.finals [automaton.nameFor style subset],
      mem_determinizationDeclarations.mpr
        (Or.inr (Or.inr ⟨subset, subsetMember, Or.inr (Or.inl ?_)⟩)),
      by simp [Declaration.finalLabels]⟩
    rw [if_pos final]

theorem determinizationDraft_initial {style : KeyStyle} :
    (automaton.determinizationDraft style).initial =
      some (automaton.nameFor style [automaton.initial]) := by
  have none : ((automaton.representatives style).flatMap
      (automaton.subsetDeclarations style)).filterMap
      Declaration.initial? = [] := by
    simp [List.filterMap_flatMap, subsetDeclarations, List.filterMap_cons,
      List.filterMap_map, Function.comp_def, Declaration.initial?]
  rw [determinizationDraft, Draft.initial_ofDeclarations]
  simp [determinizationDeclarations, List.filterMap_cons,
    Declaration.initial?, none]

theorem determinizationDraft_destinations (wellFormed : automaton.WellFormed)
    {style : KeyStyle} {subset : List Nat}
    (member : subset ∈ automaton.representatives style) {symbol : Nat}
    (inRange : symbol < automaton.alphabet.length) :
    TransitionTable.destinations
        (automaton.determinizationDraft style).transitions
        (automaton.nameFor style subset) (automaton.symbolLabel symbol) =
      [automaton.nameFor style (automaton.step subset symbol)] := by
  rw [determinizationDraft, Draft.destinations_ofDeclarations]
  apply Declaration.foldl_record_of_agree
  · intro declaration declared previous
    rcases mem_determinizationDeclarations.mp declared with
      rfl | rfl | ⟨other, otherMember, rfl | rfl |
        ⟨otherSymbol, otherInRange, rfl⟩⟩
    · exact Or.inr rfl
    · exact Or.inr rfl
    · exact Or.inr rfl
    · exact Or.inr rfl
    · simp only [Declaration.record, Transition.key, List.cons.injEq, and_true]
      by_cases same : automaton.nameFor style other =
          automaton.nameFor style subset ∧
        automaton.symbolLabel otherSymbol = automaton.symbolLabel symbol
      · left
        rw [if_pos same]
        obtain ⟨sameName, sameLabel⟩ := same
        rw [(nameFor_inj_of_mem wellFormed otherMember member).mp sameName,
          (getD_inj wellFormed.alphabet_nodup otherInRange inRange).mp
            sameLabel]
      · right
        rw [if_neg same]
  · refine ⟨_, mem_determinizationDeclarations.mpr
      (Or.inr (Or.inr ⟨subset, member,
        Or.inr (Or.inr ⟨symbol, inRange, rfl⟩)⟩)), ?_⟩
    intro previous
    simp [Declaration.record, Transition.key]

end Automaton

end Recognizer
