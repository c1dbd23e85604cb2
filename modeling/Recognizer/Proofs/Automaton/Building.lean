import Mathlib.Data.List.Dedup
import Recognizer.Proofs.Automaton.Declarations
import Recognizer.Proofs.Automaton.Shape

/-!
# Automata from drafts

A draft describes an automaton when everything it refers to is declared.  The
automaton that is built then is well-formed, its labels are exactly the
declared ones, and its destinations are the recorded ones.
-/

namespace Recognizer

/-- Everything that the draft refers to is declared. -/
structure Draft.Consistent (draft : Draft) : Prop where
  initial_declared : ∃ label ∈ draft.states, draft.initial = some label
  finals_declared : ∀ label ∈ draft.finals, label ∈ draft.states
  transitions_declared : ∀ entry ∈ draft.transitions,
    entry.Within draft.states draft.alphabet

namespace Draft

theorem stateFaults_eq_nil_iff {states : List String} {label : String} :
    stateFaults states label = [] ↔ label ∈ states := by
  simp [stateFaults]

theorem transitionFaults_eq_nil_iff {states alphabet : List String}
    {entry : Transition} :
    transitionFaults states alphabet entry = [] ↔
      entry.Within states alphabet := by
  simp only [transitionFaults, List.append_eq_nil_iff, List.flatMap_eq_nil_iff,
    stateFaults_eq_nil_iff, Transition.Within, and_assoc]
  by_cases known : entry.symbol ∈ alphabet
  · simp [known]
  · simp [known]

theorem declarationFaults_eq_nil_iff {draft : Draft} :
    draft.declarationFaults = [] ↔ draft.Consistent := by
  simp only [declarationFaults, List.append_eq_nil_iff,
    List.flatMap_eq_nil_iff, stateFaults_eq_nil_iff,
    transitionFaults_eq_nil_iff]
  constructor
  · intro faultless
    obtain ⟨⟨⟨someState, initialFaults⟩, finals⟩, transitions⟩ := faultless
    refine ⟨?_, finals, transitions⟩
    cases given : draft.initial with
    | none => simp [given] at initialFaults
    | some label =>
        by_cases declared : label ∈ draft.states
        · exact ⟨label, declared, rfl⟩
        · simp [given, declared] at initialFaults
  · intro consistent
    obtain ⟨⟨label, declared, given⟩, finals, transitions⟩ := consistent
    refine ⟨⟨⟨?_, ?_⟩, finals⟩, transitions⟩
    · rw [if_neg]
      simpa using List.ne_nil_of_mem declared
    · simp [given, declared]

/-- A draft is built when it is consistent and, for a deterministic automaton,
no state and symbol has several destinations. -/
theorem build_eq_ok_iff {draft : Draft} {kind : Kind}
    {automaton : Automaton} :
    draft.build kind = .ok automaton ↔
      draft.Consistent ∧
        (kind = .deterministic → (draft.assemble kind).violation? = none) ∧
        draft.assemble kind = automaton := by
  rw [← declarationFaults_eq_nil_iff]
  unfold build
  cases draft.declarationFaults with
  | cons fault later => simp
  | nil =>
      cases kind with
      | nondeterministic => simp
      | deterministic =>
          cases found : (draft.assemble .deterministic).violation? with
          | none => simp [found]
          | some violation => simp [found]

/-! ## The assembled automaton -/

theorem mem_positions {labels members : List String}
    (distinct : labels.Nodup) {position : Nat} :
    position ∈ positions labels members ↔
      position < labels.length ∧ labels.getD position "" ∈ members := by
  simp only [positions, Ascending.mem_ofList, List.mem_filterMap,
    idxOf?_eq_some_iff_getD distinct]
  constructor
  · intro listed
    obtain ⟨label, member, inRange, rfl⟩ := listed
    exact ⟨inRange, member⟩
  · intro stands
    obtain ⟨inRange, member⟩ := stands
    exact ⟨_, member, inRange, rfl⟩

theorem positions_ascending (labels members : List String) :
    StrictlyAscending (positions labels members) :=
  Ascending.ofList_strictlyAscending _

theorem positions_map_getD {labels : List String} (distinct : labels.Nodup)
    {members : List Nat} (ascending : StrictlyAscending members)
    (inRange : ∀ position ∈ members, position < labels.length) :
    positions labels (members.map (labels.getD · "")) = members := by
  apply Ascending.eq_of_mem_iff (positions_ascending _ _) ascending
  intro position
  rw [mem_positions distinct]
  constructor
  · intro stands
    obtain ⟨positionInRange, listed⟩ := stands
    obtain ⟨other, member, same⟩ := List.mem_map.mp listed
    have equal : other = position :=
      (getD_inj distinct (inRange other member) positionInRange).mp same
    exact equal ▸ member
  · intro member
    exact ⟨inRange position member, List.mem_map_of_mem member⟩

theorem mem_map_positions {labels members : List String}
    (distinct : labels.Nodup) {label : String} :
    label ∈ (positions labels members).map (labels.getD · "") ↔
      label ∈ labels ∧ label ∈ members := by
  simp only [List.mem_map, mem_positions distinct]
  constructor
  · intro found
    obtain ⟨position, ⟨inRange, member⟩, rfl⟩ := found
    exact ⟨getD_mem inRange, member⟩
  · intro listed
    obtain ⟨known, member⟩ := listed
    obtain ⟨position, inRange, rfl⟩ := exists_getD_eq known
    exact ⟨position, ⟨inRange, member⟩, rfl⟩

theorem length_positions {labels members : List String}
    (distinct : labels.Nodup)
    (listed : ∀ member ∈ members, member ∈ labels) :
    (positions labels members).length = members.dedup.length := by
  have nodup : ((positions labels members).map (labels.getD · "")).Nodup := by
    apply (positions_ascending labels members).nodup.map_on
    intro first firstMember second secondMember
    exact (getD_inj distinct ((mem_positions distinct).mp firstMember).1
      ((mem_positions distinct).mp secondMember).1).mp
  have same : ((positions labels members).map (labels.getD · "")).Perm
      members.dedup := by
    apply (List.perm_ext_iff_of_nodup nodup members.nodup_dedup).mpr
    intro label
    rw [mem_map_positions distinct, List.mem_dedup]
    exact and_iff_right_of_imp (listed label)
  rw [← same.length_eq, List.length_map]

variable {draft : Draft} {kind : Kind}

theorem states_assemble :
    (draft.assemble kind).states = Ascending.ofList draft.states := rfl

theorem alphabet_assemble :
    (draft.assemble kind).alphabet = Ascending.ofList draft.alphabet := rfl

theorem initial_assemble :
    (draft.assemble kind).initial =
      (draft.assemble kind).states.idxOf (draft.initial.getD "") := rfl

theorem finals_assemble :
    (draft.assemble kind).finals =
      positions (draft.assemble kind).states draft.finals := rfl

theorem mem_states_assemble {label : String} :
    label ∈ (draft.assemble kind).states ↔ label ∈ draft.states :=
  Ascending.mem_ofList

theorem mem_alphabet_assemble {label : String} :
    label ∈ (draft.assemble kind).alphabet ↔ label ∈ draft.alphabet :=
  Ascending.mem_ofList

theorem states_assemble_nodup : (draft.assemble kind).states.Nodup :=
  (Ascending.ofList_strictlyAscending draft.states).nodup

theorem isFinal_assemble {state : Nat} :
    (draft.assemble kind).isFinal state = true ↔
      state < (draft.assemble kind).states.length ∧
        (draft.assemble kind).stateLabel state ∈ draft.finals := by
  rw [Automaton.isFinal, decide_eq_true_iff]
  exact mem_positions states_assemble_nodup

theorem destinations_assemble {state symbol : Nat}
    (stateInRange : state < (draft.assemble kind).states.length)
    (symbolInRange : symbol < (draft.assemble kind).alphabet.length) :
    (draft.assemble kind).destinations state symbol =
      positions (draft.assemble kind).states
        (TransitionTable.destinations draft.transitions
          ((draft.assemble kind).stateLabel state)
          ((draft.assemble kind).symbolLabel symbol)) := by
  have stateBound : state < (Ascending.ofList draft.states).length :=
    stateInRange
  have symbolBound : symbol < (Ascending.ofList draft.alphabet).length :=
    symbolInRange
  simp [Automaton.destinations, Automaton.stateLabel, Automaton.symbolLabel,
    assemble, List.getD, stateBound, symbolBound]

theorem mem_destinations_assemble {state symbol destination : Nat}
    (stateInRange : state < (draft.assemble kind).states.length)
    (symbolInRange : symbol < (draft.assemble kind).alphabet.length) :
    destination ∈ (draft.assemble kind).destinations state symbol ↔
      destination < (draft.assemble kind).states.length ∧
        (draft.assemble kind).stateLabel destination ∈
          TransitionTable.destinations draft.transitions
            ((draft.assemble kind).stateLabel state)
            ((draft.assemble kind).symbolLabel symbol) := by
  rw [destinations_assemble stateInRange symbolInRange]
  exact mem_positions states_assemble_nodup

theorem mem_finalLabels_assemble {label : String} :
    label ∈ (draft.assemble kind).finalLabels ↔
      label ∈ draft.states ∧ label ∈ draft.finals :=
  (mem_map_positions states_assemble_nodup).trans
    (and_congr_left' mem_states_assemble)

theorem mem_destinationLabels_assemble {state symbol : Nat}
    (stateInRange : state < (draft.assemble kind).states.length)
    (symbolInRange : symbol < (draft.assemble kind).alphabet.length)
    {label : String} :
    label ∈ (draft.assemble kind).destinationLabels state symbol ↔
      label ∈ draft.states ∧
        label ∈ TransitionTable.destinations draft.transitions
          ((draft.assemble kind).stateLabel state)
          ((draft.assemble kind).symbolLabel symbol) := by
  rw [Automaton.destinationLabels,
    destinations_assemble stateInRange symbolInRange]
  exact (mem_map_positions states_assemble_nodup).trans
    (and_congr_left' mem_states_assemble)

theorem mem_entry_assemble {entry : List Nat} {row : List (List Nat)}
    (rowMember : row ∈ (draft.assemble kind).rows)
    (entryMember : entry ∈ row) :
    ∃ state < (draft.assemble kind).states.length,
      ∃ symbol < (draft.assemble kind).alphabet.length,
        entry = (draft.assemble kind).destinations state symbol := by
  obtain ⟨origin, originMember, rfl⟩ := List.mem_map.mp rowMember
  obtain ⟨label, labelMember, rfl⟩ := List.mem_map.mp entryMember
  obtain ⟨state, stateInRange, rfl⟩ := exists_getD_eq originMember
  obtain ⟨symbol, symbolInRange, rfl⟩ := exists_getD_eq labelMember
  exact ⟨state, stateInRange, symbol, symbolInRange,
    (destinations_assemble stateInRange symbolInRange).symm⟩

end Draft

namespace Automaton

theorem mem_entries {automaton : Automaton} {arc : Arc} :
    arc ∈ automaton.entries ↔
      arc.state < automaton.states.length ∧
        arc.symbol < automaton.alphabet.length ∧
        arc.destinations = automaton.destinations arc.state arc.symbol := by
  simp only [entries, stateIndices, symbolIndices, List.mem_flatMap,
    List.mem_range, List.mem_map]
  constructor
  · intro listed
    obtain ⟨state, stateInRange, symbol, symbolInRange, rfl⟩ := listed
    exact ⟨stateInRange, symbolInRange, rfl⟩
  · intro inside
    obtain ⟨stateInRange, symbolInRange, equal⟩ := inside
    exact ⟨arc.state, stateInRange, arc.symbol, symbolInRange, by rw [← equal]⟩

theorem mem_arcs {automaton : Automaton} {arc : Arc} :
    arc ∈ automaton.arcs ↔
      arc.state < automaton.states.length ∧
        arc.symbol < automaton.alphabet.length ∧
        arc.destinations = automaton.destinations arc.state arc.symbol ∧
        arc.destinations ≠ [] := by
  simp only [arcs, List.mem_filter, mem_entries, Bool.not_eq_true',
    List.isEmpty_eq_false_iff, and_assoc]

theorem violation?_eq_none_iff {automaton : Automaton} :
    automaton.violation? = none ↔
      ∀ state < automaton.states.length,
        ∀ symbol < automaton.alphabet.length,
          (automaton.destinations state symbol).length ≤ 1 := by
  simp only [violation?, Option.map_eq_none_iff, List.find?_eq_none,
    decide_eq_true_eq, Nat.not_lt]
  constructor
  · intro none state stateInRange symbol symbolInRange
    exact none ⟨state, symbol, automaton.destinations state symbol⟩
      (mem_entries.mpr ⟨stateInRange, symbolInRange, rfl⟩)
  · intro atMostOne arc member
    obtain ⟨stateInRange, symbolInRange, equal⟩ := mem_entries.mp member
    rw [equal]
    exact atMostOne arc.state stateInRange arc.symbol symbolInRange

theorem entries_ordered (automaton : Automaton) :
    automaton.entries.Pairwise fun first second =>
      first.state < second.state ∨
        first.state = second.state ∧ first.symbol < second.symbol := by
  rw [entries, List.pairwise_flatMap]
  constructor
  · intro state _
    rw [List.pairwise_map]
    exact List.pairwise_lt_range.imp fun before => Or.inr ⟨rfl, before⟩
  · apply List.pairwise_lt_range.imp
    intro first second before firstArc firstMember secondArc secondMember
    obtain ⟨_, _, rfl⟩ := List.mem_map.mp firstMember
    obtain ⟨_, _, rfl⟩ := List.mem_map.mp secondMember
    exact Or.inl before

/-- The violation that is reported is the first one by state and then by
symbol. -/
theorem violation?_eq_some_iff {automaton : Automaton}
    {violation : DeterminismViolation} :
    automaton.violation? = some violation ↔
      ∃ state < automaton.states.length,
        ∃ symbol < automaton.alphabet.length,
          1 < (automaton.destinations state symbol).length ∧
          (∀ otherState < automaton.states.length,
            ∀ otherSymbol < automaton.alphabet.length,
              (otherState < state ∨
                otherState = state ∧ otherSymbol < symbol) →
              (automaton.destinations otherState otherSymbol).length ≤ 1) ∧
          violation =
            { state := automaton.stateLabel state
              symbol := automaton.symbolLabel symbol
              count := (automaton.destinations state symbol).length } := by
  have asymmetric : ∀ first second : Arc,
      (first.state < second.state ∨
        first.state = second.state ∧ first.symbol < second.symbol) →
      ¬ (second.state < first.state ∨
        second.state = first.state ∧ second.symbol < first.symbol) := by
    omega
  rw [violation?, Option.map_eq_some_iff]
  constructor
  · intro found
    obtain ⟨arc, first, rfl⟩ := found
    obtain ⟨several, before, after, split, single⟩ :=
      List.find?_eq_some_iff_append.mp first
    have listed : arc ∈ automaton.entries := by simp [split]
    obtain ⟨stateInRange, symbolInRange, same⟩ := mem_entries.mp listed
    have ordered := automaton.entries_ordered
    rw [split] at ordered
    rw [same] at several ⊢
    refine ⟨arc.state, stateInRange, arc.symbol, symbolInRange,
      decide_eq_true_iff.mp several, ?_, rfl⟩
    intro state otherStateInRange symbol otherSymbolInRange precedes
    have early : Arc.mk state symbol (automaton.destinations state symbol) ∈
        before := by
      apply (mem_before_iff asymmetric ordered).mpr
      refine ⟨?_, precedes⟩
      rw [← split]
      exact mem_entries.mpr ⟨otherStateInRange, otherSymbolInRange, rfl⟩
    simpa using single _ early
  · intro described
    obtain ⟨state, stateInRange, symbol, symbolInRange, several, single, rfl⟩ :=
      described
    refine ⟨⟨state, symbol, automaton.destinations state symbol⟩, ?_, rfl⟩
    have listed : Arc.mk state symbol (automaton.destinations state symbol) ∈
        automaton.entries :=
      mem_entries.mpr ⟨stateInRange, symbolInRange, rfl⟩
    obtain ⟨before, after, split⟩ := List.append_of_mem listed
    have ordered := automaton.entries_ordered
    rw [split] at ordered
    apply List.find?_eq_some_iff_append.mpr
    refine ⟨decide_eq_true several, before, after, split, ?_⟩
    intro other early
    obtain ⟨member, precedes⟩ := (mem_before_iff asymmetric ordered).mp early
    rw [← split] at member
    obtain ⟨otherStateInRange, otherSymbolInRange, same⟩ :=
      mem_entries.mp member
    rw [same]
    simpa using single other.state otherStateInRange other.symbol
      otherSymbolInRange precedes

end Automaton

namespace Draft

/-- What is built from a consistent draft has the shape of an automaton. -/
theorem assemble_wellFormed {draft : Draft} {kind : Kind}
    (consistent : draft.Consistent)
    (atMostOne : kind = .deterministic →
      (draft.assemble kind).violation? = none) :
    (draft.assemble kind).WellFormed where
  states_ascending := Ascending.ofList_strictlyAscending _
  alphabet_ascending := Ascending.ofList_strictlyAscending _
  initial_lt := by
    obtain ⟨label, declared, given⟩ := consistent.initial_declared
    apply List.idxOf_lt_length_of_mem
    rw [given]
    exact Ascending.mem_ofList.mpr declared
  finals_ascending := positions_ascending _ _
  finals_lt := fun _ member =>
    ((mem_positions states_assemble_nodup).mp member).1
  row_per_state := by simp [assemble]
  entry_per_symbol := by
    intro row member
    obtain ⟨origin, _, rfl⟩ := List.mem_map.mp member
    simp [assemble]
  entry_ascending := by
    intro row rowMember entry entryMember
    obtain ⟨state, stateInRange, symbol, symbolInRange, rfl⟩ :=
      mem_entry_assemble rowMember entryMember
    rw [destinations_assemble stateInRange symbolInRange]
    exact positions_ascending _ _
  entry_lt := by
    intro row rowMember entry entryMember destination leads
    obtain ⟨state, stateInRange, symbol, symbolInRange, rfl⟩ :=
      mem_entry_assemble rowMember entryMember
    exact ((mem_destinations_assemble stateInRange symbolInRange).mp leads).1
  entry_le_one := by
    intro deterministic row rowMember entry entryMember
    obtain ⟨state, stateInRange, symbol, symbolInRange, rfl⟩ :=
      mem_entry_assemble rowMember entryMember
    exact Automaton.violation?_eq_none_iff.mp (atMostOne deterministic)
      state stateInRange symbol symbolInRange

theorem build_wellFormed {draft : Draft} {kind : Kind}
    {automaton : Automaton} (built : draft.build kind = .ok automaton) :
    automaton.WellFormed := by
  obtain ⟨consistent, atMostOne, rfl⟩ := build_eq_ok_iff.mp built
  exact assemble_wellFormed consistent atMostOne

theorem initialLabel_assemble {draft : Draft} {kind : Kind}
    (consistent : draft.Consistent) {label : String}
    (given : draft.initial = some label) :
    (draft.assemble kind).initialLabel = label := by
  obtain ⟨declared, member, equal⟩ := consistent.initial_declared
  have inRange : (Ascending.ofList draft.states).idxOf label <
      (Ascending.ofList draft.states).length := by
    apply List.idxOf_lt_length_of_mem
    apply Ascending.mem_ofList.mpr
    rw [given] at equal
    cases equal
    exact member
  simp only [Automaton.initialLabel, Automaton.stateLabel, assemble, given,
    Option.getD_some]
  rw [List.getD_eq_getElem _ _ inRange]
  exact List.getElem_idxOf inRange

end Draft

end Recognizer
