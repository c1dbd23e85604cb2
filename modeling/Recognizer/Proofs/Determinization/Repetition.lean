import Recognizer.Proofs.Automaton.Renaming
import Recognizer.Proofs.Determinization.Language

/-!
# Determinizing twice

A determinized automaton has one destination for every state and symbol, and all
of its states can be reached.  The subsets that its own determinization finds are
therefore the single states, and never the empty set.  The key of a single state
is its label under either style, so the subsets stand in the order of the states
and every state is named after its position.

Positions follow the order of texts, where `s10` comes before `s2`.  Up to ten
states that is the order of numbers, and determinizing again changes nothing.
-/

namespace Recognizer

namespace Automaton

/-- The states that some word leads to. -/
inductive Reachable (automaton : Automaton) : Nat → Prop where
  | initial : Reachable automaton automaton.initial
  | next {state symbol destination : Nat} :
      Reachable automaton state →
      destination ∈ automaton.destinations state symbol →
      Reachable automaton destination

/-- A deterministic automaton that never gets stuck and has no state in vain. -/
structure Complete (automaton : Automaton) : Prop where
  wellFormed : automaton.WellFormed
  kind_eq : automaton.kind = .deterministic
  leads : ∀ state < automaton.states.length,
    ∀ symbol < automaton.alphabet.length, ∃ destination,
      automaton.destinations state symbol = [destination]
  reachable : ∀ state < automaton.states.length, automaton.Reachable state

/-! ## Determinized automata are complete -/

namespace StandsFor

variable {automaton deterministic : Automaton} {style : KeyStyle}

theorem exists_stateIndex?
    (stands : StandsFor automaton style deterministic) {subset : List Nat}
    (member : subset ∈ automaton.representatives style) :
    ∃ state, deterministic.stateIndex? (automaton.nameFor style subset) =
      some state := by
  apply Option.isSome_iff_exists.mp
  apply List.isSome_idxOf?.mpr
  exact (stands.mem_states _).mpr ⟨subset, member, rfl⟩

theorem exists_representative
    (stands : StandsFor automaton style deterministic) {state : Nat}
    (inRange : state < deterministic.states.length) :
    ∃ subset ∈ automaton.representatives style,
      deterministic.stateIndex? (automaton.nameFor style subset) =
        some state := by
  obtain ⟨subset, member, named⟩ :=
    (stands.mem_states _).mp (getD_mem inRange)
  refine ⟨subset, member, ?_⟩
  exact stands.wellFormed.stateIndex?_eq_some_iff.mpr ⟨inRange, named⟩

/-- A subset is found by a word, and the same word leads to its state. -/
theorem reachable_of_discovered
    (stands : StandsFor automaton style deterministic) :
    ∀ subset ∈ automaton.discovered style, ∀ state,
      deterministic.stateIndex? (automaton.nameFor style subset) =
        some state → deterministic.Reachable state := by
  apply Subset.exploreFrom_induction
  · intro subset found holds next leads _ state named
    obtain ⟨symbol, inRange, rfl⟩ := mem_successors.mp leads
    have member : subset ∈ automaton.representatives style :=
      Subset.mem_arrange.mpr found
    obtain ⟨origin, originNamed⟩ := stands.exists_stateIndex? member
    obtain ⟨destination, destinationNamed, destinations⟩ :=
      stands.destinations_eq subset member origin originNamed symbol inRange
    rw [named] at destinationNamed
    rw [Option.some.inj destinationNamed]
    apply Reachable.next (holds origin originNamed)
    rw [destinations]
    exact List.mem_singleton_self destination
  · intro subset member state named
    rw [List.mem_singleton.mp member, stands.stateIndex?_initial] at named
    rw [← Option.some.inj named]
    exact .initial

theorem complete (stands : StandsFor automaton style deterministic) :
    deterministic.Complete where
  wellFormed := stands.wellFormed
  kind_eq := stands.kind_eq
  leads := by
    intro state inRange symbol symbolInRange
    rw [stands.alphabet_eq] at symbolInRange
    obtain ⟨subset, member, named⟩ := stands.exists_representative inRange
    obtain ⟨destination, _, destinations⟩ :=
      stands.destinations_eq subset member state named symbol symbolInRange
    exact ⟨destination, destinations⟩
  reachable := by
    intro state inRange
    obtain ⟨subset, member, named⟩ := stands.exists_representative inRange
    exact stands.reachable_of_discovered subset (Subset.mem_arrange.mp member)
      state named

end StandsFor

/-! ## Subsets of a complete automaton -/

theorem subsetKey_singleton (automaton : Automaton) (style : KeyStyle)
    (state : Nat) :
    automaton.subsetKey style [state] = [automaton.stateLabel state] := by
  cases style with
  | separated => rfl
  | concatenated => simp [subsetKey, subsetLabels, String.join]

namespace Complete

variable {automaton : Automaton}

theorem step_singleton (complete : automaton.Complete) {state symbol : Nat}
    (inRange : state < automaton.states.length)
    (symbolInRange : symbol < automaton.alphabet.length) :
    ∃ destination < automaton.states.length,
      automaton.destinations state symbol = [destination] ∧
      automaton.step [state] symbol = [destination] := by
  obtain ⟨destination, destinations⟩ :=
    complete.leads state inRange symbol symbolInRange
  have leads : destination ∈ automaton.destinations state symbol := by
    rw [destinations]
    exact List.mem_singleton_self destination
  refine ⟨destination, complete.wellFormed.destination_lt leads, destinations,
    ?_⟩
  · rw [Automaton.step_singleton complete.wellFormed, destinations]

theorem singleton_of_reachableSet (complete : automaton.Complete)
    {active : List Nat} (reachable : automaton.ReachableSet active) :
    ∃ state < automaton.states.length, active = [state] := by
  apply ReachableSet.induction complete.wellFormed _ _ reachable
  · exact ⟨automaton.initial, complete.wellFormed.initial_lt, rfl⟩
  · intro active single symbol symbolInRange
    obtain ⟨state, inRange, rfl⟩ := single
    obtain ⟨destination, destinationInRange, _, reached⟩ :=
      complete.step_singleton inRange symbolInRange
    exact ⟨destination, destinationInRange, reached⟩

theorem reachableSet_singleton (complete : automaton.Complete) {state : Nat}
    (reachable : automaton.Reachable state) :
    automaton.ReachableSet [state] := by
  induction reachable with
  | initial => exact reachableSet_initial
  | @next state symbol destination _ leads ih =>
      obtain ⟨stateInRange, symbolInRange⟩ :=
        complete.wellFormed.lt_of_leads leads
      obtain ⟨only, _, destinations, reached⟩ :=
        complete.step_singleton stateInRange symbolInRange
      rw [destinations] at leads
      rw [List.mem_singleton.mp leads, ← reached]
      exact ih.step complete.wellFormed symbolInRange

theorem separates (complete : automaton.Complete) (style : KeyStyle) :
    automaton.Separates style := by
  intro first second firstReachable secondReachable same
  obtain ⟨state, inRange, rfl⟩ :=
    complete.singleton_of_reachableSet firstReachable
  obtain ⟨other, otherInRange, rfl⟩ :=
    complete.singleton_of_reachableSet secondReachable
  rw [subsetKey_singleton, subsetKey_singleton] at same
  apply congrArg List.singleton
  exact (getD_inj complete.wellFormed.states_nodup inRange otherInRange).mp
    (List.singleton_inj.mp same)

theorem mem_representatives_iff (complete : automaton.Complete)
    {style : KeyStyle} {subset : List Nat} :
    subset ∈ automaton.representatives style ↔
      subset ∈ automaton.stateIndices.map ([·]) := by
  rw [(complete.separates style).mem_representatives_iff complete.wellFormed]
  constructor
  · intro reachable
    obtain ⟨state, inRange, rfl⟩ :=
      complete.singleton_of_reachableSet reachable
    exact List.mem_map_of_mem (List.mem_range.mpr inRange)
  · intro member
    obtain ⟨state, listed, rfl⟩ := List.mem_map.mp member
    apply complete.reachableSet_singleton
    exact complete.reachable state (List.mem_range.mp listed)

theorem singleton_mem_representatives (complete : automaton.Complete)
    {style : KeyStyle} {state : Nat}
    (inRange : state < automaton.states.length) :
    [state] ∈ automaton.representatives style := by
  apply complete.mem_representatives_iff.mpr
  exact List.mem_map_of_mem (List.mem_range.mpr inRange)

theorem representatives_eq (complete : automaton.Complete)
    (style : KeyStyle) :
    automaton.representatives style = automaton.stateIndices.map ([·]) := by
  have wellFormed := complete.wellFormed
  have ascending : (automaton.stateIndices.map ([·])).Pairwise
      fun first second : List Nat => automaton.subsetKey style first <
        automaton.subsetKey style second := by
    have labels := wellFormed.states_ascending
    rw [← map_stateLabel_stateIndices, StrictlyAscending,
      List.pairwise_map] at labels
    apply List.pairwise_map.mpr
    apply labels.imp
    intro first second below
    rw [subsetKey_singleton, subsetKey_singleton]
    exact List.Lex.rel below
  have distinct : (automaton.stateIndices.map ([·])).Nodup :=
    List.nodup_range.map fun _ _ same => List.singleton_inj.mp same
  apply representatives_eq_of_perm wellFormed style _ ascending
  apply (List.perm_ext_iff_of_nodup (representatives_nodup wellFormed style)
    distinct).mpr
  intro subset
  exact complete.mem_representatives_iff

theorem nameFor_singleton (complete : automaton.Complete) (style : KeyStyle)
    {state : Nat} (inRange : state < automaton.states.length) :
    automaton.nameFor style [state] = subsetName state := by
  have listed : state < (automaton.representatives style).length := by
    rw [complete.representatives_eq style]
    simpa [stateIndices] using inRange
  rw [← nameFor_getElem complete.wellFormed style listed]
  congr 1
  simp [complete.representatives_eq style, stateIndices]

/-! ## States of the determinization -/

section Numbers

variable {style : KeyStyle} {again : Automaton}

theorem exists_number (complete : automaton.Complete)
    (stands : StandsFor automaton style again) {position : Nat}
    (inRange : position < again.states.length) :
    ∃ state < automaton.states.length,
      again.stateIndex? (subsetName state) = some position := by
  obtain ⟨subset, member, named⟩ := stands.exists_representative inRange
  obtain ⟨state, listed, rfl⟩ :=
    List.mem_map.mp (complete.mem_representatives_iff.mp member)
  have stateInRange := List.mem_range.mp listed
  rw [complete.nameFor_singleton style stateInRange] at named
  exact ⟨state, stateInRange, named⟩

theorem exists_position (complete : automaton.Complete)
    (stands : StandsFor automaton style again) {state : Nat}
    (inRange : state < automaton.states.length) :
    ∃ position, again.stateIndex? (subsetName state) = some position := by
  rw [← complete.nameFor_singleton style inRange]
  apply stands.exists_stateIndex?
  exact complete.singleton_mem_representatives inRange

theorem final_iff (complete : automaton.Complete)
    (stands : StandsFor automaton style again) {state position : Nat}
    (inRange : state < automaton.states.length)
    (named : again.stateIndex? (subsetName state) = some position) :
    position ∈ again.finals ↔ state ∈ automaton.finals := by
  rw [← complete.nameFor_singleton style inRange] at named
  have same := stands.isFinal_iff [state]
    (complete.singleton_mem_representatives inRange) position named
  simpa [isFinal] using same

theorem finalLabels_perm (complete : automaton.Complete)
    (stands : StandsFor automaton style again) :
    again.finalLabels.Perm (automaton.finals.map subsetName) := by
  have distinct : (automaton.finals.map subsetName).Nodup :=
    complete.wellFormed.finals_ascending.nodup.map fun _ _ same =>
      subsetName_inj.mp same
  apply (List.perm_ext_iff_of_nodup stands.wellFormed.finalLabels_nodup
    distinct).mpr
  intro label
  constructor
  · intro member
    obtain ⟨position, final, rfl⟩ := List.mem_map.mp member
    obtain ⟨state, inRange, named⟩ := complete.exists_number stands
      (stands.wellFormed.finals_lt position final)
    rw [(stands.wellFormed.stateIndex?_eq_some_iff.mp named).2]
    apply List.mem_map_of_mem
    exact (complete.final_iff stands inRange named).mp final
  · intro member
    obtain ⟨state, final, rfl⟩ := List.mem_map.mp member
    have inRange := complete.wellFormed.finals_lt state final
    obtain ⟨position, named⟩ := complete.exists_position stands inRange
    rw [← (stands.wellFormed.stateIndex?_eq_some_iff.mp named).2]
    apply List.mem_map_of_mem
    exact (complete.final_iff stands inRange named).mpr final

theorem destinationLabels_eq (complete : automaton.Complete)
    (stands : StandsFor automaton style again) {state position symbol : Nat}
    (inRange : state < automaton.states.length)
    (named : again.stateIndex? (subsetName state) = some position)
    (symbolInRange : symbol < automaton.alphabet.length) :
    again.destinationLabels position symbol =
      (automaton.destinations state symbol).map subsetName := by
  obtain ⟨destination, destinationInRange, destinations, reached⟩ :=
    complete.step_singleton inRange symbolInRange
  rw [← complete.nameFor_singleton style inRange] at named
  obtain ⟨next, nextNamed, leads⟩ := stands.destinations_eq [state]
    (complete.singleton_mem_representatives inRange) position named symbol
    symbolInRange
  rw [reached, complete.nameFor_singleton style destinationInRange]
    at nextNamed
  rw [destinationLabels, leads, destinations]
  exact congrArg List.singleton
    (stands.wellFormed.stateIndex?_eq_some_iff.mp nextNamed).2

/-- The determinization of a complete automaton gives every state the number of
its position. -/
theorem renaming_of_standsFor (complete : automaton.Complete)
    (stands : StandsFor automaton style again) :
    Renaming subsetName automaton again where
  wellFormed := stands.wellFormed
  kind_eq := stands.kind_eq.trans complete.kind_eq.symm
  alphabet_eq := stands.alphabet_eq
  states_perm := by
    have numbered := stands.states_perm complete.wellFormed
    rw [complete.representatives_eq style, List.length_map] at numbered
    simpa [stateIndices] using numbered
  initialLabel_eq := by
    rw [stands.initialLabel_eq]
    exact complete.nameFor_singleton style complete.wellFormed.initial_lt
  finals_perm := complete.finalLabels_perm stands
  destinations_perm := by
    intro state inRange position named symbol symbolInRange
    apply List.Perm.of_eq
    exact complete.destinationLabels_eq stands inRange named symbolInRange

end Numbers

theorem determinize (complete : automaton.Complete) (style : KeyStyle) :
    ∃ again, automaton.determinize style =
        .ok ⟨again, automaton.states.map ([·])⟩ ∧
      Renaming subsetName automaton again := by
  obtain ⟨again, succeeds, stands⟩ :=
    determinize_standsFor complete.wellFormed style
  have subsets : (automaton.representatives style).map
      automaton.subsetLabels = automaton.states.map ([·]) := by
    rw [complete.representatives_eq style, List.map_map]
    conv_rhs => rw [← map_stateLabel_stateIndices, List.map_map]
    rfl
  rw [subsets] at succeeds
  exact ⟨again, succeeds, complete.renaming_of_standsFor stands⟩

end Complete

/-! ## Names in the order of texts -/

theorem subsetName_ascending {count : Nat} (few : count ≤ 10) :
    StrictlyAscending ((List.range count).map subsetName) := by
  have ten : StrictlyAscending ((List.range 10).map subsetName) := by
    decide +kernel
  exact ten.sublist ((List.range_sublist.mpr few).map subsetName)

/-- Up to ten states the names stand in the order of their numbers. -/
theorem StandsFor.stateLabel_eq {automaton deterministic : Automaton}
    {style : KeyStyle} (stands : StandsFor automaton style deterministic)
    (wellFormed : automaton.WellFormed)
    (few : deterministic.states.length ≤ 10) :
    ∀ state < deterministic.states.length,
      deterministic.stateLabel state = subsetName state := by
  have numbered := stands.states_perm wellFormed
  have count : (automaton.representatives style).length =
      deterministic.states.length := by
    simpa using numbered.length_eq.symm
  rw [count] at numbered
  have states_eq : deterministic.states =
      (List.range deterministic.states.length).map subsetName :=
    Ascending.eq_of_mem_iff stands.wellFormed.states_ascending
      (subsetName_ascending few) fun _ => numbered.mem_iff
  intro state inRange
  rw [stateLabel, states_eq]
  simp [List.getD, inRange]

/-- Determinizing a determinized automaton renames its states and nothing else,
with either kind of keys. -/
theorem determinize_determinized {automaton : Automaton}
    (wellFormed : automaton.WellFormed) (style : KeyStyle) :
    ∃ first second : Determinization,
      automaton.determinize style = .ok first ∧
      first.automaton.determinize .separated = .ok second ∧
      first.automaton.determinize .concatenated = .ok second ∧
      second.subsets = first.automaton.states.map ([·]) ∧
      Renaming subsetName first.automaton second.automaton ∧
      second.automaton.states.length = first.automaton.states.length ∧
      (first.automaton.states.length ≤ 10 →
        second.automaton = first.automaton) := by
  obtain ⟨deterministic, succeeds, stands⟩ :=
    determinize_standsFor wellFormed style
  have complete := stands.complete
  obtain ⟨again, separated, renames⟩ := complete.determinize .separated
  obtain ⟨other, concatenated, alsoRenames⟩ :=
    complete.determinize .concatenated
  rw [← renames.unique alsoRenames] at concatenated
  refine ⟨_, _, succeeds, separated, concatenated, rfl, renames,
    renames.length_states, ?_⟩
  intro few
  have unchanged := Renaming.of_named stands.wellFormed
    (stands.stateLabel_eq wellFormed few)
  exact renames.unique unchanged

/-- Eleven states in a ring. -/
def ring : Automaton where
  kind := .nondeterministic
  states := ["00", "01", "02", "03", "04", "05", "06", "07", "08", "09", "10"]
  alphabet := ["a"]
  initial := 0
  finals := [10]
  rows := [[[1]], [[2]], [[3]], [[4]], [[5]], [[6]], [[7]], [[8]], [[9]],
    [[10]], [[0]]]

/-- The state that is the eleventh in the ring is the third one among the texts,
and becomes `s2`. -/
theorem ring_determinized :
    ∃ first second : Determinization,
      ring.determinize .separated = .ok first ∧
      first.automaton.finalLabels = ["s10"] ∧
      first.automaton.determinize .concatenated = .ok second ∧
      second.subsets[2]? = some ["s10"] ∧
      second.automaton.finalLabels = ["s2"] := by
  have shape : ring.WellFormed := by
    constructor
    all_goals decide
  obtain ⟨first, second, succeeds, _, again, subsets, renames, _⟩ :=
    determinize_determinized shape .separated
  have known : (ring.determinize .separated).map (fun determinization =>
      (determinization.automaton.states,
        determinization.automaton.finals)) =
      .ok (["s0", "s1", "s10", "s2", "s3", "s4", "s5", "s6", "s7", "s8",
        "s9"], [2]) := by decide +kernel
  rw [succeeds] at known
  simp only [Except.map, Except.ok.injEq, Prod.mk.injEq] at known
  obtain ⟨states_eq, finals_eq⟩ := known
  refine ⟨first, second, succeeds, ?_, again, ?_, ?_⟩
  · simp [finalLabels, stateLabel, states_eq, finals_eq]
  · rw [subsets, states_eq]
    rfl
  · have final := renames.finals_perm
    rw [finals_eq] at final
    exact List.perm_singleton.mp final

end Automaton

end Recognizer
