import Recognizer.Proofs.Determinization.Language

/-!
# The subsets in order

With separated keys the listed subsets are the reachable sets.  They stand in the
order of their lists of labels.  As lists of positions they stand in the same
order, because positions follow the order of the labels.
-/

namespace Recognizer

namespace Automaton

variable {automaton : Automaton}

/-! ## Labels in order -/

namespace WellFormed

variable (wellFormed : automaton.WellFormed)

include wellFormed

/-- Lists of labels compare as the lists of their positions do. -/
theorem subsetLabels_lt_iff {first second : List Nat}
    (firstInRange : ∀ state ∈ first, state < automaton.states.length)
    (secondInRange : ∀ state ∈ second, state < automaton.states.length) :
    automaton.subsetLabels first < automaton.subsetLabels second ↔
      first < second := by
  induction first generalizing second with
  | nil =>
      cases second with
      | nil => simp [subsetLabels]
      | cons state later => simp [subsetLabels]
  | cons state later ih =>
      cases second with
      | nil => simp [subsetLabels]
      | cons otherState otherLater =>
          rw [List.forall_mem_cons] at firstInRange secondInRange
          have heads := wellFormed.stateLabel_lt_iff firstInRange.1
            secondInRange.1
          have sameHeads : automaton.stateLabel state =
              automaton.stateLabel otherState ↔ state = otherState :=
            getD_inj wellFormed.states_nodup firstInRange.1 secondInRange.1
          have tails := ih firstInRange.2 secondInRange.2
          simp only [subsetLabels, List.map_cons] at tails ⊢
          rw [List.cons_lt_cons_iff, List.cons_lt_cons_iff, heads, sameHeads,
            tails]

theorem subsetLabels_ascending {subset : List Nat}
    (isSubset : automaton.IsSubset subset) :
    StrictlyAscending (automaton.subsetLabels subset) := by
  apply List.pairwise_map.mpr
  apply isSubset.ascending.imp_of_mem
  intro first second firstMember secondMember below
  exact (wellFormed.stateLabel_lt_iff (isSubset.inRange first firstMember)
    (isSubset.inRange second secondMember)).mpr below

end WellFormed

/-! ## Separated keys -/

/-- With separated keys the subsets are exactly the reachable sets, each listed
once, in the order of their labels and of their positions. -/
theorem separated_subsets_reachable (wellFormed : automaton.WellFormed) :
    ∃ determinization sets,
      automaton.determinize .separated = .ok determinization ∧
      determinization.subsets = sets.map automaton.subsetLabels ∧
      (∀ active, active ∈ sets ↔ automaton.ReachableSet active) ∧
      StrictlyAscending sets ∧
      (∀ labels ∈ determinization.subsets, StrictlyAscending labels) ∧
      StrictlyAscending determinization.subsets := by
  obtain ⟨deterministic, succeeds, _⟩ :=
    determinize_standsFor wellFormed .separated
  have isSubset : ∀ subset ∈ automaton.representatives .separated,
      automaton.IsSubset subset :=
    fun _ member => isSubset_of_mem_representatives wellFormed _ member
  have keys_ascending := representatives_ascending wellFormed .separated
  refine ⟨_, automaton.representatives .separated, succeeds, rfl, ?_, ?_, ?_,
    ?_⟩
  · intro active
    exact wellFormed.separates_separated.mem_representatives_iff wellFormed
  · apply keys_ascending.imp_of_mem
    intro first second firstMember secondMember below
    exact (wellFormed.subsetLabels_lt_iff (isSubset first firstMember).inRange
      (isSubset second secondMember).inRange).mp below
  · intro labels listed
    obtain ⟨subset, member, rfl⟩ := List.mem_map.mp listed
    exact wellFormed.subsetLabels_ascending (isSubset subset member)
  · exact List.pairwise_map.mpr keys_ascending

/-- Two sets with the labels `1`, `23` and `12`, `3`, reached by the words `a`
and `b`. -/
def colliding : Automaton where
  kind := .nondeterministic
  states := ["0", "1", "12", "23", "3", "f"]
  alphabet := ["a", "b"]
  initial := 0
  finals := [5]
  rows := [[[1, 3], [2, 4]], [[], []], [[], []], [[5], []], [[], []], [[], []]]

theorem colliding_wellFormed : colliding.WellFormed := by
  constructor
  all_goals decide

theorem colliding_subsets_reachable :
    ∃ determinization,
      colliding.determinize .separated = .ok determinization ∧
      determinization.subsets =
        [[], ["0"], ["1", "23"], ["12", "3"], ["f"]] ∧
      ¬ colliding.ReachableSet [1, 2] := by
  obtain ⟨determinization, sets, succeeds, subsets_eq, reachable, _⟩ :=
    separated_subsets_reachable colliding_wellFormed
  have known : (colliding.determinize .separated).map (·.subsets) =
      .ok [[], ["0"], ["1", "23"], ["12", "3"], ["f"]] := by decide +kernel
  rw [succeeds] at known
  simp only [Except.map, Except.ok.injEq] at known
  refine ⟨determinization, succeeds, known, ?_⟩
  intro reached
  have listed : colliding.subsetLabels [1, 2] ∈ determinization.subsets := by
    rw [subsets_eq]
    exact List.mem_map_of_mem ((reachable _).mpr reached)
  rw [known] at listed
  revert listed
  decide

end Automaton

end Recognizer
