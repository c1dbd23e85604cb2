import Recognizer.Proofs.Determinization.Collisions
import Recognizer.Proofs.Word

/-!
# Prefix-free labels

Where no state label is empty or the beginning of another one, joined labels
compare as the lists of labels do.  So concatenated keys separate the reachable
sets and order them as separated keys do, and the choice of keys changes nothing.
-/

namespace Recognizer

/-- No label is empty, and none is a proper beginning of another one. -/
structure PrefixFree (labels : List String) : Prop where
  ne_empty : ∀ label ∈ labels, label ≠ ""
  apart : ∀ first ∈ labels, ∀ second ∈ labels,
    first.toList <+: second.toList → first = second

/-! ## Joined labels -/

namespace PrefixFree

variable {labels first second : List String}

theorem join_lt_join (prefixFree : PrefixFree labels)
    (firstKnown : ∀ label ∈ first, label ∈ labels)
    (secondKnown : ∀ label ∈ second, label ∈ labels)
    (below : first < second) : String.join first < String.join second := by
  induction first generalizing second with
  | nil =>
      cases second with
      | nil => exact absurd below (List.not_lt_nil _)
      | cons label later =>
          rw [List.forall_mem_cons] at secondKnown
          have filled : label.toList ≠ [] := fun empty =>
            prefixFree.ne_empty label secondKnown.1
              (String.toList_eq_nil_iff.mp empty)
          obtain ⟨character, rest, same⟩ := List.exists_cons_of_ne_nil filled
          rw [String.lt_iff, String.join_cons, String.toList_append,
            same]
          exact List.nil_lt_cons _ _
  | cons label later ih =>
      cases second with
      | nil => exact absurd below (List.not_lt_nil _)
      | cons otherLabel otherLater =>
          rw [List.forall_mem_cons] at firstKnown secondKnown
          rw [String.lt_iff, String.join_cons, String.join_cons,
            String.toList_append, String.toList_append]
          rcases List.cons_lt_cons_iff.mp below with head | ⟨same, tail⟩
          · apply append_lt_append_of_not_prefix
              (String.lt_iff.mp head)
            intro isPrefix
            have same := prefixFree.apart label firstKnown.1 otherLabel
              secondKnown.1 isPrefix
            rw [same] at head
            exact Std.Irrefl.irrefl _ head
          · rw [same]
            apply List.append_left_lt
            exact String.lt_iff.mp
              (ih firstKnown.2 secondKnown.2 tail)

theorem join_inj (prefixFree : PrefixFree labels)
    (firstKnown : ∀ label ∈ first, label ∈ labels)
    (secondKnown : ∀ label ∈ second, label ∈ labels) :
    String.join first = String.join second ↔ first = second := by
  constructor
  · intro same
    have notBelow : ¬ first < second := by
      intro below
      have joined := prefixFree.join_lt_join firstKnown secondKnown below
      rw [same] at joined
      exact Std.Irrefl.irrefl _ joined
    have notAbove : ¬ second < first := by
      intro above
      have joined := prefixFree.join_lt_join secondKnown firstKnown above
      rw [same] at joined
      exact Std.Irrefl.irrefl _ joined
    exact Std.Trichotomous.trichotomous _ _ notBelow notAbove
  · exact fun same => congrArg String.join same

end PrefixFree

namespace Automaton

variable {automaton : Automaton}

/-! ## Styles that list the same sets -/

theorem subsetDeclarations_congr {style other : KeyStyle}
    {subset : List Nat}
    (sameName : automaton.nameFor style subset =
      automaton.nameFor other subset)
    (sameNext : ∀ symbol < automaton.alphabet.length,
      automaton.nameFor style (automaton.step subset symbol) =
        automaton.nameFor other (automaton.step subset symbol)) :
    automaton.subsetDeclarations style subset =
      automaton.subsetDeclarations other subset := by
  simp only [subsetDeclarations, sameName]
  congr 2
  apply List.map_congr_left
  intro symbol listed
  rw [sameNext symbol (List.mem_range.mp listed)]

/-- Keys that separate the reachable sets enter the determinization only through
the list of subsets. -/
theorem determinize_congr {style other : KeyStyle}
    (wellFormed : automaton.WellFormed)
    (separates : automaton.Separates style)
    (same : automaton.representatives style =
      automaton.representatives other) :
    automaton.determinize style = automaton.determinize other := by
  have sameName : ∀ subset ∈ automaton.representatives style,
      automaton.nameFor style subset = automaton.nameFor other subset := by
    intro subset member
    obtain ⟨position, listed⟩ := List.mem_iff_getElem?.mp member
    rw [nameFor_of_getElem? wellFormed listed,
      nameFor_of_getElem? wellFormed (same ▸ listed)]
  have sameDeclarations : automaton.determinizationDeclarations style =
      automaton.determinizationDeclarations other := by
    rw [determinizationDeclarations, determinizationDeclarations,
      sameName _ (initial_mem_representatives style)]
    congr 2
    rw [← same]
    apply List.flatMap_congr
    intro subset member
    apply subsetDeclarations_congr (sameName subset member)
    intro symbol inRange
    exact sameName _
      (separates.step_mem_representatives wellFormed member inRange)
  rw [determinize_eq wellFormed, determinize_eq wellFormed, sameDeclarations,
    same]

/-! ## Prefix-free state labels -/

theorem subsetLabels_known {subset : List Nat}
    (isSubset : automaton.IsSubset subset) :
    ∀ label ∈ automaton.subsetLabels subset, label ∈ automaton.states := by
  intro label member
  obtain ⟨state, stateMember, rfl⟩ := List.mem_map.mp member
  exact getD_mem (isSubset.inRange state stateMember)

section StateLabels

variable (prefixFree : PrefixFree automaton.states)
  (wellFormed : automaton.WellFormed)

include prefixFree wellFormed

theorem separates_of_prefixFree : automaton.Separates .concatenated := by
  intro first second firstReachable secondReachable same
  have firstSubset := firstReachable.isSubset wellFormed
  have secondSubset := secondReachable.isSubset wellFormed
  apply (subsetLabels_inj wellFormed firstSubset.inRange
    secondSubset.inRange).mp
  apply (prefixFree.join_inj (subsetLabels_known firstSubset)
    (subsetLabels_known secondSubset)).mp
  exact List.singleton_inj.mp same

theorem representatives_eq_of_prefixFree :
    automaton.representatives .concatenated =
      automaton.representatives .separated := by
  have ascending : (automaton.representatives .separated).Pairwise
      fun first second => automaton.subsetKey .concatenated first <
        automaton.subsetKey .concatenated second := by
    apply (representatives_ascending wellFormed .separated).imp_of_mem
    intro first second firstMember secondMember below
    apply List.cons_lt_cons_iff.mpr
    left
    exact prefixFree.join_lt_join
      (subsetLabels_known
        (isSubset_of_mem_representatives wellFormed _ firstMember))
      (subsetLabels_known
        (isSubset_of_mem_representatives wellFormed _ secondMember)) below
  apply representatives_eq_of_perm wellFormed .concatenated _ ascending
  exact (separates_of_prefixFree prefixFree wellFormed).representatives_perm
    wellFormed.separates_separated wellFormed

/-- With prefix-free state labels both styles give the same automaton and the
same subsets. -/
theorem prefixFree_determinize :
    ∃ determinization,
      automaton.determinize .concatenated = .ok determinization ∧
      automaton.determinize .separated = .ok determinization := by
  obtain ⟨deterministic, succeeds, _⟩ :=
    determinize_standsFor wellFormed .concatenated
  refine ⟨_, succeeds, ?_⟩
  rw [← succeeds]
  exact (determinize_congr wellFormed
    (separates_of_prefixFree prefixFree wellFormed)
    (representatives_eq_of_prefixFree prefixFree wellFormed)).symm

end StateLabels

/-- Accepts the words over `0` and `1` whose third symbol from the end is a
`1`. -/
def thirdFromEnd : Automaton where
  kind := .nondeterministic
  states := ["q0", "q1", "q2", "q3"]
  alphabet := ["0", "1"]
  initial := 0
  finals := [3]
  rows := [[[0], [0, 1]], [[2], [2]], [[3], [3]], [[], []]]

theorem thirdFromEnd_determinize :
    ∃ determinization,
      thirdFromEnd.determinize .concatenated = .ok determinization ∧
      thirdFromEnd.determinize .separated = .ok determinization ∧
      determinization.subsets = [["q0"], ["q0", "q1"], ["q0", "q1", "q2"],
        ["q0", "q1", "q2", "q3"], ["q0", "q1", "q3"], ["q0", "q2"],
        ["q0", "q2", "q3"], ["q0", "q3"]] := by
  have prefixFree : PrefixFree thirdFromEnd.states := by
    constructor
    all_goals decide
  have wellFormed : thirdFromEnd.WellFormed := by
    constructor
    all_goals decide
  obtain ⟨determinization, concatenated, separated⟩ :=
    prefixFree_determinize prefixFree wellFormed
  have known : (thirdFromEnd.determinize .separated).map (·.subsets) =
      .ok [["q0"], ["q0", "q1"], ["q0", "q1", "q2"],
        ["q0", "q1", "q2", "q3"], ["q0", "q1", "q3"], ["q0", "q2"],
        ["q0", "q2", "q3"], ["q0", "q3"]] := by decide +kernel
  rw [separated] at known
  simp only [Except.map, Except.ok.injEq] at known
  exact ⟨determinization, concatenated, separated, known⟩

end Automaton

end Recognizer
