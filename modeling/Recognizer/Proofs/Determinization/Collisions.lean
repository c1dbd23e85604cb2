import Recognizer.Proofs.Determinization.Subsets

/-!
# Colliding keys

Concatenated keys lose the language only where two reachable sets have the same
labels written one after the other.  Without such a collision the search finds
every reachable set, as it does with separated keys.  With one it finds fewer
sets, all of them reachable and with different keys.
-/

namespace Recognizer

namespace Automaton

/-- Two different reachable sets have the same labels when these are written one
after the other. -/
def Collides (automaton : Automaton) : Prop :=
  ∃ first second, automaton.ReachableSet first ∧
    automaton.ReachableSet second ∧ first ≠ second ∧
    String.join (automaton.subsetLabels first) =
      String.join (automaton.subsetLabels second)

variable {automaton : Automaton}

theorem separates_of_not_collides (apart : ¬ automaton.Collides) :
    automaton.Separates .concatenated := by
  intro first second firstReachable secondReachable same
  by_contra different
  exact apart ⟨first, second, firstReachable, secondReachable, different,
    List.singleton_inj.mp same⟩

/-- Separated keys list every reachable set, so no keys list more. -/
theorem length_representatives_le (wellFormed : automaton.WellFormed)
    (style : KeyStyle) :
    (automaton.representatives style).length ≤
      (automaton.representatives .separated).length := by
  apply List.Subperm.length_le
  apply List.subperm_of_subset (representatives_nodup wellFormed style)
  intro subset member
  apply (wellFormed.separates_separated.mem_representatives_iff wellFormed).mpr
  exact reachableSet_of_mem_representatives wellFormed member

theorem Separates.representatives_perm {style other : KeyStyle}
    (separates : automaton.Separates style)
    (otherSeparates : automaton.Separates other)
    (wellFormed : automaton.WellFormed) :
    (automaton.representatives style).Perm
      (automaton.representatives other) := by
  apply (List.perm_ext_iff_of_nodup (representatives_nodup wellFormed style)
    (representatives_nodup wellFormed other)).mpr
  intro subset
  exact (separates.mem_representatives_iff wellFormed).trans
    (otherSeparates.mem_representatives_iff wellFormed).symm

theorem collides_of_disagreement (wellFormed : automaton.WellFormed)
    {deterministic : Automaton}
    (stands : StandsFor automaton .concatenated deterministic) {word : Word}
    (disagree : deterministic.accepts word ≠ automaton.accepts word) :
    automaton.Collides := by
  by_contra apart
  exact disagree (stands.accepts_of_separates
    (separates_of_not_collides apart) wellFormed word)

theorem joined_labels_nodup (wellFormed : automaton.WellFormed) :
    (((automaton.representatives .concatenated).map
      automaton.subsetLabels).map String.join).Nodup := by
  have distinct := representatives_distinct wellFormed .concatenated
  have keys : (automaton.representatives .concatenated).map
      (automaton.subsetKey .concatenated) =
      (((automaton.representatives .concatenated).map
        automaton.subsetLabels).map String.join).map ([·]) := by
    simp only [List.map_map]
    rfl
  rw [keys] at distinct
  exact distinct.of_map

/-- A disagreement comes from a collision.  In every case the subsets with
concatenated keys are reachable, differ in their keys, and are at most as many as
with separated keys. -/
theorem disagreement_from_collision (wellFormed : automaton.WellFormed) :
    ∃ concatenated separated,
      automaton.determinize .concatenated = .ok concatenated ∧
      automaton.determinize .separated = .ok separated ∧
      ((∃ word : Word, concatenated.automaton.accepts word ≠
        automaton.accepts word) → automaton.Collides) ∧
      (∀ labels ∈ concatenated.subsets, ∃ active,
        automaton.ReachableSet active ∧
          labels = automaton.subsetLabels active) ∧
      (concatenated.subsets.map String.join).Nodup ∧
      concatenated.subsets.length ≤ separated.subsets.length ∧
      (¬ automaton.Collides →
        concatenated.subsets.length = separated.subsets.length) := by
  obtain ⟨deterministic, succeeds, stands⟩ :=
    determinize_standsFor wellFormed .concatenated
  obtain ⟨other, otherSucceeds, _⟩ :=
    determinize_standsFor wellFormed .separated
  refine ⟨_, _, succeeds, otherSucceeds, ?_, ?_,
    joined_labels_nodup wellFormed, ?_, ?_⟩
  · intro disagreement
    obtain ⟨word, disagree⟩ := disagreement
    exact collides_of_disagreement wellFormed stands disagree
  · intro labels listed
    obtain ⟨subset, member, rfl⟩ := List.mem_map.mp listed
    exact ⟨subset, reachableSet_of_mem_representatives wellFormed member, rfl⟩
  · simpa using length_representatives_le wellFormed .concatenated
  · intro apart
    simpa using ((separates_of_not_collides apart).representatives_perm
      wellFormed.separates_separated wellFormed).length_eq

/-- After `b` the state of `1`, `23` stands for the set of `12`, `3`, from which
no final state is reached. -/
theorem colliding_disagreement :
    ∃ concatenated separated,
      colliding.determinize .concatenated = .ok concatenated ∧
      colliding.determinize .separated = .ok separated ∧
      concatenated.automaton.accepts ["b", "a"] = true ∧
      colliding.accepts ["b", "a"] = false ∧
      concatenated.subsets.length + 1 = separated.subsets.length ∧
      colliding.Collides := by
  obtain ⟨concatenated, separated, succeeds, otherSucceeds, collides, _⟩ :=
    disagreement_from_collision colliding_wellFormed
  have known : (colliding.determinize .concatenated).map
      (fun determinization => (determinization.subsets.length,
        determinization.automaton.accepts ["b", "a"])) =
      .ok (4, true) := by decide +kernel
  have otherKnown : (colliding.determinize .separated).map
      (·.subsets.length) = .ok 5 := by decide +kernel
  have rejected : colliding.accepts ["b", "a"] = false := by decide +kernel
  rw [succeeds] at known
  rw [otherSucceeds] at otherKnown
  simp only [Except.map, Except.ok.injEq, Prod.mk.injEq] at known otherKnown
  refine ⟨concatenated, separated, succeeds, otherSucceeds, known.2, rejected,
    ?_, collides ⟨["b", "a"], ?_⟩⟩
  · rw [known.1, otherKnown]
  · rw [known.2, rejected]
    decide

end Automaton

end Recognizer
