import Mathlib.Data.List.Nodup
import Recognizer.Automaton.Determinization

/-!
# Exploring subsets

The search keeps two things: no two subsets share a key, and whatever an
explored subset leads to is known under its key.  One step of the search keeps
both, so a search that ends because nothing is waiting has found a closed set.
Fuel for as many steps as there are keys is enough.
-/

namespace Recognizer

namespace Subset

variable {key : List Nat → List String}
  {successors : List Nat → List (List Nat)}

/-! ## New candidates -/

theorem mem_of_mem_unseen {known candidates : List (List Nat)}
    {subset : List Nat} (member : subset ∈ unseen key known candidates) :
    subset ∈ candidates := by
  induction candidates generalizing known with
  | nil => simp [unseen] at member
  | cons candidate later ih =>
      unfold unseen at member
      split at member
      · exact List.mem_cons_of_mem candidate (ih member)
      · rcases List.mem_cons.mp member with first | other
        · exact first ▸ List.mem_cons_self
        · exact List.mem_cons_of_mem candidate (ih other)

theorem append_unseen_distinct {known : List (List Nat)}
    (distinct : (known.map key).Nodup) (candidates : List (List Nat)) :
    ((known ++ unseen key known candidates).map key).Nodup := by
  induction candidates generalizing known with
  | nil => simpa [unseen] using distinct
  | cons candidate later ih =>
      unfold unseen
      split
      · exact ih distinct
      · rename_i new
        have absent : ∀ subset ∈ known, key subset ≠ key candidate := by
          intro subset member same
          apply new
          exact List.any_eq_true.mpr ⟨subset, member, beq_iff_eq.mpr same⟩
        have extended : ((known ++ [candidate]).map key).Nodup := by
          rw [List.map_append, List.nodup_append]
          refine ⟨distinct, by simp, ?_⟩
          intro first firstMember second secondMember same
          obtain ⟨subset, member, rfl⟩ := List.mem_map.mp firstMember
          rw [List.map_singleton, List.mem_singleton] at secondMember
          exact absent subset member (same.trans secondMember)
        have rest := ih extended
        rw [List.append_assoc] at rest
        exact rest

theorem key_known_of_mem {known candidates : List (List Nat)}
    {candidate : List Nat} (member : candidate ∈ candidates) :
    ∃ subset ∈ known ++ unseen key known candidates,
      key subset = key candidate := by
  induction candidates generalizing known with
  | nil => exact absurd member List.not_mem_nil
  | cons head later ih =>
      unfold unseen
      split
      · rename_i old
        rcases List.mem_cons.mp member with rfl | other
        · obtain ⟨subset, subsetMember, same⟩ := List.any_eq_true.mp old
          exact ⟨subset, List.mem_append_left _ subsetMember,
            beq_iff_eq.mp same⟩
        · exact ih other
      · rcases List.mem_cons.mp member with rfl | other
        · exact ⟨candidate, by simp, rfl⟩
        · obtain ⟨subset, subsetMember, same⟩ :=
            @ih (known ++ [head]) other
          refine ⟨subset, ?_, same⟩
          rw [List.append_assoc] at subsetMember
          exact subsetMember

/-! ## The search -/

/-- What the search keeps: keys are distinct, and the explored subsets lead to
known keys only. -/
structure Frontier (key : List Nat → List String)
    (successors : List Nat → List (List Nat))
    (explored waiting : List (List Nat)) : Prop where
  distinct : ((explored ++ waiting).map key).Nodup
  closed : ∀ subset ∈ explored, ∀ next ∈ successors subset,
    ∃ known ∈ explored ++ waiting, key known = key next

namespace Frontier

theorem start (initial : List Nat) :
    Frontier key successors [] [initial] where
  distinct := by simp
  closed := fun _ member => absurd member List.not_mem_nil

/-- Exploring one more subset keeps the frontier. -/
theorem step {explored waiting : List (List Nat)} {subset : List Nat}
    (frontier : Frontier key successors explored (subset :: waiting)) :
    Frontier key successors (explored ++ [subset])
      (waiting ++
        unseen key (explored ++ subset :: waiting) (successors subset)) := by
  have regroup : explored ++ [subset] ++
      (waiting ++
        unseen key (explored ++ subset :: waiting) (successors subset)) =
      (explored ++ subset :: waiting) ++
        unseen key (explored ++ subset :: waiting) (successors subset) := by
    simp
  constructor
  · rw [regroup]
    exact append_unseen_distinct frontier.distinct _
  · rw [regroup]
    intro other member next leads
    rcases List.mem_append.mp member with old | new
    · obtain ⟨known, knownMember, same⟩ := frontier.closed other old next leads
      exact ⟨known, List.mem_append_left _ knownMember, same⟩
    · rw [List.mem_singleton.mp new] at leads
      exact key_known_of_mem leads

end Frontier

/-- What holds of the known subsets and of the new successors of one of them
still holds of all known subsets after one more step. -/
theorem forall_known_step {property : List Nat → Prop}
    {explored waiting : List (List Nat)} {head : List Nat}
    (passes : ∀ next ∈ unseen key (explored ++ head :: waiting)
      (successors head), property next)
    (start : ∀ subset ∈ explored ++ head :: waiting, property subset) :
    ∀ subset ∈ (explored ++ [head]) ++
      (waiting ++
        unseen key (explored ++ head :: waiting) (successors head)),
      property subset := by
  intro subset member
  rcases List.mem_append.mp member with early | late
  · apply start
    rcases List.mem_append.mp early with old | first
    · exact List.mem_append_left _ old
    · simp [List.mem_singleton.mp first]
  · rcases List.mem_append.mp late with old | new
    · exact start subset (by simp [old])
    · exact passes subset new

/-- Subsets that are known stay known, in the order in which they were
discovered. -/
theorem exploreFrom_keeps (fuel : Nat) (explored waiting : List (List Nat)) :
    explored ++ waiting <+: exploreFrom key successors fuel explored waiting := by
  induction fuel generalizing explored waiting with
  | zero => exact List.prefix_rfl
  | succ fuel ih =>
      cases waiting with
      | nil => simp [exploreFrom]
      | cons head waiting =>
          refine List.IsPrefix.trans ?_ (ih _ _)
          rw [← List.append_assoc, List.append_assoc explored]
          exact List.prefix_append _ _

/-- Every subset that is found comes from one that was found before it.  So what
holds at the start and passes on among the subsets that are found holds of all of
them. -/
theorem exploreFrom_induction {property : List Nat → Prop} {fuel : Nat}
    {explored waiting : List (List Nat)}
    (passes : ∀ subset ∈ exploreFrom key successors fuel explored waiting,
      property subset → ∀ next ∈ successors subset,
        next ∈ exploreFrom key successors fuel explored waiting →
          property next)
    (start : ∀ subset ∈ explored ++ waiting, property subset) :
    ∀ subset ∈ exploreFrom key successors fuel explored waiting,
      property subset := by
  induction fuel generalizing explored waiting with
  | zero => exact start
  | succ fuel ih =>
      cases waiting with
      | nil =>
          intro subset member
          exact start subset (List.mem_append_left _ member)
      | cons head waiting =>
          have known : ∀ subset ∈ (explored ++ [head]) ++
              (waiting ++
                unseen key (explored ++ head :: waiting) (successors head)),
              subset ∈ exploreFrom key successors (fuel + 1) explored
                (head :: waiting) :=
            fun _ member => (exploreFrom_keeps fuel _ _).subset member
          apply ih passes
          apply forall_known_step
          · intro next new
            apply passes head
            · exact known head (by simp)
            · exact start head (by simp)
            · exact mem_of_mem_unseen new
            · exact known next (by simp [new])
          · exact start

/-- What holds at the start and passes on to successors holds of every subset
that is found. -/
theorem exploreFrom_forall {property : List Nat → Prop}
    (passes : ∀ subset, property subset →
      ∀ next ∈ successors subset, property next)
    (fuel : Nat) {explored waiting : List (List Nat)}
    (start : ∀ subset ∈ explored ++ waiting, property subset) :
    ∀ subset ∈ exploreFrom key successors fuel explored waiting,
      property subset := by
  apply exploreFrom_induction
  · intro subset _ holds next leads _
    exact passes subset holds next leads
  · exact start

/-! ## The end of the search -/

/-- The search that goes on as long as a subset is waiting, with no bound on its
steps. -/
inductive Search (key : List Nat → List String)
    (successors : List Nat → List (List Nat)) :
    List (List Nat) → List (List Nat) → List (List Nat) → Prop where
  | done (explored : List (List Nat)) : Search key successors explored [] explored
  | explore {explored waiting found : List (List Nat)} {subset : List Nat} :
      Search key successors (explored ++ [subset])
        (waiting ++
          unseen key (explored ++ subset :: waiting) (successors subset))
        found →
      Search key successors explored (subset :: waiting) found

theorem Search.frontier {explored waiting found : List (List Nat)}
    (search : Search key successors explored waiting found)
    (start : Frontier key successors explored waiting) :
    Frontier key successors found [] := by
  induction search with
  | done explored => exact start
  | explore _ ih => exact ih start.step

theorem Search.unique {explored waiting found other : List (List Nat)}
    (search : Search key successors explored waiting found)
    (otherSearch : Search key successors explored waiting other) :
    found = other := by
  induction search with
  | done explored =>
      cases otherSearch with
      | done => rfl
  | explore _ ih =>
      cases otherSearch with
      | explore later => exact ih later

/-- With fuel for as many steps as there can be keys, the search ends because
nothing is waiting. -/
theorem exploreFrom_search (property : List Nat → Prop) (bound : Nat)
    (passes : ∀ subset, property subset →
      ∀ next ∈ successors subset, property next)
    (bounded : ∀ subsets : List (List Nat), (subsets.map key).Nodup →
      (∀ subset ∈ subsets, property subset) → subsets.length ≤ bound)
    {fuel : Nat} {explored waiting : List (List Nat)}
    (frontier : Frontier key successors explored waiting)
    (start : ∀ subset ∈ explored ++ waiting, property subset)
    (enough : bound ≤ fuel + explored.length) :
    Search key successors explored waiting
      (exploreFrom key successors fuel explored waiting) := by
  induction fuel generalizing explored waiting with
  | zero =>
      have atMost := bounded _ frontier.distinct start
      rw [List.length_append] at atMost
      have nothing : waiting = [] := by
        apply List.length_eq_zero_iff.mp
        omega
      subst nothing
      simpa [exploreFrom] using Search.done explored
  | succ fuel ih =>
      cases waiting with
      | nil => exact .done explored
      | cons head waiting =>
          apply Search.explore
          apply ih frontier.step
          · apply forall_known_step
            · intro next new
              exact passes head (start head (by simp)) next
                (mem_of_mem_unseen new)
            · exact start
          · simp only [List.length_append, List.length_singleton]
            omega

/-! ## The order of keys -/

theorem place_perm (subset : List Nat) (subsets : List (List Nat)) :
    (place key subset subsets).Perm (subset :: subsets) := by
  induction subsets with
  | nil => exact List.Perm.refl _
  | cons head tail ih =>
      unfold place
      split
      · exact List.Perm.refl _
      · exact (List.Perm.cons head ih).trans (List.Perm.swap subset head tail)

theorem arrange_perm (subsets : List (List Nat)) :
    (arrange key subsets).Perm subsets := by
  induction subsets with
  | nil => exact List.Perm.refl _
  | cons subset later ih =>
      exact (place_perm subset _).trans (List.Perm.cons subset ih)

theorem mem_arrange {subset : List Nat} {subsets : List (List Nat)} :
    subset ∈ arrange key subsets ↔ subset ∈ subsets :=
  (arrange_perm subsets).mem_iff

theorem place_ascending {subset : List Nat} {subsets : List (List Nat)}
    (ascending : subsets.Pairwise fun first second => key first < key second)
    (new : ∀ other ∈ subsets, key other ≠ key subset) :
    (place key subset subsets).Pairwise fun first second =>
      key first < key second := by
  induction subsets with
  | nil => simp [place]
  | cons head tail ih =>
      obtain ⟨headBelow, tailAscending⟩ := List.pairwise_cons.mp ascending
      unfold place
      split
      · rename_i below
        refine List.pairwise_cons.mpr ⟨fun other member => ?_, ascending⟩
        rcases List.mem_cons.mp member with first | later
        · exact first ▸ below
        · exact List.lt_trans below (headBelow other later)
      · rename_i notBelow
        have above : key head < key subset :=
          Decidable.byContradiction fun notAbove =>
            new head (by simp)
              (Std.Trichotomous.trichotomous _ _ notAbove notBelow)
        refine List.pairwise_cons.mpr ⟨fun other member => ?_,
          ih tailAscending fun other member =>
            new other (List.mem_cons_of_mem head member)⟩
        rcases List.mem_cons.mp ((place_perm subset tail).mem_iff.mp member) with
          first | later
        · exact first ▸ above
        · exact headBelow other later

theorem arrange_ascending {subsets : List (List Nat)}
    (distinct : (subsets.map key).Nodup) :
    (arrange key subsets).Pairwise fun first second =>
      key first < key second := by
  induction subsets with
  | nil => exact List.Pairwise.nil
  | cons subset later ih =>
      rw [List.map_cons, List.nodup_cons] at distinct
      apply place_ascending (ih distinct.2)
      intro other member same
      apply distinct.1
      rw [← same]
      exact List.mem_map_of_mem (mem_arrange.mp member)

end Subset

end Recognizer
