import Mathlib.Data.List.Dedup
import Mathlib.Data.List.GetD
import Mathlib.Data.List.Sort
import Mathlib.Data.List.Sublists
import Recognizer.Ascending

/-!
# Ascending lists as canonical finite sets

A strictly ascending list is determined by its members, so sorting one changes
nothing.  Over the numbers below a bound there are only finitely many such
lists, which bounds every search through sets of states.
-/

namespace Recognizer

namespace Ascending

variable {α : Type} [LT α]

theorem eq_of_mem_iff [Std.Antisymm (α := α) (· < ·)]
    [Std.Irrefl (α := α) (· < ·)] {left right : List α}
    (leftAscending : StrictlyAscending left)
    (rightAscending : StrictlyAscending right)
    (same : ∀ value, value ∈ left ↔ value ∈ right) : left = right :=
  leftAscending.eq_of_mem_iff rightAscending same

theorem ofList_eq_self [DecidableLT α] [Std.Antisymm (α := α) (· < ·)]
    [Std.Irrefl (α := α) (· < ·)] [Std.Trichotomous (α := α) (· < ·)]
    [Trans (α := α) (· < ·) (· < ·) (· < ·)] {values : List α}
    (ascending : StrictlyAscending values) : ofList values = values :=
  eq_of_mem_iff (ofList_strictlyAscending values) ascending
    (fun _ => mem_ofList)

theorem ofList_length_le_one [DecidableLT α] [Std.Irrefl (α := α) (· < ·)]
    [Std.Trichotomous (α := α) (· < ·)]
    [Trans (α := α) (· < ·) (· < ·) (· < ·)] {values : List α}
    (same : ∀ first ∈ values, ∀ second ∈ values, first = second) :
    (ofList values).length ≤ 1 := by
  have ascending := ofList_strictlyAscending values
  have members : ∀ value ∈ ofList values, value ∈ values :=
    fun _ member => mem_ofList.mp member
  match ofList values, ascending, members with
  | [], _, _ => simp
  | [single], _, _ => simp
  | first :: second :: others, ascending, members =>
      have below : first < second :=
        List.rel_of_pairwise_cons ascending (by simp)
      have equal : first = second :=
        same first (members first (by simp)) second (members second (by simp))
      rw [equal] at below
      exact absurd below (Std.Irrefl.irrefl second)

theorem length_ofList [DecidableEq α] [DecidableLT α]
    [Std.Irrefl (α := α) (· < ·)] [Std.Trichotomous (α := α) (· < ·)]
    [Trans (α := α) (· < ·) (· < ·) (· < ·)] (values : List α) :
    (ofList values).length = values.dedup.length := by
  apply List.Perm.length_eq
  apply (List.perm_ext_iff_of_nodup (ofList_strictlyAscending values).nodup
    values.nodup_dedup).mpr
  intro value
  rw [mem_ofList, List.mem_dedup]

theorem ofList_singleton [DecidableLT α] (value : α) :
    ofList [value] = [value] := rfl

theorem ofList_eq_nil_iff [DecidableLT α] [Std.Trichotomous (α := α) (· < ·)]
    {values : List α} : ofList values = [] ↔ values = [] := by
  simp only [List.eq_nil_iff_forall_not_mem, mem_ofList]

theorem sublist_range {bound : Nat} {values : List Nat}
    (ascending : StrictlyAscending values)
    (below : ∀ value ∈ values, value < bound) :
    values.Sublist (List.range bound) :=
  List.sublist_of_subperm_of_pairwise
    (List.subperm_of_subset ascending.nodup
      fun value member => List.mem_range.mpr (below value member))
    ascending List.pairwise_lt_range

/-- There are at most as many different strictly ascending lists of numbers
below a bound as there are sets of these numbers. -/
theorem length_le_pow {bound : Nat} {subsets : List (List Nat)}
    (distinct : subsets.Nodup)
    (ascending : ∀ subset ∈ subsets, StrictlyAscending subset)
    (below : ∀ subset ∈ subsets, ∀ value ∈ subset, value < bound) :
    subsets.length ≤ Nat.pow 2 bound := by
  have included : subsets ⊆ (List.range bound).sublists := by
    intro subset member
    exact List.mem_sublists.mpr
      (sublist_range (ascending subset member) (below subset member))
  calc
    subsets.length ≤ (List.range bound).sublists.length :=
      (List.subperm_of_subset distinct included).length_le
    _ = Nat.pow 2 bound := by
      rw [List.length_sublists, List.length_range]
      rfl

end Ascending

/-- In an ordered list, what stands before a member is what precedes it. -/
theorem mem_before_iff {α : Type} {precedes : α → α → Prop}
    (asymmetric : ∀ first second, precedes first second →
      ¬ precedes second first)
    {before after : List α} {value other : α}
    (ordered : (before ++ value :: after).Pairwise precedes) :
    other ∈ before ↔
      other ∈ before ++ value :: after ∧ precedes other value := by
  obtain ⟨_, valueOrdered, across⟩ := List.pairwise_append.mp ordered
  constructor
  · exact fun member => ⟨List.mem_append_left _ member,
      across other member value List.mem_cons_self⟩
  · intro listed
    obtain ⟨member, precedesValue⟩ := listed
    rcases List.mem_append.mp member with early | late
    · exact early
    · rcases List.mem_cons.mp late with rfl | later
      · exact absurd precedesValue (asymmetric _ _ precedesValue)
      · exact absurd precedesValue
          (asymmetric _ _ (List.rel_of_pairwise_cons valueOrdered later))

/-! ## Positions of labels -/

section Positions

variable {labels : List String}

theorem idxOf?_eq_some_iff_getD (distinct : labels.Nodup) {label : String}
    {position : Nat} :
    labels.idxOf? label = some position ↔
      position < labels.length ∧ labels.getD position "" = label := by
  rw [List.idxOf?_eq_some_iff]
  constructor
  · intro first
    obtain ⟨inRange, found, _⟩ := first
    refine ⟨inRange, ?_⟩
    rw [List.getD_eq_getElem _ _ inRange]
    exact found
  · intro stands
    obtain ⟨inRange, found⟩ := stands
    rw [List.getD_eq_getElem _ _ inRange] at found
    refine ⟨inRange, found, ?_⟩
    intro earlier before same
    have equal : earlier = position :=
      (List.Nodup.getElem_inj_iff distinct).mp (same.trans found.symm)
    omega

theorem getD_mem {position : Nat} (inRange : position < labels.length) :
    labels.getD position "" ∈ labels := by
  rw [List.getD_eq_getElem _ _ inRange]
  exact List.getElem_mem inRange

theorem exists_getD_eq {label : String} (member : label ∈ labels) :
    ∃ position < labels.length, labels.getD position "" = label := by
  obtain ⟨position, inRange, rfl⟩ := List.mem_iff_getElem.mp member
  exact ⟨position, inRange, List.getD_eq_getElem _ _ inRange⟩

theorem getD_lt_getD_iff (ascending : StrictlyAscending labels)
    {first second : Nat} (firstInRange : first < labels.length)
    (secondInRange : second < labels.length) :
    labels.getD first "" < labels.getD second "" ↔ first < second := by
  have ascends : ∀ {earlier later : Nat}, earlier < later →
      later < labels.length →
        labels.getD earlier "" < labels.getD later "" := by
    intro earlier later before inRange
    rw [List.getD_eq_getElem _ _ inRange,
      List.getD_eq_getElem _ _ (Nat.lt_trans before inRange)]
    exact List.pairwise_iff_getElem.mp ascending _ _ _ _ before
  constructor
  · intro below
    rcases Nat.lt_trichotomy first second with before | same | after
    · exact before
    · rw [same] at below
      exact absurd below (Std.Irrefl.irrefl _)
    · exact absurd (ascends after firstInRange) (Std.Asymm.asymm _ _ below)
  · exact fun before => ascends before secondInRange

theorem getD_inj (distinct : labels.Nodup) {first second : Nat}
    (firstInRange : first < labels.length)
    (secondInRange : second < labels.length) :
    labels.getD first "" = labels.getD second "" ↔ first = second := by
  rw [List.getD_eq_getElem _ _ firstInRange,
    List.getD_eq_getElem _ _ secondInRange]
  exact List.Nodup.getElem_inj_iff distinct

theorem eq_of_mem_labels (distinct : labels.Nodup) {first second : List Nat}
    (firstAscending : StrictlyAscending first)
    (secondAscending : StrictlyAscending second)
    (firstInRange : ∀ position ∈ first, position < labels.length)
    (secondInRange : ∀ position ∈ second, position < labels.length)
    (same : ∀ label, label ∈ first.map (labels.getD · "") ↔
      label ∈ second.map (labels.getD · "")) : first = second := by
  have member_iff : ∀ {members : List Nat} {position : Nat},
      (∀ other ∈ members, other < labels.length) →
      position < labels.length →
      (position ∈ members ↔
        labels.getD position "" ∈ members.map (labels.getD · "")) := by
    intro members position inRange positionInRange
    constructor
    · intro member
      exact List.mem_map_of_mem member
    · intro labelled
      obtain ⟨other, member, equal⟩ := List.mem_map.mp labelled
      rw [← (getD_inj distinct (inRange other member) positionInRange).mp
        equal]
      exact member
  apply Ascending.eq_of_mem_iff firstAscending secondAscending
  intro position
  constructor
  · intro member
    have inRange := firstInRange position member
    rw [member_iff secondInRange inRange, ← same,
      ← member_iff firstInRange inRange]
    exact member
  · intro member
    have inRange := secondInRange position member
    rw [member_iff firstInRange inRange, same,
      ← member_iff secondInRange inRange]
    exact member

end Positions

/-! ## Look-ups of a whole list -/

theorem mapM_eq_some_map {α β : Type} {lookup : α → Option β}
    {result : α → β} {values : List α}
    (each : ∀ value ∈ values, lookup value = some (result value)) :
    values.mapM lookup = some (values.map result) := by
  induction values with
  | nil => rfl
  | cons first later ih =>
      have foundLater := ih fun value member =>
        each value (List.mem_cons_of_mem first member)
      simp [each first List.mem_cons_self, foundLater]

end Recognizer
