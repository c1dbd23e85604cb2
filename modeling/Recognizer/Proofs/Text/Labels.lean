import Mathlib.Data.List.Forall2
import Recognizer.Proofs.Text.Blank
import Recognizer.Text.Labels

/-!
# Lists of labels as they are written

A text is split at its commas, and what is left of the pieces without the blank
characters around them are the labels.  Labels that have neither commas nor blank
characters are found again when they are written with commas between them.
-/

namespace Recognizer.Text

theorem parts_eq_splitOn (separator : Char) (characters : List Char) :
    parts separator characters = characters.splitOn separator := by
  induction characters with
  | nil => rfl
  | cons character later ih =>
      have unfolded : parts separator (character :: later) =
          if character = separator then [] :: parts separator later
          else (parts separator later).modifyHead (character :: ·) := by
        simp only [parts, List.foldr_cons]
        split
        · rfl
        · have nonempty := parts_ne_nil separator later
          unfold parts at nonempty
          split
          · rename_i found
            rw [found]
            rfl
          · rename_i found
            exact absurd found nonempty
      rw [unfolded, ih, List.splitOn_cons_eq_if_modifyHead]
      simp only [beq_iff_eq]

/-- The items between the commas that are not blank, trimmed. -/
def items (characters : List Char) : List (List Char) :=
  ((characters.splitOn ',').map trimmed).filter (· ≠ [])

theorem labels_eq (characters : List Char) :
    labels characters = (items characters).map String.ofList := by
  rw [labels, items, parts_eq_splitOn]
  induction (characters.splitOn ',').map trimmed with
  | nil => rfl
  | cons label later ih =>
      rw [List.filterMap_cons, ih]
      cases label with
      | nil => rfl
      | cons first others => rfl

/-! ## Written lists -/

/-- Neither blank characters nor commas divide the label. -/
structure IsItem (label : String) : Prop where
  nonempty : label ≠ ""
  noBlank : NoBlank label.toList
  noComma : ',' ∉ label.toList

/-- The text has the labels in their order, with commas between them and blank
characters around them. -/
def Lists (listed : List String) (text : List Char) : Prop :=
  ∃ padded,
    List.Forall₂ (fun label item => Padded label.toList item) listed padded ∧
      text = [','].intercalate padded

/-- The text has the labels in some order. -/
def ListsAnyhow (listed : List String) (text : List Char) : Prop :=
  ∃ order, order.Perm listed ∧ Lists order text

theorem lists_intercalate (listed : List String) :
    Lists listed (",".intercalate listed).toList := by
  refine ⟨listed.map String.toList, ?_, String.toList_intercalate⟩
  rw [List.forall₂_map_right_iff, List.forall₂_same]
  exact fun label _ => padded_self label.toList

theorem listsAnyhow_intercalate (listed : List String) :
    ListsAnyhow listed (",".intercalate listed).toList :=
  ⟨listed, List.Perm.refl listed, lists_intercalate listed⟩

section Written

variable {listed : List String} {padded : List (List Char)}

theorem noComma_padded
    (arePadded : List.Forall₂ (fun label item => Padded label.toList item)
      listed padded)
    (plain : ∀ label ∈ listed, IsItem label) :
    ∀ item ∈ padded, ',' ∉ item := by
  have visible : isBlank ',' = false := by decide
  induction arePadded with
  | nil => simp
  | cons isPadded _ ih =>
      obtain ⟨firstPlain, laterPlain⟩ := List.forall_mem_cons.mp plain
      refine List.forall_mem_cons.mpr ⟨?_, ih laterPlain⟩
      exact fun member => firstPlain.noComma (isPadded.mem visible member)

theorem map_trimmed_padded
    (arePadded : List.Forall₂ (fun label item => Padded label.toList item)
      listed padded)
    (plain : ∀ label ∈ listed, IsItem label) :
    padded.map trimmed = listed.map String.toList := by
  induction arePadded with
  | nil => rfl
  | cons isPadded _ ih =>
      obtain ⟨firstPlain, laterPlain⟩ := List.forall_mem_cons.mp plain
      rw [List.map_cons, List.map_cons,
        isPadded.trimmed_eq firstPlain.noBlank, ih laterPlain]

theorem Lists.mem {text : List Char} (lists : Lists listed text)
    {character : Char} (visible : isBlank character = false)
    (member : character ∈ text) :
    character = ',' ∨ ∃ label ∈ listed, character ∈ label.toList := by
  obtain ⟨padded, arePadded, rfl⟩ := lists
  induction arePadded with
  | nil => exact absurd member List.not_mem_nil
  | @cons label item later padded isPadded _ ih =>
      have isFirst : character ∈ item → character = ',' ∨
          ∃ other ∈ label :: later, character ∈ other.toList :=
        fun within => Or.inr
          ⟨label, List.mem_cons_self, isPadded.mem visible within⟩
      by_cases none : padded = []
      · rw [none, List.intercalate_singleton] at member
        exact isFirst member
      · rw [List.intercalate_cons_of_ne_nil none, List.mem_append,
          List.mem_append, List.mem_singleton] at member
        rcases member with (within | isComma) | inLater
        · exact isFirst within
        · exact Or.inl isComma
        · rcases ih inLater with isComma | ⟨other, listed, within⟩
          · exact Or.inl isComma
          · exact Or.inr ⟨other, List.mem_cons_of_mem _ listed, within⟩

theorem labels_of_lists {text : List Char} (lists : Lists listed text)
    (plain : ∀ label ∈ listed, IsItem label) : labels text = listed := by
  obtain ⟨padded, arePadded, rfl⟩ := lists
  rw [labels_eq, items]
  by_cases none : listed = []
  · subst none
    cases arePadded
    rfl
  · have some : padded ≠ [] := by
      rintro rfl
      cases arePadded
      exact none rfl
    have filled : ∀ label ∈ listed.map String.toList,
        decide (label ≠ []) = true := by
      intro characters member
      obtain ⟨label, isListed, rfl⟩ := List.mem_map.mp member
      exact decide_eq_true
        (mt String.toList_eq_nil_iff.mp (plain label isListed).nonempty)
    rw [List.splitOn_intercalate ',' (noComma_padded arePadded plain) some,
      map_trimmed_padded arePadded plain, List.filter_eq_self.mpr filled,
      List.map_map]
    simp [Function.comp_def]

theorem labels_of_listsAnyhow {text : List Char}
    (lists : ListsAnyhow listed text)
    (plain : ∀ label ∈ listed, IsItem label) : (labels text).Perm listed := by
  obtain ⟨order, sameLabels, inOrder⟩ := lists
  rw [labels_of_lists inOrder fun label member =>
    plain label (sameLabels.mem_iff.mp member)]
  exact sameLabels

end Written

end Recognizer.Text
