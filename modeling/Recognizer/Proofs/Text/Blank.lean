import Mathlib.Data.List.TakeWhile
import Recognizer.Text.Blank

/-!
# Blank characters around a text

Trimming leaves out blank characters at both ends and nothing else.  A text without
blank characters is therefore found again, whatever blank characters stand around
it.
-/

namespace Recognizer.Text

def AllBlank (characters : List Char) : Prop :=
  ∀ character ∈ characters, isBlank character = true

def NoBlank (characters : List Char) : Prop :=
  ∀ character ∈ characters, isBlank character = false

instance (characters : List Char) : Decidable (AllBlank characters) :=
  List.decidableBAll (isBlank · = true) characters

instance (characters : List Char) : Decidable (NoBlank characters) :=
  List.decidableBAll (isBlank · = false) characters

/-- The second text is the first one with blank characters around it. -/
def Padded (text padded : List Char) : Prop :=
  ∃ before after, AllBlank before ∧ AllBlank after ∧
    padded = before ++ (text ++ after)

theorem padded_self (text : List Char) : Padded text text :=
  ⟨[], [], List.forall_mem_nil _, List.forall_mem_nil _,
    (List.append_nil text).symm⟩

theorem Padded.mem_of_mem {text padded : List Char}
    (isPadded : Padded text padded) {character : Char}
    (member : character ∈ text) : character ∈ padded := by
  obtain ⟨before, after, _, _, rfl⟩ := isPadded
  exact List.mem_append_right before (List.mem_append_left after member)

/-- A visible character of the padded text is one of the text. -/
theorem Padded.mem {text padded : List Char} (isPadded : Padded text padded)
    {character : Char} (visible : isBlank character = false)
    (member : character ∈ padded) : character ∈ text := by
  obtain ⟨before, after, beforeBlank, afterBlank, rfl⟩ := isPadded
  simp only [List.mem_append] at member
  rcases member with inBefore | inText | inAfter
  · rw [beforeBlank character inBefore] at visible
    cases visible
  · exact inText
  · rw [afterBlank character inAfter] at visible
    cases visible

/-! ## Skipping -/

theorem exists_skipped (characters : List Char) :
    ∃ skipped, AllBlank skipped ∧
      characters = skipped ++ skipBlank characters := by
  refine ⟨characters.takeWhile isBlank, ?_, ?_⟩
  · intro character member
    exact List.mem_takeWhile_imp member
  · exact List.takeWhile_append_dropWhile.symm

theorem skipBlank_append {blank : List Char} (allBlank : AllBlank blank)
    (rest : List Char) : skipBlank (blank ++ rest) = skipBlank rest :=
  List.dropWhile_append_of_pos allBlank

theorem skipBlank_of_allBlank {blank : List Char} (allBlank : AllBlank blank) :
    skipBlank blank = [] :=
  List.dropWhile_eq_nil_iff.mpr allBlank

theorem skipBlank_cons {first : Char} (visible : isBlank first = false)
    (rest : List Char) : skipBlank (first :: rest) = first :: rest :=
  List.dropWhile_cons_of_neg (by rw [visible]; exact Bool.false_ne_true)

theorem skipBlank_of_noBlank {text : List Char} (noBlank : NoBlank text) :
    skipBlank text = text := by
  cases text with
  | nil => rfl
  | cons first others => exact skipBlank_cons (noBlank first List.mem_cons_self) _

theorem skipBlank_append_of_noBlank {text : List Char} (noBlank : NoBlank text)
    (nonempty : text ≠ []) (rest : List Char) :
    skipBlank (text ++ rest) = text ++ rest := by
  cases text with
  | nil => exact absurd rfl nonempty
  | cons first others => exact skipBlank_cons (noBlank first List.mem_cons_self) _

/-! ## Trimming -/

theorem padded_trimmed (characters : List Char) :
    Padded (trimmed characters) characters := by
  obtain ⟨before, beforeBlank, isBefore⟩ := exists_skipped characters
  obtain ⟨after, afterBlank, isAfter⟩ :=
    exists_skipped (skipBlank characters).reverse
  refine ⟨before, after.reverse, beforeBlank, ?_, ?_⟩
  · intro character member
    exact afterBlank character (List.mem_reverse.mp member)
  · have behind := congrArg List.reverse isAfter
    rw [List.reverse_reverse, List.reverse_append] at behind
    rw [trimmed, ← behind]
    exact isBefore

theorem Padded.trimmed_eq_trimmed {text padded : List Char}
    (isPadded : Padded text padded) : trimmed padded = trimmed text := by
  obtain ⟨before, after, beforeBlank, afterBlank, rfl⟩ := isPadded
  have reverseBlank : AllBlank after.reverse := fun character member =>
    afterBlank character (List.mem_reverse.mp member)
  rw [trimmed, skipBlank_append beforeBlank, trimmed]
  by_cases nothing : skipBlank text = []
  · have allBlank : AllBlank (text ++ after) := by
      intro character member
      rcases List.mem_append.mp member with inText | inAfter
      · exact List.dropWhile_eq_nil_iff.mp nothing character inText
      · exact afterBlank character inAfter
    rw [nothing, skipBlank_of_allBlank allBlank]
  · have kept : skipBlank (text ++ after) = skipBlank text ++ after := by
      rw [skipBlank] at nothing
      rw [skipBlank, List.dropWhile_append,
        if_neg (by simpa using nothing)]
      rfl
    rw [kept, List.reverse_append, skipBlank_append reverseBlank]

/-- A text without blank characters is all that trimming leaves. -/
theorem Padded.trimmed_eq {text padded : List Char}
    (isPadded : Padded text padded) (noBlank : NoBlank text) :
    trimmed padded = text := by
  have reverseNoBlank : NoBlank text.reverse := fun character member =>
    noBlank character (List.mem_reverse.mp member)
  rw [isPadded.trimmed_eq_trimmed, trimmed, skipBlank_of_noBlank noBlank,
    skipBlank_of_noBlank reverseNoBlank, List.reverse_reverse]

end Recognizer.Text
