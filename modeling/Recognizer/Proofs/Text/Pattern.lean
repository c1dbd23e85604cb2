import Recognizer.Proofs.Text.Blank
import Recognizer.Text.Pattern

/-!
# Reading texts as patterns say

Every kind of pattern has one law that says which texts it matches and what is
captured.  Repeating a class of characters gives the texts in which all characters
belong to the class, and captures nothing.
-/

namespace Recognizer

namespace Pattern

variable {text : List Char} {captures : Captures}

theorem matches_empty_iff :
    Pattern.empty.Matches text captures ↔ text = [] ∧ captures = [] := by
  constructor
  · intro found
    cases found
    exact ⟨rfl, rfl⟩
  · intro found
    obtain ⟨rfl, rfl⟩ := found
    exact .empty

theorem matches_one_iff {allowed : CharacterClass} :
    (Pattern.one allowed).Matches text captures ↔
      ∃ character, allowed.admits character = true ∧ text = [character] ∧
        captures = [] := by
  constructor
  · intro found
    cases found with
    | one admitted => exact ⟨_, admitted, rfl, rfl⟩
  · intro found
    obtain ⟨character, admitted, rfl, rfl⟩ := found
    exact .one admitted

theorem matches_literal_iff {character : Char} :
    (literal character).Matches text captures ↔
      text = [character] ∧ captures = [] := by
  simp [literal, matches_one_iff, CharacterClass.admits, ClassItem.admits]

theorem matches_append_iff {first later : Pattern} :
    (append first later).Matches text captures ↔
      ∃ begun rest firstCaptures laterCaptures,
        first.Matches begun firstCaptures ∧ later.Matches rest laterCaptures ∧
        text = begun ++ rest ∧ captures = firstCaptures ++ laterCaptures := by
  constructor
  · intro found
    cases found with
    | append isFirst isLater =>
        exact ⟨_, _, _, _, isFirst, isLater, rfl, rfl⟩
  · intro found
    obtain ⟨begun, rest, _, _, isFirst, isLater, rfl, rfl⟩ := found
    exact .append isFirst isLater

theorem matches_sequence_nil_iff :
    (sequence []).Matches text captures ↔ text = [] ∧ captures = [] :=
  matches_empty_iff

theorem matches_sequence_cons_iff {first : Pattern} {later : List Pattern} :
    (sequence (first :: later)).Matches text captures ↔
      ∃ begun rest firstCaptures laterCaptures,
        first.Matches begun firstCaptures ∧
        (sequence later).Matches rest laterCaptures ∧
        text = begun ++ rest ∧ captures = firstCaptures ++ laterCaptures :=
  matches_append_iff

theorem matches_sequence_singleton_iff {last : Pattern} :
    (sequence [last]).Matches text captures ↔ last.Matches text captures := by
  rw [matches_sequence_cons_iff]
  constructor
  · intro found
    obtain ⟨_, _, _, _, isLast, nothing, rfl, rfl⟩ := found
    obtain ⟨rfl, rfl⟩ := matches_sequence_nil_iff.mp nothing
    rw [List.append_nil, List.append_nil]
    exact isLast
  · intro isLast
    exact ⟨text, [], captures, [], isLast, .empty,
      (List.append_nil text).symm, (List.append_nil captures).symm⟩

theorem Matches.behind_literal (character : Char) {later : List Pattern}
    (isLater : (sequence later).Matches text captures) :
    (sequence (literal character :: later)).Matches (character :: text)
      captures :=
  matches_sequence_cons_iff.mpr ⟨[character], text, [], captures,
    matches_literal_iff.mpr ⟨rfl, rfl⟩, isLater, rfl, rfl⟩

theorem matches_literal_sequence_iff {character : Char}
    {later : List Pattern} :
    (sequence (literal character :: later)).Matches text captures ↔
      ∃ rest, text = character :: rest ∧
        (sequence later).Matches rest captures := by
  rw [matches_sequence_cons_iff]
  constructor
  · intro found
    obtain ⟨_, rest, _, _, isLiteral, isLater, rfl, rfl⟩ := found
    obtain ⟨rfl, rfl⟩ := matches_literal_iff.mp isLiteral
    exact ⟨rest, rfl, isLater⟩
  · intro found
    obtain ⟨rest, rfl, isLater⟩ := found
    rw [← matches_sequence_cons_iff]
    exact isLater.behind_literal character

theorem matches_either_iff {first second : Pattern} :
    (either first second).Matches text captures ↔
      first.Matches text captures ∨ second.Matches text captures := by
  constructor
  · intro found
    cases found with
    | first isFirst => exact Or.inl isFirst
    | second isSecond => exact Or.inr isSecond
  · intro found
    rcases found with isFirst | isSecond
    · exact .first isFirst
    · exact .second isSecond

theorem matches_group_iff {number : Nat} {inside : Pattern} :
    (group number inside).Matches text captures ↔
      ∃ others, inside.Matches text others ∧
        captures = (number, text) :: others := by
  constructor
  · intro found
    cases found with
    | group isInside => exact ⟨_, isInside, rfl⟩
  · intro found
    obtain ⟨others, isInside, rfl⟩ := found
    exact .group isInside

/-! ## Repetition -/

/-- What holds of nothing and is kept by one more round holds of every
repetition. -/
theorem Matches.many_induction {repeated : Pattern}
    {holds : List Char → Captures → Prop} (done : holds [] [])
    (again : ∀ {begun rest : List Char} {captures others : Captures},
      repeated.Matches begun captures → holds rest others →
        holds (begun ++ rest) (captures ++ others))
    (found : (many repeated).Matches text captures) : holds text captures := by
  generalize same : many repeated = pattern at found
  induction found with
  | done => exact done
  | again isFirst _ _ ih =>
      cases same
      exact again isFirst (ih rfl)
  | empty => cases same
  | one => cases same
  | append => cases same
  | first => cases same
  | second => cases same
  | group => cases same

theorem matches_many_one_iff {allowed : CharacterClass} :
    (many (one allowed)).Matches text captures ↔
      (∀ character ∈ text, allowed.admits character = true) ∧
        captures = [] := by
  constructor
  · apply Matches.many_induction
    · exact ⟨List.forall_mem_nil _, rfl⟩
    · rintro begun rest _ _ isOne ⟨admitted, rfl⟩
      obtain ⟨character, isAdmitted, rfl, rfl⟩ := matches_one_iff.mp isOne
      exact ⟨List.forall_mem_cons.mpr ⟨isAdmitted, admitted⟩, rfl⟩
  · intro found
    obtain ⟨admitted, rfl⟩ := found
    induction text with
    | nil => exact .done
    | cons character later ih =>
        obtain ⟨isAdmitted, othersAdmitted⟩ :=
          List.forall_mem_cons.mp admitted
        exact .again (.one isAdmitted) (ih othersAdmitted)

theorem matches_blanks_iff :
    blanks.Matches text captures ↔ Text.AllBlank text ∧ captures = [] := by
  simp [blanks, matches_many_one_iff, CharacterClass.admits,
    ClassItem.admits, Text.AllBlank]

theorem matches_padded_iff {inside : Pattern} :
    (padded inside).Matches text captures ↔
      ∃ part, Text.Padded part text ∧ inside.Matches part captures := by
  constructor
  · intro found
    obtain ⟨before, _, _, _, isBefore, behind, rfl, rfl⟩ :=
      matches_sequence_cons_iff.mp found
    obtain ⟨part, after, _, _, isInside, isAfter, rfl, rfl⟩ :=
      matches_sequence_cons_iff.mp behind
    obtain ⟨beforeBlank, rfl⟩ := matches_blanks_iff.mp isBefore
    obtain ⟨afterBlank, rfl⟩ :=
      matches_blanks_iff.mp (matches_sequence_singleton_iff.mp isAfter)
    refine ⟨part, ⟨before, after, beforeBlank, afterBlank, rfl⟩, ?_⟩
    rw [List.nil_append, List.append_nil]
    exact isInside
  · intro found
    obtain ⟨part, ⟨before, after, beforeBlank, afterBlank, rfl⟩, isInside⟩ :=
      found
    have isBefore := matches_blanks_iff.mpr ⟨beforeBlank, rfl⟩
    have isAfter := matches_sequence_singleton_iff.mpr
      (matches_blanks_iff.mpr ⟨afterBlank, rfl⟩)
    have behind := matches_sequence_cons_iff.mpr ⟨part, after, captures, [],
      isInside, isAfter, rfl, (List.append_nil captures).symm⟩
    exact matches_sequence_cons_iff.mpr
      ⟨before, part ++ after, [], captures, isBefore, behind, rfl, rfl⟩

theorem matches_atLeastOnce_one_iff {allowed : CharacterClass} :
    (atLeastOnce (one allowed)).Matches text captures ↔
      text ≠ [] ∧ (∀ character ∈ text, allowed.admits character = true) ∧
        captures = [] := by
  rw [atLeastOnce, matches_append_iff]
  constructor
  · intro found
    obtain ⟨begun, rest, _, _, isOne, isMany, rfl, rfl⟩ := found
    obtain ⟨character, isAdmitted, rfl, rfl⟩ := matches_one_iff.mp isOne
    obtain ⟨admitted, rfl⟩ := matches_many_one_iff.mp isMany
    exact ⟨List.cons_ne_nil _ _,
      List.forall_mem_cons.mpr ⟨isAdmitted, admitted⟩, rfl⟩
  · intro found
    obtain ⟨nonempty, admitted, rfl⟩ := found
    obtain ⟨character, later, rfl⟩ := List.exists_cons_of_ne_nil nonempty
    obtain ⟨isAdmitted, othersAdmitted⟩ := List.forall_mem_cons.mp admitted
    exact ⟨[character], later, [], [], .one isAdmitted,
      matches_many_one_iff.mpr ⟨othersAdmitted, rfl⟩, rfl, rfl⟩

end Pattern

end Recognizer
