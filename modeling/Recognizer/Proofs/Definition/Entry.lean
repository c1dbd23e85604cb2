import Recognizer.Definition
import Recognizer.Proofs.Text.Labels
import Recognizer.Proofs.Text.Pattern

/-!
# The grammar of transition entries

An entry matches the pattern of entries, which is read from left to right: blank
characters, a label, blank characters and a hyphen, the same once more, and the
rest, which has no further hyphen.  Since no character of a label is blank or a
hyphen, every step is forced, and the entry matches in one way at most
(`entryParts?_eq_some_iff`).

The same entries are described by their hyphens.  There are exactly two of them, what
stands in front of each is a label once it is trimmed, and behind the second one
there is an item that is not blank.
-/

namespace Recognizer

namespace Transition

open Text (AllBlank NoBlank Padded isBlank skipBlank trimmed)

/-- What may stand in front of a hyphen. -/
structure IsEntryLabel (label : List Char) : Prop where
  nonempty : label ≠ []
  noBlank : NoBlank label
  noHyphen : '-' ∉ label

/-- The characters match the pattern, and these are its groups. -/
def EntryMatches (characters origin symbol rest : List Char) : Prop :=
  entryPattern.Matches characters [(1, origin), (2, symbol), (3, rest)]

/-- The characters are two labels, each with blank characters around it and a
hyphen behind it, and a rest without hyphens. -/
structure EntryParts (characters origin symbol rest : List Char) : Prop where
  isOrigin : IsEntryLabel origin
  isSymbol : IsEntryLabel symbol
  rest_nonempty : rest ≠ []
  rest_noHyphen : '-' ∉ rest
  joined : ∃ originPart symbolPart,
    Padded origin originPart ∧ Padded symbol symbolPart ∧
      characters = originPart ++ '-' :: (symbolPart ++ '-' :: rest)

/-- Exactly two hyphens divide the entry.  In front of each stands one word, and
behind them a list of items that are not all blank. -/
inductive Describes (entry : String) : Transition → Prop where
  | entry {before between after : List Char} :
      entry.toList = before ++ '-' :: (between ++ '-' :: after) →
      '-' ∉ before → '-' ∉ between → '-' ∉ after →
      trimmed before ≠ [] → NoBlank (trimmed before) →
      trimmed between ≠ [] → NoBlank (trimmed between) →
      Text.items after ≠ [] →
      Describes entry
        { origin := String.ofList (trimmed before)
          symbol := String.ofList (trimmed between)
          destinations := (Text.items after).map String.ofList }

/-! ## What the groups hold -/

section Groups

variable {number : Nat} {text : List Char} {captures : Pattern.Captures}

theorem labelPattern_matches_iff :
    (labelPattern number).Matches text captures ↔
      IsEntryLabel text ∧ captures = [(number, text)] := by
  have allowed : (∀ character ∈ text,
      (CharacterClass.outside [.literal '-', .blank]).admits character =
        true) ↔ '-' ∉ text ∧ NoBlank text := by
    simp [CharacterClass.admits, ClassItem.admits, NoBlank, forall_and,
      List.forall_mem_ne']
  simp only [labelPattern, Pattern.matches_group_iff,
    Pattern.matches_atLeastOnce_one_iff, allowed]
  constructor
  · intro found
    obtain ⟨_, ⟨nonempty, ⟨noHyphen, noBlank⟩, rfl⟩, rfl⟩ := found
    exact ⟨⟨nonempty, noBlank, noHyphen⟩, rfl⟩
  · intro found
    obtain ⟨isLabel, rfl⟩ := found
    exact ⟨[], ⟨isLabel.nonempty, ⟨isLabel.noHyphen, isLabel.noBlank⟩, rfl⟩,
      rfl⟩

theorem restPattern_matches_iff :
    (restPattern number).Matches text captures ↔
      (text ≠ [] ∧ '-' ∉ text) ∧ captures = [(number, text)] := by
  have allowed : (∀ character ∈ text,
      (CharacterClass.outside [.literal '-']).admits character = true) ↔
        '-' ∉ text := by
    simp [CharacterClass.admits, ClassItem.admits, List.forall_mem_ne']
  simp only [restPattern, Pattern.matches_group_iff,
    Pattern.matches_atLeastOnce_one_iff, allowed]
  constructor
  · intro found
    obtain ⟨_, ⟨nonempty, noHyphen, rfl⟩, rfl⟩ := found
    exact ⟨⟨nonempty, noHyphen⟩, rfl⟩
  · intro found
    obtain ⟨⟨nonempty, noHyphen⟩, rfl⟩ := found
    exact ⟨[], ⟨nonempty, noHyphen, rfl⟩, rfl⟩

theorem padded_labelPattern_matches_iff :
    (Pattern.padded (labelPattern number)).Matches text captures ↔
      ∃ label, (IsEntryLabel label ∧ Padded label text) ∧
        captures = [(number, label)] := by
  rw [Pattern.matches_padded_iff]
  constructor
  · intro found
    obtain ⟨label, isPadded, isGroup⟩ := found
    obtain ⟨isLabel, rfl⟩ := labelPattern_matches_iff.mp isGroup
    exact ⟨label, ⟨isLabel, isPadded⟩, rfl⟩
  · intro found
    obtain ⟨label, ⟨isLabel, isPadded⟩, rfl⟩ := found
    exact ⟨label, isPadded, labelPattern_matches_iff.mpr ⟨isLabel, rfl⟩⟩

/-- An entry that matches is its three groups with what stands between them. -/
theorem entryPattern_matches_iff :
    entryPattern.Matches text captures ↔
      ∃ origin symbol rest, EntryParts text origin symbol rest ∧
        captures = [(1, origin), (2, symbol), (3, rest)] := by
  constructor
  · intro found
    obtain ⟨originPart, _, _, _, originFound, behindOrigin, rfl, rfl⟩ :=
      Pattern.matches_sequence_cons_iff.mp found
    obtain ⟨_, rfl, further⟩ :=
      Pattern.matches_literal_sequence_iff.mp behindOrigin
    obtain ⟨symbolPart, _, _, _, symbolFound, behindSymbol, rfl, rfl⟩ :=
      Pattern.matches_sequence_cons_iff.mp further
    obtain ⟨rest, rfl, restFound⟩ :=
      Pattern.matches_literal_sequence_iff.mp behindSymbol
    obtain ⟨origin, ⟨isOrigin, originPadded⟩, rfl⟩ :=
      padded_labelPattern_matches_iff.mp originFound
    obtain ⟨symbol, ⟨isSymbol, symbolPadded⟩, rfl⟩ :=
      padded_labelPattern_matches_iff.mp symbolFound
    obtain ⟨⟨nonempty, noHyphen⟩, rfl⟩ := restPattern_matches_iff.mp
      (Pattern.matches_sequence_singleton_iff.mp restFound)
    exact ⟨origin, symbol, rest, ⟨isOrigin, isSymbol, nonempty, noHyphen,
      originPart, symbolPart, originPadded, symbolPadded, rfl⟩, rfl⟩
  · intro found
    obtain ⟨origin, symbol, rest, ⟨isOrigin, isSymbol, nonempty, noHyphen,
      originPart, symbolPart, originPadded, symbolPadded, rfl⟩, rfl⟩ := found
    have originFound : (Pattern.padded (labelPattern 1)).Matches originPart
        [(1, origin)] :=
      padded_labelPattern_matches_iff.mpr
        ⟨origin, ⟨isOrigin, originPadded⟩, rfl⟩
    have symbolFound : (Pattern.padded (labelPattern 2)).Matches symbolPart
        [(2, symbol)] :=
      padded_labelPattern_matches_iff.mpr
        ⟨symbol, ⟨isSymbol, symbolPadded⟩, rfl⟩
    have isRest : (restPattern 3).Matches rest [(3, rest)] :=
      restPattern_matches_iff.mpr ⟨⟨nonempty, noHyphen⟩, rfl⟩
    have restFound := Pattern.matches_sequence_singleton_iff.mpr isRest
    have further := Pattern.matches_sequence_cons_iff.mpr
      ⟨symbolPart, _, _, _, symbolFound, restFound.behind_literal '-', rfl,
        rfl⟩
    exact Pattern.matches_sequence_cons_iff.mpr
      ⟨originPart, _, _, _, originFound, further.behind_literal '-', rfl,
        rfl⟩

end Groups

theorem entryMatches_iff_parts {characters origin symbol rest : List Char} :
    EntryMatches characters origin symbol rest ↔
      EntryParts characters origin symbol rest := by
  rw [EntryMatches, entryPattern_matches_iff]
  constructor
  · intro found
    obtain ⟨_, _, _, parts, same⟩ := found
    cases same
    exact parts
  · exact fun parts => ⟨origin, symbol, rest, parts, rfl⟩

/-! ## One label -/

theorem isEntryCharacter_iff {character : Char} :
    isEntryCharacter character = true ↔
      character ≠ '-' ∧ isBlank character = false := by
  simp [isEntryCharacter]

theorem takeWhile_dropWhile_entry {label after : List Char}
    (isLabel : IsEntryLabel label) (afterBlank : AllBlank after)
    (later : List Char) :
    (label ++ (after ++ '-' :: later)).takeWhile isEntryCharacter = label ∧
      (label ++ (after ++ '-' :: later)).dropWhile isEntryCharacter =
        after ++ '-' :: later := by
  have within : ∀ character ∈ label, isEntryCharacter character = true := by
    intro character member
    refine isEntryCharacter_iff.mpr ⟨?_, isLabel.noBlank character member⟩
    exact fun same => isLabel.noHyphen (same ▸ member)
  have stops : ∃ first others, after ++ '-' :: later = first :: others ∧
      isEntryCharacter first = false := by
    cases after with
    | nil => exact ⟨'-', later, rfl, by decide⟩
    | cons first others =>
        refine ⟨first, others ++ '-' :: later, rfl, ?_⟩
        simp [isEntryCharacter, afterBlank first List.mem_cons_self]
  obtain ⟨first, others, same, notWithin⟩ := stops
  rw [same, List.takeWhile_append_of_pos within,
    List.dropWhile_append_of_pos within]
  simp [notWithin]

theorem label_of_entryLabel? {characters label later : List Char}
    (found : entryLabel? characters = some (label, later)) :
    IsEntryLabel label ∧
      ∃ part, Padded label part ∧ characters = part ++ '-' :: later := by
  simp only [entryLabel?] at found
  obtain ⟨before, beforeBlank, isBefore⟩ := Text.exists_skipped characters
  obtain ⟨after, afterBlank, isAfter⟩ := Text.exists_skipped
    ((skipBlank characters).dropWhile isEntryCharacter)
  split at found
  · rename_i behind hyphen
    split at found
    · cases found
    · rename_i nonempty
      cases found
      have members : ∀ character ∈
          (skipBlank characters).takeWhile isEntryCharacter,
          character ≠ '-' ∧ isBlank character = false := fun _ member =>
        isEntryCharacter_iff.mp (List.mem_takeWhile_imp member)
      rw [hyphen] at isAfter
      refine ⟨⟨?_, fun character member => (members character member).2,
        fun member => (members '-' member).1 rfl⟩, _,
        ⟨before, after, beforeBlank, afterBlank, rfl⟩, ?_⟩
      · simpa using nonempty
      · rw [List.append_assoc, List.append_assoc, ← isAfter,
          List.takeWhile_append_dropWhile]
        exact isBefore
  · cases found

theorem entryLabel?_of_padded {label part : List Char}
    (isLabel : IsEntryLabel label) (isPadded : Padded label part)
    (later : List Char) :
    entryLabel? (part ++ '-' :: later) = some (label, later) := by
  obtain ⟨before, after, beforeBlank, afterBlank, rfl⟩ := isPadded
  have hyphen : isBlank '-' = false := by decide
  have begun : skipBlank (before ++ (label ++ after) ++ '-' :: later) =
      label ++ (after ++ '-' :: later) := by
    rw [List.append_assoc, List.append_assoc,
      Text.skipBlank_append beforeBlank,
      Text.skipBlank_append_of_noBlank isLabel.noBlank isLabel.nonempty]
  have behind : skipBlank (after ++ '-' :: later) = '-' :: later := by
    rw [Text.skipBlank_append afterBlank, Text.skipBlank_cons hyphen]
  obtain ⟨taken, dropped⟩ :=
    takeWhile_dropWhile_entry isLabel afterBlank later
  simp only [entryLabel?, begun, taken, dropped, behind]
  rw [if_neg (by simpa using isLabel.nonempty)]

/-! ## The whole entry -/

/-- The entry matches as it is read, and in no other way. -/
theorem entryParts?_eq_some_iff {characters origin symbol rest : List Char} :
    entryParts? characters = some (origin, symbol, rest) ↔
      EntryMatches characters origin symbol rest := by
  rw [entryMatches_iff_parts]
  constructor
  · intro found
    unfold entryParts? at found
    split at found
    · cases found
    · rename_i origin later isOrigin
      split at found
      · cases found
      · rename_i symbol rest isSymbol
        split at found
        · cases found
        · rename_i fine
          cases found
          obtain ⟨originLabel, originPart, originPadded, rfl⟩ :=
            label_of_entryLabel? isOrigin
          obtain ⟨symbolLabel, symbolPart, symbolPadded, rfl⟩ :=
            label_of_entryLabel? isSymbol
          simp only [Bool.or_eq_true, List.isEmpty_iff, List.contains_iff_mem,
            not_or] at fine
          exact ⟨originLabel, symbolLabel, fine.1, fine.2, originPart,
            symbolPart, originPadded, symbolPadded, rfl⟩
  · intro found
    obtain ⟨isOrigin, isSymbol, nonempty, noHyphen, originPart, symbolPart,
      originPadded, symbolPadded, rfl⟩ := found
    have fine : ¬ (rest.isEmpty || rest.contains '-') = true := by
      simp [nonempty, noHyphen]
    simp only [entryParts?, entryLabel?_of_padded isOrigin originPadded,
      entryLabel?_of_padded isSymbol symbolPadded, if_neg fine]

theorem ofEntry?_eq_some_iff_matches {entry : String}
    {transition : Transition} :
    ofEntry? entry = some transition ↔
      ∃ rest, EntryMatches entry.toList transition.origin.toList
          transition.symbol.toList rest ∧
        transition.destinations = Text.labels rest ∧
        transition.destinations ≠ [] := by
  constructor
  · intro found
    unfold ofEntry? at found
    split at found
    · cases found
    · rename_i origin symbol rest parts
      split at found
      · cases found
      · rename_i destination others listed
        cases found
        refine ⟨rest, ?_, listed.symm, List.cons_ne_nil _ _⟩
        rw [String.toList_ofList, String.toList_ofList]
        exact entryParts?_eq_some_iff.mp parts
  · intro found
    obtain ⟨rest, isMatch, listed, some⟩ := found
    obtain ⟨origin, symbol, destinations⟩ := transition
    obtain ⟨destination, others, same⟩ := List.exists_cons_of_ne_nil some
    simp only at isMatch listed same
    rw [same] at listed ⊢
    unfold ofEntry?
    simp only [entryParts?_eq_some_iff.mpr isMatch, ← listed,
      String.ofList_toList]

/-! ## The hyphens of an entry -/

theorem padded_entryLabel_iff {part label : List Char} :
    (IsEntryLabel label ∧ Padded label part) ↔
      '-' ∉ part ∧ trimmed part = label ∧ label ≠ [] ∧ NoBlank label := by
  have hyphen : isBlank '-' = false := by decide
  constructor
  · intro written
    obtain ⟨isLabel, isPadded⟩ := written
    exact ⟨fun member => isLabel.noHyphen (isPadded.mem hyphen member),
      isPadded.trimmed_eq isLabel.noBlank, isLabel.nonempty, isLabel.noBlank⟩
  · intro found
    obtain ⟨noHyphen, rfl, nonempty, noBlank⟩ := found
    have isPadded := Text.padded_trimmed part
    exact ⟨⟨nonempty, noBlank, fun member =>
      noHyphen (isPadded.mem_of_mem member)⟩, isPadded⟩

theorem entryMatches_iff {characters origin symbol rest : List Char} :
    EntryMatches characters origin symbol rest ↔
      ∃ before between,
        characters = before ++ '-' :: (between ++ '-' :: rest) ∧
        ('-' ∉ before ∧ trimmed before = origin ∧ origin ≠ [] ∧
          NoBlank origin) ∧
        ('-' ∉ between ∧ trimmed between = symbol ∧ symbol ≠ [] ∧
          NoBlank symbol) ∧ '-' ∉ rest ∧ rest ≠ [] := by
  simp only [entryMatches_iff_parts, ← padded_entryLabel_iff]
  constructor
  · intro found
    obtain ⟨isOrigin, isSymbol, nonempty, noHyphen, before, between,
      originPadded, symbolPadded, joined⟩ := found
    exact ⟨before, between, joined, ⟨isOrigin, originPadded⟩,
      ⟨isSymbol, symbolPadded⟩, noHyphen, nonempty⟩
  · intro found
    obtain ⟨before, between, joined, ⟨isOrigin, originPadded⟩,
      ⟨isSymbol, symbolPadded⟩, noHyphen, nonempty⟩ := found
    exact ⟨isOrigin, isSymbol, nonempty, noHyphen, before, between,
      originPadded, symbolPadded, joined⟩

theorem ofEntry?_eq_some_iff {entry : String} {transition : Transition} :
    ofEntry? entry = some transition ↔ Describes entry transition := by
  refine ofEntry?_eq_some_iff_matches.trans ?_
  constructor
  · intro found
    obtain ⟨rest, isMatch, listed, some⟩ := found
    obtain ⟨before, between, joined, ⟨beforeSingle, isOrigin, originFilled,
      originWord⟩, ⟨betweenSingle, isSymbol, symbolFilled, symbolWord⟩,
      restSingle, _⟩ := entryMatches_iff.mp isMatch
    rw [← isOrigin] at originFilled originWord
    rw [← isSymbol] at symbolFilled symbolWord
    rw [listed, Text.labels_eq] at some
    have described := Describes.entry joined beforeSingle betweenSingle
      restSingle originFilled originWord symbolFilled symbolWord
      (mt (congrArg (List.map String.ofList)) some)
    rw [isOrigin, isSymbol, ← Text.labels_eq, ← listed, String.ofList_toList,
      String.ofList_toList] at described
    exact described
  · intro described
    cases described with
    | @entry before between after joined beforeSingle betweenSingle restSingle
        originFilled originWord symbolFilled symbolWord some =>
        have filled : after ≠ [] := by
          rintro rfl
          exact some rfl
        refine ⟨after, ?_, (Text.labels_eq after).symm,
          mt List.map_eq_nil_iff.mp some⟩
        simp only [String.toList_ofList]
        exact entryMatches_iff.mpr ⟨before, between, joined,
          ⟨beforeSingle, rfl, originFilled, originWord⟩,
          ⟨betweenSingle, rfl, symbolFilled, symbolWord⟩, restSingle, filled⟩

/-- An entry is read as the transition that it describes, and an entry that
describes none is reported as it is. -/
theorem ofEntry_outcome (entry : String) :
    (∀ transition, ofEntry entry = .ok transition ↔
      Describes entry transition) ∧
    ∀ fault, ofEntry entry = .error fault ↔
      fault = .invalidTransition entry ∧
        ∀ transition, ¬ Describes entry transition := by
  simp only [← ofEntry?_eq_some_iff, ofEntry]
  cases ofEntry? entry with
  | none => simp [eq_comm]
  | some transition => simp

end Transition

end Recognizer
