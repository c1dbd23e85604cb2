import Recognizer.Proofs.Dataset.Quoting
import Recognizer.Proofs.Text.Pattern

/-!
# The grammar of rows

A line is a row as the pattern of rows says, with the fields that are captured.  By
itself, a row is two fields with a comma between them, and a further comma may end
the second one.  A quoted field has blank characters around its quotes only, and
inside every quote is written twice.  A plain field has neither commas nor quotes.

The reader finds every division and no other.  A quoted field cannot be read as a
plain one, its closing quote is the first one that is not doubled, and behind a field
there is a comma or nothing.  A line can therefore be divided in one way at most.
-/

namespace Recognizer

namespace Row

open Pattern (Captures sequence)
open Text (AllBlank isBlank skipBlank trimmed)

/-- The line matches the pattern, and the groups hold the row. -/
def Divides (line : String) (row : Row) : Prop :=
  ∃ captures, pattern.Matches line.toList captures ∧
    ofCaptures captures = row

/-- The characters are one way to write a field. -/
inductive Writes : List Char → String → Prop where
  | quoted {before after : List Char} (content : List Char) :
      (∀ character ∈ before, isBlank character = true) →
      (∀ character ∈ after, isBlank character = true) →
      Writes (before ++ '"' :: (doubled content ++ '"' :: after))
        (String.ofList content)
  | plain {text : List Char} :
      (∀ character ∈ text, character ≠ ',' ∧ character ≠ '"') →
      Writes text (String.ofList (trimmed text))

/-- Nothing follows, or a comma. -/
def Stops (rest : List Char) : Prop :=
  rest = [] ∨ ∃ later, rest = ',' :: later

/-- The line is split into the two fields of the row and what is ignored. -/
def Splits (line : String) (row : Row) : Prop :=
  ∃ label word ignored, line.toList = label ++ ',' :: (word ++ ignored) ∧
    Writes label row.label ∧ Writes word row.word ∧ Stops ignored ∧
    '\n' ∉ ignored

/-! ## What the groups hold -/

theorem undoubled_doubled (content : List Char) :
    undoubled (doubled content) = content := by
  induction content with
  | nil => rfl
  | cons character later ih =>
      rw [doubled_cons]
      by_cases quote : character = '"'
      · simp [quote, undoubled, ih]
      · simp [quote, undoubled, ih]

theorem bodyPattern_matches_iff {text : List Char} {captures : Captures} :
    bodyPattern.Matches text captures ↔
      (∃ content, text = doubled content) ∧ captures = [] := by
  constructor
  · apply Pattern.Matches.many_induction
    · exact ⟨⟨[], rfl⟩, rfl⟩
    · rintro _ _ _ _ oneRound ⟨⟨content, rfl⟩, rfl⟩
      rcases Pattern.matches_either_iff.mp oneRound with other | pair
      · obtain ⟨character, isOther, rfl, rfl⟩ :=
          Pattern.matches_one_iff.mp other
        have notQuote : character ≠ '"' := by
          simpa [CharacterClass.admits, ClassItem.admits] using isOther
        exact ⟨⟨character :: content,
          by rw [doubled_cons, if_neg notQuote]⟩, rfl⟩
      · obtain ⟨_, rfl, second⟩ :=
          Pattern.matches_literal_sequence_iff.mp pair
        obtain ⟨rfl, rfl⟩ := Pattern.matches_literal_iff.mp
          (Pattern.matches_sequence_singleton_iff.mp second)
        exact ⟨⟨'"' :: content, by rw [doubled_cons, if_pos rfl]⟩, rfl⟩
  · intro found
    obtain ⟨⟨content, rfl⟩, rfl⟩ := found
    induction content with
    | nil => exact .done
    | cons character later ih =>
        rw [doubled_cons]
        split
        · have pair : (sequence [Pattern.literal '"',
              Pattern.literal '"']).Matches ['"', '"'] [] :=
            .append (.one rfl) (.append (.one rfl) .empty)
          exact .again (.second pair) ih
        · rename_i notQuote
          have admitted : (CharacterClass.outside [.literal '"']).admits
              character = true := by
            simpa [CharacterClass.admits, ClassItem.admits] using notQuote
          exact .again (.first (.one admitted)) ih

theorem quotedPattern_matches_iff {number : Nat} {text : List Char}
    {captures : Captures} :
    (quotedPattern number).Matches text captures ↔
      ∃ content, text = '"' :: (doubled content ++ ['"']) ∧
        captures = [(number, doubled content)] := by
  constructor
  · intro found
    obtain ⟨_, rfl, behind⟩ :=
      Pattern.matches_literal_sequence_iff.mp found
    obtain ⟨body, _, _, _, isGroup, closing, rfl, rfl⟩ :=
      Pattern.matches_sequence_cons_iff.mp behind
    obtain ⟨_, isBody, rfl⟩ := Pattern.matches_group_iff.mp isGroup
    obtain ⟨⟨content, rfl⟩, rfl⟩ := bodyPattern_matches_iff.mp isBody
    obtain ⟨rfl, rfl⟩ := Pattern.matches_literal_iff.mp
      (Pattern.matches_sequence_singleton_iff.mp closing)
    exact ⟨content, rfl, rfl⟩
  · intro found
    obtain ⟨content, rfl, rfl⟩ := found
    have isBody := bodyPattern_matches_iff.mpr ⟨⟨content, rfl⟩, rfl⟩
    exact .append (.one rfl)
      (.append (.group isBody) (.append (.one rfl) .empty))

theorem plainPattern_matches_iff {number : Nat} {text : List Char}
    {captures : Captures} :
    (plainPattern number).Matches text captures ↔
      (∀ character ∈ text, character ≠ ',' ∧ character ≠ '"') ∧
        captures = [(number, text)] := by
  simp [plainPattern, Pattern.matches_group_iff,
    Pattern.matches_many_one_iff, CharacterClass.admits, ClassItem.admits]

/-- One of the two groups of a field holds the content. -/
inductive Holds (quoted plain : Nat) : Captures → String → Prop where
  | quoted (content : List Char) :
      Holds quoted plain [(quoted, doubled content)] (String.ofList content)
  | plain (text : List Char) :
      Holds quoted plain [(plain, text)] (String.ofList (trimmed text))

theorem ofCaptures_append {labelCaptures wordCaptures : Captures}
    {label word : String} (labelHeld : Holds 1 2 labelCaptures label)
    (wordHeld : Holds 3 4 wordCaptures word) :
    ofCaptures (labelCaptures ++ wordCaptures) = ⟨label, word⟩ := by
  cases labelHeld with
  | quoted content =>
      cases wordHeld with
      | quoted => simp [ofCaptures, captured, List.lookup_cons, undoubled_doubled]
      | plain => simp [ofCaptures, captured, List.lookup_cons, undoubled_doubled]
  | plain text =>
      cases wordHeld with
      | quoted => simp [ofCaptures, captured, List.lookup_cons, undoubled_doubled]
      | plain => simp [ofCaptures, captured, List.lookup_cons]

section Fields

variable {quoted plain : Nat} {text : List Char}

theorem writes_of_matches {captures : Captures}
    (found : (fieldPattern quoted plain).Matches text captures) :
    ∃ content, Holds quoted plain captures content ∧ Writes text content := by
  obtain ⟨field, isPadded, isField⟩ := Pattern.matches_padded_iff.mp found
  rcases Pattern.matches_either_iff.mp isField with isQuoted | isPlain
  · obtain ⟨content, rfl, rfl⟩ := quotedPattern_matches_iff.mp isQuoted
    obtain ⟨before, after, beforeBlank, afterBlank, rfl⟩ := isPadded
    have writes := Writes.quoted content beforeBlank afterBlank
    refine ⟨_, .quoted content, ?_⟩
    rw [List.cons_append, List.append_assoc]
    exact writes
  · obtain ⟨admitted, rfl⟩ := plainPattern_matches_iff.mp isPlain
    have visible : isBlank ',' = false ∧ isBlank '"' = false := by decide
    refine ⟨_, .plain field, ?_⟩
    -- Blank characters are plain, so they may stand in the field as well.
    rw [← isPadded.trimmed_eq_trimmed]
    apply Writes.plain
    intro character member
    constructor
    · rintro rfl
      exact (admitted _ (isPadded.mem visible.1 member)).1 rfl
    · rintro rfl
      exact (admitted _ (isPadded.mem visible.2 member)).2 rfl

theorem exists_matches_of_writes {content : String}
    (writes : Writes text content) (quoted plain : Nat) :
    ∃ captures, (fieldPattern quoted plain).Matches text captures ∧
      Holds quoted plain captures content := by
  simp only [fieldPattern, Pattern.matches_padded_iff]
  cases writes with
  | @quoted before after content beforeBlank afterBlank =>
      have isQuoted : (quotedPattern quoted).Matches
          ('"' :: (doubled content ++ ['"'])) [(quoted, doubled content)] :=
        quotedPattern_matches_iff.mpr ⟨content, rfl, rfl⟩
      refine ⟨_, ⟨_, ⟨before, after, beforeBlank, afterBlank, ?_⟩,
        .first isQuoted⟩, .quoted content⟩
      rw [List.cons_append, List.append_assoc]
      rfl
  | plain admitted =>
      have isPlain : (plainPattern plain).Matches text [(plain, text)] :=
        plainPattern_matches_iff.mpr ⟨admitted, rfl⟩
      exact ⟨_, ⟨text, Text.padded_self text, .second isPlain⟩, .plain text⟩

end Fields

theorem ignoredPattern_matches_iff {text : List Char} {captures : Captures} :
    ignoredPattern.Matches text captures ↔
      (Stops text ∧ '\n' ∉ text) ∧ captures = [] := by
  have anything : ∀ later : List Char,
      (∀ character ∈ later,
        (CharacterClass.outside [.literal '\n']).admits character = true) ↔
        '\n' ∉ later := by
    intro later
    simp [CharacterClass.admits, ClassItem.admits, List.forall_mem_ne']
  constructor
  · intro found
    rcases Pattern.matches_either_iff.mp found with further | nothing
    · obtain ⟨later, rfl, isLater⟩ :=
        Pattern.matches_literal_sequence_iff.mp further
      obtain ⟨single, rfl⟩ := Pattern.matches_many_one_iff.mp
        (Pattern.matches_sequence_singleton_iff.mp isLater)
      refine ⟨⟨Or.inr ⟨later, rfl⟩, ?_⟩, rfl⟩
      simpa using (anything later).mp single
    · obtain ⟨rfl, rfl⟩ := Pattern.matches_empty_iff.mp nothing
      exact ⟨⟨Or.inl rfl, List.not_mem_nil⟩, rfl⟩
  · intro found
    obtain ⟨⟨rfl | ⟨later, rfl⟩, single⟩, rfl⟩ := found
    · exact .second .empty
    · rw [List.mem_cons, not_or] at single
      have isLater := Pattern.matches_sequence_singleton_iff.mpr
        (Pattern.matches_many_one_iff.mpr
          ⟨(anything later).mpr single.2, rfl⟩)
      exact .first (isLater.behind_literal ',')

/-- The pattern and the grammar divide a line in the same ways. -/
theorem divides_iff_splits {line : String} {row : Row} :
    Divides line row ↔ Splits line row := by
  constructor
  · intro divides
    obtain ⟨captures, found, rfl⟩ := divides
    obtain ⟨label, _, labelCaptures, _, isLabel, behindLabel, divided, rfl⟩ :=
      Pattern.matches_sequence_cons_iff.mp found
    obtain ⟨_, rfl, behindComma⟩ :=
      Pattern.matches_literal_sequence_iff.mp behindLabel
    obtain ⟨word, ignored, wordCaptures, _, isWord, isIgnored, rfl, rfl⟩ :=
      Pattern.matches_sequence_cons_iff.mp behindComma
    obtain ⟨⟨stops, single⟩, rfl⟩ := ignoredPattern_matches_iff.mp
      (Pattern.matches_sequence_singleton_iff.mp isIgnored)
    obtain ⟨labelContent, labelHeld, writesLabel⟩ := writes_of_matches isLabel
    obtain ⟨wordContent, wordHeld, writesWord⟩ := writes_of_matches isWord
    rw [List.append_nil, ofCaptures_append labelHeld wordHeld]
    exact ⟨label, word, ignored, divided, writesLabel, writesWord, stops,
      single⟩
  · intro splits
    obtain ⟨label, word, ignored, divided, writesLabel, writesWord, stops,
      single⟩ := splits
    obtain ⟨labelCaptures, isLabel, labelHeld⟩ :=
      exists_matches_of_writes writesLabel 1 2
    obtain ⟨wordCaptures, isWord, wordHeld⟩ :=
      exists_matches_of_writes writesWord 3 4
    have isIgnored := Pattern.matches_sequence_singleton_iff.mpr
      (ignoredPattern_matches_iff.mpr ⟨⟨stops, single⟩, rfl⟩)
    have behindComma := Pattern.matches_sequence_cons_iff.mpr
      ⟨word, ignored, wordCaptures, [], isWord, isIgnored, rfl,
        (List.append_nil wordCaptures).symm⟩
    have behindLabel := behindComma.behind_literal ','
    exact ⟨labelCaptures ++ wordCaptures,
      Pattern.matches_sequence_cons_iff.mpr
        ⟨label, _, labelCaptures, wordCaptures, isLabel, behindLabel,
          divided, rfl⟩,
      ofCaptures_append labelHeld wordHeld⟩

/-! ## What is read was written -/

theorem quotedBody?_eq_some {later content rest : List Char}
    (found : quotedBody? later = some (content, rest)) :
    later = doubled content ++ '"' :: rest := by
  fun_induction quotedBody? later generalizing content rest with
  | case1 => cases found
  | case2 later ih =>
      obtain ⟨⟨body, behind⟩, isBody, same⟩ := Option.map_eq_some_iff.mp found
      cases same
      rw [ih isBody, doubled_cons]
      simp
  | case3 rest' notQuote =>
      cases found
      rfl
  | case4 character later notPair notQuote ih =>
      obtain ⟨⟨body, behind⟩, isBody, same⟩ := Option.map_eq_some_iff.mp found
      cases same
      have other : character ≠ '"' := notQuote
      rw [ih isBody, doubled_cons, if_neg other]
      rfl

theorem isPlain_iff {character : Char} :
    isPlain character = true ↔ character ≠ ',' ∧ character ≠ '"' := by
  simp [isPlain]

theorem writes_of_field? {characters rest : List Char} {content : String}
    (found : field? characters = some (content, rest)) :
    ∃ text, characters = text ++ rest ∧ Writes text content := by
  unfold field? at found
  split at found
  · rename_i later opens
    obtain ⟨⟨body, behind⟩, isBody, same⟩ := Option.map_eq_some_iff.mp found
    cases same
    obtain ⟨before, beforeBlank, isBefore⟩ := Text.exists_skipped characters
    obtain ⟨after, afterBlank, isAfter⟩ := Text.exists_skipped behind
    refine ⟨_, ?_, .quoted body beforeBlank afterBlank⟩
    rw [isBefore, opens, quotedBody?_eq_some isBody]
    conv_lhs => rw [isAfter]
    simp
  · cases found
    refine ⟨characters.takeWhile isPlain,
      List.takeWhile_append_dropWhile.symm, .plain ?_⟩
    intro character member
    exact isPlain_iff.mp (List.mem_takeWhile_imp member)

/-! ## What was written is read -/

theorem skipBlank_append {blank rest : List Char}
    (allBlank : ∀ character ∈ blank, isBlank character = true)
    (stops : Stops rest) : skipBlank (blank ++ rest) = rest := by
  have comma : isBlank ',' = false := by decide
  rw [skipBlank, List.dropWhile_append_of_pos allBlank]
  rcases stops with rfl | ⟨later, rfl⟩
  · rfl
  · simp [comma]

/-- Behind the closing quote there is no other one. -/
theorem head?_ne_quote {blank rest : List Char}
    (allBlank : ∀ character ∈ blank, isBlank character = true)
    (stops : Stops rest) : (blank ++ rest).head? ≠ some '"' := by
  have quote : isBlank '"' = false := by decide
  cases blank with
  | nil => rcases stops with rfl | ⟨later, rfl⟩ <;> simp
  | cons first others =>
      rw [List.cons_append, List.head?_cons]
      intro same
      have firstBlank := allBlank first List.mem_cons_self
      rw [Option.some.inj same, quote] at firstBlank
      cases firstBlank

theorem skipBlank_ne_quote {text rest later : List Char}
    (plain : ∀ character ∈ text, isPlain character = true)
    (stops : Stops rest) : skipBlank (text ++ rest) ≠ '"' :: later := by
  induction text with
  | nil =>
      have nothing := @skipBlank_append [] rest (by simp) stops
      rw [nothing]
      rcases stops with rfl | ⟨_, rfl⟩ <;> simp
  | cons first others ih =>
      obtain ⟨firstPlain, othersPlain⟩ := List.forall_mem_cons.mp plain
      rw [skipBlank, List.cons_append, List.dropWhile_cons]
      split
      · exact ih othersPlain
      · intro same
        exact (isPlain_iff.mp firstPlain).2 (List.cons.inj same).1

/-- A field that is written in front of a comma or nothing is read up to there. -/
theorem field?_of_writes {text rest : List Char} {content : String}
    (writes : Writes text content) (stops : Stops rest) :
    field? (text ++ rest) = some (content, rest) := by
  cases writes with
  | @quoted before after content beforeBlank afterBlank =>
      have quote : isBlank '"' = false := by decide
      have opens : skipBlank (before ++ '"' :: (doubled content ++ '"' :: after)
          ++ rest) = '"' :: (doubled content ++ '"' :: (after ++ rest)) := by
        rw [skipBlank, List.append_assoc,
          List.dropWhile_append_of_pos beforeBlank]
        simp [quote]
      have body := quotedBody?_doubled (head?_ne_quote afterBlank stops) content
      rw [field?, opens]
      simp [body, skipBlank_append afterBlank stops]
  | plain plain =>
      have allPlain : ∀ character ∈ text, isPlain character = true :=
        fun character member => isPlain_iff.mpr (plain character member)
      have restNotPlain : rest.takeWhile isPlain = [] ∧
          rest.dropWhile isPlain = rest := by
        have comma : isPlain ',' = false := by decide
        rcases stops with rfl | ⟨_, rfl⟩ <;> simp [comma]
      unfold field?
      split
      · rename_i opens
        exact absurd opens (skipBlank_ne_quote allPlain stops)
      · rw [List.takeWhile_append_of_pos allPlain,
          List.dropWhile_append_of_pos allPlain, restNotPlain.1,
          restNotPlain.2, List.append_nil]

theorem parse?_eq_some_iff_splits {line : String} {row : Row} :
    parse? line = some row ↔ Splits line row := by
  constructor
  · intro found
    unfold parse? at found
    split at found
    · rename_i label later labelFound
      obtain ⟨labelText, divided, writesLabel⟩ := writes_of_field? labelFound
      split at found
      · rename_i word wordFound
        cases found
        obtain ⟨wordText, rfl, writesWord⟩ := writes_of_field? wordFound
        exact ⟨labelText, wordText, [], divided, writesLabel, writesWord,
          Or.inl rfl, List.not_mem_nil⟩
      · rename_i word ignored wordFound
        split at found
        · cases found
        · rename_i single
          cases found
          obtain ⟨wordText, rfl, writesWord⟩ := writes_of_field? wordFound
          refine ⟨labelText, wordText, _, divided, writesLabel, writesWord,
            Or.inr ⟨ignored, rfl⟩, ?_⟩
          simpa using single
      · cases found
    · cases found
  · intro found
    obtain ⟨label, word, ignored, divided, writesLabel, writesWord, stops,
      single⟩ := found
    have labelFound := field?_of_writes writesLabel
      (Or.inr ⟨word ++ ignored, rfl⟩)
    have wordFound := field?_of_writes writesWord stops
    rw [parse?, divided, labelFound]
    rcases stops with rfl | ⟨later, rfl⟩
    · simp only [wordFound]
    · have fine : ¬ later.contains '\n' = true := by simpa using single
      simp only [wordFound, if_neg fine]

/-- A row is read exactly where the line matches and the groups hold it. -/
theorem parse?_eq_some_iff {line : String} {row : Row} :
    parse? line = some row ↔ Divides line row :=
  parse?_eq_some_iff_splits.trans divides_iff_splits.symm

theorem Divides.unique {line : String} {first second : Row}
    (isFirst : Divides line first) (isSecond : Divides line second) :
    first = second :=
  Option.some.inj ((parse?_eq_some_iff.mpr isFirst).symm.trans
    (parse?_eq_some_iff.mpr isSecond))

end Row

end Recognizer
