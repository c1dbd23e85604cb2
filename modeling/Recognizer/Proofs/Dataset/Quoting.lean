import Recognizer.Dataset.Testing
import Recognizer.Proofs.Text.Lines

/-!
# Quoted test sets

A field that is quoted, with the quotes inside it written twice, is read back as
it was: a quote inside is always followed by another one, and the closing quote
never is.  A quoted row is no blank line and ends with a quote, so the reader of
lines takes nothing away from it either.  What a row holds is therefore read back
whatever its characters are, as long as they fit on one line.
-/

namespace Recognizer

namespace Row

/-- The characters with every quote written twice. -/
def doubled (characters : List Char) : List Char :=
  characters.flatMap fun character =>
    if character = '"' then ['"', '"'] else [character]

def quotedField (content : String) : List Char :=
  '"' :: doubled content.toList ++ ['"']

/-- The line of a row, with both fields quoted. -/
def quoted (row : Row) : String :=
  String.ofList (quotedField row.label ++ ',' :: quotedField row.word)

theorem doubled_cons (character : Char) (later : List Char) :
    doubled (character :: later) =
      (if character = '"' then ['"', '"'] else [character]) ++
        doubled later :=
  List.flatMap_cons

theorem mem_doubled {character : Char} {characters : List Char} :
    character ∈ doubled characters ↔ character ∈ characters := by
  rw [doubled, List.mem_flatMap]
  constructor
  · intro written
    obtain ⟨other, member, same⟩ := written
    split at same
    · rename_i quote
      simp only [List.mem_cons, List.not_mem_nil, or_false, or_self] at same
      rw [same, ← quote]
      exact member
    · exact List.mem_singleton.mp same ▸ member
  · intro member
    refine ⟨character, member, ?_⟩
    split
    · rename_i quote
      simp [quote]
    · exact List.mem_singleton_self character

/-! ## Reading a field -/

/-- The body of a quoted field ends at its closing quote, unless another quote
follows. -/
theorem quotedBody?_doubled {rest : List Char}
    (closed : rest.head? ≠ some '"') (content : List Char) :
    quotedBody? (doubled content ++ '"' :: rest) = some (content, rest) := by
  induction content with
  | nil =>
      cases rest with
      | nil => rfl
      | cons next rest =>
          have other : next ≠ '"' := by
            intro same
            exact closed (congrArg some same)
          simp [doubled, quotedBody?, other]
  | cons character later ih =>
      rw [doubled_cons]
      by_cases quote : character = '"'
      · simp [quote, quotedBody?, ih]
      · simp [quote, quotedBody?, ih]

theorem field?_quotedField (content : String) (rest : List Char)
    (closed : rest.head? ≠ some '"') :
    field? (quotedField content ++ rest) =
      some (content, Text.skipBlank rest) := by
  have opens : Text.skipBlank (quotedField content ++ rest) =
      '"' :: (doubled content.toList ++ '"' :: rest) := by
    have visible : Text.isBlank '"' = false := by decide
    simp [Text.skipBlank, quotedField, visible]
  rw [field?, opens]
  simp [quotedBody?_doubled closed]

theorem parse?_quoted (row : Row) : parse? row.quoted = some row := by
  have labelField := field?_quotedField row.label
    (',' :: quotedField row.word) (by simp)
  have wordField := field?_quotedField row.word [] (by simp)
  have comma : Text.skipBlank (',' :: quotedField row.word) =
      ',' :: quotedField row.word := by
    have visible : Text.isBlank ',' = false := by decide
    simp [Text.skipBlank, visible]
  rw [comma] at labelField
  rw [List.append_nil] at wordField
  simp [parse?, quoted, labelField, wordField, Text.skipBlank]

/-! ## Lines of quoted rows -/

theorem mem_quotedField {character : Char} {content : String} :
    character ∈ quotedField content ↔
      character = '"' ∨ character ∈ content.toList := by
  simp only [quotedField, List.cons_append, List.mem_cons, List.mem_append,
    mem_doubled, List.not_mem_nil, or_false]
  tauto

theorem isPlainLine_quoted {row : Row} (labelFits : '\n' ∉ row.label.toList)
    (wordFits : '\n' ∉ row.word.toList) : Text.IsPlainLine row.quoted where
  no_lineFeed := by
    simp [quoted, mem_quotedField, labelFits, wordFits]
  no_lastReturn := by
    simp [quoted, quotedField, List.getLast?_cons, List.getLast?_append]

theorem not_isBlankLine_quoted (row : Row) :
    TestSet.isBlankLine row.quoted = false := by
  have quote : '"' ∈ row.quoted.toList := by
    simp [quoted, mem_quotedField]
  apply List.all_eq_false.mpr
  exact ⟨'"', quote, by decide⟩

end Row

namespace TestSet

theorem ofLine_quoted (positiveLabel : String) (row : Row) :
    ofLine positiveLabel row.quoted =
      .ok ⟨row.label == positiveLabel, row.word⟩ := by
  simp only [ofLine, Row.parse?_quoted]

theorem ofLines_quoted (positiveLabel : String) (rows : List Row) :
    ofLines positiveLabel (rows.map Row.quoted) =
      .ok (rows.map fun row => ⟨row.label == positiveLabel, row.word⟩) := by
  induction rows with
  | nil => rfl
  | cons row later ih =>
      have kept : ((row :: later).map Row.quoted).filter (!isBlankLine ·) =
          row.quoted :: (later.map Row.quoted).filter (!isBlankLine ·) := by
        simp [Row.not_isBlankLine_quoted]
      rw [ofLines] at ih ⊢
      rw [kept, List.mapM_cons, ofLine_quoted, ih]
      rfl

/-- What is written with quoted fields is read back, one entry for every row. -/
theorem read_quoted {header text : String} {rows : List Row}
    (written : Text.Terminated (header :: rows.map Row.quoted) text)
    (headerFits : '\n' ∉ header.toList)
    (rowsFit : ∀ row ∈ rows,
      '\n' ∉ row.label.toList ∧ '\n' ∉ row.word.toList)
    (positiveLabel : String) :
    TestSet.read positiveLabel (.ofBytes (Utf8.encode text)) =
      .ok (rows.map fun row => ⟨row.label == positiveLabel, row.word⟩) := by
  obtain ⟨later, shown, rest, _, advanced⟩ :=
    LineReader.advance_terminated (.start (.ofBytes (Utf8.encode text)))
      written headerFits rfl
  have plain : ∀ line ∈ rows.map Row.quoted, Text.IsPlainLine line := by
    intro line member
    obtain ⟨row, rowMember, rfl⟩ := List.mem_map.mp member
    obtain ⟨labelFits, wordFits⟩ := rowsFit row rowMember
    exact Row.isPlainLine_quoted labelFits wordFits
  -- The header is gone, and the rows are all that is left to read.
  obtain ⟨last, collected, fault⟩ :=
    LineReader.collect_terminated
      (LineReader.start (.ofBytes (Utf8.encode text))).advance rest plain
      (by rw [advanced]; rfl) (by rw [advanced]; rfl)
  have noFault : last.fault = none := by
    rw [fault, advanced]
    rfl
  simp only [TestSet.read, collected, ofLines_quoted, noFault]

def oddRows : List Row :=
  [⟨"yes", " ,\"\t"⟩, ⟨"\"yes", ""⟩, ⟨",\r", "x\r"⟩]

/-- The header and the second row are ended by a carriage return and a line
feed, the others by a line feed alone. -/
def oddText : String :=
  "a \"header\r" ++ "\r\n" ++
    ("\"yes\",\" ,\"\"\t\"" ++ "\n" ++
      ("\"\"\"yes\",\"\"" ++ "\r\n" ++
        ("\",\r\",\"x\r\"" ++ "\n" ++ "")))

theorem oddRows_read :
    TestSet.read "yes" (.ofBytes (Utf8.encode oddText)) =
      .ok [⟨true, " ,\"\t"⟩, ⟨false, ""⟩, ⟨false, "x\r"⟩] := by
  have written : Text.Terminated
      ("a \"header\r" :: oddRows.map Row.quoted) oddText :=
    .carriageReturn _ (.lineFeed _ (.carriageReturn _ (.lineFeed _ .nil)))
  exact read_quoted written (by decide) (by decide) "yes"

end TestSet

end Recognizer
