import Recognizer.Dataset.Training
import Recognizer.Proofs.Text.Collecting

/-!
# Reading a training set

A line that is no text is the first thing that is reported.  A failure of the source
is found behind all of its lines, so it is reported only where they all are texts.
A training set that can be read takes its words from the lines in their order.

Lines are checked one by one.  Since no character has the byte of a line feed in it
but the line feed itself, they are all well formed when the bytes are as a whole.
-/

namespace Recognizer

namespace TrainingSet

/-- Whether the word of a line is a positive example. -/
def isMarked (line : String) : Bool :=
  decide ('+' ∈ line.toList)

/-- What is left of a line without tabs and plus signs. -/
def wordOf (line : String) : String :=
  String.ofList (line.toList.filter fun character =>
    character != '+' && character != '\t')

/-- The words of the lines that have one. -/
def wordsOf (lines : List String) : List String :=
  (lines.map wordOf).filter (· != "")

/-! ## The word of a line -/

theorem plus_mem_withoutTabs_iff {line : String} :
    '+' ∈ withoutTabs line ↔ isMarked line = true := by
  simp [withoutTabs, isMarked]

theorem nonEmpty?_toList (word : String) :
    nonEmpty? word.toList = if word != "" then some word else none := by
  by_cases empty : word = ""
  · simp [nonEmpty?, empty]
  · simp [nonEmpty?, empty]

theorem positiveWord?_eq (line : String) :
    positiveWord? line =
      if isMarked line && wordOf line != "" then some (wordOf line)
      else none := by
  have left : (withoutTabs line).filter (· != '+') = (wordOf line).toList := by
    rw [withoutTabs, List.filter_filter, wordOf, String.toList_ofList]
  simp only [positiveWord?, left, nonEmpty?_toList, plus_mem_withoutTabs_iff]
  cases isMarked line <;> simp

theorem negativeWord?_eq (line : String) :
    negativeWord? line =
      if !isMarked line && wordOf line != "" then some (wordOf line)
      else none := by
  simp only [negativeWord?, plus_mem_withoutTabs_iff]
  cases marked : isMarked line with
  | true => simp
  | false =>
      have left : withoutTabs line = (wordOf line).toList := by
        rw [withoutTabs, wordOf, String.toList_ofList]
        apply List.filter_congr
        intro character member
        have other : character ≠ '+' := by
          rintro rfl
          exact of_decide_eq_false marked member
        simp [other]
      simp [left, nonEmpty?_toList]

theorem filterMap_eq_wordsOf {word? : String → Option String}
    {chosen : String → Bool}
    (found : ∀ line, word? line =
      if chosen line && wordOf line != "" then some (wordOf line) else none)
    (lines : List String) :
    lines.filterMap word? = wordsOf (lines.filter chosen) := by
  induction lines with
  | nil => rfl
  | cons line later ih =>
      rw [List.filterMap_cons, found line, ih]
      unfold wordsOf
      cases isChosen : chosen line with
      | false => simp [isChosen]
      | true =>
          cases someLeft : wordOf line != "" with
          | false => simp [isChosen, someLeft]
          | true => simp [isChosen, someLeft]

theorem ofLines_eq (lines : List String) :
    ofLines lines =
      ⟨wordsOf (lines.filter isMarked), wordsOf (lines.filter (!isMarked ·))⟩ := by
  rw [ofLines, filterMap_eq_wordsOf positiveWord?_eq,
    filterMap_eq_wordsOf negativeWord?_eq]

/-! ## Reading -/

theorem read_eq_upToFault (source : ByteSource) :
    TrainingSet.read source =
      match (upToFault source.readings).2 with
      | some fault => .error fault
      | none => .ok (ofLines (upToFault source.readings).1) := by
  obtain ⟨last, collected, fault⟩ :=
    @LineReader.collect_readings (.start source) rfl rfl
  simp only [TrainingSet.read, collected, fault]
  rfl

/-- A source is read as a training set unless one of its lines is no text or it
fails.  Without a failure the bytes have to be a text as a whole. -/
theorem read_lines :
    (∀ source : ByteSource, TrainingSet.read source =
      if ∃ line ∈ source.lines, ¬ Utf8.IsText line then .error .invalidText
      else if source.fails then .error .unreadable
      else .ok
        { positive := wordsOf (source.texts.filter isMarked)
          negative := wordsOf (source.texts.filter (!isMarked ·)) }) ∧
    ∀ bytes : List UInt8,
      (∃ set, TrainingSet.read (.ofBytes bytes) = .ok set) ↔
        Utf8.IsText bytes := by
  have outcome : ∀ source : ByteSource, TrainingSet.read source =
      if ∃ line ∈ source.lines, ¬ Utf8.IsText line then .error .invalidText
      else if source.fails then .error .unreadable
      else .ok
        { positive := wordsOf (source.texts.filter isMarked)
          negative := wordsOf (source.texts.filter (!isMarked ·)) } := by
    intro source
    rw [read_eq_upToFault]
    by_cases noText : ∃ line ∈ source.lines, ¬ Utf8.IsText line
    · rw [if_pos noText, ByteSource.fault_of_not_isText noText]
    · have allTexts : ∀ line ∈ source.lines, Utf8.IsText line := by
        simpa using noText
      rw [if_neg noText, ByteSource.readings_of_isText allTexts,
        upToFault_append_ok, ofLines_eq]
      cases source.fails with
      | true => rfl
      | false => simp [upToFault]
  refine ⟨outcome, ?_⟩
  intro bytes
  rw [outcome, ByteSource.isText_iff_lines]
  by_cases noText : ∃ line ∈ (ByteSource.ofBytes bytes).lines,
      ¬ Utf8.IsText line
  · rw [if_pos noText]
    simpa using noText
  · rw [if_neg noText, if_neg (by simp [ByteSource.ofBytes])]
    simpa using noText

end TrainingSet

end Recognizer
