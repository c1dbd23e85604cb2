import Recognizer.Text.Lines

/-!
# Training sets

A training set has one word per line.  Tabs are dropped.  A line with a plus
sign gives a positive word, its plus signs removed, and any other line a
negative one; a line of which nothing is left gives none.
-/

namespace Recognizer

/-- The positive and negative example words, in the order of their lines. -/
structure TrainingSet where
  positive : List String
  negative : List String
deriving DecidableEq

namespace TrainingSet

/-- The characters of a line that are not tabs. -/
def withoutTabs (line : String) : List Char :=
  line.toList.filter (· != '\t')

/-- A word, unless it is empty. -/
def nonEmpty? (word : List Char) : Option String :=
  if word.isEmpty then none else some (String.ofList word)

/-- The positive word of a line. -/
def positiveWord? (line : String) : Option String :=
  let word := withoutTabs line
  if '+' ∈ word then nonEmpty? (word.filter (· != '+')) else none

/-- The negative word of a line. -/
def negativeWord? (line : String) : Option String :=
  let word := withoutTabs line
  if '+' ∈ word then none else nonEmpty? word

def ofLines (lines : List String) : TrainingSet :=
  ⟨lines.filterMap positiveWord?, lines.filterMap negativeWord?⟩

/-- Reads a training set. -/
def read (source : ByteSource) : Except ReadFault TrainingSet :=
  let (lines, reader) := (LineReader.start source).collect
  match reader.fault with
  | some fault => .error fault
  | none => .ok (ofLines lines)

end TrainingSet

end Recognizer
