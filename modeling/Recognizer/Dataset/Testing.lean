import Recognizer.Dataset.Row
import Recognizer.Text.Lines

/-!
# Test sets

A test set has a header and then one labelled word per row; blank lines are
skipped.  A malformed row is reported when it is reached, so it comes before
every fault of reading behind it.
-/

namespace Recognizer

/-- Why no test set could be read. -/
inductive TestSetFault where
  | invalidRow (line : String)
  | reading (fault : ReadFault)
deriving DecidableEq

def TestSetFault.message : TestSetFault → String
  | .invalidRow line => "Invalid row " ++ line ++ ", expected <label>,<word>"
  | .reading fault => fault.message

/-- A word of a test set, and whether it should be accepted. -/
structure LabeledWord where
  positive : Bool
  word : String
deriving DecidableEq

namespace TestSet

/-- The label of positive rows when no other is asked for. -/
def defaultPositiveLabel : String :=
  "amyloid"

def isBlankLine (line : String) : Bool :=
  line.toList.all Text.isBlank

/-- The labelled word of a line. -/
def ofLine (positiveLabel line : String) :
    Except TestSetFault LabeledWord :=
  match Row.parse? line with
  | none => .error (.invalidRow line)
  | some row => .ok ⟨row.label == positiveLabel, row.word⟩

/-- The labelled words of the lines behind the header. -/
def ofLines (positiveLabel : String) (lines : List String) :
    Except TestSetFault (List LabeledWord) :=
  (lines.filter (!isBlankLine ·)).mapM (ofLine positiveLabel)

/-- Reads a test set. -/
def read (positiveLabel : String) (source : ByteSource) :
    Except TestSetFault (List LabeledWord) :=
  let (lines, reader) := (LineReader.start source).advance.collect
  match ofLines positiveLabel lines, reader.fault with
  | .error fault, _ => .error fault
  | .ok _, some fault => .error (.reading fault)
  | .ok words, none => .ok words

end TestSet

end Recognizer
