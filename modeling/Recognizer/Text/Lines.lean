import Recognizer.Text.Utf8

/-!
# Reading lines

A byte source is read line by line.  A line ends with a line feed, which is
dropped together with one carriage return before it; an unterminated rest is
the last line.  A line that is not UTF-8 is read to its end but not counted, and
ends the lines.  Where the source fails instead of ending, the rest that had
been read by then is lost.

Once the lines have ended no line is shown any more.  Advancing still reads on
and still counts, and a fault that has not been taken gives way to a later one.
-/

namespace Recognizer

/-- Why bytes could not be read as lines. -/
inductive ReadFault where
  /-- The bytes of a line are not UTF-8. -/
  | invalidText
  /-- The source failed. -/
  | unreadable
  /-- There is no such source. -/
  | missing
deriving DecidableEq

def ReadFault.message : ReadFault → String
  | .invalidText => "A line is not valid UTF-8"
  | .unreadable => "The source cannot be read to its end"
  | .missing => "There is no such source"

/-- The bytes that can be read, and whether reading fails behind them instead
of reporting the end. -/
structure ByteSource where
  bytes : List UInt8
  fails : Bool
deriving DecidableEq

/-- A source that ends behind its bytes. -/
def ByteSource.ofBytes (bytes : List UInt8) : ByteSource :=
  ⟨bytes, false⟩

/-- A position between two lines of a source. -/
structure LineReader where
  /-- What has not been read yet. -/
  source : ByteSource
  /-- The line read last, without its end. -/
  current : String
  /-- The number of lines read. -/
  lineNumber : Nat
  /-- The last fault, unless it was taken. -/
  fault : Option ReadFault
  ended : Bool
deriving DecidableEq

namespace LineReader

/-- The byte that ends a line. -/
def lineFeed : UInt8 := 0x0a

/-- The byte that may stand before a line feed. -/
def carriageReturn : UInt8 := 0x0d

/-- Before the first line. -/
def start (source : ByteSource) : LineReader :=
  ⟨source, "", 0, none, false⟩

/-- Ends the lines with a fault, with the given bytes left unread. -/
def stop (reader : LineReader) (fault : ReadFault) (unread : List UInt8) :
    LineReader :=
  { reader with
    source := { reader.source with bytes := unread }
    fault := some fault
    ended := true }

/-- Takes the bytes of a line, with the given bytes left unread. -/
def receive (reader : LineReader) (line unread : List UInt8) : LineReader :=
  match Utf8.decode? line with
  | none => reader.stop .invalidText unread
  | some text =>
      { reader with
        source := { reader.source with bytes := unread }
        current := text
        lineNumber := reader.lineNumber + 1 }

/-- A terminated line without the carriage return at its end. -/
def dropReturn (line : List UInt8) : List UInt8 :=
  if line.getLast? = some carriageReturn then line.dropLast else line

/-- Reads the next line. -/
def advance (reader : LineReader) : LineReader :=
  let bytes := reader.source.bytes
  let line := bytes.takeWhile (· != lineFeed)
  match bytes.dropWhile (· != lineFeed) with
  | _ :: unread => reader.receive (dropReturn line) unread
  | [] =>
      if reader.source.fails then reader.stop .unreadable []
      else if line.isEmpty then { reader with ended := true }
      else reader.receive line []

/-- The line read last, until the lines have ended. -/
def get? (reader : LineReader) : Option String :=
  if reader.ended then none else some reader.current

/-- The last fault, which is taken away. -/
def takeFault (reader : LineReader) : Option ReadFault × LineReader :=
  (reader.fault, { reader with fault := none })

/-- Advances until there is no line. -/
def collectFrom : Nat → LineReader → List String × LineReader
  | 0, reader => ([], reader)
  | fuel + 1, reader =>
      let next := reader.advance
      match next.get? with
      | none => ([], next)
      | some line =>
          let (lines, last) := collectFrom fuel next
          (line :: lines, last)

/-- The lines that are left, and the reader behind them.  Every line takes at
least one byte, which bounds the reading. -/
def collect (reader : LineReader) : List String × LineReader :=
  collectFrom (reader.source.bytes.length + 1) reader

end LineReader

end Recognizer
