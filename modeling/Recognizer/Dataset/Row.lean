import Recognizer.Text.Pattern

/-!
# Rows of a test set

A row has two fields, divided by a comma; further fields are ignored.  A field
is quoted or plain.  Blank characters around a quoted field do not belong to
it, commas inside do, and a quote inside is written twice.  A plain field has no
quotes and is trimmed.
-/

namespace Recognizer

/-- The first two fields of a row. -/
structure Row where
  label : String
  word : String
deriving DecidableEq

namespace Row

open Pattern (Captures literal optional padded sequence)

/-! ## The pattern -/

/-- What is between the quotes of a quoted field: characters other than quotes,
and quotes in pairs. -/
def bodyPattern : Pattern :=
  .many <| .either (.one (.outside [.literal '"']))
    (sequence [literal '"', literal '"'])

def quotedPattern (number : Nat) : Pattern :=
  sequence [literal '"', .group number bodyPattern, literal '"']

def plainPattern (number : Nat) : Pattern :=
  .group number (.many (.one (.outside [.literal ',', .literal '"'])))

/-- A field with blank characters around it, as one of two groups. -/
def fieldPattern (quoted plain : Nat) : Pattern :=
  padded (.either (quotedPattern quoted) (plainPattern plain))

/-- What may follow the fields: a comma and anything on the same line. -/
def ignoredPattern : Pattern :=
  optional <|
    sequence [literal ',', .many (.one (.outside [.literal '\n']))]

/-- Two fields, with the groups 1 and 2 or 3 and 4, and what is ignored:
`^\s*(?:"((?:[^"]|"")*)"|([^,"]*))\s*,\s*(?:"((?:[^"]|"")*)"|([^,"]*))\s*(?:,.*)?$`.
-/
def pattern : Pattern :=
  sequence
    [fieldPattern 1 2, literal ',', fieldPattern 3 4, ignoredPattern]

/-- The characters with every pair of quotes made one. -/
def undoubled : List Char → List Char
  | [] => []
  | '"' :: '"' :: later => '"' :: undoubled later
  | character :: later => character :: undoubled later

/-- The content of the quoted group, or the plain one trimmed. -/
def captured (captures : Captures) (quoted plain : Nat) : String :=
  match captures.lookup quoted with
  | some content => String.ofList (undoubled content)
  | none => String.ofList (Text.trimmed ((captures.lookup plain).getD []))

def ofCaptures (captures : Captures) : Row where
  label := captured captures 1 2
  word := captured captures 3 4

/-! ## The reader -/

/-- The content of a quoted field behind its opening quote, and what follows
its closing quote. -/
def quotedBody? : List Char → Option (List Char × List Char)
  | [] => none
  | '"' :: '"' :: later =>
      (quotedBody? later).map fun (content, rest) => ('"' :: content, rest)
  | '"' :: rest => some ([], rest)
  | character :: later =>
      (quotedBody? later).map fun (content, rest) =>
        (character :: content, rest)

/-- Whether a character may stand in a plain field. -/
def isPlain (character : Char) : Bool :=
  character != ',' && character != '"'

/-- The field at the beginning, and what follows it. -/
def field? (characters : List Char) : Option (String × List Char) :=
  match Text.skipBlank characters with
  | '"' :: later =>
      (quotedBody? later).map fun (content, rest) =>
        (String.ofList content, Text.skipBlank rest)
  | _ =>
      some (String.ofList (Text.trimmed (characters.takeWhile isPlain)),
        characters.dropWhile isPlain)

/-- The row of a line, read from the left in one pass. -/
def parse? (line : String) : Option Row :=
  match field? line.toList with
  | some (label, ',' :: later) =>
      match field? later with
      | some (word, []) => some ⟨label, word⟩
      | some (word, ',' :: ignored) =>
          if ignored.contains '\n' then none else some ⟨label, word⟩
      | _ => none
  | _ => none

end Row

end Recognizer
