import Recognizer.Text.Blank

/-!
# Patterns of texts

A pattern says how a text is put together from characters, and which parts of it
are captured, as groups with numbers.  The meaning of a pattern is the relation
`Pattern.Matches`: all the ways in which a whole text can be read, each with what
it captures.  Which of several ways is preferred is left open.
-/

namespace Recognizer

/-- One character, or all blank ones. -/
inductive ClassItem where
  | literal (character : Char)
  | blank
deriving DecidableEq

def ClassItem.admits : ClassItem → Char → Bool
  | .literal expected, character => character == expected
  | .blank, character => Text.isBlank character

/-- The characters that are among some items, or those that are not. -/
inductive CharacterClass where
  | among (items : List ClassItem)
  | outside (items : List ClassItem)
deriving DecidableEq

def CharacterClass.admits : CharacterClass → Char → Bool
  | .among items, character => items.any (·.admits character)
  | .outside items, character => !items.any (·.admits character)

inductive Pattern where
  | empty
  | one (allowed : CharacterClass)
  | append (first later : Pattern)
  | either (first second : Pattern)
  | many (repeated : Pattern)
  | group (number : Nat) (inside : Pattern)
deriving DecidableEq

namespace Pattern

def literal (character : Char) : Pattern :=
  .one (.among [.literal character])

def blanks : Pattern :=
  .many (.one (.among [.blank]))

def atLeastOnce (repeated : Pattern) : Pattern :=
  .append repeated (.many repeated)

def optional (pattern : Pattern) : Pattern :=
  .either pattern .empty

/-- Patterns for consecutive parts of a text. -/
def sequence (parts : List Pattern) : Pattern :=
  parts.foldr .append .empty

/-- Blank characters may stand on both sides. -/
def padded (inside : Pattern) : Pattern :=
  sequence [blanks, inside, blanks]

/-- The groups that took part, with their numbers, in the order in which they
begin. -/
abbrev Captures := List (Nat × List Char)

/-- The text can be read as the pattern says, and these are its groups then. -/
inductive Matches : Pattern → List Char → Captures → Prop where
  | empty : Matches .empty [] []
  | one {allowed : CharacterClass} {character : Char} :
      allowed.admits character = true →
      Matches (.one allowed) [character] []
  | append {first later : Pattern} {begun rest : List Char}
      {captures others : Captures} :
      Matches first begun captures → Matches later rest others →
      Matches (.append first later) (begun ++ rest) (captures ++ others)
  | first {first second : Pattern} {text : List Char} {captures : Captures} :
      Matches first text captures →
      Matches (.either first second) text captures
  | second {first second : Pattern} {text : List Char} {captures : Captures} :
      Matches second text captures →
      Matches (.either first second) text captures
  | done {repeated : Pattern} : Matches (.many repeated) [] []
  | again {repeated : Pattern} {begun rest : List Char}
      {captures others : Captures} :
      Matches repeated begun captures → Matches (.many repeated) rest others →
      Matches (.many repeated) (begun ++ rest) (captures ++ others)
  | group {number : Nat} {inside : Pattern} {text : List Char}
      {captures : Captures} :
      Matches inside text captures →
      Matches (.group number inside) text ((number, text) :: captures)

end Pattern

end Recognizer
