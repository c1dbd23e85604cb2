import Recognizer.Json.Literal

/-!
# Tokens of JSON

The bytes of a document are read one at a time.  Between tokens there may be
spaces, tabs, line feeds and carriage returns, and nothing else.
-/

namespace Recognizer.Json

/-- A token of a JSON document. -/
inductive Token where
  | openArray
  | closeArray
  | openObject
  | closeObject
  | comma
  | colon
  | null
  | boolean (value : Bool)
  /-- A number as it is written. -/
  | number (digits : List UInt8)
  | string (literal : Literal)
deriving DecidableEq

/-- How far a number has been read. -/
inductive NumberPhase where
  | minus
  | zero
  | integer
  | point
  | fraction
  | exponent
  | exponentSign
  | exponentDigits
deriving DecidableEq

namespace NumberPhase

/-- The phase after one more byte, if the number goes on with it. -/
def next? (phase : NumberPhase) (byte : UInt8) : Option NumberPhase :=
  let character := Char.ofUInt8 byte
  match phase with
  | .minus =>
      if character = '0' then some .zero
      else if character.isDigit then some .integer
      else none
  | .zero => wholeEnd? character
  | .integer =>
      if character.isDigit then some .integer else wholeEnd? character
  | .point => if character.isDigit then some .fraction else none
  | .fraction =>
      if character.isDigit then some .fraction else exponentStart? character
  | .exponent =>
      if character = '+' || character = '-' then some .exponentSign
      else if character.isDigit then some .exponentDigits
      else none
  | .exponentSign | .exponentDigits =>
      if character.isDigit then some .exponentDigits else none
where
  /-- An exponent may follow a whole number and a fraction. -/
  exponentStart? (character : Char) : Option NumberPhase :=
    if character = 'e' || character = 'E' then some .exponent else none
  /-- A fraction may follow a whole number, and so may an exponent. -/
  wholeEnd? (character : Char) : Option NumberPhase :=
    if character = '.' then some .point else exponentStart? character

def isComplete : NumberPhase → Bool
  | .zero | .integer | .fraction | .exponentDigits => true
  | .minus | .point | .exponent | .exponentSign => false

end NumberPhase

/-- Where the reader stands between two bytes. -/
inductive LexerMode where
  | outside
  /-- In a keyword, with the bytes that are still missing. -/
  | keyword (missing : List UInt8) (token : Token)
  /-- In a number, its digits newest first. -/
  | number (phase : NumberPhase) (digits : List UInt8)
  /-- In a string, its pieces newest first. -/
  | string (pieces : Literal)
  /-- After a backslash in a string. -/
  | escape (pieces : Literal)
  /-- In a four digit escape, with the number of digits still missing and the
  value so far. -/
  | unit (pieces : Literal) (missing : Nat) (value : Nat)
deriving DecidableEq

/-- The tokens read so far, newest first, and the mode. -/
structure Lexer where
  tokens : List Token
  mode : LexerMode
deriving DecidableEq

/-- The value of a hexadecimal digit in either case. -/
def hexValue? (character : Char) : Option Nat :=
  if '0' ≤ character ∧ character ≤ '9' then
    some (character.toNat - '0'.toNat)
  else if 'a' ≤ character ∧ character ≤ 'f' then
    some (character.toNat - 'a'.toNat + 10)
  else if 'A' ≤ character ∧ character ≤ 'F' then
    some (character.toNat - 'A'.toNat + 10)
  else
    none

namespace Lexer

/-- The reader before the first byte. -/
def start : Lexer :=
  ⟨[], .outside⟩

/-- Completes a token. -/
def emit (lexer : Lexer) (token : Token) : Lexer :=
  ⟨token :: lexer.tokens, .outside⟩

/-- Changes the mode. -/
def enter (lexer : Lexer) (mode : LexerMode) : Lexer :=
  { lexer with mode := mode }

/-- Reads a byte between tokens. -/
def readOutside (lexer : Lexer) (byte : UInt8) : Option Lexer :=
  match Char.ofUInt8 byte with
  | ' ' | '\t' | '\n' | '\r' => some (lexer.enter .outside)
  | '[' => some (lexer.emit .openArray)
  | ']' => some (lexer.emit .closeArray)
  | '\x7b' => some (lexer.emit .openObject)
  | '\x7d' => some (lexer.emit .closeObject)
  | ',' => some (lexer.emit .comma)
  | ':' => some (lexer.emit .colon)
  | '"' => some (lexer.enter (.string []))
  | 'n' => some (lexer.enter (.keyword (Utf8.encode "ull") .null))
  | 't' => some (lexer.enter (.keyword (Utf8.encode "rue") (.boolean true)))
  | 'f' => some (lexer.enter (.keyword (Utf8.encode "alse") (.boolean false)))
  | '-' => some (lexer.enter (.number .minus [byte]))
  | '0' => some (lexer.enter (.number .zero [byte]))
  | character =>
      if character.isDigit then some (lexer.enter (.number .integer [byte]))
      else none

/-- Reads a byte of a string.  Control characters have to be escaped. -/
def readString (lexer : Lexer) (pieces : Literal) (byte : UInt8) :
    Option Lexer :=
  if byte < 0x20 then none
  else match Char.ofUInt8 byte with
    | '"' => some (lexer.emit (.string pieces.reverse))
    | '\\' => some (lexer.enter (.escape pieces))
    | _ => some (lexer.enter (.string (.byte byte :: pieces)))

/-- Reads the byte after a backslash. -/
def readEscape (lexer : Lexer) (pieces : Literal) (byte : UInt8) :
    Option Lexer :=
  let push (value : UInt8) := some (lexer.enter (.string (.byte value :: pieces)))
  match Char.ofUInt8 byte with
  | '"' | '\\' | '/' => push byte
  | 'b' => push 0x08
  | 'f' => push 0x0c
  | 'n' => push 0x0a
  | 'r' => push 0x0d
  | 't' => push 0x09
  | 'u' => some (lexer.enter (.unit pieces 4 0))
  | _ => none

/-- Reads a digit of a four digit escape. -/
def readUnit (lexer : Lexer) (pieces : Literal) (missing value : Nat)
    (byte : UInt8) : Option Lexer :=
  match hexValue? (Char.ofUInt8 byte) with
  | none => none
  | some digit =>
      let value := value * 0x10 + digit
      if missing ≤ 1 then
        some (lexer.enter (.string (Literal.pushUnit pieces value)))
      else
        some (lexer.enter (.unit pieces (missing - 1) value))

/-- Reads a byte of a keyword. -/
def readKeyword (lexer : Lexer) (missing : List UInt8) (token : Token)
    (byte : UInt8) : Option Lexer :=
  match missing with
  | [] => none
  | [last] => if byte = last then some (lexer.emit token) else none
  | next :: later =>
      if byte = next then some (lexer.enter (.keyword later token)) else none

/-- Reads one byte. -/
def read (lexer : Lexer) (byte : UInt8) : Option Lexer :=
  match lexer.mode with
  | .outside => lexer.readOutside byte
  | .keyword missing token => lexer.readKeyword missing token byte
  | .number phase digits =>
      match phase.next? byte with
      | some next => some (lexer.enter (.number next (byte :: digits)))
      | none =>
          if phase.isComplete then
            (lexer.emit (.number digits.reverse)).readOutside byte
          else
            none
  | .string pieces => lexer.readString pieces byte
  | .escape pieces => lexer.readEscape pieces byte
  | .unit pieces missing value => lexer.readUnit pieces missing value byte

/-- The tokens at the end of the document. -/
def finish? (lexer : Lexer) : Option (List Token) :=
  match lexer.mode with
  | .outside => some lexer.tokens.reverse
  | .number phase digits =>
      if phase.isComplete then
        some (lexer.emit (.number digits.reverse)).tokens.reverse
      else
        none
  | _ => none

end Lexer

def Token.ofBytes? (bytes : List UInt8) : Option (List Token) :=
  (bytes.foldlM Lexer.read Lexer.start).bind Lexer.finish?

end Recognizer.Json
