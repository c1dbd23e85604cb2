import Recognizer.Json.Token

/-!
# JSON values

A document is read from its tokens with an explicit stack of the arrays and
objects that are still open, so nesting may be as deep as the document likes.
Objects keep all their members in order, repeated keys included.

Values are written over several lines, two spaces deeper for every level, with
empty arrays and objects in one piece.
-/

namespace Recognizer.Json

/-- A JSON value. -/
inductive Value where
  | null
  | boolean (value : Bool)
  /-- A number as it is written. -/
  | number (digits : List UInt8)
  | string (literal : Literal)
  | array (items : List Value)
  | object (members : List (Literal × Value))

/-- An array or object that is still open, its parts newest first. -/
inductive Frame where
  | array (items : List Value)
  /-- An object whose member with the given key is being read. -/
  | object (members : List (Literal × Value)) (key : Literal)

/-- What has to come next. -/
inductive Awaiting where
  | value
  /-- A value, or the end of an array without items. -/
  | firstItem
  /-- A key, or the end of an object without members. -/
  | firstKey
  /-- A key, behind the given members. -/
  | key (members : List (Literal × Value))
  /-- The colon behind a key. -/
  | colon (members : List (Literal × Value)) (key : Literal)
  /-- A comma or an end, behind the given value. -/
  | separator (value : Value)

/-- The open arrays and objects, innermost first, and what comes next. -/
structure Assembly where
  frames : List Frame
  awaiting : Awaiting

namespace Assembly

/-- Nothing read yet. -/
def start : Assembly :=
  ⟨[], .value⟩

/-- Reads the first token of a value. -/
def readValue (frames : List Frame) : Token → Option Assembly
  | .null => some ⟨frames, .separator .null⟩
  | .boolean value => some ⟨frames, .separator (.boolean value)⟩
  | .number digits => some ⟨frames, .separator (.number digits)⟩
  | .string literal => some ⟨frames, .separator (.string literal)⟩
  | .openArray => some ⟨.array [] :: frames, .firstItem⟩
  | .openObject => some ⟨frames, .firstKey⟩
  | .closeArray | .closeObject | .comma | .colon => none

/-- Reads a token behind a value. -/
def readSeparator (frames : List Frame) (value : Value) :
    Token → Option Assembly
  | .comma =>
      match frames with
      | .array items :: outer => some ⟨.array (value :: items) :: outer, .value⟩
      | .object members key :: outer =>
          some ⟨outer, .key ((key, value) :: members)⟩
      | [] => none
  | .closeArray =>
      match frames with
      | .array items :: outer =>
          some ⟨outer, .separator (.array (value :: items).reverse)⟩
      | _ => none
  | .closeObject =>
      match frames with
      | .object members key :: outer =>
          some ⟨outer, .separator (.object ((key, value) :: members).reverse)⟩
      | _ => none
  | _ => none

/-- Reads one token. -/
def read (assembly : Assembly) (token : Token) : Option Assembly :=
  match assembly.awaiting, token with
  | .value, _ => readValue assembly.frames token
  | .firstItem, .closeArray =>
      match assembly.frames with
      | .array items :: outer =>
          some ⟨outer, .separator (.array items.reverse)⟩
      | _ => none
  | .firstItem, _ => readValue assembly.frames token
  | .firstKey, .closeObject =>
      some ⟨assembly.frames, .separator (.object [])⟩
  | .firstKey, .string key => some ⟨assembly.frames, .colon [] key⟩
  | .key members, .string key => some ⟨assembly.frames, .colon members key⟩
  | .colon members key, .colon =>
      some ⟨.object members key :: assembly.frames, .value⟩
  | .separator value, _ => readSeparator assembly.frames value token
  | _, _ => none

/-- The value, when everything that was opened is closed. -/
def finish? (assembly : Assembly) : Option Value :=
  match assembly with
  | ⟨[], .separator value⟩ => some value
  | _ => none

end Assembly

namespace Value

def ofTokens? (tokens : List Token) : Option Value :=
  (tokens.foldlM Assembly.read Assembly.start).bind Assembly.finish?

def ofBytes? (bytes : List UInt8) : Option Value :=
  (Token.ofBytes? bytes).bind ofTokens?

/-- A line end and the indentation of the next line. -/
def newline (depth : Nat) : List UInt8 :=
  0x0a :: List.replicate (2 * depth) 0x20

mutual

/-- A value as it is written at the given depth. -/
def write (depth : Nat) : Value → List UInt8
  | .null => Utf8.encode "null"
  | .boolean true => Utf8.encode "true"
  | .boolean false => Utf8.encode "false"
  | .number digits => digits
  | .string literal => literal.write
  | .array [] => Utf8.encode "[]"
  | .array (item :: items) =>
      Utf8.encode "[" ++ newline (depth + 1) ++ write (depth + 1) item
        ++ writeItems (depth + 1) items ++ newline depth ++ Utf8.encode "]"
  | .object [] => Utf8.encode "\x7b\x7d"
  | .object ((key, value) :: members) =>
      Utf8.encode "\x7b" ++ newline (depth + 1) ++ key.write
        ++ Utf8.encode ": " ++ write (depth + 1) value
        ++ writeMembers (depth + 1) members ++ newline depth
        ++ Utf8.encode "\x7d"

/-- Further items, each behind a comma and on its own line. -/
def writeItems (depth : Nat) : List Value → List UInt8
  | [] => []
  | item :: items =>
      Utf8.encode "," ++ newline depth ++ write depth item
        ++ writeItems depth items

/-- Further members, each behind a comma and on its own line. -/
def writeMembers (depth : Nat) : List (Literal × Value) → List UInt8
  | [] => []
  | (key, value) :: members =>
      Utf8.encode "," ++ newline depth ++ key.write ++ Utf8.encode ": "
        ++ write depth value ++ writeMembers depth members

end

end Value

end Recognizer.Json
