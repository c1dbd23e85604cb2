import Recognizer.Text.Utf8

/-!
# String literals

A string literal is kept as the bytes that its characters and escapes stand
for.  It may fail to be a text, because its bytes are not UTF-8 or because an
escape gives one half of a surrogate pair without the other; this matters only
where the literal is used, so it is decided by `text?` and not while reading.
-/

namespace Recognizer.Json

/-- A part of the content of a literal. -/
inductive Piece where
  | byte (value : UInt8)
  /-- A surrogate code unit whose other half is missing. -/
  | surrogate (unit : Nat)
deriving DecidableEq

def Piece.byte? : Piece → Option UInt8
  | .byte value => some value
  | .surrogate _ => none

/-- The content of a string literal. -/
abbrev Literal := List Piece

namespace Literal

def ofText (text : String) : Literal :=
  (Utf8.encode text).map .byte

def text? (literal : Literal) : Option String :=
  if literal.all (fun piece => piece.byte?.isSome) then
    Utf8.decode? (literal.filterMap Piece.byte?)
  else
    none

/-- Whether a code unit is the first half of a surrogate pair. -/
def isHighSurrogate (unit : Nat) : Bool :=
  0xD800 ≤ unit && unit < 0xDC00

/-- Whether a code unit is the second half of a surrogate pair. -/
def isLowSurrogate (unit : Nat) : Bool :=
  0xDC00 ≤ unit && unit < 0xE000

/-- The character that a surrogate pair stands for. -/
def pairedCharacter (high low : Nat) : Char :=
  Char.ofNat (0x10000 + (high - 0xD800) * 0x400 + (low - 0xDC00))

/-- Adds the UTF-8 bytes of a character to a literal held newest piece
first. -/
def pushCharacter (newestFirst : Literal) (character : Char) : Literal :=
  (Utf8.encodeChar character).foldl (fun pieces byte => .byte byte :: pieces)
    newestFirst

/-- Adds an escaped code unit to a literal held newest piece first.  A second
half joins the first half right before it. -/
def pushUnit (newestFirst : Literal) (unit : Nat) : Literal :=
  if isHighSurrogate unit then
    .surrogate unit :: newestFirst
  else if isLowSurrogate unit then
    match newestFirst with
    | .surrogate high :: earlier =>
        if isHighSurrogate high then
          pushCharacter earlier (pairedCharacter high unit)
        else
          .surrogate unit :: newestFirst
    | _ => .surrogate unit :: newestFirst
  else
    pushCharacter newestFirst (Char.ofNat unit)

/-- A digit of a four digit escape, in lower case. -/
def hexDigit (value : Nat) : UInt8 :=
  (if value < 10 then 0x30 + value else 0x57 + value).toUInt8

/-- The escape of a code unit with four digits. -/
def unitEscape (unit : Nat) : List UInt8 :=
  Utf8.encode "\\u" ++
    [hexDigit (unit / 0x1000 % 0x10), hexDigit (unit / 0x100 % 0x10),
      hexDigit (unit / 0x10 % 0x10), hexDigit (unit % 0x10)]

/-- A piece as it is written: quotes, backslashes and control characters are
escaped, with a short escape where there is one, and all else is written as it
is. -/
def writePiece : Piece → List UInt8
  | .surrogate unit => unitEscape unit
  | .byte value =>
      match Char.ofUInt8 value with
      | '"' => Utf8.encode "\\\""
      | '\\' => Utf8.encode "\\\\"
      | '\x08' => Utf8.encode "\\b"
      | '\t' => Utf8.encode "\\t"
      | '\n' => Utf8.encode "\\n"
      | '\x0c' => Utf8.encode "\\f"
      | '\r' => Utf8.encode "\\r"
      | _ => if value < 0x20 then unitEscape value.toNat else [value]

/-- A literal as it is written, between quotes. -/
def write (literal : Literal) : List UInt8 :=
  0x22 :: literal.flatMap writePiece ++ [0x22]

end Literal

end Recognizer.Json
