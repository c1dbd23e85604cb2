/-!
# Blank characters

A character is blank when it has the Unicode property `White_Space`.  Trimming
removes blank characters from both ends and nothing else.
-/

namespace Recognizer.Text

/-- The first and last code points of the ranges of blank characters,
ascending. -/
def blankRanges : List (Nat × Nat) :=
  [(0x0009, 0x000D), (0x0020, 0x0020), (0x0085, 0x0085), (0x00A0, 0x00A0),
    (0x1680, 0x1680), (0x2000, 0x200A), (0x2028, 0x2029), (0x202F, 0x202F),
    (0x205F, 0x205F), (0x3000, 0x3000)]

def isBlank (character : Char) : Bool :=
  blankRanges.any fun (first, last) =>
    first ≤ character.toNat && character.toNat ≤ last

/-- Characters without the blank ones in front. -/
def skipBlank (characters : List Char) : List Char :=
  characters.dropWhile isBlank

/-- Characters without the blank ones at both ends. -/
def trimmed (characters : List Char) : List Char :=
  (skipBlank (skipBlank characters).reverse).reverse

/-- A text without the blank characters at both ends. -/
def trim (text : String) : String :=
  String.ofList (trimmed text.toList)

theorem isBlank_of_isWhitespace {character : Char}
    (whitespace : character.isWhitespace = true) :
    isBlank character = true := by
  simp only [Char.isWhitespace, Bool.or_eq_true, decide_eq_true_eq]
    at whitespace
  rcases whitespace with ((same | same) | same) | same <;> subst same <;> decide

end Recognizer.Text
