/-!
# Words

A word is a list of input symbols.  A symbol is any string, also the empty
one; only words given as plain text have single characters as symbols.
-/

namespace Recognizer

/-- A finite sequence of input symbols. -/
abbrev Word := List String

/-- The word of the characters of a text, every character being one symbol. -/
def Word.ofText (text : String) : Word :=
  text.toList.map String.singleton

theorem Word.ofText_eq_nil_iff {text : String} :
    Word.ofText text = [] ↔ text = "" := by
  simp [Word.ofText]

theorem Word.ofText_inj {first second : String} :
    Word.ofText first = Word.ofText second ↔ first = second := by
  rw [Word.ofText, Word.ofText,
    List.map_inj_right fun _ _ same => String.singleton_inj.mp same,
    String.toList_inj]

end Recognizer
