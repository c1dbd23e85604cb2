import Recognizer.Text.Blank

/-!
# Lists of labels

Labels are written one after the other, separated by commas.  Blank characters
around a label do not belong to it, and blank labels are left out.
-/

namespace Recognizer.Text

/-- The parts of a text between the separators; there is one part more than
there are separators. -/
def parts (separator : Char) (characters : List Char) : List (List Char) :=
  characters.foldr
    (fun character later =>
      if character = separator then [] :: later
      else
        match later with
        | first :: others => (character :: first) :: others
        | [] => [[character]])
    [[]]

/-- The labels between the commas of a text. -/
def labels (characters : List Char) : List String :=
  ((parts ',' characters).map trimmed).filterMap fun label =>
    if label.isEmpty then none else some (String.ofList label)

def labelsOf (text : String) : List String :=
  labels text.toList

theorem parts_ne_nil (separator : Char) (characters : List Char) :
    parts separator characters ≠ [] := by
  cases characters with
  | nil => simp [parts]
  | cons head tail =>
      simp only [parts, List.foldr_cons]
      split
      · simp
      · split <;> simp

end Recognizer.Text
