import Mathlib.Data.List.Shortlex
import Recognizer.Word

/-!
# The order of words

Shorter words come first, and words of one length compare symbol by symbol from
the left.  One more symbol on either side keeps the order of two words.
-/

namespace Recognizer

/-- A list that is below another one without being its beginning stays below it
whatever is appended to the two. -/
theorem append_lt_append_of_not_prefix {α : Type} [LT α] {first second : List α}
    (below : first < second) (apart : ¬ first <+: second)
    (firstRest secondRest : List α) :
    first ++ firstRest < second ++ secondRest := by
  induction first generalizing second with
  | nil => exact absurd List.nil_prefix apart
  | cons value later ih =>
      cases second with
      | nil => exact absurd below (List.not_lt_nil _)
      | cons otherValue otherLater =>
          rw [List.cons_append, List.cons_append]
          apply List.cons_lt_cons_iff.mpr
          rcases List.cons_lt_cons_iff.mp below with head | ⟨same, tail⟩
          · exact Or.inl head
          · refine Or.inr ⟨same, ih tail fun isPrefix => apart ?_⟩
            exact List.cons_prefix_cons.mpr ⟨same, isPrefix⟩

namespace Word

/-- Shorter words come first, words of one length in the order of their
symbols. -/
def Before (first second : Word) : Prop :=
  List.Shortlex (· < ·) first second

variable {first second third : Word}

theorem before_iff :
    first.Before second ↔ first.length < second.length ∨
      first.length = second.length ∧ first < second :=
  List.shortlex_def

theorem Before.trans (earlier : first.Before second)
    (later : second.Before third) : first.Before third := by
  rw [before_iff] at earlier later ⊢
  rcases earlier with shorter | ⟨sameLength, below⟩
  · left
    rcases later with laterShorter | ⟨laterLength, _⟩
    · exact Nat.lt_trans shorter laterShorter
    · exact laterLength ▸ shorter
  · rcases later with laterShorter | ⟨laterLength, laterBelow⟩
    · exact Or.inl (sameLength ▸ laterShorter)
    · exact Or.inr ⟨sameLength.trans laterLength,
        List.lt_trans below laterBelow⟩

theorem Before.concat (earlier : first.Before second)
    (firstLabel secondLabel : String) :
    Before (first ++ [firstLabel]) (second ++ [secondLabel]) := by
  rw [before_iff] at earlier ⊢
  simp only [List.length_append, List.length_singleton, Nat.add_lt_add_iff_right,
    Nat.add_right_cancel_iff]
  rcases earlier with shorter | ⟨sameLength, below⟩
  · exact Or.inl shorter
  · refine Or.inr ⟨sameLength, append_lt_append_of_not_prefix below ?_ _ _⟩
    intro isPrefix
    rw [isPrefix.eq_of_length sameLength] at below
    exact List.lt_irrefl _ below

theorem concat_before_concat {firstLabel secondLabel : String}
    (below : firstLabel < secondLabel) (word : Word) :
    Before (word ++ [firstLabel]) (word ++ [secondLabel]) :=
  List.Shortlex.append_left ((List.shortlex_singleton_iff _ _).mpr below) word

end Word

end Recognizer
