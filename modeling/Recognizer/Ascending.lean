/-!
# Strictly ascending lists

A finite set over a linear order is kept as its strictly ascending list.  The
representation is canonical: two such lists with the same members are equal,
so equality of the structures built from them is plain equality of values.
-/

namespace Recognizer

/-- A list in increasing order without repetitions. -/
abbrev StrictlyAscending {α : Type} [LT α] (values : List α) : Prop :=
  values.Pairwise (· < ·)

namespace Ascending

variable {α : Type} [LT α] [DecidableLT α]

/-- Puts a value at its place; a value that is present already changes
nothing. -/
def insert (value : α) : List α → List α
  | [] => [value]
  | head :: tail =>
      if value < head then value :: head :: tail
      else if head < value then head :: insert value tail
      else head :: tail

def union (left right : List α) : List α :=
  left.foldr insert right

/-- The members of a list, each once and in order. -/
def ofList (values : List α) : List α :=
  union values []

theorem mem_insert [Std.Trichotomous (α := α) (· < ·)]
    {candidate value : α} {values : List α} :
    candidate ∈ insert value values ↔
      candidate = value ∨ candidate ∈ values := by
  induction values with
  | nil => simp [insert]
  | cons head tail ih =>
      unfold insert
      split
      · simp
      · split
        · simp only [List.mem_cons, ih]
          exact or_left_comm
        · rename_i notBelow notAbove
          have same : value = head :=
            Std.Trichotomous.trichotomous _ _ notBelow notAbove
          subst same
          simp

theorem mem_union [Std.Trichotomous (α := α) (· < ·)]
    {candidate : α} {left right : List α} :
    candidate ∈ union left right ↔
      candidate ∈ left ∨ candidate ∈ right := by
  induction left with
  | nil => simp [union]
  | cons head tail ih =>
      simp only [union, List.foldr_cons, mem_insert, List.mem_cons]
      rw [or_assoc]
      exact or_congr_right ih

theorem mem_ofList [Std.Trichotomous (α := α) (· < ·)]
    {candidate : α} {values : List α} :
    candidate ∈ ofList values ↔ candidate ∈ values := by
  simp [ofList, mem_union]

theorem insert_strictlyAscending [Std.Trichotomous (α := α) (· < ·)]
    [Trans (α := α) (· < ·) (· < ·) (· < ·)]
    (value : α) {values : List α} (ascending : StrictlyAscending values) :
    StrictlyAscending (insert value values) := by
  induction values with
  | nil => simp [insert]
  | cons head tail ih =>
      obtain ⟨headBelow, tailAscending⟩ := List.pairwise_cons.mp ascending
      unfold insert
      split
      · rename_i below
        refine List.pairwise_cons.mpr ⟨fun other member => ?_, ascending⟩
        rcases List.mem_cons.mp member with same | later
        · exact same ▸ below
        · exact Trans.trans below (headBelow other later)
      · split
        · rename_i above
          refine List.pairwise_cons.mpr
            ⟨fun other member => ?_, ih tailAscending⟩
          rcases mem_insert.mp member with same | later
          · exact same ▸ above
          · exact headBelow other later
        · exact ascending

theorem union_strictlyAscending [Std.Trichotomous (α := α) (· < ·)]
    [Trans (α := α) (· < ·) (· < ·) (· < ·)]
    (left : List α) {right : List α} (ascending : StrictlyAscending right) :
    StrictlyAscending (union left right) := by
  induction left with
  | nil => exact ascending
  | cons head tail ih => exact insert_strictlyAscending head ih

theorem ofList_strictlyAscending [Std.Trichotomous (α := α) (· < ·)]
    [Trans (α := α) (· < ·) (· < ·) (· < ·)] (values : List α) :
    StrictlyAscending (ofList values) :=
  union_strictlyAscending values List.Pairwise.nil

end Ascending

end Recognizer
