import Recognizer.Transition.Basic

/-!
# Transition tables

A transition table holds at most one entry for every origin and symbol, ordered
by origin and then by symbol.  Changing the destinations of one origin and
symbol keeps the order and leaves all other destinations as they are
(`destinations_update`).
-/

namespace Recognizer

/-- Entries with strictly ascending keys. -/
abbrev TransitionTable := List Transition

namespace TransitionTable

/-- Changes the destinations of one origin and symbol; where there is no entry
yet the change starts from no destinations. -/
def update (origin symbol : String)
    (change : List String → List String) : TransitionTable → TransitionTable
  | [] => [⟨origin, symbol, change []⟩]
  | entry :: later =>
      if [origin, symbol] < entry.key then
        ⟨origin, symbol, change []⟩ :: entry :: later
      else if entry.key < [origin, symbol] then
        entry :: update origin symbol change later
      else
        ⟨origin, symbol, change entry.destinations⟩ :: later

/-- Sets the destinations of an origin and symbol, replacing earlier ones. -/
def set (transition : Transition) (table : TransitionTable) :
    TransitionTable :=
  update transition.origin transition.symbol
    (fun _ => transition.destinations) table

/-- Adds a destination to an origin and symbol, keeping earlier ones. -/
def add (origin symbol destination : String) (table : TransitionTable) :
    TransitionTable :=
  update origin symbol (· ++ [destination]) table

/-- The recorded destinations of an origin and symbol. -/
def destinations (table : TransitionTable) (origin symbol : String) :
    List String :=
  match table.find? (·.leaves origin symbol) with
  | some entry => entry.destinations
  | none => []

/-- The order that every table keeps. -/
abbrev Ordered (table : TransitionTable) : Prop :=
  table.Pairwise fun earlier later => earlier.key < later.key

theorem key_eq_of_not_lt {first second : List String}
    (notBelow : ¬ first < second) (notAbove : ¬ second < first) :
    first = second :=
  Std.Trichotomous.trichotomous (r := (· < ·)) first second notBelow notAbove

theorem key_of_mem_update {origin symbol : String}
    {change : List String → List String} {table : TransitionTable}
    {entry : Transition}
    (member : entry ∈ update origin symbol change table) :
    entry.key = [origin, symbol] ∨ ∃ old ∈ table, old.key = entry.key := by
  induction table with
  | nil =>
      simp only [update, List.mem_singleton] at member
      exact Or.inl (by simp [member, Transition.key])
  | cons head tail ih =>
      unfold update at member
      split at member
      · rcases List.mem_cons.mp member with new | old
        · exact Or.inl (by simp [new, Transition.key])
        · exact Or.inr ⟨entry, old, rfl⟩
      · split at member
        · rcases List.mem_cons.mp member with first | later
          · exact Or.inr ⟨head, by simp, by rw [first]⟩
          · rcases ih later with new | ⟨old, oldMember, sameKey⟩
            · exact Or.inl new
            · exact Or.inr ⟨old, List.mem_cons_of_mem head oldMember, sameKey⟩
        · rcases List.mem_cons.mp member with changed | later
          · exact Or.inl (by simp [changed, Transition.key])
          · exact Or.inr ⟨entry, List.mem_cons_of_mem head later, rfl⟩

theorem update_ordered {origin symbol : String}
    {change : List String → List String} {table : TransitionTable}
    (ordered : Ordered table) :
    Ordered (update origin symbol change table) := by
  induction table with
  | nil => simp [update, Ordered]
  | cons head tail ih =>
      obtain ⟨headBelow, tailOrdered⟩ := List.pairwise_cons.mp ordered
      unfold update
      split
      · rename_i below
        refine List.pairwise_cons.mpr ⟨fun other member => ?_, ordered⟩
        rcases List.mem_cons.mp member with first | later
        · rw [first]
          exact below
        · exact List.lt_trans below (headBelow other later)
      · split
        · rename_i above
          refine List.pairwise_cons.mpr
            ⟨fun other member => ?_, ih tailOrdered⟩
          rcases key_of_mem_update member with new | ⟨old, oldMember, sameKey⟩
          · rw [new]
            exact above
          · rw [← sameKey]
            exact headBelow old oldMember
        · rename_i notBelow notAbove
          have sameKey : [origin, symbol] = head.key :=
            key_eq_of_not_lt notBelow notAbove
          refine List.pairwise_cons.mpr
            ⟨fun other member => ?_, tailOrdered⟩
          have keyBelow := headBelow other member
          rw [← sameKey] at keyBelow
          exact keyBelow

theorem destinations_of_key_lt {origin symbol : String}
    {table : TransitionTable}
    (below : ∀ entry ∈ table, [origin, symbol] < entry.key) :
    destinations table origin symbol = [] := by
  have absent : table.find? (·.leaves origin symbol) = none := by
    apply List.find?_eq_none.mpr
    intro entry member leaves
    have sameKey := Transition.leaves_iff_key.mp leaves
    have keyBelow := below entry member
    rw [sameKey] at keyBelow
    exact List.lt_irrefl _ keyBelow
  simp [destinations, absent]

theorem destinations_cons (entry : Transition) (table : TransitionTable)
    (origin symbol : String) :
    destinations (entry :: table) origin symbol =
      if entry.key = [origin, symbol] then entry.destinations
      else destinations table origin symbol := by
  by_cases same : entry.key = [origin, symbol]
  · have leaves : entry.leaves origin symbol = true :=
      Transition.leaves_iff_key.mpr same
    simp [destinations, same, leaves]
  · have stays : entry.leaves origin symbol = false := by
      rw [Bool.eq_false_iff]
      exact fun leaves => same (Transition.leaves_iff_key.mp leaves)
    simp [destinations, same, stays]

theorem destinations_update {origin symbol otherOrigin otherSymbol : String}
    {change : List String → List String} {table : TransitionTable}
    (ordered : Ordered table) :
    destinations (update origin symbol change table) otherOrigin otherSymbol =
      if [origin, symbol] = [otherOrigin, otherSymbol] then
        change (destinations table origin symbol)
      else destinations table otherOrigin otherSymbol := by
  induction table with
  | nil =>
      simp only [update, destinations_cons, Transition.key]
      rfl
  | cons head tail ih =>
      obtain ⟨headBelow, tailOrdered⟩ := List.pairwise_cons.mp ordered
      unfold update
      split
      · rename_i below
        have absent : destinations (head :: tail) origin symbol = [] := by
          apply destinations_of_key_lt
          intro entry member
          rcases List.mem_cons.mp member with first | later
          · rw [first]
            exact below
          · exact List.lt_trans below (headBelow entry later)
        rw [destinations_cons, absent]
        rfl
      · split
        · rename_i above
          have different : head.key ≠ [origin, symbol] := by
            intro same
            rw [same] at above
            exact List.lt_irrefl _ above
          rw [destinations_cons, ih tailOrdered, destinations_cons head,
            destinations_cons head, if_neg different]
          by_cases same : [origin, symbol] = [otherOrigin, otherSymbol]
          · rw [if_pos same, if_pos same, if_neg (same ▸ different)]
          · rw [if_neg same, if_neg same]
        · rename_i notBelow notAbove
          have sameKey : [origin, symbol] = head.key :=
            key_eq_of_not_lt notBelow notAbove
          have changedKey : Transition.key
              ⟨origin, symbol, change head.destinations⟩ =
                [origin, symbol] := rfl
          rw [destinations_cons, destinations_cons head, destinations_cons head,
            if_pos sameKey.symm]
          by_cases same : [origin, symbol] = [otherOrigin, otherSymbol]
          · rw [if_pos same, if_pos (changedKey.trans same)]
          · have changedDiffers : Transition.key
                ⟨origin, symbol, change head.destinations⟩ ≠
                  [otherOrigin, otherSymbol] :=
              fun equality => same (changedKey.symm.trans equality)
            have headDiffers : head.key ≠ [otherOrigin, otherSymbol] :=
              fun equality => same (sameKey.trans equality)
            rw [if_neg same, if_neg changedDiffers, if_neg headDiffers]

end TransitionTable

end Recognizer
