import Recognizer.Proofs.Automaton.Flat

/-!
# Taking additions back

Undoing restores one entry, so records of different pairs can be undone in either
order.  The newest record can therefore be moved to the front of any order in which
it comes before the other records of its pair.  Undoing it there leads back to the
automaton before the last addition, and so on down to the first one.

This is the same for rows and for one table, and is said once for anything whose
records are `Independent`.  In one table they are so for the pairs of the automaton,
which have different places.
-/

namespace Recognizer

/-- Whether a record is one of the given state and symbol. -/
def Undo.concerns (state symbol : Nat) (record : Undo) : Bool :=
  record.state == state && record.symbol == symbol

theorem Undo.concerns_iff {record : Undo} {state symbol : Nat} :
    record.concerns state symbol = true ↔
      record.state = state ∧ record.symbol = symbol := by
  simp [concerns]

theorem Undo.concerns_eq_false_iff {record : Undo} {state symbol : Nat} :
    record.concerns state symbol = false ↔
      record.state ≠ state ∨ record.symbol ≠ symbol := by
  rw [Bool.eq_false_iff, ne_eq, concerns_iff, not_and_or]

theorem Undo.concerns_self (record : Undo) :
    record.concerns record.state record.symbol = true :=
  concerns_iff.mpr ⟨rfl, rfl⟩

/-- The same records, those of one state and symbol newest first and those of
different ones in any order. -/
def NewestFirst (records order : List Undo) : Prop :=
  ∀ state symbol, order.filter (Undo.concerns state symbol) =
    (records.filter (Undo.concerns state symbol)).reverse

namespace NewestFirst

variable {records order : List Undo}

/-- No record is left out or undone more often than it was made. -/
theorem perm (newestFirst : NewestFirst records order) :
    order.Perm records := by
  apply List.perm_iff_count.mpr
  intro record
  rw [← List.count_filter record.concerns_self,
    newestFirst record.state record.symbol, List.count_reverse,
    List.count_filter record.concerns_self]

/-- The newest record of all stands behind records of other pairs only. -/
theorem split {record : Undo}
    (newestFirst : NewestFirst (records ++ [record]) order) :
    ∃ before after, order = before ++ record :: after ∧
      (∀ other ∈ before,
        other.concerns record.state record.symbol = false) ∧
      NewestFirst records (before ++ after) := by
  have own := newestFirst record.state record.symbol
  rw [List.filter_append, List.filter_cons_of_pos record.concerns_self,
    List.filter_nil, List.reverse_append, List.reverse_singleton,
    List.singleton_append] at own
  obtain ⟨before, after, rfl, apart, _, rest⟩ :=
    List.filter_eq_cons_iff.mp own
  have beforeApart : ∀ other ∈ before,
      other.concerns record.state record.symbol = false :=
    fun other member => Bool.eq_false_iff.mpr (apart other member)
  refine ⟨before, after, rfl, beforeApart, ?_⟩
  intro state symbol
  by_cases same : record.concerns state symbol = true
  · obtain ⟨rfl, rfl⟩ := Undo.concerns_iff.mp same
    rw [List.filter_append, List.filter_eq_nil_iff.mpr apart, List.nil_append,
      rest]
  · have others := newestFirst state symbol
    rw [List.filter_append, List.filter_cons_of_neg same, List.filter_append,
      List.filter_cons_of_neg same, List.filter_nil, List.append_nil] at others
    rw [List.filter_append, others]

end NewestFirst

/-! ## Records that are undone in another order -/

section Undoable

variable {α : Type} {undo : α → Undo → α} {holds : α → Undo → Prop}

/-- Records of different pairs can be undone in either order, where the pairs are
there, and undoing keeps them there. -/
structure Independent (undo : α → Undo → α) (holds : α → Undo → Prop) :
    Prop where
  holds_iff : ∀ value record other,
    holds (undo value record) other ↔ holds value other
  comm : ∀ {value first second}, holds value first → holds value second →
    second.concerns first.state first.symbol = false →
      undo (undo value second) first = undo (undo value first) second

/-- Steps, each with a record that takes it back, oldest first. -/
inductive Undoable (undo : α → Undo → α) (holds : α → Undo → Prop)
    (first : α) : List Undo → α → Prop where
  | none : Undoable undo holds first [] first
  | step {records : List Undo} {before after : α} {record : Undo} :
      Undoable undo holds first records before →
      holds after record → undo after record = before →
      Undoable undo holds first (records ++ [record]) after

variable (independent : Independent undo holds)

include independent

theorem Independent.holds_foldl_iff (order : List Undo) (value : α)
    (other : Undo) :
    holds (order.foldl undo value) other ↔ holds value other := by
  induction order generalizing value with
  | nil => exact Iff.rfl
  | cons record later ih =>
      exact (ih _).trans (independent.holds_iff value record other)

theorem Independent.foldl_front {value : α} {record : Undo}
    {before : List Undo} (held : holds value record)
    (othersHeld : ∀ other ∈ before, holds value other)
    (apart : ∀ other ∈ before,
      other.concerns record.state record.symbol = false)
    (after : List Undo) :
    (before ++ record :: after).foldl undo value =
      (before ++ after).foldl undo (undo value record) := by
  induction before generalizing value with
  | nil => rfl
  | cons other later ih =>
      obtain ⟨otherHeld, laterHeld⟩ := List.forall_mem_cons.mp othersHeld
      obtain ⟨otherApart, laterApart⟩ := List.forall_mem_cons.mp apart
      have stillHeld := (independent.holds_iff value other record).mpr held
      have laterStillHeld : ∀ more ∈ later, holds (undo value other) more :=
        fun more member =>
          (independent.holds_iff value other more).mpr (laterHeld more member)
      simp only [List.cons_append, List.foldl_cons]
      rw [ih stillHeld laterStillHeld laterApart,
        independent.comm held otherHeld otherApart]

theorem Undoable.holds_of_mem {first last : α} {records : List Undo}
    (undoable : Undoable undo holds first records last) :
    ∀ record ∈ records, holds last record := by
  induction undoable with
  | none => exact fun _ member => absurd member List.not_mem_nil
  | @step records before after record _ held takesBack ih =>
      rw [List.forall_mem_append, List.forall_mem_singleton]
      refine ⟨?_, held⟩
      intro other member
      apply (independent.holds_iff after record other).mp
      rw [takesBack]
      exact ih other member

/-- Undoing all records leads back to the beginning, by induction on the steps from
the last one. -/
theorem Undoable.foldl_eq {first last : α} {records order : List Undo}
    (undoable : Undoable undo holds first records last)
    (newestFirst : NewestFirst records order) :
    order.foldl undo last = first := by
  induction undoable generalizing order with
  | none =>
      rw [newestFirst.perm.eq_nil]
      rfl
  | @step records previous after record earlier held takesBack ih =>
      obtain ⟨before, others, rfl, apart, rest⟩ := newestFirst.split
      have allHeld := (Undoable.step earlier held takesBack).holds_of_mem
        independent
      have beforeHeld : ∀ other ∈ before, holds after other := by
        intro other member
        apply allHeld
        exact newestFirst.perm.mem_iff.mp (List.mem_append_left _ member)
      rw [independent.foldl_front held beforeHeld apart, takesBack]
      exact ih rest

end Undoable

/-! ## Additions to the rows -/

namespace Automaton

/-- The automaton after additions that have all gone through, with their records,
oldest first. -/
inductive Additions (automaton : Automaton) : List Undo → Automaton → Prop where
  | none : Additions automaton [] automaton
  | add {records : List Undo} {extended further : Automaton} {record : Undo}
      {state symbol destination : Nat} :
      Additions automaton records extended →
      extended.add state symbol destination = .ok (further, record) →
      Additions automaton (records ++ [record]) further

def undoAll (automaton : Automaton) (order : List Undo) : Automaton :=
  order.foldl undo automaton

/-- The two automata differ at most in the destinations of one state and
symbol. -/
structure AgreesExcept (state symbol : Nat) (first second : Automaton) :
    Prop where
  kind_eq : second.kind = first.kind
  states_eq : second.states = first.states
  alphabet_eq : second.alphabet = first.alphabet
  initial_eq : second.initial = first.initial
  finals_eq : second.finals = first.finals
  destinations_eq : ∀ otherState otherSymbol,
    (state ≠ otherState ∨ symbol ≠ otherSymbol) →
      second.destinations otherState otherSymbol =
        first.destinations otherState otherSymbol

theorem setDestinations_comm (automaton : Automaton)
    {state symbol otherState otherSymbol : Nat}
    (different : state ≠ otherState ∨ symbol ≠ otherSymbol)
    (destinations others : List Nat) :
    (automaton.setDestinations state symbol destinations).setDestinations
        otherState otherSymbol others =
      (automaton.setDestinations otherState otherSymbol others).setDestinations
        state symbol destinations := by
  have rows_eq : (automaton.rows.modify state fun row =>
      row.set symbol destinations).modify otherState
        (fun row => row.set otherSymbol others) =
      (automaton.rows.modify otherState fun row =>
        row.set otherSymbol others).modify state
          (fun row => row.set symbol destinations) := by
    by_cases same : state = otherState
    · subst same
      rw [List.modify_modify_eq, List.modify_modify_eq]
      congr 1
      funext row
      exact List.set_comm _ _ (different.resolve_left (· rfl))
    · exact List.modify_modify_ne _ _ _ same
  simp only [setDestinations, rows_eq]

theorem undo_agreesExcept (automaton : Automaton) (record : Undo) :
    AgreesExcept record.state record.symbol automaton
      (automaton.undo record) where
  kind_eq := rfl
  states_eq := rfl
  alphabet_eq := rfl
  initial_eq := rfl
  finals_eq := rfl
  destinations_eq := fun _ _ different =>
    destinations_setDestinations_of_ne automaton _ different

theorem undo_comm (automaton : Automaton) {first second : Undo}
    (apart : second.concerns first.state first.symbol = false) :
    (automaton.undo second).undo first =
      (automaton.undo first).undo second :=
  setDestinations_comm automaton (Undo.concerns_eq_false_iff.mp apart) _ _

theorem undo_independent : Independent undo fun _ _ => True where
  holds_iff := fun _ _ _ => Iff.rfl
  comm := fun _ _ apart => undo_comm _ apart

theorem Additions.undoable {automaton extended : Automaton}
    {records : List Undo} (additions : Additions automaton records extended) :
    Undoable undo (fun _ _ => True) automaton records extended := by
  induction additions with
  | none => exact .none
  | add _ added ih => exact .step ih trivial (undo_add added)

end Automaton

/-! ## Additions to the table -/

namespace FlatAutomaton

/-- The record is one of a state and a symbol of the automaton. -/
def HasPair (automaton : FlatAutomaton) (record : Undo) : Prop :=
  record.state < automaton.states.length ∧
    record.symbol < automaton.alphabet.length

/-- The automaton after additions to pairs of it that have all gone through, with
their records, oldest first. -/
inductive Additions (automaton : FlatAutomaton) :
    List Undo → FlatAutomaton → Prop where
  | none : Additions automaton [] automaton
  | add {records : List Undo} {extended further : FlatAutomaton}
      {record : Undo} {state symbol destination : Nat} :
      Additions automaton records extended →
      extended.addTransition state symbol destination =
        ⟨further, .ok record⟩ →
      further.HasPair record →
      Additions automaton (records ++ [record]) further

def undoAll (automaton : FlatAutomaton) (order : List Undo) : FlatAutomaton :=
  order.foldl undo automaton

/-- The two automata differ at most in the destinations of one state and
symbol. -/
structure AgreesExcept (state symbol : Nat) (first second : FlatAutomaton) :
    Prop where
  kind_eq : second.kind = first.kind
  states_eq : second.states = first.states
  alphabet_eq : second.alphabet = first.alphabet
  initial_eq : second.initial = first.initial
  finals_eq : second.finals = first.finals
  destinations_eq : ∀ otherState otherSymbol,
    otherSymbol < first.alphabet.length →
      (state ≠ otherState ∨ symbol ≠ otherSymbol) →
        second.destinations otherState otherSymbol =
          first.destinations otherState otherSymbol

theorem undo_agreesExcept {automaton : FlatAutomaton} {record : Undo}
    (hasPair : automaton.HasPair record) :
    AgreesExcept record.state record.symbol automaton
      (automaton.undo record) where
  kind_eq := rfl
  states_eq := rfl
  alphabet_eq := rfl
  initial_eq := rfl
  finals_eq := rfl
  destinations_eq := fun _ _ otherInRow different =>
    destinations_setDestinations_of_ne hasPair.2 otherInRow different _

theorem undo_independent : Independent undo HasPair where
  holds_iff := fun _ _ _ => Iff.rfl
  comm := fun held otherHeld apart =>
    setDestinations_comm otherHeld.2 held.2
      (Undo.concerns_eq_false_iff.mp apart) _ _

theorem Additions.undoable {automaton extended : FlatAutomaton}
    {records : List Undo} (additions : automaton.Additions records extended) :
    Undoable undo HasPair automaton records extended := by
  induction additions with
  | none => exact .none
  | add _ added hasPair ih => exact .step ih hasPair (undo_add added)

end FlatAutomaton

namespace Automaton

/-- Additions to the rows are additions to the table. -/
theorem Additions.in_table {automaton extended : Automaton} {records : List Undo}
    (additions : Additions automaton records extended)
    (uniform : automaton.Uniform)
    (hasPairs : ∀ record ∈ records, automaton.flat.HasPair record) :
    automaton.flat.Additions records extended.flat ∧ extended.Uniform ∧
      extended.states = automaton.states ∧
      extended.alphabet = automaton.alphabet := by
  induction additions with
  | none => exact ⟨.none, uniform, rfl, rfl⟩
  | @add records extended further record state symbol destination _ added ih =>
      rw [List.forall_mem_append, List.forall_mem_singleton] at hasPairs
      obtain ⟨made, stillUniform, states, alphabet⟩ := ih hasPairs.1
      have furtherStates := (add_states added).trans states
      have furtherAlphabet := (add_alphabet added).trans alphabet
      have hasPair : further.flat.HasPair record := by
        rw [FlatAutomaton.HasPair, flat, furtherStates, furtherAlphabet]
        exact hasPairs.2
      obtain ⟨rfl, outcome⟩ := add_eq_ok_iff.mp added
      have inRow : symbol < extended.alphabet.length := by
        rw [alphabet]
        exact hasPairs.2.2
      have flatAdded : extended.flat.addTransition state symbol destination =
          _ := addTransition_flat stillUniform inRow destination
      rw [addTransition_of_ok added] at flatAdded
      refine ⟨.add made flatAdded hasPair, ?_, furtherStates, furtherAlphabet⟩
      rcases outcome with ⟨_, rfl⟩ | ⟨_, _, rfl⟩
      · exact stillUniform
      · exact stillUniform.setDestinations state symbol _

/-- Additions that went through are taken back exactly in any order that undoes
the records of each pair newest first, and each undo on the way touches its own
pair only.  The same holds in one table. -/
theorem undoAll_newestFirst {records order : List Undo}
    (newestFirst : NewestFirst records order) :
    (∀ {automaton extended : Automaton},
      Additions automaton records extended →
        extended.undoAll order = automaton ∧
        ∀ before record after, order = before ++ record :: after →
          AgreesExcept record.state record.symbol (extended.undoAll before)
            (extended.undoAll (before ++ [record]))) ∧
    ∀ {automaton extended : FlatAutomaton},
      automaton.Additions records extended →
        extended.undoAll order = automaton ∧
        ∀ before record after, order = before ++ record :: after →
          FlatAutomaton.AgreesExcept record.state record.symbol
            (extended.undoAll before)
            (extended.undoAll (before ++ [record])) := by
  constructor
  · intro automaton extended additions
    refine ⟨additions.undoable.foldl_eq undo_independent newestFirst, ?_⟩
    intro before record after _
    rw [undoAll, undoAll, List.foldl_append]
    exact undo_agreesExcept _ record
  · intro automaton extended additions
    have independent := FlatAutomaton.undo_independent
    refine ⟨additions.undoable.foldl_eq independent newestFirst, ?_⟩
    intro before record after split
    have made : record ∈ records := by
      apply newestFirst.perm.mem_iff.mp
      rw [split]
      exact List.mem_append_right _ List.mem_cons_self
    rw [FlatAutomaton.undoAll, FlatAutomaton.undoAll, List.foldl_append]
    apply FlatAutomaton.undo_agreesExcept
    apply (independent.holds_foldl_iff before extended record).mpr
    exact additions.undoable.holds_of_mem independent record made

/-- Two states with a transition each way. -/
def roundTrip : Automaton where
  kind := .nondeterministic
  states := ["0", "1"]
  alphabet := ["a", "b"]
  initial := 0
  finals := [1]
  rows := [[[], [1]], [[0], []]]

/-- The last of four additions finds its transition there already.  The record of
the second one, which is alone with its pair, is undone in between. -/
theorem roundTrip_undoAll :
    Additions roundTrip
        [⟨0, 0, []⟩, ⟨1, 1, []⟩, ⟨0, 0, [1]⟩, ⟨0, 0, [0, 1]⟩]
        { roundTrip with rows := [[[0, 1], [1]], [[0], [0]]] } ∧
      NewestFirst [⟨0, 0, []⟩, ⟨1, 1, []⟩, ⟨0, 0, [1]⟩, ⟨0, 0, [0, 1]⟩]
        [⟨0, 0, [0, 1]⟩, ⟨0, 0, [1]⟩, ⟨1, 1, []⟩, ⟨0, 0, []⟩] ∧
      undoAll { roundTrip with rows := [[[0, 1], [1]], [[0], [0]]] }
        [⟨0, 0, [0, 1]⟩, ⟨0, 0, [1]⟩, ⟨1, 1, []⟩, ⟨0, 0, []⟩] = roundTrip ∧
      AgreesExcept 1 1 { roundTrip with rows := [[[1], [1]], [[0], [0]]] }
        { roundTrip with rows := [[[1], [1]], [[0], []]] } ∧
      FlatAutomaton.undoAll
          { roundTrip.flat with table := [[0, 1], [1], [0], [0]] }
          [⟨0, 0, [0, 1]⟩, ⟨0, 0, [1]⟩, ⟨1, 1, []⟩, ⟨0, 0, []⟩] =
        { roundTrip.flat with table := [[], [1], [0], []] } := by
  have additions : Additions roundTrip
      [⟨0, 0, []⟩, ⟨1, 1, []⟩, ⟨0, 0, [1]⟩, ⟨0, 0, [0, 1]⟩]
      { roundTrip with rows := [[[0, 1], [1]], [[0], [0]]] } := by
    have first : roundTrip.add 0 0 1 =
        .ok ({ roundTrip with rows := [[[1], [1]], [[0], []]] },
          ⟨0, 0, []⟩) := by decide
    have second : add { roundTrip with rows := [[[1], [1]], [[0], []]] } 1 1 0 =
        .ok ({ roundTrip with rows := [[[1], [1]], [[0], [0]]] },
          ⟨1, 1, []⟩) := by decide
    have third : add { roundTrip with rows := [[[1], [1]], [[0], [0]]] } 0 0 0 =
        .ok ({ roundTrip with rows := [[[0, 1], [1]], [[0], [0]]] },
          ⟨0, 0, [1]⟩) := by decide
    have fourth :
        add { roundTrip with rows := [[[0, 1], [1]], [[0], [0]]] } 0 0 1 =
        .ok ({ roundTrip with rows := [[[0, 1], [1]], [[0], [0]]] },
          ⟨0, 0, [0, 1]⟩) := by decide
    exact .add (.add (.add (.add .none first) second) third) fourth
  have newestFirst : NewestFirst
      [⟨0, 0, []⟩, ⟨1, 1, []⟩, ⟨0, 0, [1]⟩, ⟨0, 0, [0, 1]⟩]
      [⟨0, 0, [0, 1]⟩, ⟨0, 0, [1]⟩, ⟨1, 1, []⟩, ⟨0, 0, []⟩] := by
    intro state symbol
    match state, symbol with
    | 0, 0 => rfl
    | 1, 1 => rfl
    | 0, symbol + 1 => rfl
    | 1, 0 => rfl
    | 1, symbol + 2 => rfl
    | state + 2, _ => rfl
  obtain ⟨inRows, inTable⟩ := undoAll_newestFirst newestFirst
  obtain ⟨restored, agrees⟩ := inRows additions
  have uniform : roundTrip.Uniform := by
    unfold Uniform
    decide
  have hasPairs : ∀ record ∈ ([⟨0, 0, []⟩, ⟨1, 1, []⟩, ⟨0, 0, [1]⟩,
      ⟨0, 0, [0, 1]⟩] : List Undo), roundTrip.flat.HasPair record := by
    unfold FlatAutomaton.HasPair
    decide
  have flatAdditions := (additions.in_table uniform hasPairs).1
  exact ⟨additions, newestFirst, restored,
    agrees [⟨0, 0, [0, 1]⟩, ⟨0, 0, [1]⟩] ⟨1, 1, []⟩ [⟨0, 0, []⟩] rfl,
    (inTable flatAdditions).1⟩

end Automaton

end Recognizer
