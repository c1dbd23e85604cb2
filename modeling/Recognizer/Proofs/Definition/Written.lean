import Recognizer.Proofs.Definition.Entry
import Recognizer.Proofs.Snapshot.Canonical

/-!
# Automata written as definitions

An automaton can be written as a definition when its labels have neither blank
characters nor commas nor hyphens and when no part is empty.  The labels of a part may
come in any order, and so may the entries and the destinations of each; blank
characters may stand around every label.

Reading takes the parts apart again, up to their order.  What is read is therefore a
snapshot that is out of order, and its canonical form is that of the automaton.
-/

namespace Recognizer

open Text (Padded Lists)

/-- A label that is found again wherever it is written. -/
structure IsPlainLabel (label : String) : Prop extends Text.IsItem label where
  noHyphen : '-' ∉ label.toList

namespace Transition

/-- An entry that can be written. -/
structure IsPlain (transition : Transition) : Prop where
  origin : IsPlainLabel transition.origin
  symbol : IsPlainLabel transition.symbol
  destinations : ∀ label ∈ transition.destinations, IsPlainLabel label
  filled : transition.destinations ≠ []

/-- The entry is written with hyphens behind its origin and its symbol. -/
def IsWritten (transition : Transition) (entry : String) : Prop :=
  ∃ origin symbol destinations,
    Padded transition.origin.toList origin ∧
      Padded transition.symbol.toList symbol ∧
      Text.ListsAnyhow transition.destinations destinations ∧
      entry.toList = origin ++ '-' :: (symbol ++ '-' :: destinations)

/-- The entry without any blank characters. -/
def written (transition : Transition) : String :=
  transition.origin ++ "-" ++ transition.symbol ++ "-" ++
    ",".intercalate transition.destinations

/-- The same entry up to the order of its destinations. -/
structure Reorders (transition reordered : Transition) : Prop where
  origin : reordered.origin = transition.origin
  symbol : reordered.symbol = transition.symbol
  destinations : reordered.destinations.Perm transition.destinations

theorem isWritten_written (transition : Transition) :
    transition.IsWritten transition.written := by
  refine ⟨transition.origin.toList, transition.symbol.toList,
    (",".intercalate transition.destinations).toList,
    Text.padded_self _, Text.padded_self _,
    Text.listsAnyhow_intercalate _, ?_⟩
  simp [written]

/-! ## Reading entries -/

theorem isEntryLabel_of_plain {label : String} (plain : IsPlainLabel label) :
    IsEntryLabel label.toList where
  nonempty := mt String.toList_eq_nil_iff.mp plain.nonempty
  noBlank := plain.noBlank
  noHyphen := plain.noHyphen

theorem noHyphen_of_lists {listed : List String} {text : List Char}
    (lists : Lists listed text)
    (plain : ∀ label ∈ listed, IsPlainLabel label) : '-' ∉ text := by
  have visible : Text.isBlank '-' = false := by decide
  intro member
  rcases lists.mem visible member with isComma | ⟨label, isListed, within⟩
  · cases isComma
  · exact (plain label isListed).noHyphen within

theorem ofEntry_of_isWritten {transition : Transition} {entry : String}
    (plain : transition.IsPlain) (written : transition.IsWritten entry) :
    ∃ read, ofEntry entry = .ok read ∧ transition.Reorders read := by
  obtain ⟨origin, symbol, destinations, originPadded, symbolPadded,
    ⟨order, sameLabels, lists⟩, joined⟩ := written
  have plainOrder : ∀ label ∈ order, IsPlainLabel label := fun label member =>
    plain.destinations label (sameLabels.mem_iff.mp member)
  have listed := Text.labels_of_lists lists fun label member =>
    (plainOrder label member).toIsItem
  have some : order ≠ [] := by
    rintro rfl
    exact plain.filled sameLabels.nil_eq.symm
  have nonempty : destinations ≠ [] := by
    rintro rfl
    exact some listed.symm
  have isMatch : EntryMatches entry.toList transition.origin.toList
      transition.symbol.toList destinations :=
    entryMatches_iff_parts.mpr
      ⟨isEntryLabel_of_plain plain.origin, isEntryLabel_of_plain plain.symbol,
        nonempty, noHyphen_of_lists lists plainOrder, origin, symbol,
        originPadded, symbolPadded, joined⟩
  have found : ofEntry? entry = Option.some
      { transition with destinations := order } :=
    ofEntry?_eq_some_iff_matches.mpr
      ⟨destinations, isMatch, listed.symm, some⟩
  refine ⟨{ transition with destinations := order }, ?_, rfl, rfl, sameLabels⟩
  rw [ofEntry, found]

theorem mapM_ofEntry {transitions : List Transition} {entries : List String}
    (written : List.Forall₂ IsWritten transitions entries)
    (plain : ∀ transition ∈ transitions, transition.IsPlain) :
    ∃ read, entries.mapM ofEntry = .ok read ∧
      List.Forall₂ Reorders transitions read := by
  induction written with
  | nil => exact ⟨[], rfl, .nil⟩
  | cons isWritten _ ih =>
      obtain ⟨firstPlain, laterPlain⟩ := List.forall_mem_cons.mp plain
      obtain ⟨first, firstRead, firstReorders⟩ :=
        ofEntry_of_isWritten firstPlain isWritten
      obtain ⟨later, laterRead, laterReorders⟩ := ih laterPlain
      refine ⟨first :: later, ?_, .cons firstReorders laterReorders⟩
      rw [List.mapM_cons, firstRead, laterRead]
      rfl

section Reordered

variable {transitions read : List Transition}
  (reordered : List.Forall₂ Reorders transitions read)

include reordered

theorem map_key_of_reorders : read.map key = transitions.map key := by
  induction reordered with
  | nil => rfl
  | cons reorders _ ih =>
      rw [List.map_cons, List.map_cons, ih, key, key, reorders.origin,
        reorders.symbol]

theorem map_sorted_of_reorders
    (ascending : ∀ transition ∈ transitions,
      StrictlyAscending transition.destinations) :
    read.map sorted = transitions := by
  induction reordered with
  | nil => rfl
  | @cons transition first _ _ reorders _ ih =>
      obtain ⟨firstAscending, laterAscending⟩ :=
        List.forall_mem_cons.mp ascending
      have same : Ascending.ofList first.destinations =
          transition.destinations := by
        apply Ascending.eq_of_mem_iff (Ascending.ofList_strictlyAscending _)
          firstAscending
        intro label
        rw [Ascending.mem_ofList, reorders.destinations.mem_iff]
      rw [List.map_cons, ih laterAscending, sorted, same, reorders.origin,
        reorders.symbol]

theorem filled_of_reorders
    (filled : ∀ transition ∈ transitions, transition.destinations ≠ []) :
    ∀ transition ∈ read, transition.destinations ≠ [] := by
  induction reordered with
  | nil => simp
  | cons reorders _ ih =>
      obtain ⟨firstFilled, laterFilled⟩ := List.forall_mem_cons.mp filled
      refine List.forall_mem_cons.mpr ⟨?_, ih laterFilled⟩
      intro none
      exact firstFilled (List.nil_perm.mp (none ▸ reorders.destinations))

end Reordered

end Transition

namespace Definition

/-- What a definition stores when it is taken for a snapshot. -/
def snapshot (definition : Definition) (kind : Kind) : Snapshot where
  kind := kind
  states := definition.states
  alphabet := definition.symbols
  initial := definition.initial
  finals := definition.finals
  transitions := definition.transitions

theorem toAutomaton_eq_restore (definition : Definition) (kind : Kind) :
    definition.toAutomaton kind = (definition.snapshot kind).restore := rfl

/-- The definition has the parts of the automaton, each in some order. -/
structure Rearranges (automaton : Automaton) (definition : Definition) :
    Prop where
  states : definition.states.Perm automaton.states
  symbols : definition.symbols.Perm automaton.alphabet
  initial : definition.initial = automaton.initialLabel
  finals : definition.finals.Perm automaton.finalLabels
  transitions : ∃ order, order.Perm automaton.snapshot.transitions ∧
    List.Forall₂ Transition.Reorders order definition.transitions

namespace Rearranges

variable {automaton : Automaton} {definition : Definition}

theorem filled (rearranges : Rearranges automaton definition)
    (wellFormed : automaton.WellFormed) :
    ∀ entry ∈ definition.transitions, entry.destinations ≠ [] := by
  obtain ⟨order, sameEntries, reordered⟩ := rearranges.transitions
  have orderFilled : ∀ entry ∈ order, entry.destinations ≠ [] :=
    fun entry member => wellFormed.snapshot_canonical.destinations_ne_nil entry
      (sameEntries.mem_iff.mp member)
  exact Transition.filled_of_reorders reordered orderFilled

theorem canonicalForm (rearranges : Rearranges automaton definition)
    (wellFormed : automaton.WellFormed) :
    (definition.snapshot automaton.kind).CanonicalForm automaton.snapshot := by
  obtain ⟨order, sameEntries, reordered⟩ := rearranges.transitions
  have canonical := wellFormed.snapshot_canonical
  have sorted := Transition.map_sorted_of_reorders reordered
    fun entry member => canonical.destinations_ascending entry
      (sameEntries.mem_iff.mp member)
  have distinct : (definition.transitions.map Transition.key).Nodup := by
    rw [Transition.map_key_of_reorders reordered]
    exact (sameEntries.map Transition.key).nodup_iff.mpr
      canonical.transitions_ordered.nodup_keys
  refine ⟨canonical, rfl, rearranges.initial.symm,
    fun _ => rearranges.states.mem_iff.symm,
    fun _ => rearranges.symbols.mem_iff.symm,
    fun _ => rearranges.finals.mem_iff.symm, ?_⟩
  intro entry
  -- No pair has two entries, so there is no later one to look for.
  simp only [snapshot, Transition.lastIn_iff_mem distinct]
  constructor
  · intro listed
    rw [← sameEntries.mem_iff, ← sorted] at listed
    obtain ⟨read, isRead, rfl⟩ := List.mem_map.mp listed
    exact ⟨read, isRead, rearranges.filled wellFormed read isRead, rfl⟩
  · intro described
    obtain ⟨read, isRead, _, rfl⟩ := described
    rw [← sameEntries.mem_iff, ← sorted]
    exact List.mem_map_of_mem isRead

/-- The parts of an automaton make up the automaton again. -/
theorem toAutomaton_eq (rearranges : Rearranges automaton definition)
    (wellFormed : automaton.WellFormed) :
    definition.toAutomaton automaton.kind = .ok automaton := by
  rw [toAutomaton_eq_restore]
  exact (rearranges.canonicalForm wellFormed).restore_eq
    (rearranges.filled wellFormed) wellFormed

end Rearranges

/-- No part is empty. -/
structure Complete (definition : Definition) : Prop where
  states : definition.states ≠ []
  symbols : definition.symbols ≠ []
  initial : definition.initial ≠ ""
  finals : definition.finals ≠ []
  transitions : definition.transitions ≠ []

theorem required_of_ne_nil {α : Type} {values : List α} (some : values ≠ [])
    (field : DefinitionField) : required field values = .ok values :=
  if_neg (mt List.isEmpty_iff.mp some)

theorem parse_of_complete {definition : Definition}
    (complete : definition.Complete)
    {states symbols initial finals : String} {entries : List String}
    (isStates : Text.labelsOf states = definition.states)
    (isSymbols : Text.labelsOf symbols = definition.symbols)
    (isInitial : Text.trim initial = definition.initial)
    (isFinals : Text.labelsOf finals = definition.finals)
    (areEntries : entries.mapM Transition.ofEntry =
      .ok definition.transitions) :
    parse states symbols initial finals entries = .ok definition := by
  have initialGiven : requiredLabel .initial initial =
      .ok definition.initial := by
    rw [requiredLabel, isInitial]
    exact if_neg complete.initial
  rw [parse, isStates, isSymbols, isFinals, areEntries, initialGiven,
    required_of_ne_nil complete.states, required_of_ne_nil complete.symbols,
    required_of_ne_nil complete.finals]
  change (required .transitions definition.transitions >>= _) = _
  rw [required_of_ne_nil complete.transitions]
  rfl

end Definition

namespace Automaton

variable {automaton : Automaton}

/-- The automaton has a definition: all labels are plain, and no part is empty.
Where there is an arc, there is a symbol, too. -/
structure Writable (automaton : Automaton) : Prop where
  wellFormed : automaton.WellFormed
  states_plain : ∀ label ∈ automaton.states, IsPlainLabel label
  symbols_plain : ∀ label ∈ automaton.alphabet, IsPlainLabel label
  finals_ne_nil : automaton.finals ≠ []
  arcs_ne_nil : automaton.arcs ≠ []

/-- The texts of a definition show the labels of the automaton, and one entry for
every pair with destinations. -/
structure WrittenAs (automaton : Automaton)
    (states symbols initial finals : String) (entries : List String) :
    Prop where
  states : Text.ListsAnyhow automaton.states states.toList
  symbols : Text.ListsAnyhow automaton.alphabet symbols.toList
  initial : Padded automaton.initialLabel.toList initial.toList
  finals : Text.ListsAnyhow automaton.finalLabels finals.toList
  entries : ∃ order, order.Perm automaton.snapshot.transitions ∧
    List.Forall₂ Transition.IsWritten order entries

theorem writtenAs_joined (automaton : Automaton) :
    automaton.WrittenAs (",".intercalate automaton.states)
      (",".intercalate automaton.alphabet) automaton.initialLabel
      (",".intercalate automaton.finalLabels)
      (automaton.snapshot.transitions.map Transition.written) where
  states := Text.listsAnyhow_intercalate automaton.states
  symbols := Text.listsAnyhow_intercalate automaton.alphabet
  initial := Text.padded_self automaton.initialLabel.toList
  finals := Text.listsAnyhow_intercalate automaton.finalLabels
  entries := by
    refine ⟨automaton.snapshot.transitions, List.Perm.refl _, ?_⟩
    rw [List.forall₂_map_right_iff, List.forall₂_same]
    exact fun entry _ => entry.isWritten_written

namespace Writable

variable (writable : automaton.Writable)

include writable

theorem state_plain {state : Nat} (inRange : state < automaton.states.length) :
    IsPlainLabel (automaton.stateLabel state) :=
  writable.states_plain _ (getD_mem inRange)

theorem initial_plain : IsPlainLabel automaton.initialLabel :=
  writable.state_plain writable.wellFormed.initial_lt

theorem finals_plain : ∀ label ∈ automaton.finalLabels, IsPlainLabel label := by
  intro label member
  obtain ⟨state, isFinal, rfl⟩ := List.mem_map.mp member
  exact writable.state_plain (writable.wellFormed.finals_lt state isFinal)

theorem transitions_plain :
    ∀ entry ∈ automaton.snapshot.transitions, entry.IsPlain := by
  intro entry member
  obtain ⟨state, stateInRange, symbol, symbolInRange, filled, rfl⟩ :=
    mem_snapshot_transitions.mp member
  refine ⟨writable.state_plain stateInRange,
    writable.symbols_plain _ (getD_mem symbolInRange), ?_,
    mt destinationLabels_eq_nil_iff.mp filled⟩
  intro label isLabel
  obtain ⟨target, leads, rfl⟩ := List.mem_map.mp isLabel
  exact writable.state_plain (writable.wellFormed.destination_lt leads)

theorem transitions_ne_nil : automaton.snapshot.transitions ≠ [] :=
  mt List.map_eq_nil_iff.mp writable.arcs_ne_nil

theorem alphabet_ne_nil : automaton.alphabet ≠ [] := by
  obtain ⟨arc, member⟩ := List.exists_mem_of_ne_nil _ writable.arcs_ne_nil
  obtain ⟨_, inRange, _⟩ := mem_arcs.mp member
  exact List.ne_nil_of_length_pos (Nat.zero_lt_of_lt inRange)

theorem complete {definition : Definition}
    (rearranges : definition.Rearranges automaton) : definition.Complete where
  states none := by
    have initialState : automaton.initialLabel ∈ automaton.states :=
      getD_mem writable.wellFormed.initial_lt
    rw [← rearranges.states.mem_iff, none] at initialState
    exact absurd initialState List.not_mem_nil
  symbols none := by
    have same := rearranges.symbols
    rw [none, List.nil_perm] at same
    exact writable.alphabet_ne_nil same
  initial := by
    rw [rearranges.initial]
    exact writable.initial_plain.nonempty
  finals none := by
    have same := rearranges.finals
    rw [none, List.nil_perm] at same
    exact writable.finals_ne_nil (List.map_eq_nil_iff.mp same)
  transitions none := by
    obtain ⟨order, same, reordered⟩ := rearranges.transitions
    rw [none, List.forall₂_nil_right_iff] at reordered
    rw [reordered, List.nil_perm] at same
    exact writable.transitions_ne_nil same

variable {states symbols initial finals : String} {entries : List String}

/-- The texts are taken apart into the parts of the automaton. -/
theorem parse_rearranges
    (written : automaton.WrittenAs states symbols initial finals entries) :
    ∃ definition,
      Definition.parse states symbols initial finals entries =
        .ok definition ∧
      definition.Rearranges automaton := by
  have sameStates := Text.labels_of_listsAnyhow written.states
    fun label member => (writable.states_plain label member).toIsItem
  have sameSymbols := Text.labels_of_listsAnyhow written.symbols
    fun label member => (writable.symbols_plain label member).toIsItem
  have sameFinals := Text.labels_of_listsAnyhow written.finals
    fun label member => (writable.finals_plain label member).toIsItem
  have sameInitial : Text.trim initial = automaton.initialLabel := by
    rw [Text.trim, written.initial.trimmed_eq
      writable.initial_plain.noBlank, String.ofList_toList]
  obtain ⟨order, sameEntries, areWritten⟩ := written.entries
  obtain ⟨read, entriesRead, reordered⟩ := Transition.mapM_ofEntry areWritten
    fun entry member =>
      writable.transitions_plain entry (sameEntries.mem_iff.mp member)
  let definition : Definition :=
    { states := Text.labelsOf states
      symbols := Text.labelsOf symbols
      initial := automaton.initialLabel
      finals := Text.labelsOf finals
      transitions := read }
  have rearranges : definition.Rearranges automaton :=
    ⟨sameStates, sameSymbols, rfl, sameFinals, order, sameEntries, reordered⟩
  exact ⟨definition, Definition.parse_of_complete
    (writable.complete rearranges) rfl rfl sameInitial rfl entriesRead,
    rearranges⟩

end Writable

/-- An automaton is written by joining its labels, and however the parts are
ordered and padded, the automaton is defined again. -/
theorem parse_written (writable : automaton.Writable) :
    automaton.WrittenAs (",".intercalate automaton.states)
        (",".intercalate automaton.alphabet) automaton.initialLabel
        (",".intercalate automaton.finalLabels)
        (automaton.snapshot.transitions.map Transition.written) ∧
      ∀ states symbols initial finals entries,
        automaton.WrittenAs states symbols initial finals entries →
        ∃ definition,
          Definition.parse states symbols initial finals entries =
            .ok definition ∧
          definition.toAutomaton automaton.kind = .ok automaton := by
  refine ⟨automaton.writtenAs_joined, ?_⟩
  intro states symbols initial finals entries written
  obtain ⟨definition, parsed, rearranges⟩ := writable.parse_rearranges written
  exact ⟨definition, parsed, rearranges.toAutomaton_eq writable.wellFormed⟩

/-- One pair has two destinations, and two pairs have none. -/
def looping : Automaton where
  kind := .nondeterministic
  states := ["p", "q"]
  alphabet := ["0", "1"]
  initial := 1
  finals := [0]
  rows := [[[0, 1], []], [[], [0]]]

theorem looping_writable : looping.Writable where
  wellFormed := by
    constructor
    all_goals decide
  states_plain := by
    refine List.forall_mem_cons.mpr ⟨?_, List.forall_mem_singleton.mpr ?_⟩
    all_goals exact ⟨⟨by decide, by decide, by decide⟩, by decide⟩
  symbols_plain := by
    refine List.forall_mem_cons.mpr ⟨?_, List.forall_mem_singleton.mpr ?_⟩
    all_goals exact ⟨⟨by decide, by decide, by decide⟩, by decide⟩
  finals_ne_nil := by decide
  arcs_ne_nil := by decide

/-- Everything is out of order, and blank characters stand everywhere. -/
theorem looping_writtenAs :
    looping.WrittenAs " q ,\tp" "1,\n0" "q " "\u3000p"
      ["q - 1-p", "p-0 -q , p"] where
  states := by
    refine ⟨["q", "p"], by decide, [[' ', 'q', ' '], ['\t', 'p']], ?_, rfl⟩
    refine .cons ⟨[' '], [' '], by decide, by decide, rfl⟩ (.cons ?_ .nil)
    exact ⟨['\t'], [], by decide, by decide, rfl⟩
  symbols := by
    refine ⟨["1", "0"], by decide, [['1'], ['\n', '0']], ?_, rfl⟩
    refine .cons (Text.padded_self _) (.cons ?_ .nil)
    exact ⟨['\n'], [], by decide, by decide, rfl⟩
  initial := ⟨[], [' '], by decide, by decide, rfl⟩
  finals := by
    refine ⟨["p"], by decide, [['\u3000', 'p']], .cons ?_ .nil, rfl⟩
    exact ⟨['\u3000'], [], by decide, by decide, rfl⟩
  entries := by
    refine ⟨[⟨"q", "1", ["p"]⟩, ⟨"p", "0", ["p", "q"]⟩], by decide,
      .cons ?_ (.cons ?_ .nil)⟩
    · refine ⟨['q', ' '], [' ', '1'], ['p'],
        ⟨[], [' '], by decide, by decide, rfl⟩,
        ⟨[' '], [], by decide, by decide, rfl⟩, ?_, rfl⟩
      exact Text.listsAnyhow_intercalate ["p"]
    · refine ⟨['p'], ['0', ' '], ['q', ' ', ',', ' ', 'p'],
        Text.padded_self _, ⟨[], [' '], by decide, by decide, rfl⟩, ?_, rfl⟩
      refine ⟨["q", "p"], by decide, [['q', ' '], [' ', 'p']], ?_, rfl⟩
      refine .cons ⟨[], [' '], by decide, by decide, rfl⟩ (.cons ?_ .nil)
      exact ⟨[' '], [], by decide, by decide, rfl⟩

theorem looping_parse :
    ∃ definition,
      Definition.parse " q ,\tp" "1,\n0" "q " "\u3000p"
        ["q - 1-p", "p-0 -q , p"] = .ok definition ∧
      definition.toAutomaton looping.kind = .ok looping :=
  (parse_written looping_writable).2 _ _ _ _ _ looping_writtenAs

end Automaton

end Recognizer
