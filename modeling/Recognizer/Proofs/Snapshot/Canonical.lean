import Recognizer.Proofs.Automaton.Violations
import Recognizer.Proofs.Snapshot.Restoring

/-!
# Canonical snapshots

A snapshot may list its labels in any order and repeatedly, and it may have
several entries for one origin and symbol, of which the last one counts.  What is
restored from it has a snapshot of its own, its canonical form: everything in
order and once, and nothing about pairs without destinations.  The snapshots that
come back as they were are exactly those that are canonical already.
-/

namespace Recognizer

namespace Transition

/-- The same entry with each destination once and in order. -/
def sorted (entry : Transition) : Transition :=
  { entry with destinations := Ascending.ofList entry.destinations }

/-- The entry is listed, and none of the same origin and symbol comes later. -/
def LastIn (entry : Transition) (transitions : List Transition) : Prop :=
  ∃ before after, transitions = before ++ entry :: after ∧
    ∀ other ∈ after, other.key ≠ entry.key

variable {transitions : List Transition}

theorem sorted_eq_self {entry : Transition}
    (ascending : StrictlyAscending entry.destinations) :
    entry.sorted = entry := by
  rw [sorted, Ascending.ofList_eq_self ascending]

theorem LastIn.mem {entry : Transition} (last : entry.LastIn transitions) :
    entry ∈ transitions := by
  obtain ⟨before, after, rfl, _⟩ := last
  simp

theorem exists_lastIn {key : List String}
    (listed : ∃ entry ∈ transitions, entry.key = key) :
    ∃ last : Transition, last.LastIn transitions ∧ last.key = key := by
  induction transitions with
  | nil =>
      obtain ⟨entry, member, _⟩ := listed
      exact absurd member List.not_mem_nil
  | cons head tail ih =>
      by_cases later : ∃ entry ∈ tail, entry.key = key
      · obtain ⟨last, ⟨before, after, rfl, final⟩, sameKey⟩ := ih later
        exact ⟨last, ⟨head :: before, after, rfl, final⟩, sameKey⟩
      · obtain ⟨entry, member, rfl⟩ := listed
        rcases List.mem_cons.mp member with rfl | inTail
        · exact ⟨entry, ⟨[], tail, rfl, fun other otherMember sameKey =>
            later ⟨other, otherMember, sameKey⟩⟩, rfl⟩
        · exact absurd ⟨entry, inTail, rfl⟩ later

theorem lastIn_iff_mem (distinct : (transitions.map key).Nodup)
    {entry : Transition} : entry.LastIn transitions ↔ entry ∈ transitions := by
  constructor
  · exact LastIn.mem
  · intro member
    obtain ⟨before, after, rfl⟩ := List.append_of_mem member
    rw [List.map_append, List.map_cons] at distinct
    obtain ⟨_, fromEntry, _⟩ := List.nodup_append.mp distinct
    obtain ⟨onlyEntry, _⟩ := List.nodup_cons.mp fromEntry
    refine ⟨before, after, rfl, fun other otherMember sameKey => ?_⟩
    exact onlyEntry (sameKey ▸ List.mem_map_of_mem otherMember)

end Transition

theorem TransitionTable.Ordered.nodup_keys {table : TransitionTable}
    (ordered : Ordered table) : (table.map Transition.key).Nodup :=
  (List.pairwise_map.mpr ordered).nodup

theorem TransitionTable.Ordered.eq_of_mem_iff {first second : TransitionTable}
    (firstOrdered : Ordered first) (secondOrdered : Ordered second)
    (same : ∀ entry, entry ∈ first ↔ entry ∈ second) : first = second := by
  have irreflexive : Std.Irrefl fun earlier later : Transition =>
      earlier.key < later.key := ⟨fun _ => List.lt_irrefl _⟩
  have antisymmetric : Std.Antisymm fun earlier later : Transition =>
      earlier.key < later.key :=
    ⟨fun _ _ below above =>
      absurd (List.lt_trans below above) (List.lt_irrefl _)⟩
  exact List.Pairwise.eq_of_mem_iff firstOrdered secondOrdered same

namespace Snapshot

variable {snapshot form : Snapshot}

/-- Everything is listed once and in order, and only pairs with destinations
have an entry. -/
structure Canonical (snapshot : Snapshot) : Prop where
  states_ascending : StrictlyAscending snapshot.states
  alphabet_ascending : StrictlyAscending snapshot.alphabet
  finals_ascending : StrictlyAscending snapshot.finals
  transitions_ordered : TransitionTable.Ordered snapshot.transitions
  destinations_ne_nil : ∀ entry ∈ snapshot.transitions,
    entry.destinations ≠ []
  destinations_ascending : ∀ entry ∈ snapshot.transitions,
    StrictlyAscending entry.destinations

/-- A canonical snapshot with the same kind, initial state, labels and final
states, whose entries are the sorted last entries that have a destination. -/
structure CanonicalForm (snapshot form : Snapshot) : Prop where
  canonical : form.Canonical
  kind_eq : form.kind = snapshot.kind
  initial_eq : form.initial = snapshot.initial
  mem_states : ∀ label, label ∈ form.states ↔ label ∈ snapshot.states
  mem_alphabet : ∀ label, label ∈ form.alphabet ↔ label ∈ snapshot.alphabet
  mem_finals : ∀ label, label ∈ form.finals ↔ label ∈ snapshot.finals
  mem_transitions : ∀ entry, entry ∈ form.transitions ↔
    ∃ last : Transition, last.LastIn snapshot.transitions ∧
      last.destinations ≠ [] ∧ entry = last.sorted

theorem CanonicalForm.unique {other : Snapshot}
    (isForm : snapshot.CanonicalForm form)
    (otherIsForm : snapshot.CanonicalForm other) : form = other := by
  have states_eq : form.states = other.states :=
    Ascending.eq_of_mem_iff isForm.canonical.states_ascending
      otherIsForm.canonical.states_ascending
      fun label => (isForm.mem_states label).trans
        (otherIsForm.mem_states label).symm
  have alphabet_eq : form.alphabet = other.alphabet :=
    Ascending.eq_of_mem_iff isForm.canonical.alphabet_ascending
      otherIsForm.canonical.alphabet_ascending
      fun label => (isForm.mem_alphabet label).trans
        (otherIsForm.mem_alphabet label).symm
  have finals_eq : form.finals = other.finals :=
    Ascending.eq_of_mem_iff isForm.canonical.finals_ascending
      otherIsForm.canonical.finals_ascending
      fun label => (isForm.mem_finals label).trans
        (otherIsForm.mem_finals label).symm
  have transitions_eq : form.transitions = other.transitions := by
    apply TransitionTable.Ordered.eq_of_mem_iff
      isForm.canonical.transitions_ordered
      otherIsForm.canonical.transitions_ordered
    intro entry
    rw [isForm.mem_transitions, otherIsForm.mem_transitions]
  have kind_eq : form.kind = other.kind :=
    isForm.kind_eq.trans otherIsForm.kind_eq.symm
  have initial_eq : form.initial = other.initial :=
    isForm.initial_eq.trans otherIsForm.initial_eq.symm
  cases form
  cases other
  simp only [mk.injEq]
  exact ⟨kind_eq, states_eq, alphabet_eq, initial_eq, finals_eq,
    transitions_eq⟩

theorem canonicalForm_self_iff :
    snapshot.CanonicalForm snapshot ↔ snapshot.Canonical := by
  constructor
  · exact CanonicalForm.canonical
  · intro canonical
    refine ⟨canonical, rfl, rfl, fun _ => Iff.rfl, fun _ => Iff.rfl,
      fun _ => Iff.rfl, ?_⟩
    intro entry
    simp only [Transition.lastIn_iff_mem
      canonical.transitions_ordered.nodup_keys]
    constructor
    · intro member
      exact ⟨entry, member, canonical.destinations_ne_nil entry member,
        (Transition.sorted_eq_self
          (canonical.destinations_ascending entry member)).symm⟩
    · intro listed
      obtain ⟨last, member, _, rfl⟩ := listed
      rw [Transition.sorted_eq_self
        (canonical.destinations_ascending last member)]
      exact member

/-! ## What a snapshot records -/

theorem recorded_of_lastIn {entry : Transition}
    (last : entry.LastIn snapshot.transitions) :
    Recorded snapshot.declarations entry := by
  obtain ⟨before, after, split, final⟩ := last
  have declared : snapshot.declarations =
      (.states snapshot.states :: .alphabet snapshot.alphabet
          :: .initial snapshot.initial :: .finals snapshot.finals
          :: before.map .transition)
        ++ .transition entry :: after.map .transition := by
    simp [declarations, split]
  have nothingAdded : (after.map Declaration.transition).filterMap
      (Declaration.added? entry.origin entry.symbol) = [] := by
    simp [List.filterMap_map, Function.comp_def, Declaration.added?]
  have recorded := Recorded.replaced declared (by
    intro others member
    obtain ⟨other, otherMember, same⟩ := List.mem_map.mp member
    cases same
    exact final _ otherMember rfl)
  rw [nothingAdded, List.append_nil] at recorded
  exact recorded

theorem recorded_iff_lastIn {entry : Transition} :
    Recorded snapshot.declarations entry ↔
      entry.LastIn snapshot.transitions := by
  constructor
  · intro recorded
    obtain ⟨origin, symbol, destinations⟩ := entry
    obtain ⟨⟨declaration, declared, concerns⟩, rfl⟩ :=
      recorded_iff_foldl.mp recorded
    have mentioned : ∃ entry ∈ snapshot.transitions,
        entry.key = [origin, symbol] := by
      rcases mem_declarations.mp declared with
        rfl | rfl | rfl | rfl | ⟨entry, listed, rfl⟩
      · exact absurd concerns id
      · exact absurd concerns id
      · exact absurd concerns id
      · exact absurd concerns id
      · exact ⟨entry, listed, concerns⟩
    obtain ⟨⟨source, label, others⟩, last, sameKey⟩ :=
      Transition.exists_lastIn mentioned
    obtain ⟨rfl, rfl⟩ : source = origin ∧ label = symbol := by
      simpa [Transition.key] using sameKey
    obtain ⟨_, rfl⟩ := recorded_iff_foldl.mp (recorded_of_lastIn last)
    exact last
  · exact recorded_of_lastIn

end Snapshot

/-! ## The snapshot of an automaton -/

namespace Automaton

variable {automaton : Automaton}

theorem WellFormed.labels_ascending (wellFormed : automaton.WellFormed)
    {positions : List Nat} (ascending : StrictlyAscending positions)
    (inRange : ∀ position ∈ positions, position < automaton.states.length) :
    StrictlyAscending (positions.map automaton.stateLabel) := by
  rw [StrictlyAscending, List.pairwise_map]
  apply ascending.imp_of_mem
  intro first second firstMember secondMember below
  exact (wellFormed.stateLabel_lt_iff (inRange first firstMember)
    (inRange second secondMember)).mpr below

theorem WellFormed.destinationLabels_ascending
    (wellFormed : automaton.WellFormed) (state symbol : Nat) :
    StrictlyAscending (automaton.destinationLabels state symbol) :=
  wellFormed.labels_ascending (wellFormed.destinations_ascending state symbol)
    fun _ => wellFormed.destination_lt

theorem destinationLabels_eq_nil_iff {state symbol : Nat} :
    automaton.destinationLabels state symbol = [] ↔
      automaton.destinations state symbol = [] :=
  List.map_eq_nil_iff

theorem mem_snapshot_transitions {entry : Transition} :
    entry ∈ automaton.snapshot.transitions ↔
      ∃ state < automaton.states.length,
        ∃ symbol < automaton.alphabet.length,
          automaton.destinations state symbol ≠ [] ∧
            entry = ⟨automaton.stateLabel state, automaton.symbolLabel symbol,
              automaton.destinationLabels state symbol⟩ := by
  simp only [snapshot, List.mem_map, mem_arcs]
  constructor
  · intro listed
    obtain ⟨arc, ⟨stateInRange, symbolInRange, same, filled⟩, rfl⟩ := listed
    rw [same] at filled
    refine ⟨arc.state, stateInRange, arc.symbol, symbolInRange, filled, ?_⟩
    rw [transitionOf, destinationLabels, ← same]
  · intro described
    obtain ⟨state, stateInRange, symbol, symbolInRange, filled, rfl⟩ :=
      described
    exact ⟨⟨state, symbol, automaton.destinations state symbol⟩,
      ⟨stateInRange, symbolInRange, rfl, filled⟩, rfl⟩

/-- Entries are listed by state and then by symbol, which is the order of their
labels. -/
theorem WellFormed.snapshot_ordered (wellFormed : automaton.WellFormed) :
    TransitionTable.Ordered automaton.snapshot.transitions := by
  rw [TransitionTable.Ordered, snapshot, List.pairwise_map]
  apply (automaton.entries_ordered.filter _).imp_of_mem
  intro first second firstMember secondMember precedes
  obtain ⟨firstState, firstSymbol, _⟩ := mem_arcs.mp firstMember
  obtain ⟨secondState, secondSymbol, _⟩ := mem_arcs.mp secondMember
  simp only [Transition.key, transitionOf, List.cons_lt_cons_iff,
    List.lt_irrefl, and_false, or_false]
  rcases precedes with before | ⟨same, before⟩
  · exact Or.inl ((wellFormed.stateLabel_lt_iff firstState secondState).mpr
      before)
  · exact Or.inr ⟨by rw [same], (getD_lt_getD_iff
      wellFormed.alphabet_ascending firstSymbol secondSymbol).mpr before⟩

theorem WellFormed.snapshot_canonical (wellFormed : automaton.WellFormed) :
    automaton.snapshot.Canonical where
  states_ascending := wellFormed.states_ascending
  alphabet_ascending := wellFormed.alphabet_ascending
  finals_ascending :=
    wellFormed.labels_ascending wellFormed.finals_ascending
      wellFormed.finals_lt
  transitions_ordered := wellFormed.snapshot_ordered
  destinations_ne_nil := by
    intro entry member
    obtain ⟨state, _, symbol, _, filled, rfl⟩ :=
      mem_snapshot_transitions.mp member
    exact fun none => filled (destinationLabels_eq_nil_iff.mp none)
  destinations_ascending := by
    intro entry member
    obtain ⟨state, _, symbol, _, _, rfl⟩ := mem_snapshot_transitions.mp member
    exact wellFormed.destinationLabels_ascending state symbol

end Automaton

namespace Draft

variable {draft : Draft} {kind : Kind}

theorem destinationLabels_assemble (consistent : draft.Consistent)
    (wellFormed : (draft.assemble kind).WellFormed) {state symbol : Nat}
    (stateInRange : state < (draft.assemble kind).states.length)
    (symbolInRange : symbol < (draft.assemble kind).alphabet.length) :
    (draft.assemble kind).destinationLabels state symbol =
      Ascending.ofList (TransitionTable.destinations draft.transitions
        ((draft.assemble kind).stateLabel state)
        ((draft.assemble kind).symbolLabel symbol)) := by
  apply Ascending.eq_of_mem_iff
    (wellFormed.destinationLabels_ascending state symbol)
    (Ascending.ofList_strictlyAscending _)
  intro label
  rw [mem_destinationLabels_assemble stateInRange symbolInRange,
    Ascending.mem_ofList]
  apply and_iff_right_of_imp
  intro member
  rcases TransitionTable.destinations_eq_nil_or_mem draft.transitions
    ((draft.assemble kind).stateLabel state)
    ((draft.assemble kind).symbolLabel symbol) with none | entry
  · rw [none] at member
    exact absurd member List.not_mem_nil
  · exact (consistent.transitions_declared _ entry).2.2 label member

/-- The entries of the assembled automaton are the sorted entries of the draft
that have a destination. -/
theorem mem_snapshot_assemble (consistent : draft.Consistent)
    (wellFormed : (draft.assemble kind).WellFormed)
    (ordered : TransitionTable.Ordered draft.transitions)
    {entry : Transition} :
    entry ∈ (draft.assemble kind).snapshot.transitions ↔
      ∃ recorded ∈ draft.transitions, recorded.destinations ≠ [] ∧
        entry = recorded.sorted := by
  rw [Automaton.mem_snapshot_transitions]
  constructor
  · intro listed
    obtain ⟨state, stateInRange, symbol, symbolInRange, filled, rfl⟩ := listed
    have sorted := destinationLabels_assemble consistent wellFormed
      stateInRange symbolInRange
    rw [ne_eq, ← Automaton.destinationLabels_eq_nil_iff, sorted,
      Ascending.ofList_eq_nil_iff] at filled
    rw [sorted]
    rcases TransitionTable.destinations_eq_nil_or_mem draft.transitions
      ((draft.assemble kind).stateLabel state)
      ((draft.assemble kind).symbolLabel symbol) with none | member
    · exact absurd none filled
    · exact ⟨_, member, filled, rfl⟩
  · intro recorded
    obtain ⟨entry, member, filled, rfl⟩ := recorded
    obtain ⟨state, symbol, placed⟩ :
        ∃ state symbol, Placed draft kind entry state symbol :=
      exists_placed consistent ordered member
    have sorted := destinationLabels_assemble consistent wellFormed
      placed.state_lt placed.symbol_lt
    rw [placed.origin_eq, placed.symbol_eq,
      TransitionTable.destinations_of_mem ordered member] at sorted
    refine ⟨state, placed.state_lt, symbol, placed.symbol_lt, ?_, ?_⟩
    · rw [ne_eq, ← Automaton.destinationLabels_eq_nil_iff, sorted,
        Ascending.ofList_eq_nil_iff]
      exact filled
    · rw [sorted, placed.origin_eq, placed.symbol_eq, Transition.sorted]

end Draft

namespace Snapshot

variable {snapshot : Snapshot} {automaton : Automaton}

theorem canonicalForm_of_restore (restored : snapshot.restore = .ok automaton) :
    snapshot.CanonicalForm automaton.snapshot := by
  have wellFormed := Draft.build_wellFormed restored
  obtain ⟨consistent, _, rfl⟩ : snapshot.draft.Consistent ∧ _ ∧
      snapshot.draft.assemble snapshot.kind = automaton :=
    Draft.build_eq_ok_iff.mp restored
  have ordered : TransitionTable.Ordered snapshot.draft.transitions :=
    Draft.transitions_ofDeclarations_ordered snapshot.declarations
  have mem_states : ∀ label,
      label ∈ (snapshot.draft.assemble snapshot.kind).states ↔
        label ∈ snapshot.states := by
    intro label
    rw [Draft.mem_states_assemble, draft_states]
  have mem_alphabet : ∀ label,
      label ∈ (snapshot.draft.assemble snapshot.kind).alphabet ↔
        label ∈ snapshot.alphabet := by
    intro label
    rw [Draft.mem_alphabet_assemble, draft_alphabet]
  have mem_finals : ∀ label,
      label ∈ (snapshot.draft.assemble snapshot.kind).finalLabels ↔
        label ∈ snapshot.finals := by
    intro label
    rw [Draft.mem_finalLabels_assemble,
      and_iff_right_of_imp (consistent.finals_declared label), draft_finals]
  have initial_eq :
      (snapshot.draft.assemble snapshot.kind).initialLabel =
        snapshot.initial :=
    Draft.initialLabel_assemble consistent draft_initial
  refine ⟨wellFormed.snapshot_canonical, rfl, initial_eq, mem_states,
    mem_alphabet, mem_finals, ?_⟩
  intro entry
  rw [Draft.mem_snapshot_assemble consistent wellFormed ordered]
  simp only [draft, Draft.mem_transitions_ofDeclarations, recorded_iff_lastIn]

/-! ## Restoring from another form -/

section Form

variable (isForm : snapshot.CanonicalForm automaton.snapshot)
  (filled : ∀ entry ∈ snapshot.transitions, entry.destinations ≠ [])

include isForm filled

theorem CanonicalForm.recorded {entry : Transition}
    (recorded : entry ∈ snapshot.draft.transitions) :
    ∃ state < automaton.states.length, ∃ symbol < automaton.alphabet.length,
      entry.sorted = ⟨automaton.stateLabel state,
        automaton.symbolLabel symbol,
        automaton.destinationLabels state symbol⟩ := by
  have last := recorded_iff_lastIn.mp
    (Draft.mem_transitions_ofDeclarations.mp recorded)
  obtain ⟨state, stateInRange, symbol, symbolInRange, _, same⟩ :=
    Automaton.mem_snapshot_transitions.mp ((isForm.mem_transitions _).mpr
      ⟨entry, last, filled entry last.mem, rfl⟩)
  exact ⟨state, stateInRange, symbol, symbolInRange, same⟩

variable (wellFormed : automaton.WellFormed)

include wellFormed

theorem CanonicalForm.consistent : snapshot.draft.Consistent where
  initial_declared := by
    rw [draft_states, draft_initial]
    refine ⟨snapshot.initial, (isForm.mem_states _).mp ?_, rfl⟩
    rw [← isForm.initial_eq]
    exact getD_mem wellFormed.initial_lt
  finals_declared := by
    rw [draft_states, draft_finals]
    intro label member
    obtain ⟨state, final, rfl⟩ :=
      List.mem_map.mp ((isForm.mem_finals label).mpr member)
    exact (isForm.mem_states _).mp
      (getD_mem (wellFormed.finals_lt state final))
  transitions_declared := by
    rw [draft_states, draft_alphabet]
    intro entry recorded
    obtain ⟨state, stateInRange, symbol, symbolInRange, same⟩ :=
      isForm.recorded filled recorded
    simp only [Transition.sorted, Transition.mk.injEq] at same
    obtain ⟨sameOrigin, sameSymbol, sameDestinations⟩ := same
    refine ⟨?_, ?_, ?_⟩
    · rw [sameOrigin]
      exact (isForm.mem_states _).mp (getD_mem stateInRange)
    · rw [sameSymbol]
      exact (isForm.mem_alphabet _).mp (getD_mem symbolInRange)
    · intro label member
      have sorted := Ascending.mem_ofList.mpr member
      rw [sameDestinations] at sorted
      obtain ⟨target, leads, rfl⟩ := List.mem_map.mp sorted
      exact (isForm.mem_states _).mp
        (getD_mem (wellFormed.destination_lt leads))

/-- A snapshot of which every entry has a destination is restored as the
automaton with its canonical form. -/
theorem CanonicalForm.restore_eq : snapshot.restore = .ok automaton := by
  have consistent := isForm.consistent filled wellFormed
  have ordered : TransitionTable.Ordered snapshot.draft.transitions :=
    Draft.transitions_ofDeclarations_ordered snapshot.declarations
  have atMostOne : snapshot.kind = .deterministic →
      (snapshot.draft.assemble snapshot.kind).violation? = none := by
    intro deterministic
    rw [← isForm.kind_eq] at deterministic
    apply (Draft.violation?_assemble_eq_none_iff consistent ordered).mpr
    intro entry recorded
    obtain ⟨state, _, symbol, _, same⟩ :=
      isForm.recorded filled recorded
    have sorted := congrArg (List.length ∘ Transition.destinations) same
    simp only [Function.comp_apply, Transition.sorted,
      Ascending.length_ofList, Automaton.destinationLabels,
      List.length_map] at sorted
    rw [sorted]
    exact wellFormed.destinations_le_one deterministic state symbol
  have restored : snapshot.restore =
      .ok (snapshot.draft.assemble snapshot.kind) :=
    Draft.build_eq_ok_iff.mpr ⟨consistent, atMostOne, rfl⟩
  have sameForm := (canonicalForm_of_restore restored).unique isForm
  have again := Automaton.restore_snapshot (Draft.build_wellFormed restored)
  rw [sameForm, Automaton.restore_snapshot wellFormed] at again
  rw [restored, again]

end Form

/-! ## Snapshots that come back -/

/-- Exactly the canonical snapshots come back as they were.  In general it is
the canonical form that comes back, and there is only one. -/
theorem snapshot_of_restored (restored : snapshot.restore = .ok automaton) :
    (automaton.snapshot = snapshot ↔ snapshot.Canonical) ∧
      ∀ form, snapshot.CanonicalForm form ↔ form = automaton.snapshot := by
  have isForm := canonicalForm_of_restore restored
  constructor
  · rw [← canonicalForm_self_iff]
    constructor
    · intro same
      rw [same] at isForm
      exact isForm
    · exact isForm.unique
  · intro form
    constructor
    · exact fun otherIsForm => otherIsForm.unique isForm
    · rintro rfl
      exact isForm

/-- Labels are repeated and out of order, one entry is replaced later, and one
pair is cleared again. -/
def disordered : Snapshot where
  kind := .nondeterministic
  states := ["q", "p", "q", "r"]
  alphabet := ["b", "a", "b"]
  initial := "q"
  finals := ["r", "p", "r"]
  transitions :=
    [⟨"q", "b", ["q"]⟩, ⟨"q", "a", ["p"]⟩, ⟨"p", "a", ["r"]⟩,
      ⟨"q", "b", ["r", "p", "r"]⟩, ⟨"p", "a", []⟩]

theorem disordered_restored :
    ∃ automaton, disordered.restore = .ok automaton ∧
      ¬ disordered.Canonical ∧
      ∀ form, disordered.CanonicalForm form ↔
        form =
          { kind := .nondeterministic
            states := ["p", "q", "r"]
            alphabet := ["a", "b"]
            initial := "q"
            finals := ["p", "r"]
            transitions := [⟨"q", "a", ["p"]⟩, ⟨"q", "b", ["p", "r"]⟩] } := by
  let automaton : Automaton :=
    { kind := .nondeterministic
      states := ["p", "q", "r"]
      alphabet := ["a", "b"]
      initial := 1
      finals := [0, 2]
      rows := [[[], []], [[0], [0, 2]], [[], []]] }
  have restored : disordered.restore = .ok automaton := by decide +kernel
  obtain ⟨same_iff, form_iff⟩ := snapshot_of_restored restored
  have changed : automaton.snapshot ≠ disordered := by decide +kernel
  exact ⟨automaton, restored, fun canonical =>
    changed (same_iff.mpr canonical), form_iff⟩

end Snapshot

end Recognizer
