import Recognizer.Proofs.Produced

/-!
# Sessions

In a session one automaton is changed step by step, and the records of the
additions that are still to be undone are kept beside it.  Records may be undone
in any order, so a stale list of destinations may come back; it fits the
automaton nevertheless, because it was one of its lists before and neither the
states nor the kind ever change.
-/

namespace Recognizer

inductive Change where
  | add (state symbol destination : Nat)
  /-- Undoes the record at a position among the outstanding ones. -/
  | undo (position : Nat)
deriving DecidableEq

/-- The numbers of an addition are a state, a symbol and a state. -/
def Change.InRange (automaton : Automaton) : Change → Prop
  | .add state symbol destination =>
      state < automaton.states.length ∧
        symbol < automaton.alphabet.length ∧
        destination < automaton.states.length
  | .undo _ => True

/-- An automaton and its outstanding records, oldest first. -/
structure Session where
  automaton : Automaton
  records : List Undo
deriving DecidableEq

namespace Session

/-- Makes one change.  The session goes on with what an addition leaves behind,
whether it goes through or not, and a record is used up by undoing it. -/
def perform (session : Session) : Change → Session
  | .add state symbol destination =>
      let addition := session.automaton.addTransition state symbol destination
      match addition.outcome with
      | .error _ => ⟨addition.automaton, session.records⟩
      | .ok record => ⟨addition.automaton, session.records ++ [record]⟩
  | .undo position =>
      match session.records[position]? with
      | none => session
      | some record =>
          ⟨session.automaton.undo record, session.records.eraseIdx position⟩

def run (session : Session) (changes : List Change) : Session :=
  changes.foldl perform session

/-- Everything that a change can do. -/
inductive Outcome (session : Session) : Change → Session → Prop where
  | refused {state symbol destination : Nat}
      {violation : DeterminismViolation} :
      session.automaton.add state symbol destination = .error violation →
      Outcome session (.add state symbol destination) session
  | added {state symbol destination : Nat} {extended : Automaton}
      {record : Undo} :
      session.automaton.add state symbol destination = .ok (extended, record) →
      Outcome session (.add state symbol destination)
        ⟨extended, session.records ++ [record]⟩
  | missing {position : Nat} :
      session.records[position]? = none →
      Outcome session (.undo position) session
  | undone {position : Nat} {record : Undo} :
      session.records[position]? = some record →
      Outcome session (.undo position)
        ⟨session.automaton.undo record, session.records.eraseIdx position⟩

theorem perform_outcome (session : Session) (change : Change) :
    Outcome session change (session.perform change) := by
  cases change with
  | add state symbol destination =>
      simp only [perform]
      cases result : session.automaton.add state symbol destination with
      | error violation =>
          rw [Automaton.addTransition_of_error result]
          exact .refused result
      | ok added =>
          rw [Automaton.addTransition_of_ok result]
          exact .added result
  | undo position =>
      simp only [perform]
      cases found : session.records[position]? with
      | none => exact .missing found
      | some record => exact .undone found

/-! ## What changes keep -/

theorem perform_labels (session : Session) (change : Change) :
    (session.perform change).automaton.states = session.automaton.states ∧
      (session.perform change).automaton.alphabet =
        session.automaton.alphabet := by
  have outcome := session.perform_outcome change
  generalize session.perform change = after at outcome
  cases outcome with
  | refused _ => exact ⟨rfl, rfl⟩
  | added added =>
      exact ⟨Automaton.add_states added, Automaton.add_alphabet added⟩
  | missing _ => exact ⟨rfl, rfl⟩
  | undone _ => exact ⟨rfl, rfl⟩

/-- What is in range stays so, since the labels never change. -/
theorem inRange_perform (session : Session) (change other : Change) :
    other.InRange (session.perform change).automaton ↔
      other.InRange session.automaton := by
  obtain ⟨states, alphabet⟩ := session.perform_labels change
  cases other with
  | add state symbol destination =>
      rw [Change.InRange, Change.InRange, states, alphabet]
  | undo position => exact Iff.rfl

/-- The automaton can come about, and the outstanding records are among those
that were made on the way. -/
def Reached (session : Session) : Prop :=
  ∃ records, Produced session.automaton records ∧ session.records ⊆ records

namespace Reached

variable {session : Session}

theorem perform (reached : session.Reached) {change : Change}
    (inRange : change.InRange session.automaton) :
    (session.perform change).Reached := by
  obtain ⟨records, produced, included⟩ := reached
  have outcome := session.perform_outcome change
  generalize session.perform change = after at outcome
  cases outcome with
  | refused _ => exact ⟨records, produced, included⟩
  | @added _ _ _ extended record added =>
      obtain ⟨stateInRange, symbolInRange, destinationInRange⟩ := inRange
      refine ⟨record :: records, .added produced stateInRange symbolInRange
        destinationInRange added, ?_⟩
      intro other member
      rcases List.mem_append.mp member with earlier | last
      · exact List.mem_cons_of_mem record (included earlier)
      · exact List.mem_cons.mpr (Or.inl (List.mem_singleton.mp last))
  | missing _ => exact ⟨records, produced, included⟩
  | undone found =>
      refine ⟨records,
        .undone produced (included (List.mem_of_getElem? found)), ?_⟩
      intro other member
      exact included (List.mem_of_mem_eraseIdx member)

theorem run (reached : session.Reached) {changes : List Change}
    (inRange : ∀ change ∈ changes, change.InRange session.automaton) :
    (session.run changes).Reached := by
  induction changes generalizing session with
  | nil => exact reached
  | cons change later ih =>
      apply ih (reached.perform (inRange change List.mem_cons_self))
      intro other member
      apply (inRange_perform session change other).mpr
      exact inRange other (List.mem_cons_of_mem change member)

theorem wellFormed (reached : session.Reached) :
    session.automaton.WellFormed := by
  obtain ⟨_, produced, _⟩ := reached
  exact produced.wellFormed

end Reached

/-- After any changes of an automaton that can come about, labels and positions
determine each other, the table has one entry for every state and symbol, the
entries are ascending and in range, and those of a deterministic automaton have
at most one destination.  An addition that fails leaves everything as it was. -/
theorem shape_after_run {automaton : Automaton} {records : List Undo}
    (produced : Produced automaton records) {changes : List Change}
    (inRange : ∀ change ∈ changes, change.InRange automaton)
    {session : Session}
    (result : (Session.mk automaton records).run changes = session) :
    StrictlyAscending session.automaton.states ∧
    StrictlyAscending session.automaton.alphabet ∧
    (∀ label state, session.automaton.stateIndex? label = some state ↔
      state < session.automaton.states.length ∧
        session.automaton.stateLabel state = label) ∧
    (∀ label symbol, session.automaton.symbolIndex? label = some symbol ↔
      symbol < session.automaton.alphabet.length ∧
        session.automaton.symbolLabel symbol = label) ∧
    (session.automaton.rows.length = session.automaton.states.length ∧
      ∀ row ∈ session.automaton.rows,
        row.length = session.automaton.alphabet.length) ∧
    session.automaton.rows.flatten.length =
      session.automaton.states.length * session.automaton.alphabet.length ∧
    (∀ entry ∈ session.automaton.rows.flatten, StrictlyAscending entry ∧
      ∀ destination ∈ entry,
        destination < session.automaton.states.length) ∧
    (session.automaton.kind = .deterministic →
      ∀ entry ∈ session.automaton.rows.flatten, entry.length ≤ 1) ∧
    (∀ state symbol destination violation,
      (session.automaton.addTransition state symbol destination).outcome =
          .error violation →
        (session.automaton.addTransition state symbol destination).automaton =
            session.automaton ∧
          session.perform (.add state symbol destination) = session) := by
  have started : (Session.mk automaton records).Reached :=
    ⟨records, produced, List.Subset.refl records⟩
  have wellFormed : session.automaton.WellFormed := by
    rw [← result]
    exact (started.run inRange).wellFormed
  refine ⟨wellFormed.states_ascending, wellFormed.alphabet_ascending,
    fun _ _ => wellFormed.stateIndex?_eq_some_iff,
    fun _ _ => wellFormed.symbolIndex?_eq_some_iff,
    ⟨wellFormed.row_per_state, wellFormed.entry_per_symbol⟩,
    wellFormed.length_flatten_rows, ?_, ?_, ?_⟩
  · intro entry member
    obtain ⟨row, rowMember, entryMember⟩ := List.mem_flatten.mp member
    exact ⟨wellFormed.entry_ascending row rowMember entry entryMember,
      wellFormed.entry_lt row rowMember entry entryMember⟩
  · intro deterministic entry member
    obtain ⟨row, rowMember, entryMember⟩ := List.mem_flatten.mp member
    exact wellFormed.entry_le_one deterministic row rowMember entry entryMember
  · intro state symbol destination violation refused
    have left := Automaton.addTransition_of_error
      (Automaton.add_eq_error_of_outcome refused)
    exact ⟨congrArg Addition.automaton left, by rw [perform, left]⟩

/-- A deterministic automaton with two states and no transition. -/
def idle : Automaton where
  kind := .deterministic
  states := ["0", "1"]
  alphabet := ["a"]
  initial := 0
  finals := [1]
  rows := [[[]], [[]]]

theorem idle_produced : Produced idle [] := by
  have built : (Draft.ofDeclarations
      [.states ["0", "1"], .alphabet ["a"], .initial "0",
        .finals ["1"]]).build .deterministic = .ok idle := by decide +kernel
  exact .built built

/-- The second addition fails.  The records of the first and the third are
undone oldest first, which brings the loop at the first state back. -/
theorem idle_run :
    ((Session.mk idle []).run
        [.add 0 0 0, .add 0 0 1, .add 0 0 0, .undo 0, .undo 0]) =
      ⟨{ idle with rows := [[[0]], [[]]] }, []⟩ ∧
    (∀ entry ∈ [[0], []], entry.length ≤ 1) ∧
    (Automaton.addTransition { idle with rows := [[[0]], [[]]] } 0 0
        1).automaton = { idle with rows := [[[0]], [[]]] } ∧
    (Session.mk { idle with rows := [[[0]], [[]]] } []).perform
        (.add 0 0 1) =
      ⟨{ idle with rows := [[[0]], [[]]] }, []⟩ := by
  have result : (Session.mk idle []).run
      [.add 0 0 0, .add 0 0 1, .add 0 0 0, .undo 0, .undo 0] =
        ⟨{ idle with rows := [[[0]], [[]]] }, []⟩ := by decide +kernel
  have inRange : ∀ change ∈ ([.add 0 0 0, .add 0 0 1, .add 0 0 0, .undo 0,
      .undo 0] : List Change), change.InRange idle := by
    simp [Change.InRange, idle]
  obtain ⟨_, _, _, _, _, _, _, atMostOne, failed⟩ :=
    shape_after_run idle_produced inRange result
  exact ⟨result, atMostOne rfl, failed 0 0 1 ⟨"0", "a", 2⟩ rfl⟩

end Session

end Recognizer
