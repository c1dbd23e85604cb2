import Mathlib.Data.List.Induction
import Recognizer.Proofs.Text.Readings

/-!
# Advancing through a source

Every advance takes the next line away from what is left of the source, whether or
not it is a text, and finds nothing to take behind the last one.  Looking at the
reader leaves it as it is, and taking its fault changes nothing else.  What a reader
shows after any steps is therefore known from the number of advances alone, except
for the fault, which also depends on when faults were taken.
-/

namespace Recognizer

namespace ByteSource

theorem shown?_eq_none_iff {line : List UInt8} :
    shown? line = none ↔ ¬ Utf8.IsText line := by
  rw [shown?, Option.map_eq_none_iff, Utf8.decode?_eq_none_iff]

theorem isText_of_shown? {line : List UInt8} {text : String}
    (isShown : shown? line = some text) : Utf8.IsText line := by
  apply Decidable.byContradiction
  intro noText
  rw [shown?_eq_none_iff.mpr noText] at isShown
  cases isShown

/-- The fault that the next advance meets when this many have been made. -/
inductive Meets (source : ByteSource) (advances : Nat) : ReadFault → Prop where
  | invalidText {line : List UInt8} :
      source.lines[advances]? = some line → ¬ Utf8.IsText line →
      Meets source advances .invalidText
  | unreadable :
      source.lines.length ≤ advances → source.fails = true →
      Meets source advances .unreadable

section Meets

variable {source : ByteSource} {advances : Nat} {line : List UInt8}
  {fault : ReadFault}

theorem meets_iff_of_line (isNext : source.lines[advances]? = some line) :
    Meets source advances fault ↔
      ¬ Utf8.IsText line ∧ fault = .invalidText := by
  constructor
  · intro meets
    cases meets with
    | invalidText isOther noText =>
        rw [isNext] at isOther
        cases isOther
        exact ⟨noText, rfl⟩
    | unreadable behind _ =>
        rw [List.getElem?_eq_none behind] at isNext
        cases isNext
  · rintro ⟨noText, rfl⟩
    exact .invalidText isNext noText

theorem meets_iff_of_length_le (behind : source.lines.length ≤ advances) :
    Meets source advances fault ↔
      source.fails = true ∧ fault = .unreadable := by
  constructor
  · intro meets
    cases meets with
    | invalidText isNext _ =>
        rw [List.getElem?_eq_none behind] at isNext
        cases isNext
    | unreadable _ fails => exact ⟨fails, rfl⟩
  · rintro ⟨fails, rfl⟩
    exact .unreadable behind fails

end Meets

/-- What is left of the source when that many lines have been passed.  In the end
it is nothing, even if the source fails behind bytes that are no line. -/
structure Leaves (source : ByteSource) (advances : Nat) (rest : ByteSource) :
    Prop where
  fails_eq : rest.fails = source.fails
  lines_eq : rest.lines = source.lines.drop advances
  bytes_eq : advances ≤ source.lines.length →
    (source.lines.take advances).flatten ++ rest.bytes = source.bytes
  bytes_nil : source.lines.length < advances → rest.bytes = []

theorem leaves_zero (source : ByteSource) : Leaves source 0 source where
  fails_eq := rfl
  lines_eq := rfl
  bytes_eq _ := rfl
  bytes_nil behind := absurd behind (Nat.not_lt_zero _)

section Leaves

variable {source rest : ByteSource} {advances : Nat}
  (leaves : Leaves source advances rest)

include leaves

theorem Leaves.getElem?_eq :
    source.lines[advances]? = rest.lines.head? := by
  rw [leaves.lines_eq, List.head?_drop]

theorem Leaves.line {line unread : List UInt8}
    (bytes : rest.bytes = line ++ unread)
    (first : rest.lines = line :: lines ⟨unread, rest.fails⟩) :
    source.lines[advances]? = some line ∧
      Leaves source (advances + 1) ⟨unread, rest.fails⟩ := by
  have isNext : source.lines[advances]? = some line := by
    rw [leaves.getElem?_eq, first, List.head?_cons]
  have within := (List.getElem?_eq_some_iff.mp isNext).1
  refine ⟨isNext, leaves.fails_eq, ?_, ?_, ?_⟩
  · rw [← List.tail_drop, ← leaves.lines_eq, first, List.tail_cons]
  · intro _
    rw [List.take_add_one, isNext, Option.toList_some, List.flatten_append,
      List.flatten_singleton, List.append_assoc, ← bytes]
    exact leaves.bytes_eq within.le
  · exact fun behind => absurd behind (Nat.not_lt_of_le within)

theorem Leaves.nothing (none : rest.lines = []) :
    source.lines.length ≤ advances ∧
      Leaves source (advances + 1) ⟨[], rest.fails⟩ := by
  have passed : source.lines.length ≤ advances := by
    apply List.drop_eq_nil_iff.mp
    rw [← leaves.lines_eq, none]
  refine ⟨passed, leaves.fails_eq, ?_, ?_, fun _ => rfl⟩
  · rw [lines_rest List.not_mem_nil, if_pos (Or.inr rfl)]
    exact (List.drop_eq_nil_iff.mpr (Nat.le_succ_of_le passed)).symm
  · exact fun within => absurd passed (Nat.not_le_of_lt within)

end Leaves

end ByteSource

namespace LineReader

open ByteSource

/-! ## One advance -/

/-- The next line is passed, and shown if it is a text, or there is none. -/
inductive Passed (reader : LineReader) : LineReader → Prop where
  | text {line unread : List UInt8} {text : String} :
      reader.source.bytes = line ++ unread →
      reader.source.lines = line :: lines ⟨unread, reader.source.fails⟩ →
      shown? line = some text →
      unread.length < reader.source.bytes.length →
      Passed reader
        { reader with
          source := ⟨unread, reader.source.fails⟩
          current := text
          lineNumber := reader.lineNumber + 1 }
  | noText {line unread : List UInt8} :
      reader.source.bytes = line ++ unread →
      reader.source.lines = line :: lines ⟨unread, reader.source.fails⟩ →
      shown? line = none →
      Passed reader (reader.stop .invalidText unread)
  | unreadable :
      reader.source.lines = [] → reader.source.fails = true →
      Passed reader (reader.stop .unreadable [])
  | finished :
      reader.source = .ofBytes [] →
      Passed reader { reader with ended := true }

theorem receive_passed {reader : LineReader}
    {line content unread : List UInt8}
    (bytes : reader.source.bytes = line ++ unread)
    (first : reader.source.lines =
      line :: lines ⟨unread, reader.source.fails⟩)
    (nonempty : line ≠ [])
    (decoded : shown? line = Utf8.decode? content) :
    Passed reader (reader.receive content unread) := by
  unfold receive
  split
  · rename_i noText
    exact .noText bytes first (decoded.trans noText)
  · rename_i text isText
    refine .text bytes first (decoded.trans isText) ?_
    rw [bytes, List.length_append]
    exact Nat.lt_add_of_pos_left (List.length_pos_iff.mpr nonempty)

theorem advance_passed (reader : LineReader) :
    Passed reader reader.advance := by
  by_cases ends : lineFeed ∈ reader.source.bytes
  · obtain ⟨content, later, divided, single⟩ :=
      List.eq_append_cons_of_mem ends
    have first := lines_line single later reader.source.fails
    rw [← divided] at first
    rw [advance_eq_receive single divided]
    refine receive_passed ?_ first (by simp) (shown?_line content)
    rw [divided, List.append_assoc, List.singleton_append]
  · have all := lines_rest ends reader.source.fails
    rw [advance_rest ends]
    split
    · rename_i fails
      rw [if_pos (Or.inl fails)] at all
      exact .unreadable all fails
    · rename_i succeeds
      split
      · rename_i empty
        apply Passed.finished
        rw [ofBytes, ← List.isEmpty_iff.mp empty,
          ← eq_false_of_ne_true succeeds]
      · rename_i nonempty
        rw [List.isEmpty_iff] at nonempty
        rw [if_neg (not_or.mpr ⟨succeeds, nonempty⟩)] at all
        refine receive_passed (List.append_nil _).symm ?_ nonempty
          (shown?_rest ends)
        rw [lines_rest List.not_mem_nil, if_pos (Or.inr rfl)]
        exact all

/-! ## Any number of advances -/

/-- The reader is where that many advances lead. -/
structure Stands (source : ByteSource) (advances : Nat)
    (reader : LineReader) : Prop
    extends Leaves source advances reader.source where
  running_iff : reader.ended = false ↔ advances ≤ source.lines.length ∧
    ∀ line ∈ source.lines.take advances, Utf8.IsText line
  current_shown : reader.ended = false →
    ∀ index, advances = index + 1 →
      ∃ line, source.lines[index]? = some line ∧
        shown? line = some reader.current
  lineNumber_eq : reader.lineNumber =
    (source.lines.take advances).countP (Utf8.IsText ·)

variable {source : ByteSource}

section Standing

variable {advances : Nat} {reader : LineReader}

theorem stands_start (source : ByteSource) :
    Stands source 0 (start source) where
  toLeaves := leaves_zero source
  running_iff := by simp [start]
  current_shown := by simp
  lineNumber_eq := rfl

namespace Stands

theorem of_ended (leaves : Leaves source advances reader.source)
    (ended : reader.ended = true)
    (stopped : advances ≤ source.lines.length →
      ∃ line ∈ source.lines.take advances, ¬ Utf8.IsText line)
    (counted : reader.lineNumber =
      (source.lines.take advances).countP (Utf8.IsText ·)) :
    Stands source advances reader where
  toLeaves := leaves
  running_iff := by
    rw [ended]
    apply iff_of_false Bool.true_eq_false.mp
    rintro ⟨within, texts⟩
    obtain ⟨line, member, noText⟩ := stopped within
    exact noText (texts line member)
  current_shown running := by
    rw [ended] at running
    cases running
  lineNumber_eq := counted

theorem behind (stands : Stands source advances reader) {next : LineReader}
    (none : reader.source.lines = []) (ended : next.ended = true)
    (empty : next.source = ⟨[], reader.source.fails⟩)
    (uncounted : next.lineNumber = reader.lineNumber) :
    Stands source (advances + 1) next := by
  obtain ⟨passed, leaves⟩ := stands.toLeaves.nothing none
  rw [← empty] at leaves
  apply of_ended leaves ended
  · exact fun within => absurd within (Nat.not_lt_of_le passed)
  · rw [uncounted, stands.lineNumber_eq, List.take_of_length_le passed,
      List.take_of_length_le (Nat.le_succ_of_le passed)]

theorem advance (stands : Stands source advances reader) :
    Stands source (advances + 1) reader.advance := by
  have passed := advance_passed reader
  have taken := List.take_add_one (l := source.lines) (i := advances)
  generalize reader.advance = next at passed ⊢
  cases passed with
  | @text line unread text bytes first isShown _ =>
      obtain ⟨isNext, leaves⟩ := stands.toLeaves.line bytes first
      have isText := isText_of_shown? isShown
      have within := (List.getElem?_eq_some_iff.mp isNext).1
      have bound : advances + 1 ≤ source.lines.length ↔
          advances ≤ source.lines.length := iff_of_true within within.le
      rw [isNext, Option.toList_some] at taken
      refine ⟨leaves, ?_, ?_, ?_⟩
      · rw [taken, List.forall_mem_append, List.forall_mem_singleton,
          and_iff_left isText, bound]
        exact stands.running_iff
      · intro _ index same
        cases same
        exact ⟨line, isNext, isShown⟩
      · rw [taken, List.countP_append, ← stands.lineNumber_eq]
        simp [isText]
  | @noText line unread bytes first noText =>
      obtain ⟨isNext, leaves⟩ := stands.toLeaves.line bytes first
      rw [shown?_eq_none_iff] at noText
      rw [isNext, Option.toList_some] at taken
      apply of_ended leaves rfl
      · intro _
        rw [taken]
        exact ⟨line, List.mem_concat_self, noText⟩
      · rw [taken, List.countP_append, ← stands.lineNumber_eq]
        simp [noText, stop]
  | unreadable none _ => exact stands.behind none rfl rfl rfl
  | finished empty =>
      refine stands.behind ?_ rfl ?_ rfl
      · rw [empty]
        rfl
      · simp only [empty, ofBytes]

theorem fault_advance (stands : Stands source advances reader)
    {fault : ReadFault} :
    reader.advance.fault = some fault ↔
      Meets source advances fault ∨
        reader.fault = some fault ∧ ∀ other, ¬ Meets source advances other := by
  have passed := advance_passed reader
  generalize reader.advance = next at passed ⊢
  cases passed with
  | text bytes first isShown _ =>
      obtain ⟨isNext, _⟩ := stands.toLeaves.line bytes first
      simp [meets_iff_of_line isNext, isText_of_shown? isShown]
  | noText bytes first noText =>
      obtain ⟨isNext, _⟩ := stands.toLeaves.line bytes first
      simp [meets_iff_of_line isNext, shown?_eq_none_iff.mp noText, stop,
        eq_comm]
  | unreadable none fails =>
      obtain ⟨behind, _⟩ := stands.toLeaves.nothing none
      rw [stands.fails_eq] at fails
      simp [meets_iff_of_length_le behind, fails, stop, eq_comm]
  | finished empty =>
      have none : reader.source.lines = [] := by
        rw [empty]
        rfl
      have succeeds : source.fails = false := by
        rw [← stands.fails_eq, empty]
        rfl
      obtain ⟨behind, _⟩ := stands.toLeaves.nothing none
      simp [meets_iff_of_length_le behind, succeeds]

end Stands

end Standing

/-! ## Any steps -/

/-- What can be done with a reader. -/
inductive Step where
  | advance
  | get
  | lineNumber
  | takeFault
deriving DecidableEq

/-- The reader behind a step, whatever the step shows. -/
def perform (reader : LineReader) : Step → LineReader
  | .advance => reader.advance
  | .get => reader
  | .lineNumber => reader
  | .takeFault => reader.takeFault.2

def run (reader : LineReader) (steps : List Step) : LineReader :=
  steps.foldl perform reader

def advanceCount (steps : List Step) : Nat :=
  steps.count .advance

/-- The fault was met, and since then no other one was met and none was taken. -/
def Pending (source : ByteSource) (steps : List Step) (fault : ReadFault) :
    Prop :=
  ∃ before after,
    steps = before ++ .advance :: after ∧
      Meets source (advanceCount before) fault ∧
      .takeFault ∉ after ∧
      ∀ between later, after = between ++ .advance :: later →
        ∀ other, ¬ Meets source
          (advanceCount (before ++ .advance :: between)) other

theorem run_concat (reader : LineReader) (steps : List Step) (step : Step) :
    reader.run (steps ++ [step]) = (reader.run steps).perform step :=
  List.foldl_concat ..

theorem not_pending_nil {fault : ReadFault} : ¬ Pending source [] fault := by
  rintro ⟨before, after, same, _⟩
  cases before <;> cases same

theorem pending_concat {steps : List Step} {step : Step} {fault : ReadFault} :
    Pending source (steps ++ [step]) fault ↔
      step = .advance ∧ Meets source (advanceCount steps) fault ∨
        Pending source steps fault ∧ step ≠ .takeFault ∧
          (step = .advance →
            ∀ other, ¬ Meets source (advanceCount steps) other) := by
  -- The last step is the advance that met the fault, or there were steps behind
  -- that advance already.
  constructor
  · rintro ⟨before, after, same, meets, untaken, last⟩
    rcases List.eq_nil_or_concat' after with rfl | ⟨within, final, rfl⟩
    · obtain ⟨rfl, isAdvance⟩ := List.append_inj' same rfl
      cases isAdvance
      exact Or.inl ⟨rfl, meets⟩
    · have divided : steps ++ [step] =
          (before ++ .advance :: within) ++ [final] := by
        rw [same, List.append_assoc, List.cons_append]
      obtain ⟨rfl, isFinal⟩ := List.append_inj' divided rfl
      cases isFinal
      obtain ⟨untakenWithin, untakenFinal⟩ :=
        not_or.mp (mt List.mem_append.mpr untaken)
      refine Or.inr ⟨⟨before, within, rfl, meets, untakenWithin, ?_⟩, ?_, ?_⟩
      · intro between later divides
        refine last between (later ++ [step]) ?_
        rw [divides, List.append_assoc, List.cons_append]
      · rintro rfl
        exact untakenFinal List.mem_cons_self
      · rintro rfl
        exact last within [] rfl
  · rintro (⟨rfl, meets⟩ | ⟨pending, untakenLast, lastMeets⟩)
    · refine ⟨steps, [], rfl, meets, List.not_mem_nil, ?_⟩
      intro between later divides
      cases between <;> cases divides
    · obtain ⟨before, after, rfl, meets, untaken, last⟩ := pending
      refine ⟨before, after ++ [step], by simp, meets, ?_, ?_⟩
      · rw [List.mem_append, List.mem_singleton, not_or]
        exact ⟨untaken, Ne.symm untakenLast⟩
      · intro between later divides
        rcases List.eq_nil_or_concat' later with rfl | ⟨within, final, rfl⟩
        · obtain ⟨rfl, isAdvance⟩ := List.append_inj' divides rfl
          cases isAdvance
          exact lastMeets rfl
        · have earlier : after ++ [step] =
              (between ++ .advance :: within) ++ [final] := by
            rw [divides, List.append_assoc, List.cons_append]
          obtain ⟨rfl, _⟩ := List.append_inj' earlier rfl
          exact last between within rfl

/-- What a reader that started with the source shows after the steps. -/
structure Observed (source : ByteSource) (steps : List Step)
    (reader : LineReader) : Prop where
  left : Leaves source (advanceCount steps) reader.source
  get?_isSome_iff : reader.get?.isSome = true ↔
    advanceCount steps ≤ source.lines.length ∧
      ∀ line ∈ source.lines.take (advanceCount steps), Utf8.IsText line
  get?_shown : ∀ index text, advanceCount steps = index + 1 →
    reader.get? = some text →
      ∃ line, source.lines[index]? = some line ∧ shown? line = some text
  get?_stays : reader.get? = none → ∀ later, (reader.run later).get? = none
  lineNumber_eq : reader.lineNumber =
    (source.lines.take (advanceCount steps)).countP (Utf8.IsText ·)
  takeFault_iff : ∀ fault,
    reader.takeFault.1 = some fault ↔ Pending source steps fault

theorem get?_eq_none_iff {reader : LineReader} :
    reader.get? = none ↔ reader.ended = true := by
  simp [get?]

theorem get?_eq_some_iff {reader : LineReader} {text : String} :
    reader.get? = some text ↔
      reader.ended = false ∧ reader.current = text := by
  simp [get?]

theorem ended_perform {reader : LineReader} (ended : reader.ended = true)
    (step : Step) : (reader.perform step).ended = true := by
  cases step with
  | get => exact ended
  | lineNumber => exact ended
  | takeFault => exact ended
  | advance =>
      have passed := advance_passed reader
      rw [perform]
      generalize reader.advance = next at passed ⊢
      cases passed with
      | text _ _ _ _ => exact ended
      | noText _ _ _ => rfl
      | unreadable _ _ => rfl
      | finished _ => rfl

theorem ended_run {reader : LineReader} (ended : reader.ended = true)
    (steps : List Step) : (reader.run steps).ended = true := by
  induction steps generalizing reader with
  | nil => exact ended
  | cons step later ih => exact ih (ended_perform ended step)

theorem stands_perform {reader : LineReader} {steps : List Step}
    (stands : Stands source (advanceCount steps) reader) (step : Step) :
    Stands source (advanceCount (steps ++ [step])) (reader.perform step) := by
  rw [advanceCount, List.count_append, ← advanceCount]
  cases step with
  | advance => exact stands.advance
  | get => exact stands
  | lineNumber => exact stands
  | takeFault =>
      exact ⟨stands.toLeaves, stands.running_iff, stands.current_shown,
        stands.lineNumber_eq⟩

theorem stands_run (source : ByteSource) (steps : List Step) :
    Stands source (advanceCount steps) ((start source).run steps) := by
  -- From the end, since a step finds what all earlier ones have left.
  induction steps using List.reverseRecOn with
  | nil => exact stands_start source
  | append_singleton steps step ih =>
      rw [run_concat]
      exact stands_perform ih step

theorem fault_run (source : ByteSource) (steps : List Step)
    (fault : ReadFault) :
    ((start source).run steps).fault = some fault ↔
      Pending source steps fault := by
  induction steps using List.reverseRecOn with
  | nil =>
      exact iff_of_false (by simp [run, start]) not_pending_nil
  | append_singleton steps step ih =>
      rw [run_concat, pending_concat, ← ih]
      cases step with
      | advance => simp [perform, (stands_run source steps).fault_advance]
      | get => simp [perform]
      | lineNumber => simp [perform]
      | takeFault => simp [perform, takeFault]

/-- Whatever the steps are, the reader has passed one line with every advance. -/
theorem observed_run (source : ByteSource) (steps : List Step) :
    Observed source steps ((start source).run steps) := by
  have stands := stands_run source steps
  refine ⟨stands.toLeaves, ?_, ?_, ?_, stands.lineNumber_eq,
    fault_run source steps⟩
  · rw [← stands.running_iff]
    simp [get?]
  · intro index text sameIndex shows
    obtain ⟨running, rfl⟩ := get?_eq_some_iff.mp shows
    exact stands.current_shown running index sameIndex
  · intro none later
    exact get?_eq_none_iff.mpr (ended_run (get?_eq_none_iff.mp none) later)

/-- Behind a line that is no text nothing is shown, but the next line counts. -/
example :
    let reader := (start (.ofBytes [0xff, 0x0a, 0x62, 0x0a])).run
      [.advance, .advance]
    (reader.get?, reader.lineNumber, reader.fault) =
      (none, 1, some .invalidText) := by decide +kernel

end LineReader

end Recognizer
