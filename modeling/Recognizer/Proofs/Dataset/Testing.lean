import Mathlib.Data.List.Forall2
import Recognizer.Proofs.Dataset.Rows
import Recognizer.Proofs.Text.Collecting

/-!
# Reading a test set

Two kinds of faults are met along the readings of a source: a line that cannot be
read, and a row that is malformed.  The one that is met first is reported.  The
header is not looked at, but where it cannot be read the lines have ended before the
first row, and its fault is still there to be reported.

A line is therefore judged on its own.  Put between the lines of a test set that can
be read, it adds the row it is divided into, or is the one that is reported.
-/

namespace Recognizer

namespace TestSet

/-- What is recorded of a line. -/
def Records (positiveLabel line : String) (entry : LabeledWord) : Prop :=
  ∃ row, Row.Divides line row ∧ entry = ⟨row.label == positiveLabel, row.word⟩

/-- The line is skipped or holds a row. -/
def Passes (line : String) : Prop :=
  isBlankLine line = true ∨ ∃ row, Row.Divides line row

variable {positiveLabel : String}

/-! ## Rows -/

theorem ofLine_eq_ok_iff {line : String} {entry : LabeledWord} :
    ofLine positiveLabel line = .ok entry ↔
      Records positiveLabel line entry := by
  unfold ofLine Records
  simp only [← Row.parse?_eq_some_iff]
  cases Row.parse? line with
  | none => simp
  | some row => simp [eq_comm]

theorem ofLine_of_divides {line : String} {row : Row}
    (divides : Row.Divides line row) :
    ofLine positiveLabel line =
      .ok ⟨row.label == positiveLabel, row.word⟩ :=
  ofLine_eq_ok_iff.mpr ⟨row, divides, rfl⟩

theorem ofLine_of_no_row {line : String}
    (noRow : ¬ ∃ row, Row.Divides line row) :
    ofLine positiveLabel line = .error (.invalidRow line) := by
  simp only [← Row.parse?_eq_some_iff] at noRow
  rw [ofLine, Option.eq_none_iff_forall_ne_some.mpr (not_exists.mp noRow)]

theorem ofLines_cons (line : String) (later : List String) :
    ofLines positiveLabel (line :: later) =
      if isBlankLine line then ofLines positiveLabel later
      else
        match ofLine positiveLabel line with
        | .error fault => .error fault
        | .ok entry => (ofLines positiveLabel later).map (entry :: ·) := by
  cases blank : isBlankLine line with
  | true => simp [ofLines, blank]
  | false =>
      simp only [ofLines, List.filter_cons, blank, Bool.not_false, if_true,
        List.mapM_cons, Bool.false_eq_true, if_false]
      cases ofLine positiveLabel line with
      | error fault => rfl
      | ok entry =>
          cases List.mapM (ofLine positiveLabel)
            (List.filter (!isBlankLine ·) later) <;> rfl

theorem ofLines_append (first second : List String) :
    ofLines positiveLabel (first ++ second) =
      match ofLines positiveLabel first with
      | .error fault => .error fault
      | .ok words => (ofLines positiveLabel second).map (words ++ ·) := by
  induction first with
  | nil =>
      rw [List.nil_append]
      cases ofLines positiveLabel second <;> rfl
  | cons line first ih =>
      rw [List.cons_append, ofLines_cons, ofLines_cons]
      split
      · exact ih
      · rw [ih]
        cases ofLine positiveLabel line with
        | error fault => rfl
        | ok entry =>
            cases ofLines positiveLabel first with
            | error fault => rfl
            | ok words => cases ofLines positiveLabel second <;> rfl

/-- The entries are those of the lines that are not skipped, one by one. -/
theorem ofLines_eq_ok_iff {lines : List String} {words : List LabeledWord} :
    ofLines positiveLabel lines = .ok words ↔
      List.Forall₂ (Records positiveLabel)
        (lines.filter (!isBlankLine ·)) words := by
  induction lines generalizing words with
  | nil => simp [ofLines, pure, Except.pure, eq_comm]
  | cons line later ih =>
      rw [ofLines_cons]
      cases blank : isBlankLine line with
      | true =>
          rw [if_pos rfl, List.filter_cons_of_neg (by simp [blank])]
          exact ih
      | false =>
          rw [if_neg Bool.false_ne_true,
            List.filter_cons_of_pos (by simp [blank]),
            List.forall₂_cons_left_iff]
          simp only [← ofLine_eq_ok_iff, ← ih]
          cases ofLine positiveLabel line with
          | error fault => simp
          | ok entry =>
              cases ofLines positiveLabel later <;> simp [Except.map, eq_comm]

theorem ofLines_cons_of_passes {line : String} (passes : Passes line)
    (later : List String) :
    ∃ entries, ofLines positiveLabel (line :: later) =
      (ofLines positiveLabel later).map (entries ++ ·) := by
  rw [ofLines_cons]
  split
  · refine ⟨[], ?_⟩
    cases ofLines positiveLabel later <;> rfl
  · rename_i visible
    obtain ⟨row, divides⟩ := passes.resolve_left visible
    rw [ofLine_of_divides divides]
    exact ⟨[_], rfl⟩

theorem ofLines_cons_of_not_passes {line : String} (fails : ¬ Passes line)
    (later : List String) :
    ofLines positiveLabel (line :: later) = .error (.invalidRow line) := by
  obtain ⟨visible, noRow⟩ := not_or.mp fails
  rw [ofLines_cons, if_neg visible, ofLine_of_no_row noRow]

theorem ofLines_isOk_iff {lines : List String} :
    (∃ words, ofLines positiveLabel lines = .ok words) ↔
      ∀ line ∈ lines, Passes line := by
  induction lines with
  | nil => simp [ofLines, pure, Except.pure]
  | cons line later ih =>
      rw [List.forall_mem_cons, ← ih]
      by_cases passes : Passes line
      · obtain ⟨entries, same⟩ := ofLines_cons_of_passes passes later
        rw [same]
        cases ofLines positiveLabel later <;> simp [Except.map, passes]
      · simp [ofLines_cons_of_not_passes passes, passes]

/-- The first line that does not pass is the fault. -/
theorem ofLines_eq_error_iff {lines : List String} {fault : TestSetFault} :
    ofLines positiveLabel lines = .error fault ↔
      ∃ before line after, lines = before ++ line :: after ∧
        (∀ earlier ∈ before, Passes earlier) ∧ ¬ Passes line ∧
        fault = .invalidRow line := by
  induction lines with
  | nil => simp [ofLines, pure, Except.pure]
  | cons line later ih =>
      by_cases passes : Passes line
      · obtain ⟨entries, same⟩ := ofLines_cons_of_passes passes later
        have sameFault :
            ofLines positiveLabel (line :: later) = .error fault ↔
              ofLines positiveLabel later = .error fault := by
          rw [same]
          cases ofLines positiveLabel later <;> simp [Except.map]
        rw [sameFault, ih]
        constructor
        · rintro ⟨before, bad, after, rfl, allPass, fails, isFault⟩
          exact ⟨line :: before, bad, after, rfl,
            List.forall_mem_cons.mpr ⟨passes, allPass⟩, fails, isFault⟩
        · rintro ⟨before, bad, after, divided, allPass, fails, isFault⟩
          cases before with
          | nil =>
              cases divided
              exact absurd passes fails
          | cons first before =>
              cases divided
              exact ⟨before, bad, after, rfl,
                (List.forall_mem_cons.mp allPass).2, fails, isFault⟩
      · rw [ofLines_cons_of_not_passes passes, Except.error.injEq]
        constructor
        · rintro rfl
          exact ⟨[], line, later, rfl, by simp, passes, rfl⟩
        · rintro ⟨before, bad, after, divided, allPass, _, rfl⟩
          cases before with
          | nil =>
              cases divided
              rfl
          | cons first before =>
              cases divided
              exact absurd (allPass line List.mem_cons_self) passes

/-! ## Readings of a test set -/

/-- Behind a header the first fault is reported, and a malformed row comes before a
line that cannot be read. -/
theorem read_of_header {source : ByteSource} {header : String}
    {later : List (Except ReadFault String)}
    (first : source.readings = .ok header :: later) :
    TestSet.read positiveLabel source =
      match ofLines positiveLabel (upToFault later).1, (upToFault later).2 with
      | .error fault, _ => .error fault
      | .ok _, some fault => .error (.reading fault)
      | .ok words, none => .ok words := by
  obtain ⟨sameReadings, running, fine⟩ :=
    @LineReader.advance_of_line (.start source) later header first
  obtain ⟨last, collected, fault⟩ := LineReader.collect_readings running fine
  rw [sameReadings] at collected fault
  cases recorded : ofLines positiveLabel (upToFault later).1 with
  | error malformed => simp [TestSet.read, collected, recorded]
  | ok words =>
      cases met : (upToFault later).2 with
      | none => simp [TestSet.read, collected, recorded, fault, met]
      | some unread => simp [TestSet.read, collected, recorded, fault, met]

/-- Where the header cannot be read, no row is. -/
theorem read_of_unreadable (positiveLabel : String) {source : ByteSource}
    {fault : ReadFault} {later : List (Except ReadFault String)}
    (first : source.readings = .error fault :: later) :
    ∃ other, TestSet.read positiveLabel source = .error (.reading other) := by
  obtain ⟨ended, met⟩ :=
    @LineReader.advance_of_fault (.start source) later fault first
  have remains := (LineReader.advance_of_ended ended).2 (by simp [met])
  obtain ⟨other, isOther⟩ := Option.isSome_iff_exists.mp remains
  refine ⟨other, ?_⟩
  simp only [TestSet.read, LineReader.collect_of_ended ended, isOther]
  rfl

theorem read_of_nothing {source : ByteSource} (none : source.readings = []) :
    TestSet.read positiveLabel source = .ok [] := by
  have finished := @LineReader.advance_of_nothing (.start source) none
  have again := @LineReader.advance_of_nothing
    { LineReader.start source with ended := true } none
  have collected := @LineReader.collect_of_ended
    { LineReader.start source with ended := true } rfl
  simp only [TestSet.read, finished, collected, again]
  rfl

section Header

variable {source : ByteSource} {header : String}
  {later : List (Except ReadFault String)}
  (first : source.readings = .ok header :: later)

include first

theorem read_eq_ok_iff {words : List LabeledWord} :
    TestSet.read positiveLabel source = .ok words ↔
      ∃ lines : List String, later = lines.map .ok ∧
        ofLines positiveLabel lines = .ok words := by
  rw [read_of_header first]
  constructor
  · intro found
    split at found
    · cases found
    · cases found
    · rename_i recorded noFault
      exact ⟨_, upToFault_eq_none_iff.mp (Prod.ext rfl noFault),
        recorded.trans found⟩
  · rintro ⟨lines, all, recorded⟩
    rw [upToFault_eq_none_iff.mpr all]
    simp only [recorded]

theorem read_eq_invalidRow_iff {line : String} :
    TestSet.read positiveLabel source = .error (.invalidRow line) ↔
      ∃ (before : List String) (after : List (Except ReadFault String)),
        later = before.map .ok ++ .ok line :: after ∧
        (∀ earlier ∈ before, Passes earlier) ∧ ¬ Passes line := by
  have reported : TestSet.read positiveLabel source =
        .error (.invalidRow line) ↔
      ofLines positiveLabel (upToFault later).1 =
        .error (.invalidRow line) := by
    rw [read_of_header first]
    split
    · rename_i malformed
      rw [malformed]
    · rename_i recorded _
      simp [recorded]
    · rename_i recorded _
      simp [recorded]
  have begins : ∀ before : List String,
      (∃ after, later = before.map .ok ++ .ok line :: after) ↔
        ∃ others, (upToFault later).1 = before ++ line :: others := by
    intro before
    have same := @exists_upToFault_append_iff _ _ later (before ++ [line])
    simpa using same.symm
  rw [reported, ofLines_eq_error_iff]
  constructor
  · rintro ⟨before, bad, others, divided, allPass, fails, isFault⟩
    cases isFault
    obtain ⟨after, same⟩ := (begins before).mpr ⟨others, divided⟩
    exact ⟨before, after, same, allPass, fails⟩
  · rintro ⟨before, after, same, allPass, fails⟩
    obtain ⟨others, divided⟩ := (begins before).mp ⟨after, same⟩
    exact ⟨before, line, others, divided, allPass, fails, rfl⟩

theorem read_eq_reading_iff {fault : ReadFault} :
    TestSet.read positiveLabel source = .error (.reading fault) ↔
      ∃ (before : List String) (after : List (Except ReadFault String)),
        later = before.map .ok ++ .error fault :: after ∧
        ∀ earlier ∈ before, Passes earlier := by
  rw [read_of_header first]
  constructor
  · intro found
    split at found
    · rename_i malformed
      obtain ⟨_, _, _, _, _, _, isFault⟩ := ofLines_eq_error_iff.mp malformed
      rw [isFault] at found
      cases found
    · rename_i recorded met
      cases found
      obtain ⟨after, same⟩ := upToFault_eq_some_iff.mp (Prod.ext rfl met)
      exact ⟨_, after, same, ofLines_isOk_iff.mp ⟨_, recorded⟩⟩
    · cases found
  · rintro ⟨before, after, same, allPass⟩
    have recordable : ∃ words, ofLines positiveLabel before = .ok words :=
      ofLines_isOk_iff.mpr allPass
    obtain ⟨words, recorded⟩ := recordable
    rw [upToFault_eq_some_iff.mpr ⟨after, same⟩]
    simp only [recorded]

end Header

/-- Exactly one of three things happens: the words of all rows are recorded, the
first malformed row is reported, or a line that cannot be read in front of all
malformed rows is. -/
theorem read_outcome (positiveLabel : String) (source : ByteSource) :
    (∀ words, TestSet.read positiveLabel source = .ok words ↔
      source.readings = [] ∧ words = [] ∨
      ∃ (header : String) (lines : List String),
        source.readings = .ok header :: lines.map .ok ∧
        List.Forall₂ (Records positiveLabel)
          (lines.filter (!isBlankLine ·)) words) ∧
    (∀ line, TestSet.read positiveLabel source =
        .error (.invalidRow line) ↔
      ∃ (header : String) (before : List String) (after : _),
        source.readings =
          .ok header :: (before.map .ok ++ .ok line :: after) ∧
        (∀ earlier ∈ before, Passes earlier) ∧ ¬ Passes line) ∧
    ((∃ fault, TestSet.read positiveLabel source =
        .error (.reading fault)) ↔
      (∃ fault after, source.readings = .error fault :: after) ∨
      ∃ (header : String) (before : List String) (fault : _) (after : _),
        source.readings =
          .ok header :: (before.map .ok ++ .error fault :: after) ∧
        ∀ earlier ∈ before, Passes earlier) := by
  cases readings : source.readings with
  | nil =>
      rw [read_of_nothing readings]
      refine ⟨fun words => ?_, fun line => ?_, ?_⟩
      · simp [eq_comm]
      · simp
      · simp
  | cons first later =>
      cases first with
      | error fault =>
          obtain ⟨other, isOther⟩ := read_of_unreadable positiveLabel readings
          rw [isOther]
          refine ⟨fun words => ?_, fun line => ?_, ?_⟩
          · simp
          · simp
          · simp
      | ok header =>
          refine ⟨fun words => ?_, fun line => ?_, ?_⟩
          · simp [read_eq_ok_iff readings, ofLines_eq_ok_iff]
          · simp [read_eq_invalidRow_iff readings]
          · simp only [read_eq_reading_iff readings]
            constructor
            · rintro ⟨fault, before, after, rfl, allPass⟩
              exact Or.inr ⟨header, before, fault, after, rfl, allPass⟩
            · rintro (⟨_, _, other⟩ | ⟨_, before, fault, after, same, allPass⟩)
              · cases other
              · cases same
                exact ⟨fault, before, after, rfl, allPass⟩

/-! ## A line between others -/

/-- Bytes with a line feed have a header, so there are lines behind it that were
recorded. -/
theorem exists_of_read {before after : List UInt8} {words : List LabeledWord}
    (found : TestSet.read positiveLabel
      (.ofBytes (before ++ LineReader.lineFeed :: after)) = .ok words) :
    ∃ (header : String) (lines : List String),
      (ByteSource.ofBytes (before ++ LineReader.lineFeed :: after)).readings =
        .ok header :: lines.map .ok ∧
      ofLines positiveLabel lines = .ok words := by
  obtain ⟨first, later, readings⟩ :=
    List.exists_cons_of_ne_nil (ByteSource.readings_ne_nil before after)
  cases first with
  | error fault =>
      obtain ⟨other, isOther⟩ := read_of_unreadable positiveLabel readings
      cases isOther.symm.trans found
  | ok header =>
      obtain ⟨lines, rfl, recorded⟩ := (read_eq_ok_iff readings).mp found
      exact ⟨header, lines, readings, recorded⟩

theorem ofLines_between {earlier later : List String} {line : String}
    {words others : List LabeledWord} (visible : isBlankLine line = false)
    (isEarlier : ofLines positiveLabel earlier = .ok words)
    (isLater : ofLines positiveLabel later = .ok others) :
    ofLines positiveLabel (earlier ++ line :: later) =
      (ofLine positiveLabel line).map fun entry => words ++ entry :: others := by
  rw [ofLines_append, isEarlier, ofLines_cons, visible, isLater]
  cases ofLine positiveLabel line <;> rfl

/-- A line that is written between the lines of a test set decides alone what is
read. -/
theorem read_between {line : String} {before written after : List UInt8}
    {words others : List LabeledWord} (single : '\n' ∉ line.toList)
    (visible : isBlankLine line = false)
    (writes : ByteSource.Writes line written after)
    (readBefore : TestSet.read positiveLabel
      (.ofBytes (before ++ [LineReader.lineFeed])) = .ok words)
    (readAll : TestSet.read positiveLabel
      (.ofBytes (before ++ LineReader.lineFeed :: after)) =
        .ok (words ++ others)) :
    TestSet.read positiveLabel
        (.ofBytes (before ++ LineReader.lineFeed :: (written ++ after))) =
      (ofLine positiveLabel line).map fun entry => words ++ entry :: others := by
  obtain ⟨header, earlier, isBefore, isEarlier⟩ := exists_of_read readBefore
  obtain ⟨_, all, isAll, allRecorded⟩ := exists_of_read readAll
  rw [ByteSource.readings_append, isBefore] at isAll
  obtain ⟨first, later, rfl, sameEarlier, isAfter⟩ :=
    List.append_eq_map_iff.mp (List.cons.inj isAll).2
  obtain rfl : first = earlier :=
    List.map_injective_iff.mpr (fun _ _ => Except.ok.inj) sameEarlier
  have isLater : ofLines positiveLabel later = .ok others := by
    rw [ofLines_append, isEarlier] at allRecorded
    cases recorded : ofLines positiveLabel later with
    | error fault => simp [recorded, Except.map] at allRecorded
    | ok entries => simpa [recorded, Except.map] using allRecorded
  have readings : (ByteSource.ofBytes
      (before ++ LineReader.lineFeed :: (written ++ after))).readings =
        .ok header :: (first ++ line :: later).map .ok := by
    rw [ByteSource.readings_append, isBefore,
      ByteSource.readings_of_writes single writes, ← isAfter,
      List.map_append, List.map_cons, List.cons_append]
  rw [read_of_header readings, upToFault_eq_none_iff.mpr rfl,
    ofLines_between visible isEarlier isLater]
  cases ofLine positiveLabel line <;> rfl

/-- A line with a visible character can be divided in one way at most.  Written
between the lines of a test set, it is accepted when it can be divided, and then the
row of its division is recorded in its place. -/
theorem read_written_line {line : String} (single : '\n' ∉ line.toList)
    (visible : isBlankLine line = false) :
    (∀ row, Row.Divides line row ↔ Row.Splits line row) ∧
    (∀ first second, Row.Divides line first → Row.Divides line second →
      first = second) ∧
    ∀ (positiveLabel : String) (before written after : List UInt8)
      (words others : List LabeledWord),
      ByteSource.Writes line written after →
      TestSet.read positiveLabel
        (.ofBytes (before ++ [LineReader.lineFeed])) = .ok words →
      TestSet.read positiveLabel
        (.ofBytes (before ++ LineReader.lineFeed :: after)) =
          .ok (words ++ others) →
      let outcome := TestSet.read positiveLabel
        (.ofBytes (before ++ LineReader.lineFeed :: (written ++ after)))
      ((∃ entries, outcome = .ok entries) ↔ ∃ row, Row.Divides line row) ∧
      (∀ row, Row.Divides line row → outcome =
        .ok (words ++ ⟨row.label == positiveLabel, row.word⟩ :: others)) ∧
      ((¬ ∃ row, Row.Divides line row) →
        outcome = .error (.invalidRow line)) := by
  refine ⟨fun _ => Row.divides_iff_splits,
    fun _ _ isFirst isSecond => isFirst.unique isSecond, ?_⟩
  intro positiveLabel before written after words others writes readBefore
    readAll outcome
  have between : outcome =
      (ofLine positiveLabel line).map fun entry => words ++ entry :: others :=
    read_between single visible writes readBefore readAll
  have accepted : ∀ row, Row.Divides line row → outcome =
      .ok (words ++ ⟨row.label == positiveLabel, row.word⟩ :: others) := by
    intro row divides
    rw [between, ofLine_of_divides divides]
    rfl
  have refused : (¬ ∃ row, Row.Divides line row) →
      outcome = .error (.invalidRow line) := by
    intro noRow
    rw [between, ofLine_of_no_row noRow]
    rfl
  refine ⟨⟨?_, ?_⟩, accepted, refused⟩
  · rintro ⟨entries, isOk⟩
    by_contra noRow
    cases (refused noRow).symm.trans isOk
  · rintro ⟨row, divides⟩
    exact ⟨_, accepted row divides⟩

/-- The label has quotes inside, the word a comma, and a third field is ignored. -/
def oddLine : String :=
  "\"say \"\"hi\"\"\"\t, \"a,b\" ,\"c"

theorem read_odd_line :
    '\n' ∉ oddLine.toList ∧ isBlankLine oddLine = false ∧
      (∀ row, Row.Divides oddLine row ↔ row = ⟨"say \"hi\"", "a,b"⟩) ∧
      TestSet.read "yes" (.ofBytes (Utf8.encode "label,word\nyes,ab" ++
        LineReader.lineFeed :: (Utf8.encode oddLine ++
          [LineReader.carriageReturn, LineReader.lineFeed] ++
            Utf8.encode "no,ba"))) =
        .ok [⟨true, "ab"⟩, ⟨false, "a,b"⟩, ⟨false, "ba"⟩] := by
  have single : '\n' ∉ oddLine.toList := by decide +kernel
  have visible : isBlankLine oddLine = false := by decide +kernel
  have divides : Row.Divides oddLine ⟨"say \"hi\"", "a,b"⟩ :=
    Row.parse?_eq_some_iff.mp (by decide +kernel)
  obtain ⟨_, unique, outcomes⟩ := read_written_line single visible
  obtain ⟨_, recorded, _⟩ := outcomes "yes"
    (Utf8.encode "label,word\nyes,ab") _ (Utf8.encode "no,ba")
    [⟨true, "ab"⟩] [⟨false, "ba"⟩] (.carriageReturn _) (by decide +kernel)
    (by decide +kernel)
  refine ⟨single, visible, fun row => ⟨?_, ?_⟩, recorded _ divides⟩
  · exact fun isRow => unique _ _ isRow divides
  · rintro rfl
    exact divides

end TestSet

end Recognizer
