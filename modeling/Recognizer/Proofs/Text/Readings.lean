import Recognizer.Proofs.Text.Lines

/-!
# What a source is read as

The bytes of a source are divided behind every line feed.  The pieces are its lines,
and so is the rest behind the last line feed, unless it is empty or the source fails
there.  Reading a line gives its text without its end or finds that it is no text,
and where the source fails this is found at last.

What is behind a line feed is read on its own, and a line that was written there is
read first.  All lines are texts when the bytes are one as a whole.
-/

namespace Recognizer

/-- The values in front of the first fault, and this fault. -/
def upToFault {Fault Value : Type} :
    List (Except Fault Value) → List Value × Option Fault
  | [] => ([], none)
  | .error fault :: _ => ([], some fault)
  | .ok value :: later =>
      let (values, fault) := upToFault later
      (value :: values, fault)

section UpToFault

variable {Fault Value : Type}

theorem upToFault_append_ok (values : List Value)
    (later : List (Except Fault Value)) :
    upToFault (values.map .ok ++ later) =
      (values ++ (upToFault later).1, (upToFault later).2) := by
  induction values with
  | nil => rfl
  | cons value values ih =>
      rw [List.map_cons, List.cons_append, upToFault, ih]
      rfl

theorem upToFault_eq_none_iff {readings : List (Except Fault Value)}
    {values : List Value} :
    upToFault readings = (values, none) ↔ readings = values.map .ok := by
  constructor
  · intro all
    induction readings generalizing values with
    | nil =>
        cases all
        rfl
    | cons first later ih =>
        cases first with
        | error fault => cases all
        | ok value =>
            simp only [upToFault, Prod.mk.injEq] at all
            obtain ⟨rfl, noFault⟩ := all
            rw [List.map_cons, ← ih (Prod.ext rfl noFault)]
  · rintro rfl
    rw [← List.append_nil (values.map _), upToFault_append_ok, upToFault,
      List.append_nil]

theorem upToFault_eq_some_iff {readings : List (Except Fault Value)}
    {values : List Value} {fault : Fault} :
    upToFault readings = (values, some fault) ↔
      ∃ after, readings = values.map .ok ++ .error fault :: after := by
  constructor
  · intro stopped
    induction readings generalizing values with
    | nil => cases stopped
    | cons first later ih =>
        cases first with
        | error other =>
            cases stopped
            exact ⟨later, rfl⟩
        | ok value =>
            simp only [upToFault, Prod.mk.injEq] at stopped
            obtain ⟨rfl, atFault⟩ := stopped
            obtain ⟨after, same⟩ := ih (Prod.ext rfl atFault)
            refine ⟨after, ?_⟩
            rw [List.map_cons, List.cons_append, ← same]
  · rintro ⟨after, rfl⟩
    rw [upToFault_append_ok, upToFault, List.append_nil]

/-- The values in front of the first fault begin as the readings do. -/
theorem exists_upToFault_append_iff {readings : List (Except Fault Value)}
    {values : List Value} :
    (∃ others, (upToFault readings).1 = values ++ others) ↔
      ∃ later, readings = values.map .ok ++ later := by
  constructor
  · rintro ⟨others, same⟩
    cases fault : (upToFault readings).2 with
    | none =>
        have all := upToFault_eq_none_iff.mp (Prod.ext same fault)
        exact ⟨others.map .ok, by rw [all, List.map_append]⟩
    | some met =>
        obtain ⟨after, all⟩ := upToFault_eq_some_iff.mp (Prod.ext same fault)
        refine ⟨others.map .ok ++ .error met :: after, ?_⟩
        rw [all, List.map_append, List.append_assoc]
  · rintro ⟨later, rfl⟩
    rw [upToFault_append_ok]
    exact ⟨_, rfl⟩

end UpToFault

namespace Text

/-- A line without the line feed at its end, and without one carriage return in
front of that. -/
def withoutEnd (line : String) : String :=
  if line.toList.getLast? = some '\n' then
    let content := line.toList.dropLast
    String.ofList
      (if content.getLast? = some '\r' then content.dropLast else content)
  else line

theorem withoutEnd_of_single {line : String} (single : '\n' ∉ line.toList) :
    withoutEnd line = line :=
  if_neg fun ends => single (List.mem_of_getLast? ends)

theorem withoutEnd_lineFeed {line : String}
    (other : line.toList.getLast? ≠ some '\r') :
    withoutEnd (line ++ String.singleton '\n') = line := by
  simp [withoutEnd, other]

theorem withoutEnd_carriageReturn (line : String) :
    withoutEnd (line ++ String.singleton '\r' ++ String.singleton '\n') =
      line := by
  simp [withoutEnd]

end Text

namespace ByteSource

open LineReader (lineFeed carriageReturn dropReturn)

/-! ## The lines of a source -/

/-- The pieces are ended by a line feed each and have no other one, and the rest has
none. -/
structure Divides (bytes : List UInt8) (pieces : List (List UInt8))
    (rest : List UInt8) : Prop where
  joined : pieces.flatten ++ rest = bytes
  ended : ∀ piece ∈ pieces, ∃ content,
    lineFeed ∉ content ∧ piece = content ++ [lineFeed]
  unended : lineFeed ∉ rest

/-- The pieces that end with a line feed, and what is left behind the last one. -/
def divide : List UInt8 → List (List UInt8) × List UInt8
  | [] => ([], [])
  | byte :: later =>
      match divide later with
      | (pieces, rest) =>
          if byte = lineFeed then ([byte] :: pieces, rest)
          else
            match pieces with
            | [] => ([], byte :: rest)
            | first :: others => ((byte :: first) :: others, rest)

/-- The lines of the source, with their ends. -/
def lines (source : ByteSource) : List (List UInt8) :=
  match divide source.bytes with
  | (pieces, rest) =>
      if source.fails ∨ rest = [] then pieces else pieces ++ [rest]

/-- The text of a line without its end. -/
def shown? (line : List UInt8) : Option String :=
  (Utf8.decode? line).map Text.withoutEnd

/-- What a reader gets of a line. -/
def reading (line : List UInt8) : Except ReadFault String :=
  match shown? line with
  | some text => .ok text
  | none => .error .invalidText

/-- What a reader gets line by line, and at last if the source fails. -/
def readings (source : ByteSource) : List (Except ReadFault String) :=
  source.lines.map reading ++
    if source.fails then [.error .unreadable] else []

/-- The texts of the lines without their ends. -/
def texts (source : ByteSource) : List String :=
  source.lines.filterMap shown?

theorem divide_rest {rest : List UInt8} (unended : lineFeed ∉ rest) :
    divide rest = ([], rest) := by
  induction rest with
  | nil => rfl
  | cons byte later ih =>
      obtain ⟨other, laterUnended⟩ := not_or.mp (mt List.mem_cons.mpr unended)
      simp [divide, ih laterUnended, Ne.symm other]

theorem divide_line {content : List UInt8} (single : lineFeed ∉ content)
    (later : List UInt8) :
    divide (content ++ lineFeed :: later) =
      ((content ++ [lineFeed]) :: (divide later).1, (divide later).2) := by
  induction content with
  | nil => simp [divide]
  | cons byte content ih =>
      obtain ⟨other, contentSingle⟩ :=
        not_or.mp (mt List.mem_cons.mpr single)
      simp [divide, ih contentSingle, Ne.symm other]

theorem Divides.divide_eq {bytes rest : List UInt8}
    {pieces : List (List UInt8)} (divides : Divides bytes pieces rest) :
    divide bytes = (pieces, rest) := by
  obtain ⟨rfl, ended, unended⟩ := divides
  induction pieces with
  | nil => exact divide_rest unended
  | cons piece pieces ih =>
      obtain ⟨⟨content, single, rfl⟩, laterEnded⟩ :=
        List.forall_mem_cons.mp ended
      rw [List.flatten_cons, List.append_assoc, List.append_assoc,
        List.singleton_append, divide_line single, ih laterEnded]

theorem line_induction {motive : List UInt8 → Prop}
    (rest : ∀ rest, lineFeed ∉ rest → motive rest)
    (line : ∀ content later, lineFeed ∉ content → motive later →
      motive (content ++ lineFeed :: later)) (bytes : List UInt8) :
    motive bytes := by
  by_cases ends : lineFeed ∈ bytes
  · obtain ⟨content, later, same, single⟩ :=
      List.eq_append_cons_of_mem ends
    have shorter : later.length < bytes.length := by
      rw [same, List.length_append, List.length_cons]
      omega
    rw [same]
    exact line content later single (line_induction rest line later)
  · exact rest bytes ends
termination_by bytes.length

theorem divide_eq_iff {bytes rest : List UInt8}
    {pieces : List (List UInt8)} :
    divide bytes = (pieces, rest) ↔ Divides bytes pieces rest := by
  refine ⟨?_, Divides.divide_eq⟩
  rintro found
  have divides : Divides bytes (divide bytes).1 (divide bytes).2 := by
    induction bytes using line_induction generalizing pieces rest with
    | rest bytes unended =>
        rw [divide_rest unended]
        exact ⟨rfl, by simp, unended⟩
    | line content later single ih =>
        obtain ⟨joined, ended, unended⟩ := ih rfl
        rw [divide_line single]
        refine ⟨?_, ?_, unended⟩
        · rw [List.flatten_cons, List.append_assoc, joined, List.append_assoc,
            List.singleton_append]
        · exact List.forall_mem_cons.mpr ⟨⟨content, single, rfl⟩, ended⟩
  rwa [found] at divides

/-! ## Reading a line -/

/-- The end of a line is taken away from its text or from its bytes alike. -/
theorem shown?_line (content : List UInt8) :
    shown? (content ++ [lineFeed]) = Utf8.decode? (dropReturn content) := by
  have feed : '\n'.toNat ≤ 127 := by decide
  have back : '\r'.toNat ≤ 127 := by decide
  have byFeed : ∀ bytes : List UInt8, Utf8.decode? (bytes ++ [lineFeed]) =
      (Utf8.decode? bytes).map (· ++ String.singleton '\n') :=
    Utf8.decode?_concat feed
  have byReturn : ∀ bytes : List UInt8,
      Utf8.decode? (bytes ++ [carriageReturn]) =
        (Utf8.decode? bytes).map (· ++ String.singleton '\r') :=
    Utf8.decode?_concat back
  by_cases returns : content.getLast? = some carriageReturn
  · obtain ⟨earlier, rfl⟩ := List.getLast?_eq_some_iff.mp returns
    rw [shown?, byFeed, byReturn, LineReader.dropReturn_concat, Option.map_map,
      Option.map_map]
    cases Utf8.decode? earlier with
    | none => rfl
    | some text => exact congrArg some (Text.withoutEnd_carriageReturn text)
  · rw [shown?, byFeed, LineReader.dropReturn_of_ne returns]
    cases decoded : Utf8.decode? content with
    | none => rfl
    | some text =>
        have other : text.toList.getLast? ≠ some '\r' := by
          intro last
          apply returns
          rw [← Utf8.decode?_eq_some_iff.mp decoded]
          exact (Utf8.getLast?_encode_iff back).mpr last
        exact congrArg some (Text.withoutEnd_lineFeed other)

theorem shown?_rest {rest : List UInt8} (unended : lineFeed ∉ rest) :
    shown? rest = Utf8.decode? rest := by
  have feed : '\n'.toNat ≤ 127 := by decide
  rw [shown?]
  cases decoded : Utf8.decode? rest with
  | none => rfl
  | some text =>
      have single : '\n' ∉ text.toList := by
        intro member
        apply unended
        rw [← Utf8.decode?_eq_some_iff.mp decoded]
        exact (Utf8.mem_encode_iff feed).mpr member
      exact congrArg some (Text.withoutEnd_of_single single)

/-! ## Readings -/

theorem lines_line {content : List UInt8} (single : lineFeed ∉ content)
    (later : List UInt8) (fails : Bool) :
    lines ⟨content ++ lineFeed :: later, fails⟩ =
      (content ++ [lineFeed]) :: lines ⟨later, fails⟩ := by
  simp only [lines, divide_line single]
  split <;> rfl

theorem lines_rest {rest : List UInt8} (unended : lineFeed ∉ rest)
    (fails : Bool) :
    lines ⟨rest, fails⟩ = if fails ∨ rest = [] then [] else [rest] := by
  simp only [lines, divide_rest unended, List.nil_append]

theorem readings_line {content : List UInt8} (single : lineFeed ∉ content)
    (later : List UInt8) (fails : Bool) :
    readings ⟨content ++ lineFeed :: later, fails⟩ =
      reading (content ++ [lineFeed]) :: readings ⟨later, fails⟩ := by
  rw [readings, lines_line single]
  rfl

theorem readings_rest {rest : List UInt8} (unended : lineFeed ∉ rest)
    (fails : Bool) :
    readings ⟨rest, fails⟩ =
      if fails then [.error .unreadable]
      else if rest.isEmpty then [] else [reading rest] := by
  rw [readings, lines_rest unended]
  cases fails with
  | true => simp
  | false => cases rest <;> simp

/-- What is behind a line feed is read on its own. -/
theorem readings_append (before after : List UInt8) :
    readings (.ofBytes (before ++ lineFeed :: after)) =
      readings (.ofBytes (before ++ [lineFeed])) ++
        readings (.ofBytes after) := by
  simp only [ofBytes]
  induction before using line_induction with
  | rest before unended =>
      rw [readings_line unended, readings_line unended]
      rfl
  | line content later single ih =>
      rw [List.append_assoc, List.append_assoc, List.cons_append,
        List.cons_append, readings_line single, readings_line single, ih]
      rfl

theorem readings_ne_nil (before after : List UInt8) :
    readings (.ofBytes (before ++ lineFeed :: after)) ≠ [] := by
  rw [ofBytes]
  induction before using line_induction with
  | rest before unended =>
      rw [readings_line unended]
      exact List.cons_ne_nil _ _
  | line content later single _ =>
      rw [List.append_assoc, List.cons_append, readings_line single]
      exact List.cons_ne_nil _ _

/-- The bytes are one way to write the line in front of others.  A line feed alone
cannot end a line that ends with a carriage return, and only the last line has no
end. -/
inductive Writes (line : String) : List UInt8 → List UInt8 → Prop where
  | lineFeed (after : List UInt8) : line.toList.getLast? ≠ some '\r' →
      Writes line (Utf8.encode line ++ [lineFeed]) after
  | carriageReturn (after : List UInt8) :
      Writes line (Utf8.encode line ++ [carriageReturn, lineFeed]) after
  | unended : line ≠ "" → Writes line (Utf8.encode line) []

theorem readings_of_writes {line : String} {written after : List UInt8}
    (single : '\n' ∉ line.toList) (writes : Writes line written after) :
    readings (.ofBytes (written ++ after)) =
      .ok line :: readings (.ofBytes after) := by
  have noFeed := LineReader.lineFeed_not_mem_encode single
  have decoded := Utf8.decode?_encode line
  cases writes with
  | lineFeed _ other =>
      have kept := LineReader.dropReturn_of_ne
        (LineReader.getLast?_encode_ne_return other)
      rw [List.append_assoc, List.singleton_append, ofBytes,
        readings_line noFeed, reading, shown?_line, kept, decoded]
      rfl
  | carriageReturn _ =>
      have single : lineFeed ∉ Utf8.encode line ++ [carriageReturn] := by
        rw [List.mem_append, List.mem_singleton, not_or]
        exact ⟨noFeed, by decide⟩
      have divided : Utf8.encode line ++ [carriageReturn, lineFeed] ++ after =
          (Utf8.encode line ++ [carriageReturn]) ++ lineFeed :: after := by
        simp
      rw [divided, ofBytes, readings_line single, reading, shown?_line,
        LineReader.dropReturn_concat, decoded]
      rfl
  | unended nonempty =>
      have someBytes : (Utf8.encode line).isEmpty = false := by
        rw [List.isEmpty_eq_false_iff]
        intro empty
        rw [empty] at decoded
        exact nonempty (Option.some.inj (decoded.symm.trans (by decide)))
      rw [List.append_nil, ofBytes, readings_rest noFeed, someBytes, reading,
        shown?_rest noFeed, decoded]
      rfl

/-! ## Texts and faults -/

/-- The bytes are a text when all of its lines are. -/
theorem isText_iff_lines (bytes : List UInt8) :
    Utf8.IsText bytes ↔
      ∀ line ∈ lines (.ofBytes bytes), Utf8.IsText line := by
  have feed : '\n'.toNat ≤ 127 := by decide
  induction bytes using line_induction with
  | rest rest unended =>
      rw [ofBytes, lines_rest unended]
      by_cases empty : rest = []
      · simp [empty, Utf8.isText_nil]
      · simp [empty]
  | line content later single ih =>
      have laterTexts : Utf8.IsText later ↔
          ∀ line ∈ lines (.ofBytes later), Utf8.IsText line := ih
      rw [ofBytes, lines_line single, List.forall_mem_cons, ← ofBytes,
        ← laterTexts]
      exact Utf8.isText_append_cons_iff feed

theorem reading_of_isText {line : List UInt8} (isText : Utf8.IsText line) :
    ∃ text, shown? line = some text ∧ reading line = .ok text := by
  obtain ⟨written, encoded⟩ := isText
  have isShown : shown? line = some (Text.withoutEnd written) := by
    rw [shown?, Utf8.decode?_eq_some_iff.mpr encoded]
    rfl
  exact ⟨_, isShown, by rw [reading, isShown]⟩

theorem reading_of_not_isText {line : List UInt8}
    (noText : ¬ Utf8.IsText line) : reading line = .error .invalidText := by
  rw [reading, shown?, Utf8.decode?_eq_none_iff.mpr noText]
  rfl

theorem readings_of_isText {source : ByteSource}
    (all : ∀ line ∈ source.lines, Utf8.IsText line) :
    source.readings = source.texts.map .ok ++
      if source.fails then [.error .unreadable] else [] := by
  rw [readings, texts]
  congr 1
  generalize source.lines = lines at all
  induction lines with
  | nil => rfl
  | cons line later ih =>
      obtain ⟨isText, laterTexts⟩ := List.forall_mem_cons.mp all
      obtain ⟨text, isShown, isRead⟩ := reading_of_isText isText
      rw [List.map_cons, List.filterMap_cons_some isShown, List.map_cons,
        isRead, ih laterTexts]

theorem fault_of_not_isText {source : ByteSource}
    (noText : ∃ line ∈ source.lines, ¬ Utf8.IsText line) :
    (upToFault source.readings).2 = some .invalidText := by
  rw [readings]
  generalize source.lines = lines at noText
  induction lines with
  | nil => simp at noText
  | cons line later ih =>
      rw [List.map_cons, List.cons_append]
      by_cases isText : Utf8.IsText line
      · obtain ⟨text, _, isRead⟩ := reading_of_isText isText
        rw [isRead, upToFault]
        apply ih
        simpa [isText] using noText
      · rw [reading_of_not_isText isText]
        rfl

end ByteSource

end Recognizer
