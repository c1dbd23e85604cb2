import Mathlib.Data.List.TakeWhile
import Recognizer.Proofs.Text.Utf8
import Recognizer.Text.Lines

/-!
# Lines that were written

A text is made of lines when each of them has its end behind it, which is a line
feed or a carriage return and a line feed.  Such a text is read back line by line,
because no line has a line feed of its own.  A line that ends with a carriage
return must not be ended by a line feed alone: the reader takes the two together.
-/

namespace Recognizer

namespace Text

/-- The text has the lines, each with an end of its own. -/
inductive Terminated : List String → String → Prop where
  | nil : Terminated [] ""
  | lineFeed {lines : List String} {later : String} (line : String) :
      Terminated lines later →
      Terminated (line :: lines) (line ++ "\n" ++ later)
  | carriageReturn {lines : List String} {later : String} (line : String) :
      Terminated lines later →
      Terminated (line :: lines) (line ++ "\r\n" ++ later)

/-- A line that is shown as it was written, whatever ends it. -/
structure IsPlainLine (line : String) : Prop where
  no_lineFeed : '\n' ∉ line.toList
  no_lastReturn : line.toList.getLast? ≠ some '\r'

theorem Terminated.length_le {lines : List String} {text : String}
    (terminated : Terminated lines text) :
    lines.length ≤ (Utf8.encode text).length := by
  have lineFeed : (Utf8.encode "\n").length = 1 := by decide +kernel
  have both : (Utf8.encode "\r\n").length = 2 := by decide +kernel
  induction terminated with
  | nil => exact Nat.zero_le _
  | lineFeed line _ ih =>
      simp only [Utf8.encode_append, List.length_append, List.length_cons]
      omega
  | carriageReturn line _ ih =>
      simp only [Utf8.encode_append, List.length_append, List.length_cons]
      omega

end Text

namespace LineReader

/-! ## One line -/

theorem dropReturn_concat (line : List UInt8) :
    dropReturn (line ++ [carriageReturn]) = line := by
  simp [dropReturn]

theorem dropReturn_of_ne {line : List UInt8}
    (other : line.getLast? ≠ some carriageReturn) : dropReturn line = line :=
  if_neg other

theorem forall_ne_lineFeed {line : List UInt8} (single : lineFeed ∉ line) :
    ∀ byte ∈ line, (byte != lineFeed) = true := by
  intro byte member
  rw [bne_iff_ne]
  exact fun same => single (same ▸ member)

/-- The bytes up to the first line feed are taken, and it is left out. -/
theorem advance_eq_receive {reader : LineReader} {line unread : List UInt8}
    (single : lineFeed ∉ line)
    (bytes : reader.source.bytes = line ++ lineFeed :: unread) :
    reader.advance = reader.receive (dropReturn line) unread := by
  have within := forall_ne_lineFeed single
  have taken : (line ++ lineFeed :: unread).takeWhile (· != lineFeed) =
      line := by
    rw [List.takeWhile_append_of_pos within]
    simp
  have left : (line ++ lineFeed :: unread).dropWhile (· != lineFeed) =
      lineFeed :: unread := by
    rw [List.dropWhile_append_of_pos within]
    simp
  simp only [advance, bytes, taken, left]

theorem advance_line {reader : LineReader} {line unread : List UInt8}
    {shown : String} (single : lineFeed ∉ line)
    (decoded : Utf8.decode? (dropReturn line) = some shown)
    (bytes : reader.source.bytes = line ++ lineFeed :: unread) :
    reader.advance =
      { reader with
        source := { reader.source with bytes := unread }
        current := shown
        lineNumber := reader.lineNumber + 1 } := by
  simp only [advance_eq_receive single bytes, receive, decoded]

/-- Bytes without a line feed are lost or taken as a whole. -/
theorem advance_rest {reader : LineReader}
    (unended : lineFeed ∉ reader.source.bytes) :
    reader.advance =
      if reader.source.fails then reader.stop .unreadable []
      else if reader.source.bytes.isEmpty then { reader with ended := true }
      else reader.receive reader.source.bytes [] := by
  have within := forall_ne_lineFeed unended
  have taken := List.takeWhile_eq_self_iff.mpr within
  have left := List.dropWhile_eq_nil_iff.mpr within
  simp only [advance, taken, left]

theorem lineFeed_not_mem_encode {line : String} (single : '\n' ∉ line.toList) :
    lineFeed ∉ Utf8.encode line := by
  have ascii : '\n'.toNat ≤ 127 := by decide
  exact mt (Utf8.mem_encode_iff ascii).mp single

theorem getLast?_encode_ne_return {line : String}
    (other : line.toList.getLast? ≠ some '\r') :
    (Utf8.encode line).getLast? ≠ some carriageReturn := by
  have ascii : '\r'.toNat ≤ 127 := by decide
  exact mt (Utf8.getLast?_encode_iff ascii).mp other

/-- A line feed takes at most one carriage return of the line with it. -/
theorem decode?_dropReturn_encode (line : String) :
    ∃ shown : String,
      Utf8.decode? (dropReturn (Utf8.encode line)) = some shown ∧
      (line.toList.getLast? ≠ some '\r' → shown = line) := by
  by_cases returns : line.toList.getLast? = some '\r'
  · obtain ⟨earlier, ends⟩ := List.getLast?_eq_some_iff.mp returns
    refine ⟨String.ofList earlier, ?_, fun other => absurd returns other⟩
    have divided : line = String.ofList earlier ++ "\r" := by
      apply String.toList_inj.mp
      simp [ends]
    rw [divided, Utf8.encode_append]
    exact (congrArg Utf8.decode? (dropReturn_concat _)).trans
      (Utf8.decode?_encode _)
  · refine ⟨line, ?_, fun _ => rfl⟩
    rw [dropReturn_of_ne (getLast?_encode_ne_return returns)]
    exact Utf8.decode?_encode line

theorem advance_terminated (reader : LineReader) {line text : String}
    {lines : List String} (terminated : Text.Terminated (line :: lines) text)
    (single : '\n' ∉ line.toList)
    (bytes : reader.source.bytes = Utf8.encode text) :
    ∃ later shown : String,
      Text.Terminated lines later ∧
      (line.toList.getLast? ≠ some '\r' → shown = line) ∧
      reader.advance =
        { reader with
          source := { reader.source with bytes := Utf8.encode later }
          current := shown
          lineNumber := reader.lineNumber + 1 } := by
  have noFeed := lineFeed_not_mem_encode single
  cases terminated with
  | @lineFeed _ later _ rest =>
      obtain ⟨shown, decoded, same⟩ := decode?_dropReturn_encode line
      refine ⟨later, shown, rest, same, ?_⟩
      apply advance_line noFeed decoded
      rw [bytes, Utf8.encode_append, Utf8.encode_append, List.append_assoc]
      rfl
  | @carriageReturn _ later _ rest =>
      refine ⟨later, line, rest, fun _ => rfl, ?_⟩
      have divided : reader.source.bytes =
          (Utf8.encode line ++ [carriageReturn]) ++
            lineFeed :: Utf8.encode later := by
        rw [bytes, Utf8.encode_append, Utf8.encode_append]
        simp only [List.append_assoc]
        rfl
      refine advance_line ?_ ?_ divided
      · intro member
        rcases List.mem_append.mp member with within | last
        · exact noFeed within
        · exact absurd (List.mem_singleton.mp last) (by decide)
      · rw [dropReturn_concat]
        exact Utf8.decode?_encode line

/-! ## All lines -/

theorem advance_nil {reader : LineReader}
    (source : reader.source = .ofBytes []) :
    reader.advance = { reader with ended := true } := by
  simp [advance, source, ByteSource.ofBytes]

theorem collectFrom_terminated {lines : List String} {text : String}
    {reader : LineReader} {fuel : Nat}
    (terminated : Text.Terminated lines text)
    (plain : ∀ line ∈ lines, Text.IsPlainLine line)
    (source : reader.source = .ofBytes (Utf8.encode text))
    (running : reader.ended = false) (enough : lines.length < fuel) :
    ∃ last, collectFrom fuel reader = (lines, last) ∧
      last.fault = reader.fault := by
  obtain ⟨fuel, rfl⟩ := Nat.exists_eq_add_one.mpr (Nat.zero_lt_of_lt enough)
  induction lines generalizing text reader fuel with
  | nil =>
      cases terminated
      refine ⟨{ reader with ended := true }, ?_, rfl⟩
      rw [collectFrom, advance_nil source]
      rfl
  | cons line lines ih =>
      have plainLine := plain line List.mem_cons_self
      obtain ⟨later, shown, rest, same, advanced⟩ :=
        advance_terminated reader terminated plainLine.no_lineFeed
          (congrArg ByteSource.bytes source)
      rw [List.length_cons] at enough
      obtain ⟨fuel, rfl⟩ := Nat.exists_eq_add_one.mpr
        (Nat.zero_lt_of_lt (Nat.lt_of_succ_lt_succ enough))
      have nextSource : reader.advance.source =
          .ofBytes (Utf8.encode later) := by
        rw [advanced, source]
        rfl
      have nextRunning : reader.advance.ended = false := by
        rw [advanced]
        exact running
      have shows : reader.advance.get? = some line := by
        simp [get?, advanced, running, same plainLine.no_lastReturn]
      obtain ⟨last, collected, unchanged⟩ := ih rest
        (fun other member => plain other (List.mem_cons_of_mem line member))
        nextSource nextRunning fuel (Nat.lt_of_succ_lt_succ enough)
      refine ⟨last, ?_, ?_⟩
      · rw [collectFrom, shows]
        simp only [collected]
      · rw [unchanged, advanced]

theorem collect_terminated (reader : LineReader) {lines : List String}
    {text : String} (terminated : Text.Terminated lines text)
    (plain : ∀ line ∈ lines, Text.IsPlainLine line)
    (source : reader.source = .ofBytes (Utf8.encode text))
    (running : reader.ended = false) :
    ∃ last, reader.collect = (lines, last) ∧ last.fault = reader.fault := by
  apply collectFrom_terminated terminated plain source running
  rw [source]
  exact Nat.lt_succ_of_le terminated.length_le

end LineReader

end Recognizer
