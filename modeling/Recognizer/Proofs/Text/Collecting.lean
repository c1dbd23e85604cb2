import Recognizer.Proofs.Text.Advancing

/-!
# Collecting lines

A reader advances along the readings of its source one by one, until the first fault
or the last line.  Collecting therefore gives the texts in front of the first fault,
and this fault.
-/

namespace Recognizer

namespace LineReader

open ByteSource

/-! ## A reader advances along the readings -/

/-- What one advance can do. -/
inductive Advanced (reader : LineReader) : LineReader → Prop where
  | line {text : String} {unread : List UInt8} :
      reader.source.readings =
        .ok text :: readings ⟨unread, reader.source.fails⟩ →
      unread.length < reader.source.bytes.length →
      Advanced reader
        { reader with
          source := ⟨unread, reader.source.fails⟩
          current := text
          lineNumber := reader.lineNumber + 1 }
  | fault {fault : ReadFault} {later : List (Except ReadFault String)}
      {unread : List UInt8} :
      reader.source.readings = .error fault :: later →
      Advanced reader (reader.stop fault unread)
  | finish :
      reader.source.readings = [] →
      Advanced reader { reader with ended := true }

theorem advance_advanced (reader : LineReader) :
    Advanced reader reader.advance := by
  have passed := advance_passed reader
  generalize reader.advance = next at passed ⊢
  cases passed with
  | text _ first isShown shorter =>
      apply Advanced.line _ shorter
      rw [readings, first, List.map_cons, reading, isShown]
      rfl
  | @noText line unread _ first noText =>
      have fault : reader.source.readings = .error .invalidText ::
          readings ⟨unread, reader.source.fails⟩ := by
        rw [readings, first, List.map_cons, reading, noText]
        rfl
      exact .fault fault
  | unreadable none fails =>
      have fault : reader.source.readings = [.error .unreadable] := by
        rw [readings, none, if_pos fails]
        rfl
      exact .fault fault
  | finished empty =>
      apply Advanced.finish
      rw [empty]
      rfl

section Readings

variable {reader : LineReader} {later : List (Except ReadFault String)}

theorem advance_of_line {text : String}
    (first : reader.source.readings = .ok text :: later) :
    reader.advance.source.readings = later ∧
      reader.advance.ended = reader.ended ∧
      reader.advance.fault = reader.fault := by
  have advanced := advance_advanced reader
  generalize reader.advance = next at advanced ⊢
  cases advanced with
  | line shown _ =>
      cases first.symm.trans shown
      exact ⟨rfl, rfl, rfl⟩
  | fault shown => cases first.symm.trans shown
  | finish none => cases first.symm.trans none

theorem advance_of_fault {fault : ReadFault}
    (first : reader.source.readings = .error fault :: later) :
    reader.advance.ended = true ∧ reader.advance.fault = some fault := by
  have advanced := advance_advanced reader
  generalize reader.advance = next at advanced ⊢
  cases advanced with
  | line shown _ => cases first.symm.trans shown
  | fault shown =>
      cases first.symm.trans shown
      exact ⟨rfl, rfl⟩
  | finish none => cases first.symm.trans none

theorem advance_of_nothing (none : reader.source.readings = []) :
    reader.advance = { reader with ended := true } := by
  have advanced := advance_advanced reader
  generalize reader.advance = next at advanced ⊢
  cases advanced with
  | line shown _ => cases none.symm.trans shown
  | fault shown => cases none.symm.trans shown
  | finish _ => rfl

end Readings

theorem advance_of_ended {reader : LineReader} (ended : reader.ended = true) :
    reader.advance.ended = true ∧
      (reader.fault.isSome = true → reader.advance.fault.isSome = true) := by
  have advanced := advance_advanced reader
  generalize reader.advance = next at advanced ⊢
  cases advanced with
  | line _ _ => exact ⟨ended, id⟩
  | fault _ => exact ⟨rfl, fun _ => rfl⟩
  | finish _ => exact ⟨rfl, id⟩

/-! ## Collecting lines -/

theorem collectFrom_readings {fuel : Nat} {reader : LineReader}
    (running : reader.ended = false)
    (enough : reader.source.bytes.length < fuel) :
    ∃ last, collectFrom fuel reader =
        ((upToFault reader.source.readings).1, last) ∧
      last.fault = (upToFault reader.source.readings).2.or reader.fault := by
  induction fuel generalizing reader with
  | zero => exact absurd enough (Nat.not_lt_zero _)
  | succ fuel ih =>
      have advanced := advance_advanced reader
      rw [collectFrom]
      generalize reader.advance = next at advanced ⊢
      cases advanced with
      | @line text unread first shorter =>
          have shows : get? { reader with
              source := ⟨unread, reader.source.fails⟩
              current := text
              lineNumber := reader.lineNumber + 1 } = some text := by
            simp [get?, running]
          obtain ⟨last, collected, fault⟩ := @ih
            { reader with
              source := ⟨unread, reader.source.fails⟩
              current := text
              lineNumber := reader.lineNumber + 1 }
            running (by simp only; omega)
          rw [shows, first, upToFault]
          simp only [collected]
          exact ⟨last, rfl, fault⟩
      | fault first =>
          rw [first]
          exact ⟨_, rfl, rfl⟩
      | finish none =>
          rw [none]
          exact ⟨_, rfl, rfl⟩

/-- A reader that has met no fault collects what is left in front of the next
fault. -/
theorem collect_readings {reader : LineReader}
    (running : reader.ended = false) (fine : reader.fault = none) :
    ∃ last, reader.collect = ((upToFault reader.source.readings).1, last) ∧
      last.fault = (upToFault reader.source.readings).2 := by
  obtain ⟨last, collected, fault⟩ :=
    collectFrom_readings running (Nat.lt_succ_self _)
  refine ⟨last, collected, ?_⟩
  rw [fault, fine, Option.or_none]

theorem collect_of_ended {reader : LineReader} (ended : reader.ended = true) :
    reader.collect = ([], reader.advance) := by
  rw [collect, collectFrom]
  simp [get?, (advance_of_ended ended).1]

end LineReader

end Recognizer
