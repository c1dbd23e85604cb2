import Recognizer.Dataset.Training
import Recognizer.Proofs.Determinization.Language
import Recognizer.Proofs.Learning.Training
import Recognizer.Proofs.Snapshot.Document

/-!
# Learning from a training set

A trie has no place for the empty word, so an empty positive word would not be
learned.  A training set never has one: a line of which nothing is left gives no
word.  What is learned from a training set therefore separates all of its words,
and the stored automaton and its determinization answer as the learned one does.
-/

namespace Recognizer

namespace TrainingSet

theorem nonEmpty?_eq_some_iff {word : List Char} {text : String} :
    nonEmpty? word = some text ↔ word ≠ [] ∧ String.ofList word = text := by
  simp [nonEmpty?]

theorem positiveWord?_ne_empty {line text : String}
    (found : positiveWord? line = some text) : text ≠ "" := by
  have left : nonEmpty? ((withoutTabs line).filter (· != '+')) =
      some text := by
    simp only [positiveWord?] at found
    split at found
    · exact found
    · cases found
  obtain ⟨someLeft, rfl⟩ := nonEmpty?_eq_some_iff.mp left
  exact fun empty => someLeft (String.ofList_eq_empty_iff.mp empty)

theorem read_eq_ok {source : ByteSource} {set : TrainingSet}
    (found : TrainingSet.read source = .ok set) :
    set = ofLines (LineReader.start source).collect.1 := by
  simp only [TrainingSet.read] at found
  split at found
  · cases found
  · exact (Except.ok.inj found).symm

theorem ne_empty_of_mem_positive {source : ByteSource} {set : TrainingSet}
    (found : TrainingSet.read source = .ok set) {text : String}
    (member : text ∈ set.positive) : text ≠ "" := by
  rw [read_eq_ok found] at member
  obtain ⟨line, _, taken⟩ := List.mem_filterMap.mp member
  exact positiveWord?_ne_empty taken

/-- From every training set that can be read an automaton is learned.  It is
read back as it was stored, it has a determinization, and both accept all
positive words and reject the negative ones that are not positive as well. -/
theorem learned_separates {source : ByteSource} {set : TrainingSet}
    (found : TrainingSet.read source = .ok set) (workers : Nat) :
    ∃ training deterministic,
      Training.ofTexts workers set.positive set.negative = .ok training ∧
      Automaton.read (.ofBytes training.automaton.write) =
        .ok training.automaton ∧
      training.automaton.toDeterministic = .ok deterministic ∧
      deterministic.kind = .deterministic ∧
      (∀ text ∈ set.positive,
        training.automaton.acceptsText text = true ∧
        deterministic.acceptsText text = true) ∧
      ∀ text ∈ set.negative, text ∉ set.positive →
        training.automaton.acceptsText text = false ∧
        deterministic.acceptsText text = false := by
  obtain ⟨initial, training, language, trained, advanced⟩ :=
    Training.ofWords_advances workers (set.positive.map Word.ofText)
      (set.negative.map Word.ofText)
  have wellFormed : training.automaton.WellFormed := advanced.wellFormed
  have accepted : ∀ text ∈ set.positive,
      training.automaton.acceptsText text = true := by
    intro text member
    have nonempty : Word.ofText text ≠ [] :=
      mt Word.ofText_eq_nil_iff.mp (ne_empty_of_mem_positive found member)
    exact advanced.grows.accepts
      ((language _).mpr ⟨nonempty, List.mem_map_of_mem member⟩)
  have rejected : ∀ text ∈ set.negative, text ∉ set.positive →
      training.automaton.acceptsText text = false := by
    intro text member notPositive
    apply advanced.rejects (List.mem_map_of_mem member)
    rw [Bool.eq_false_iff]
    intro accepted
    obtain ⟨other, otherMember, same⟩ :=
      List.mem_map.mp ((language _).mp accepted).2
    rw [Word.ofText_inj.mp same] at otherMember
    exact notPositive otherMember
  obtain ⟨deterministic, determinized, stands⟩ :=
    Automaton.determinize_standsFor wellFormed .separated
  have same : ∀ text : String, deterministic.acceptsText text =
      training.automaton.acceptsText text :=
    fun text => stands.accepts wellFormed (Word.ofText text)
  refine ⟨training, deterministic, trained, Automaton.read_write wellFormed,
    ?_, stands.kind_eq, ?_, ?_⟩
  · rw [Automaton.toDeterministic, determinized]
    rfl
  · intro text member
    rw [same]
    exact ⟨accepted text member, accepted text member⟩
  · intro text member notPositive
    rw [same]
    exact ⟨rejected text member notPositive,
      rejected text member notPositive⟩

/-- The second line has nothing but marks, and the third one calls a positive
word negative. -/
theorem markedLines_separated :
    TrainingSet.read (.ofBytes (Utf8.encode "ab+\n+\t\nab\r\nb")) =
      .ok ⟨["ab"], ["ab", "b"]⟩ ∧
    ∃ training deterministic,
      Training.ofTexts 2 ["ab"] ["ab", "b"] = .ok training ∧
      Automaton.read (.ofBytes training.automaton.write) =
        .ok training.automaton ∧
      training.automaton.toDeterministic = .ok deterministic ∧
      deterministic.kind = .deterministic ∧
      deterministic.acceptsText "ab" = true ∧
      deterministic.acceptsText "b" = false := by
  have found : TrainingSet.read
      (.ofBytes (Utf8.encode "ab+\n+\t\nab\r\nb")) =
      .ok ⟨["ab"], ["ab", "b"]⟩ := by decide +kernel
  obtain ⟨training, deterministic, trained, stored, determinized, kind,
    accepted, rejected⟩ := learned_separates found 2
  refine ⟨found, training, deterministic, trained, stored, determinized, kind,
    ?_, ?_⟩
  · exact (accepted "ab" (by simp)).2
  · exact (rejected "b" (by simp) (by simp)).2

end TrainingSet

end Recognizer
