import Recognizer.Proofs.Json.Value
import Recognizer.Proofs.Snapshot.Restoring

/-!
# Stored snapshots are read back

Decoding undoes encoding for lists, for records with different field names and
so for snapshots.  With the laws of the document and of restoring, an automaton
that was written is read back.
-/

namespace Recognizer

namespace Json.Value

theorem mapM_map_eq_some {α β : Type} {encode : α → β} {decode : β → Option α}
    (inverse : ∀ value, decode (encode value) = some value)
    (values : List α) : (values.map encode).mapM decode = some values := by
  calc
    (values.map encode).mapM decode = values.mapM (decode ∘ encode) :=
      List.mapM_map
    _ = some (values.map id) :=
      mapM_eq_some_map fun value _ => inverse value
    _ = some values := by rw [List.map_id]

theorem text?_ofText (text : String) : (ofText text).text? = some text :=
  Literal.text?_ofText text

theorem texts?_ofTexts (texts : List String) :
    (ofTexts texts).texts? = some texts :=
  mapM_map_eq_some text?_ofText texts

theorem filter_name_eq {fields : List (String × Value)}
    (distinct : (fields.map Prod.fst).Nodup) {field : String × Value}
    (member : field ∈ fields) :
    fields.filter (fun other => other.1 == field.1) = [field] := by
  induction fields with
  | nil => exact absurd member List.not_mem_nil
  | cons head tail ih =>
      obtain ⟨headNew, tailDistinct⟩ := List.nodup_cons.mp distinct
      rcases List.mem_cons.mp member with rfl | later
      · have noOther : tail.filter (fun other => other.1 == field.1) =
            [] := by
          apply List.filter_eq_nil_iff.mpr
          intro other inside same
          apply headNew
          rw [← eq_of_beq same]
          exact List.mem_map_of_mem inside
        simp [noOther]
      · have different : head.1 ≠ field.1 := by
          intro same
          rw [same] at headNew
          exact headNew (List.mem_map_of_mem later)
        rw [List.filter_cons_of_neg (by simpa using different),
          ih tailDistinct later]

theorem record?_ofFields {fields : List (String × Value)}
    (distinct : (fields.map Prod.fst).Nodup) :
    (ofFields fields).record? (fields.map Prod.fst) =
      some (fields.map Prod.snd) := by
  have named : (fields.map fun field =>
      (Literal.ofText field.1, field.2)).mapM
        (fun member => member.1.text?.map fun name => (name, member.2)) =
          some fields := by
    apply mapM_map_eq_some
    intro field
    rw [Literal.text?_ofText, Option.map_some]
  simp only [ofFields, record?, named, Option.bind_eq_bind,
    Option.bind_some]
  rw [List.mapM_map]
  apply mapM_eq_some_map
  intro field member
  simp [filter_name_eq distinct member]

theorem textual_ofTexts (texts : List String) : (ofTexts texts).Textual := by
  apply Textual.array
  intro item mapped
  obtain ⟨text, _, rfl⟩ := List.mem_map.mp mapped
  exact .text text

end Json.Value

open Json (Value)

theorem Kind.ofValue?_ofText (kind : Kind) :
    Kind.ofValue? (.ofText kind.name) = some kind := by
  simp only [Kind.ofValue?, Value.ofText, Json.Literal.text?_ofText,
    Option.bind_some]
  cases kind with
  | nondeterministic => rfl
  | deterministic => rfl

namespace Transition

theorem ofValue?_toValue (transition : Transition) :
    Transition.ofValue? transition.toValue = some transition := by
  have fields : transition.toValue.record? fieldNames =
      some [.ofText transition.origin, .ofText transition.symbol,
        .ofTexts transition.destinations] :=
    Value.record?_ofFields (by simp)
  simp [Transition.ofValue?, fields, Value.text?_ofText,
    Value.texts?_ofTexts]

theorem textual_toValue (transition : Transition) :
    transition.toValue.Textual := by
  apply Value.Textual.object
  simp [Value.Textual.text, Value.textual_ofTexts]

end Transition

namespace Snapshot

theorem transitionsOfValue?_map (transitions : List Transition) :
    transitionsOfValue? (.array (transitions.map Transition.toValue)) =
      some transitions :=
  Value.mapM_map_eq_some Transition.ofValue?_toValue transitions

theorem ofValue?_toValue (snapshot : Snapshot) :
    Snapshot.ofValue? snapshot.toValue = some snapshot := by
  have fields : snapshot.toValue.record? fieldNames =
      some [.ofText snapshot.kind.name, .ofTexts snapshot.states,
        .ofTexts snapshot.alphabet, .ofText snapshot.initial,
        .ofTexts snapshot.finals,
        .array (snapshot.transitions.map Transition.toValue)] :=
    Value.record?_ofFields (by simp)
  simp [Snapshot.ofValue?, fields, Kind.ofValue?_ofText, Value.text?_ofText,
    Value.texts?_ofTexts, transitionsOfValue?_map]

theorem textual_toValue (snapshot : Snapshot) :
    snapshot.toValue.Textual := by
  have transitions :
      (Value.array (snapshot.transitions.map Transition.toValue)).Textual := by
    apply Value.Textual.array
    intro item mapped
    obtain ⟨transition, _, rfl⟩ := List.mem_map.mp mapped
    exact transition.textual_toValue
  apply Value.Textual.object
  simp [Value.Textual.text, Value.textual_ofTexts, transitions]

/-- Every snapshot is read back as it was written, also one that describes no
automaton. -/
theorem read?_write (snapshot : Snapshot) :
    Snapshot.read? snapshot.write = some snapshot := by
  rw [Snapshot.read?, Snapshot.write, snapshot.textual_toValue.ofBytes?_write,
    Option.bind_some, ofValue?_toValue]

end Snapshot

theorem Automaton.read_write {automaton : Automaton}
    (wellFormed : automaton.WellFormed) :
    Automaton.read (.ofBytes automaton.write) = .ok automaton := by
  have stored : Snapshot.read? automaton.write = some automaton.snapshot :=
    Snapshot.read?_write automaton.snapshot
  have notFailing : ¬ (ByteSource.ofBytes automaton.write).fails = true := by
    simp [ByteSource.ofBytes]
  rw [Automaton.read, if_neg notFailing]
  simp only [ByteSource.ofBytes, stored]
  rw [restore_snapshot wellFormed]
  rfl

end Recognizer
