import Recognizer.Proofs.Produced
import Recognizer.Proofs.Snapshot.Document

/-!
# Stored automata

Every automaton that can come about is stored without a loss: the document that
is written for it is read as the same automaton, whatever its labels are and
whatever has been added to it and taken back.
-/

namespace Recognizer

namespace Produced

/-- An automaton that can come about is read back as it was written. -/
theorem read_stored {automaton : Automaton} {records : List Undo}
    (produced : Produced automaton records) :
    Automaton.read (.ofBytes automaton.write) = .ok automaton :=
  Automaton.read_write produced.wellFormed

/-- A deterministic automaton with an empty label, and with quotes,
backslashes, control characters and a character of four bytes in the others. -/
def oddlyLabelled : Automaton where
  kind := .deterministic
  states := ["", "\x01\n😀", "\"\\"]
  alphabet := ["", "\t\x1f"]
  initial := 1
  finals := [0, 2]
  rows := [[[], [0]], [[2], []], [[], []]]

/-- The first addition was undone after the second one. -/
theorem oddlyLabelled_produced :
    Produced oddlyLabelled [⟨1, 0, []⟩, ⟨2, 1, []⟩] := by
  let bare : Automaton :=
    { oddlyLabelled with rows := [[[], [0]], [[], []], [[], []]] }
  let looped : Automaton :=
    { oddlyLabelled with rows := [[[], [0]], [[], []], [[], [2]]] }
  let both : Automaton :=
    { oddlyLabelled with rows := [[[], [0]], [[2], []], [[], [2]]] }
  have built : (Draft.ofDeclarations
      [.states ["\"\\", "", "\x01\n😀"], .alphabet ["\t\x1f", ""],
        .initial "\x01\n😀", .finals ["\"\\", ""],
        .destination "" "\t\x1f" ""]).build .deterministic =
      .ok bare := by decide +kernel
  have addedFirst : bare.add 2 1 2 = .ok (looped, ⟨2, 1, []⟩) := rfl
  have addedSecond : looped.add 1 0 2 = .ok (both, ⟨1, 0, []⟩) := rfl
  have producedBoth : Produced both [⟨1, 0, []⟩, ⟨2, 1, []⟩] :=
    .added (.added (.built built) (by decide) (by decide) (by decide)
      addedFirst) (by decide) (by decide) (by decide) addedSecond
  have earlier : (⟨2, 1, []⟩ : Undo) ∈
      ([⟨1, 0, []⟩, ⟨2, 1, []⟩] : List Undo) := by simp
  exact .undone producedBoth earlier

theorem oddlyLabelled_read :
    Automaton.read (.ofBytes oddlyLabelled.write) = .ok oddlyLabelled :=
  read_stored oddlyLabelled_produced

end Produced

end Recognizer
