import Mathlib.Data.List.Basic
import Recognizer.Text.Utf8

/-!
# Single bytes of a text

In UTF-8 a byte below 128 always stands for the character with its code, and
never for a part of another one.  Where such a byte stands in the bytes of a text,
its character stands in the text, and what is before and behind it are texts of
their own.
-/

namespace Recognizer.Utf8

theorem encode_eq_flatMap (text : String) :
    encode text = text.toList.flatMap String.utf8EncodeChar := by
  rw [encode, String.toUTF8_eq_toByteArray, ← String.utf8Encode_toList]
  exact List.toList_data_toByteArray

theorem encode_append (first second : String) :
    encode (first ++ second) = encode first ++ encode second := by
  simp [encode_eq_flatMap]

theorem decode?_eq_some_iff {bytes : List UInt8} {text : String} :
    decode? bytes = some text ↔ encode text = bytes := by
  constructor
  · intro decoded
    simp only [decode?, String.fromUTF8?] at decoded
    split at decoded
    · cases decoded
      rfl
    · cases decoded
  · rintro rfl
    exact decode?_encode text

/-- The bytes are well formed. -/
def IsText (bytes : List UInt8) : Prop :=
  ∃ text : String, encode text = bytes

theorem isSome_decode?_iff {bytes : List UInt8} :
    (decode? bytes).isSome = true ↔ IsText bytes := by
  simp only [Option.isSome_iff_exists, decode?_eq_some_iff, IsText]

theorem decode?_eq_none_iff {bytes : List UInt8} :
    decode? bytes = none ↔ ¬ IsText bytes := by
  rw [← isSome_decode?_iff, Bool.not_eq_true, Option.isSome_eq_false_iff,
    Option.isNone_iff_eq_none]

instance (bytes : List UInt8) : Decidable (IsText bytes) :=
  decidable_of_iff _ isSome_decode?_iff

theorem isText_nil : IsText [] :=
  ⟨"", rfl⟩

theorem IsText.append {first second : List UInt8} (isFirst : IsText first)
    (isSecond : IsText second) : IsText (first ++ second) := by
  obtain ⟨firstText, rfl⟩ := isFirst
  obtain ⟨secondText, rfl⟩ := isSecond
  exact ⟨firstText ++ secondText, encode_append firstText secondText⟩

theorem utf8EncodeChar_of_ascii {character : Char}
    (ascii : character.toNat ≤ 127) :
    String.utf8EncodeChar character = [UInt8.ofNat character.toNat] :=
  if_pos ascii

theorem utf8EncodeChar_ne_nil (character : Char) :
    String.utf8EncodeChar character ≠ [] := by
  apply List.ne_nil_of_length_pos
  rw [String.length_utf8EncodeChar]
  exact character.utf8Size_pos

theorem high_of_not_ascii {character : Char} {byte : UInt8}
    (long : ¬character.toNat ≤ 127)
    (member : byte ∈ String.utf8EncodeChar character) :
    128 ≤ byte.toNat := by
  have toNat_ofNat : ∀ value : Nat, (UInt8.ofNat value).toNat = value % 256 :=
    fun _ => UInt8.toNat_ofNat'
  change ¬character.val.toNat ≤ 127 at long
  simp only [String.utf8EncodeChar, if_neg long] at member
  split at member
  · simp only [List.mem_cons, List.not_mem_nil, or_false] at member
    rcases member with rfl | rfl
    all_goals rw [toNat_ofNat]; omega
  · split at member
    · simp only [List.mem_cons, List.not_mem_nil, or_false] at member
      rcases member with rfl | rfl | rfl
      all_goals rw [toNat_ofNat]; omega
    · simp only [List.mem_cons, List.not_mem_nil, or_false] at member
      rcases member with rfl | rfl | rfl | rfl
      all_goals rw [toNat_ofNat]; omega

section Ascii

variable {character : Char} (ascii : character.toNat ≤ 127)

include ascii

theorem encode_singleton :
    encode (.singleton character) = [UInt8.ofNat character.toNat] := by
  rw [encode_eq_flatMap, String.toList_singleton, List.flatMap_singleton,
    utf8EncodeChar_of_ascii ascii]

theorem mem_utf8EncodeChar_iff {other : Char} :
    UInt8.ofNat character.toNat ∈ String.utf8EncodeChar other ↔
      other = character := by
  have code : (UInt8.ofNat character.toNat).toNat = character.toNat := by
    rw [UInt8.toNat_ofNat']
    omega
  constructor
  · intro member
    by_cases otherAscii : other.toNat ≤ 127
    · rw [utf8EncodeChar_of_ascii otherAscii, List.mem_singleton] at member
      have sameCode := congrArg UInt8.toNat member
      rw [code, UInt8.toNat_ofNat'] at sameCode
      apply Char.toNat_inj.mp
      omega
    · have high := high_of_not_ascii otherAscii member
      omega
  · intro same
    rw [same, utf8EncodeChar_of_ascii ascii]
    exact List.mem_singleton_self _

theorem mem_encode_iff {text : String} :
    UInt8.ofNat character.toNat ∈ encode text ↔ character ∈ text.toList := by
  rw [encode_eq_flatMap, List.mem_flatMap]
  constructor
  · intro found
    obtain ⟨other, member, byte⟩ := found
    rw [← (mem_utf8EncodeChar_iff ascii).mp byte]
    exact member
  · intro member
    exact ⟨character, member, (mem_utf8EncodeChar_iff ascii).mpr rfl⟩

theorem getLast?_encode_iff {text : String} :
    (encode text).getLast? = some (UInt8.ofNat character.toNat) ↔
      text.toList.getLast? = some character := by
  rw [encode_eq_flatMap]
  rcases List.eq_nil_or_concat' text.toList with empty | ⟨earlier, last, ends⟩
  · simp [empty]
  · rw [ends, List.flatMap_append, List.flatMap_singleton,
      List.getLast?_append_of_ne_nil _ (utf8EncodeChar_ne_nil last),
      List.getLast?_concat, Option.some.injEq]
    constructor
    · intro byte
      exact (mem_utf8EncodeChar_iff ascii).mp (List.mem_of_getLast? byte)
    · intro same
      rw [same, utf8EncodeChar_of_ascii ascii]
      rfl

/-- At the byte of a character its text is divided too. -/
theorem exists_split_of_flatMap {characters : List Char}
    {before after : List UInt8}
    (divided : characters.flatMap String.utf8EncodeChar =
      before ++ UInt8.ofNat character.toNat :: after) :
    ∃ earlier later, characters = earlier ++ character :: later ∧
      earlier.flatMap String.utf8EncodeChar = before ∧
      later.flatMap String.utf8EncodeChar = after := by
  induction characters generalizing before with
  | nil => simp at divided
  | cons first rest ih =>
      rw [List.flatMap_cons] at divided
      rcases List.append_eq_append_iff.mp divided with
        ⟨others, rfl, later⟩ | ⟨others, own, later⟩
      · obtain ⟨earlier, behind, rfl, rfl, isAfter⟩ := ih later
        exact ⟨first :: earlier, behind, rfl, rfl, isAfter⟩
      · cases others with
        | nil =>
            obtain ⟨earlier, behind, rfl, isBefore, isAfter⟩ :=
              @ih [] later.symm
            refine ⟨first :: earlier, behind, rfl, ?_, isAfter⟩
            rw [List.flatMap_cons, isBefore, own, List.append_nil,
              List.append_nil]
        | cons byte others =>
            -- The byte is one of the first character, which it is alone.
            obtain ⟨rfl, rfl⟩ := List.cons.inj later
            have isFirst : first = character := by
              apply (mem_utf8EncodeChar_iff ascii).mp
              rw [own]
              exact List.mem_append_right before List.mem_cons_self
            rw [isFirst, utf8EncodeChar_of_ascii ascii] at own
            obtain ⟨rfl, alone⟩ | ⟨_, impossible⟩ :=
              List.append_eq_singleton_iff.mp own.symm
            · cases (List.cons.inj alone).2
              exact ⟨[], rest, by rw [isFirst, List.nil_append], rfl, rfl⟩
            · cases impossible

theorem exists_split_of_encode {text : String} {before after : List UInt8}
    (divided : encode text = before ++ UInt8.ofNat character.toNat :: after) :
    ∃ earlier later : String,
      text = earlier ++ String.singleton character ++ later ∧
      encode earlier = before ∧ encode later = after := by
  rw [encode_eq_flatMap] at divided
  obtain ⟨earlier, later, split, isBefore, isAfter⟩ :=
    exists_split_of_flatMap ascii divided
  refine ⟨.ofList earlier, .ofList later, ?_, ?_, ?_⟩
  · apply String.toList_inj.mp
    simp [split]
  · rw [encode_eq_flatMap, String.toList_ofList, isBefore]
  · rw [encode_eq_flatMap, String.toList_ofList, isAfter]

theorem isText_append_cons_iff {before after : List UInt8} :
    IsText (before ++ UInt8.ofNat character.toNat :: after) ↔
      IsText (before ++ [UInt8.ofNat character.toNat]) ∧ IsText after := by
  constructor
  · rintro ⟨text, divided⟩
    obtain ⟨earlier, later, _, isBefore, isAfter⟩ :=
      exists_split_of_encode ascii divided
    refine ⟨⟨earlier ++ .singleton character, ?_⟩, later, isAfter⟩
    rw [encode_append, isBefore, encode_singleton ascii]
  · rintro ⟨isBefore, isAfter⟩
    have joined := isBefore.append isAfter
    rwa [List.append_assoc, List.singleton_append] at joined

theorem decode?_concat (bytes : List UInt8) :
    decode? (bytes ++ [UInt8.ofNat character.toNat]) =
      (decode? bytes).map (· ++ String.singleton character) := by
  cases decoded : decode? bytes with
  | none =>
      apply decode?_eq_none_iff.mpr
      rintro ⟨text, divided⟩
      obtain ⟨earlier, _, _, isBefore, _⟩ :=
        exists_split_of_encode ascii divided
      exact decode?_eq_none_iff.mp decoded ⟨earlier, isBefore⟩
  | some text =>
      apply decode?_eq_some_iff.mpr
      rw [encode_append, decode?_eq_some_iff.mp decoded,
        encode_singleton ascii]

end Ascii

end Recognizer.Utf8
