import Recognizer.Json.Value

/-!
# Reading what was written, token by token

Every byte of a literal is written on its own, escaped or as it is, and is read
back as this byte.  So a written literal is one token, whatever its bytes are,
and what is written between tokens is read as nothing.  `Lexer.Reads` states
this for any bytes between two tokens, which lets the pieces of a document be
put together.
-/

namespace Recognizer.Json

theorem foldlM_append_of_eq_some {α σ : Type} {read : σ → α → Option σ}
    {first : List α} {state next : σ}
    (reaches : first.foldlM read state = some next) (second : List α) :
    (first ++ second).foldlM read state = second.foldlM read next := by
  rw [List.foldlM_append, reaches]
  rfl

theorem ofUInt8_inj {first second : UInt8} :
    Char.ofUInt8 first = Char.ofUInt8 second ↔ first = second := by
  constructor
  · intro same
    exact UInt8.toUInt32_inj.mp (congrArg Char.val same)
  · exact fun same => congrArg Char.ofUInt8 same

namespace Literal

theorem text?_ofText (text : String) : (ofText text).text? = some text := by
  have complete : (ofText text).all (fun piece => piece.byte?.isSome) =
      true := by
    simp [ofText, Piece.byte?]
  have bytes : (ofText text).filterMap Piece.byte? = Utf8.encode text := by
    simp [ofText, List.filterMap_map, Function.comp_def, Piece.byte?]
  rw [text?, if_pos complete, bytes, Utf8.decode?_encode]

theorem pushUnit_of_lt {unit : Nat} (control : unit < 0x20)
    (pieces : Literal) :
    pushUnit pieces unit = .byte unit.toUInt8 :: pieces := by
  have notHigh : isHighSurrogate unit = false := by
    simp only [isHighSurrogate, Bool.and_eq_false_iff, decide_eq_false_iff_not]
    omega
  have notLow : isLowSurrogate unit = false := by
    simp only [isLowSurrogate, Bool.and_eq_false_iff, decide_eq_false_iff_not]
    omega
  have oneByte : ∀ unit < 0x20,
      Utf8.encodeChar (Char.ofNat unit) = [unit.toUInt8] := by decide
  simp [pushUnit, notHigh, notLow, pushCharacter, oneByte unit control]

theorem hexValue?_hexDigit {digit : Nat} (small : digit < 0x10) :
    hexValue? (Char.ofUInt8 (hexDigit digit)) = some digit := by
  have each : ∀ digit < 0x10,
      hexValue? (Char.ofUInt8 (hexDigit digit)) = some digit := by decide
  exact each digit small

end Literal

namespace Lexer

/-! ## Inside a literal -/

theorem read_hexDigit (earlier : List Token) (pieces : Literal)
    {missing value digit : Nat} (small : digit < 0x10)
    (more : 1 < missing) :
    read ⟨earlier, .unit pieces missing value⟩ (Literal.hexDigit digit) =
      some ⟨earlier, .unit pieces (missing - 1) (value * 0x10 + digit)⟩ := by
  simp only [read, readUnit, Literal.hexValue?_hexDigit small]
  rw [if_neg (Nat.not_le_of_gt more)]
  rfl

theorem read_lastHexDigit (earlier : List Token) (pieces : Literal)
    {value digit : Nat} (small : digit < 0x10) :
    read ⟨earlier, .unit pieces 1 value⟩ (Literal.hexDigit digit) =
      some ⟨earlier,
        .string (Literal.pushUnit pieces (value * 0x10 + digit))⟩ := by
  simp only [read, readUnit, Literal.hexValue?_hexDigit small]
  rfl

theorem read_unitEscape (earlier : List Token) (pieces : Literal)
    {unit : Nat} (small : unit < 0x10000) :
    (Literal.unitEscape unit).foldlM read ⟨earlier, .string pieces⟩ =
      some ⟨earlier, .string (Literal.pushUnit pieces unit)⟩ := by
  have opened : (Utf8.encode "\\u").foldlM read ⟨earlier, .string pieces⟩ =
      some ⟨earlier, .unit pieces 4 0⟩ := rfl
  have digit : ∀ value, value % 0x10 < 0x10 :=
    fun value => Nat.mod_lt value (by decide)
  have whole : (((0 * 0x10 + unit / 0x1000 % 0x10) * 0x10
      + unit / 0x100 % 0x10) * 0x10 + unit / 0x10 % 0x10) * 0x10
        + unit % 0x10 = unit := by omega
  rw [Literal.unitEscape, foldlM_append_of_eq_some opened]
  simp only [List.foldlM_cons, List.foldlM_nil, Option.bind_eq_bind]
  rw [read_hexDigit _ _ (digit _) (by decide), Option.bind_some,
    read_hexDigit _ _ (digit _) (by decide), Option.bind_some,
    read_hexDigit _ _ (digit _) (by decide), Option.bind_some,
    read_lastHexDigit _ _ (digit _), Option.bind_some, whole]
  rfl

/-- A byte is read back as it was written.  The cases are those of the
escapes. -/
theorem read_writePiece (earlier : List Token) (pieces : Literal)
    (value : UInt8) :
    (Literal.writePiece (.byte value)).foldlM read
        ⟨earlier, .string pieces⟩ =
      some ⟨earlier, .string (.byte value :: pieces)⟩ := by
  simp only [Literal.writePiece]
  split
  · rename_i quote
    obtain rfl : value = 0x22 := ofUInt8_inj.mp quote
    rfl
  · rename_i backslash
    obtain rfl : value = 0x5c := ofUInt8_inj.mp backslash
    rfl
  · rename_i backspace
    obtain rfl : value = 0x08 := ofUInt8_inj.mp backspace
    rfl
  · rename_i tab
    obtain rfl : value = 0x09 := ofUInt8_inj.mp tab
    rfl
  · rename_i lineFeed
    obtain rfl : value = 0x0a := ofUInt8_inj.mp lineFeed
    rfl
  · rename_i formFeed
    obtain rfl : value = 0x0c := ofUInt8_inj.mp formFeed
    rfl
  · rename_i carriageReturn
    obtain rfl : value = 0x0d := ofUInt8_inj.mp carriageReturn
    rfl
  · rename_i notQuote notBackslash _ _ _ _ _
    by_cases control : value < 0x20
    · have small : value.toNat < 0x20 := UInt8.lt_iff_toNat_lt.mp control
      have inRange : value.toNat < 0x10000 := by omega
      rw [if_pos control, read_unitEscape _ _ inRange,
        Literal.pushUnit_of_lt small]
      simp
    · rw [if_neg control]
      simp only [List.foldlM_cons, List.foldlM_nil, read, readString,
        if_neg control]
      rfl

/-! ## Between tokens -/

/-- Bytes that are read, between two tokens, as the given tokens. -/
def Reads (bytes : List UInt8) (tokens : List Token) : Prop :=
  ∀ earlier, bytes.foldlM read ⟨earlier, .outside⟩ =
    some ⟨tokens.reverse ++ earlier, .outside⟩

namespace Reads

theorem nil : Reads [] [] := fun _ => rfl

theorem append {first second : List UInt8} {tokens laterTokens : List Token}
    (reads : Reads first tokens) (readsLater : Reads second laterTokens) :
    Reads (first ++ second) (tokens ++ laterTokens) := by
  intro earlier
  rw [foldlM_append_of_eq_some (reads earlier), readsLater,
    List.reverse_append, List.append_assoc]

theorem newline (depth : Nat) : Reads (Value.newline depth) [] := by
  intro earlier
  have blanks : ∀ count, (List.replicate count 0x20).foldlM read
      ⟨earlier, .outside⟩ = some ⟨earlier, .outside⟩ := by
    intro count
    induction count with
    | zero => rfl
    | succ count ih => exact ih
  exact blanks (2 * depth)

theorem literal (bytes : List UInt8) :
    Reads (Literal.write (bytes.map Piece.byte))
      [.string (bytes.map Piece.byte)] := by
  intro earlier
  have content : ∀ pieces : Literal,
      ((bytes.map Piece.byte).flatMap Literal.writePiece).foldlM read
          ⟨earlier, .string pieces⟩ =
        some ⟨earlier,
          .string ((bytes.map Piece.byte).reverse ++ pieces)⟩ := by
    induction bytes with
    | nil => exact fun _ => rfl
    | cons first later ih =>
        intro pieces
        rw [List.map_cons, List.flatMap_cons,
          foldlM_append_of_eq_some (read_writePiece earlier pieces first), ih,
          List.reverse_cons, List.append_assoc]
        rfl
  have opened : ([0x22] : List UInt8).foldlM read ⟨earlier, .outside⟩ =
      some ⟨earlier, .string []⟩ := rfl
  have closed : ∀ pieces : Literal,
      ([0x22] : List UInt8).foldlM read ⟨earlier, .string pieces⟩ =
        some ⟨.string pieces.reverse :: earlier, .outside⟩ := fun _ => rfl
  rw [Literal.write, List.cons_append, ← List.singleton_append,
    foldlM_append_of_eq_some opened, foldlM_append_of_eq_some (content []),
    closed, List.append_nil, List.reverse_reverse]
  rfl

theorem ofBytes? {bytes : List UInt8} {tokens : List Token}
    (reads : Reads bytes tokens) : Token.ofBytes? bytes = some tokens := by
  rw [Token.ofBytes?, start, reads, Option.bind_some, finish?,
    List.append_nil, List.reverse_reverse]

end Reads

end Lexer

end Recognizer.Json
