import Recognizer.Proofs.Json.Token
import Recognizer.Snapshot.Document

/-!
# Reading what was written, value by value

The tokens of a value are what lies between its bytes and its structure:
writing a value gives bytes that are read as its tokens, and from its tokens the
value is built again, inside any arrays and objects that are still open.
Together, a written value is read back.

This is shown for the values of records of texts (`Value.Textual`): they have no
numbers, and every string and key is a text.
-/

namespace Recognizer.Json

namespace Value

mutual

/-- The tokens of a value. -/
def tokens : Value → List Token
  | .null => [.null]
  | .boolean value => [.boolean value]
  | .number digits => [.number digits]
  | .string literal => [.string literal]
  | .array [] => [.openArray, .closeArray]
  | .array (item :: items) =>
      [.openArray] ++ tokens item ++ itemTokens items ++ [.closeArray]
  | .object [] => [.openObject, .closeObject]
  | .object ((key, value) :: members) =>
      [.openObject, .string key, .colon] ++ tokens value
        ++ memberTokens members ++ [.closeObject]

/-- The tokens of further items, each behind a comma. -/
def itemTokens : List Value → List Token
  | [] => []
  | item :: items => [.comma] ++ tokens item ++ itemTokens items

/-- The tokens of further members, each behind a comma. -/
def memberTokens : List (Literal × Value) → List Token
  | [] => []
  | (key, value) :: members =>
      [.comma, .string key, .colon] ++ tokens value ++ memberTokens members

end

/-- A value without numbers whose strings and keys are texts. -/
inductive Textual : Value → Prop where
  | null : Textual .null
  | boolean (value : Bool) : Textual (.boolean value)
  | text (text : String) : Textual (.ofText text)
  | array {items : List Value} :
      (∀ item ∈ items, Textual item) → Textual (.array items)
  | object {fields : List (String × Value)} :
      (∀ field ∈ fields, Textual field.2) → Textual (.ofFields fields)

/-! ## From bytes to tokens -/

section Reading

open Lexer (Reads)

theorem reads_writeItems {items : List Value} {depth : Nat}
    (reads : ∀ item ∈ items, Reads (write depth item) item.tokens) :
    Reads (writeItems depth items) (itemTokens items) := by
  induction items with
  | nil => exact .nil
  | cons item items ih =>
      have comma : Reads (Utf8.encode ",") [.comma] := fun _ => rfl
      have first := (comma.append (.newline depth)).append
        (reads item List.mem_cons_self)
      exact first.append <| ih fun other member =>
        reads other (List.mem_cons_of_mem item member)

theorem reads_key (text : String) :
    Reads ((Literal.ofText text).write ++ Utf8.encode ": ")
      [.string (Literal.ofText text), .colon] := by
  have colon : Reads (Utf8.encode ": ") [.colon] := fun _ => rfl
  exact (Reads.literal (Utf8.encode text)).append colon

theorem reads_writeMembers {fields : List (String × Value)} {depth : Nat}
    (reads : ∀ field ∈ fields, Reads (write depth field.2) field.2.tokens) :
    Reads
      (writeMembers depth
        (fields.map fun field => (Literal.ofText field.1, field.2)))
      (memberTokens
        (fields.map fun field => (Literal.ofText field.1, field.2))) := by
  induction fields with
  | nil => exact .nil
  | cons field fields ih =>
      have comma : Reads (Utf8.encode ",") [.comma] := fun _ => rfl
      have first := ((comma.append (.newline depth)).append
        (reads_key field.1)).append (reads field List.mem_cons_self)
      have whole := first.append <| ih fun other member =>
        reads other (List.mem_cons_of_mem field member)
      simpa only [List.map_cons, writeMembers, memberTokens,
        List.append_assoc, List.cons_append, List.nil_append] using whole

/-- A written value is read as its tokens, at any depth. -/
theorem Textual.reads_write {value : Value} (textual : value.Textual) :
    ∀ depth, Reads (value.write depth) value.tokens := by
  induction textual with
  | null => exact fun _ _ => rfl
  | boolean value =>
      intro depth
      cases value with
      | true => exact fun _ => rfl
      | false => exact fun _ => rfl
  | text text => exact fun _ => .literal (Utf8.encode text)
  | @array items _ ih =>
      intro depth
      cases items with
      | nil => exact fun _ => rfl
      | cons item items =>
          have opened : Reads (Utf8.encode "[") [.openArray] := fun _ => rfl
          have closed : Reads (Utf8.encode "]") [.closeArray] := fun _ => rfl
          have first := ih item List.mem_cons_self (depth + 1)
          have later := reads_writeItems fun other member =>
            ih other (List.mem_cons_of_mem item member) (depth + 1)
          have whole := ((((opened.append (.newline (depth + 1))).append
            first).append later).append (.newline depth)).append closed
          simpa only [write, tokens, List.append_nil] using whole
  | @object fields _ ih =>
      intro depth
      cases fields with
      | nil => exact fun _ => rfl
      | cons field fields =>
          have opened : Reads (Utf8.encode "\x7b") [.openObject] :=
            fun _ => rfl
          have closed : Reads (Utf8.encode "\x7d") [.closeObject] :=
            fun _ => rfl
          have first := ih field List.mem_cons_self (depth + 1)
          have later := reads_writeMembers fun other member =>
            ih other (List.mem_cons_of_mem field member) (depth + 1)
          have whole := (((((opened.append (.newline (depth + 1))).append
            (reads_key field.1)).append first).append later).append
              (.newline depth)).append closed
          simpa only [ofFields, List.map_cons, write, tokens,
            List.append_nil, List.append_assoc, List.cons_append,
            List.nil_append] using whole

end Reading

/-! ## From tokens to values -/

/-- The tokens build the value, whatever is still open around it. -/
def BuiltFrom (value : Value) (tokens : List Token) : Prop :=
  ∀ frames, tokens.foldlM Assembly.read ⟨frames, .value⟩ =
    some ⟨frames, .separator value⟩

/-- No value begins with the end of an array. -/
theorem exists_tokens_eq_cons (value : Value) :
    ∃ first later, value.tokens = first :: later ∧ first ≠ .closeArray := by
  cases value with
  | null => exact ⟨_, _, rfl, by simp⟩
  | boolean value => exact ⟨_, _, rfl, by simp⟩
  | number digits => exact ⟨_, _, rfl, by simp⟩
  | string literal => exact ⟨_, _, rfl, by simp⟩
  | array items =>
      cases items with
      | nil => exact ⟨_, _, rfl, by simp⟩
      | cons item items => exact ⟨_, _, rfl, by simp⟩
  | object members =>
      cases members with
      | nil => exact ⟨_, _, rfl, by simp⟩
      | cons member members => exact ⟨_, _, rfl, by simp⟩

theorem BuiltFrom.firstItem {value : Value}
    (built : value.BuiltFrom value.tokens) (frames : List Frame) :
    value.tokens.foldlM Assembly.read ⟨frames, .firstItem⟩ =
      some ⟨frames, .separator value⟩ := by
  obtain ⟨first, later, split, notEnd⟩ := exists_tokens_eq_cons value
  have same : Assembly.read ⟨frames, .firstItem⟩ first =
      Assembly.read ⟨frames, .value⟩ first := by
    cases first with
    | closeArray => exact absurd rfl notEnd
    | _ => rfl
  rw [← built frames, split, List.foldlM_cons, List.foldlM_cons, same]

theorem read_itemTokens {items : List Value}
    (built : ∀ item ∈ items, item.BuiltFrom item.tokens)
    (frames : List Frame) (earlier : List Value) (last : Value) :
    (itemTokens items ++ [Token.closeArray]).foldlM Assembly.read
        ⟨.array earlier :: frames, .separator last⟩ =
      some ⟨frames,
        .separator (.array (earlier.reverse ++ last :: items))⟩ := by
  induction items generalizing earlier last with
  | nil => simp [itemTokens, Assembly.read, Assembly.readSeparator]
  | cons item items ih =>
      have comma : [Token.comma].foldlM Assembly.read
          ⟨.array earlier :: frames, .separator last⟩ =
            some ⟨.array (last :: earlier) :: frames, .value⟩ := rfl
      rw [itemTokens, List.append_assoc, List.append_assoc,
        foldlM_append_of_eq_some comma,
        foldlM_append_of_eq_some (built item List.mem_cons_self _),
        ih fun other member => built other (List.mem_cons_of_mem item member)]
      simp

theorem read_memberTokens {members : List (Literal × Value)}
    (built : ∀ member ∈ members, member.2.BuiltFrom member.2.tokens)
    (frames : List Frame) (earlier : List (Literal × Value)) (key : Literal)
    (last : Value) :
    (memberTokens members ++ [Token.closeObject]).foldlM Assembly.read
        ⟨.object earlier key :: frames, .separator last⟩ =
      some ⟨frames,
        .separator (.object (earlier.reverse ++ (key, last) :: members))⟩ := by
  induction members generalizing earlier key last with
  | nil => simp [memberTokens, Assembly.read, Assembly.readSeparator]
  | cons member members ih =>
      have opened : [Token.comma, .string member.1, .colon].foldlM
          Assembly.read ⟨.object earlier key :: frames, .separator last⟩ =
        some ⟨.object ((key, last) :: earlier) member.1 :: frames,
          .value⟩ := rfl
      rw [memberTokens, List.append_assoc, List.append_assoc,
        foldlM_append_of_eq_some opened,
        foldlM_append_of_eq_some (built member List.mem_cons_self _),
        ih fun other inside => built other (List.mem_cons_of_mem member inside)]
      simp

theorem Textual.builtFrom_tokens {value : Value} (textual : value.Textual) :
    value.BuiltFrom value.tokens := by
  induction textual with
  | null => exact fun _ => rfl
  | boolean value => exact fun _ => rfl
  | text text => exact fun _ => rfl
  | @array items _ ih =>
      intro frames
      cases items with
      | nil => rfl
      | cons item items =>
          have opened : [Token.openArray].foldlM Assembly.read
              ⟨frames, .value⟩ =
            some ⟨.array [] :: frames, .firstItem⟩ := rfl
          have later : ∀ other ∈ items, other.BuiltFrom other.tokens :=
            fun other member => ih other (List.mem_cons_of_mem item member)
          rw [tokens, List.append_assoc, List.append_assoc,
            foldlM_append_of_eq_some opened,
            foldlM_append_of_eq_some
              ((ih item List.mem_cons_self).firstItem _),
            read_itemTokens later]
          rfl
  | @object fields _ ih =>
      intro frames
      cases fields with
      | nil => rfl
      | cons field fields =>
          have opened : [Token.openObject, .string (Literal.ofText field.1),
              .colon].foldlM Assembly.read ⟨frames, .value⟩ =
            some ⟨.object [] (Literal.ofText field.1) :: frames,
              .value⟩ := rfl
          have later : ∀ member ∈ fields.map fun field =>
              (Literal.ofText field.1, field.2),
              member.2.BuiltFrom member.2.tokens := by
            intro member mapped
            obtain ⟨other, inside, rfl⟩ := List.mem_map.mp mapped
            exact ih other (List.mem_cons_of_mem field inside)
          rw [ofFields, List.map_cons, tokens, List.append_assoc,
            List.append_assoc, foldlM_append_of_eq_some opened,
            foldlM_append_of_eq_some (ih field List.mem_cons_self _),
            read_memberTokens later]
          rfl

/-- What was written is read back. -/
theorem Textual.ofBytes?_write {value : Value} (textual : value.Textual) :
    ofBytes? (value.write 0) = some value := by
  rw [ofBytes?, (textual.reads_write 0).ofBytes?, Option.bind_some,
    ofTokens?, Assembly.start, textual.builtFrom_tokens, Option.bind_some,
    Assembly.finish?]

end Value

end Recognizer.Json
