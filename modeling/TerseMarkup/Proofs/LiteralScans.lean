import TerseMarkup.Proofs.ByteScans

/-!
# Tokens cut by bytes

A string literal is passed two bytes behind the offset of its closing quote, and a single character
behind as many bytes as it has. The quote is looked for from the end of the line to its start, with
the byte offset of each character. The main statement, `Seeker.scanWith?_measure?`, says of every
terminal that no such cut is refused, wherever a seeker stands between two characters, and that what
is cut out is what the seeker reads.
-/

namespace TerseMarkup

/-! ### The closing quote -/

namespace Literal

/-- The byte of the quote that closes a body which starts at byte `i` of a line, and of the one that
closes a body which starts a character later. A backslash takes the quote behind the next character,
if there is one. -/
def quoteBytes (i : Nat) : List Char → Option Nat × Option Nat
  | [] => (none, none)
  | c :: line =>
    let (next, afterNext) := quoteBytes (i + c.utf8Size) line
    (if c = '"' then some i else if c = '\\' then afterNext.or next else next, next)

/-- Counting bytes finds the quotes that counting characters finds. -/
private theorem quoteBytes_eq (i : Nat) (line : List Char) :
    quoteBytes i line =
      ((closingQuote? line).map fun n ↦ i + Text.byteLength (line.take n),
        (closingQuote? line.tail).map fun n ↦ i + Text.byteLength (line.take (n + 1))) := by
  induction line generalizing i with
  | nil => rfl
  | cons c line ih =>
    -- A place in the line is one character further in the line with `c`.
    have further (n : Nat) : i + c.utf8Size + Text.byteLength (line.take n) =
        i + Text.byteLength ((c :: line).take (n + 1)) := by
      rw [List.take_succ_cons, Text.byteLength_cons, Nat.add_assoc]
    simp only [quoteBytes, ih, further]
    congr 1
    by_cases quote : c = '"'
    · subst c
      simp
    by_cases backslash : c = '\\'
    · subst c
      rw [if_neg quote, if_pos rfl, closingQuote?_backslash, Option.map_or, Option.map_map,
        Option.map_map]
      rfl
    · rw [if_neg quote, if_neg backslash, closingQuote?_plain quote backslash, Option.map_map]
      rfl

/-- The byte of the quote that closes a body at the start of a text, unless a cut is refused. The
text is cut at the end of its line. -/
def quoteByte? (text : List Char) : Option (Option Nat) := do
  let line ← Text.takeBytes? (Text.byteLength (firstLine text)) text
  return (quoteBytes 0 line).1

/-- The quote stands behind as many bytes as the body has. -/
private theorem quoteByte?_eq (text : List Char) :
    quoteByte? text = some ((body? text).map Text.byteLength) := by
  have line : Text.takeBytes? (Text.byteLength (firstLine text)) text = some (firstLine text) :=
    Text.takeBytes?_eq_some_iff.mpr ⟨_, (List.takeWhile_append_dropWhile).symm, rfl⟩
  rw [quoteByte?, line, body?, Option.map_map]
  simp only [Option.bind_eq_bind, Option.bind_some, quoteBytes_eq, Nat.zero_add]
  rfl

end Literal

/-! ### Measures -/

namespace Terminal

/-- Measure a string literal. It says what is before its closing quote, and it is passed with both
quotes. -/
def literalMeasure? : List Char → Option (Option (Nat × List Char))
  | '"' :: text => do
    match ← Literal.quoteByte? text with
    | none => return none
    | some offset => return some (offset + 2, ← Text.takeBytes? offset text)
  | _ => some none

/-- Measure a single character. -/
def charMeasure? (c : Char) (text : List Char) : Option (Option (Nat × List Char)) :=
  some (if text.head? = some c then some (c.utf8Size, [c]) else none)

/-- How each terminal is measured. -/
def measure? : Terminal → List Char → Option (Option (Nat × List Char))
  | name => counted? nameLength?
  | identifier => counted? identifierLength?
  | string => literalMeasure?
  | char c => charMeasure? c

private theorem byteLength_quoted (body : List Char) :
    Text.byteLength ('"' :: (body ++ ['"'])) = Text.byteLength body + 2 := by
  have quote : '"'.utf8Size = 1 := rfl
  rw [Text.byteLength_cons, Text.byteLength_append, Text.byteLength_cons, Text.byteLength_nil,
    quote]
  omega

private theorem literalMeasure?_quote (text : List Char) :
    literalMeasure? ('"' :: text) =
      some ((Literal.body? text).map fun body ↦ (Text.byteLength body + 2, body)) := by
  rw [literalMeasure?, Literal.quoteByte?_eq]
  cases hb : Literal.body? text with
  | none => rfl
  | some body =>
    have lexeme : string.lexeme? ('"' :: text) = some ('"' :: (body ++ ['"'])) :=
      congrArg (Option.map fun body ↦ '"' :: (body ++ ['"'])) hb
    obtain ⟨rest, htext, -⟩ := lexeme?_eq_some_iff.mp lexeme
    have htext : text = body ++ '"' :: rest := by simpa using htext
    have taken : Text.takeBytes? (Text.byteLength body) text = some body :=
      Text.takeBytes?_eq_some_iff.mpr ⟨_, htext, rfl⟩
    simp only [Option.map_some, Option.bind_eq_bind, Option.bind_some, taken]
    rfl

/-- String literals are measured as they are read. -/
private theorem measures_literalMeasure? : string.Measures literalMeasure? := by
  intro text
  by_cases quote : ∃ rest, text = '"' :: rest
  · obtain ⟨rest, rfl⟩ := quote
    have lexeme : string.lexeme? ('"' :: rest) =
        (Literal.body? rest).map fun body ↦ '"' :: (body ++ ['"']) := rfl
    rw [literalMeasure?_quote, lexeme, Option.map_map]
    congr 2
    funext body
    simp [value, byteLength_quoted, -Text.byteLength_cons, -Text.byteLength_append]
  · have missed : literalMeasure? text = some none := by
      unfold literalMeasure?
      split
      · exact absurd ⟨_, rfl⟩ quote
      · rfl
    have absent : string.lexeme? text = none := by
      simp only [lexeme?]
      unfold string?
      split
      · exact absurd ⟨_, rfl⟩ quote
      · rfl
    rw [missed, absent]
    rfl

/-- Single characters are measured as they are read. -/
private theorem measures_charMeasure? (c : Char) : (char c).Measures (charMeasure? c) := by
  intro text
  simp only [charMeasure?, lexeme?]
  split
  · simp [value]
  · rfl

/-- Every terminal is measured as it is read. -/
private theorem measures_measure? (t : Terminal) : t.Measures t.measure? := by
  cases t with
  | name => exact measures_counted? (by decide) nameLength?_bytes
  | identifier => exact measures_counted? (by decide) identifierLength?_bytes
  | string => exact measures_literalMeasure?
  | char c => exact measures_charMeasure? c

end Terminal

/-- At every place between two characters of a text, each token can be cut out by bytes: no cut is
refused, and the answer and the place behind the token are those of the seeker. -/
theorem Seeker.scanWith?_measure? (before text : List Char) (t : Terminal) :
    let s : Seeker := ⟨before ++ text, Text.byteLength before⟩
    s.scanWith? t.measure? = some (s.perform (.read t)) :=
  scanWith?_of_cursor? (cursor?_append before text) t.measures_measure?

end TerseMarkup
