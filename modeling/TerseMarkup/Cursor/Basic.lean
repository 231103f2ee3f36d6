import TerseMarkup.Terminal
import TerseMarkup.Text.Bytes

/-!
# Cursors

A cursor is a place between two characters of a text: the bytes before it and the text after it.
Tokens are read from a cursor. Blanks before a token and after it belong to no token, so reading
one skips both.

The main statement says that reading a token leaves less text to read.
-/

namespace TerseMarkup

/-- A place between two characters of a text. -/
structure Cursor where
  /-- The number of bytes before the cursor. -/
  offset : Nat
  /-- The text after the cursor. -/
  rest : List Char
  deriving DecidableEq, Repr

namespace Cursor

/-- The cursor before the first character of a text. -/
def start (source : List Char) : Cursor := ⟨0, source⟩

/-- Move past the characters of a text that the rest starts with. -/
def advance (c : Cursor) (text : List Char) : Cursor :=
  ⟨c.offset + Text.byteLength text, c.rest.drop text.length⟩

/-- The blanks right after a cursor. -/
def blanks (c : Cursor) : List Char :=
  c.rest.takeWhile Text.isBlank

/-- Move past the blanks. -/
def skipBlanks (c : Cursor) : Cursor :=
  ⟨c.offset + Text.byteLength c.blanks, c.rest.dropWhile Text.isBlank⟩

/-- Where the next token starts. -/
def tokenStart (c : Cursor) : Nat :=
  c.skipBlanks.offset

/-- Read the token of a terminal, giving its lexeme and the cursor behind the blanks after it. -/
def read? (t : Terminal) (c : Cursor) : Option (List Char × Cursor) :=
  (t.lexeme? c.skipBlanks.rest).map fun lexeme ↦
    (lexeme, (c.skipBlanks.advance lexeme).skipBlanks)

/-- Skipping blanks leaves no more text than there was. -/
theorem length_skipBlanks_le (c : Cursor) : c.skipBlanks.rest.length ≤ c.rest.length :=
  (List.dropWhile_suffix _).length_le

/-- A token is never empty, so reading one leaves less text. -/
theorem length_lt_of_read? {t : Terminal} {c next : Cursor} {lexeme : List Char}
    (h : c.read? t = some (lexeme, next)) : next.rest.length < c.rest.length := by
  simp only [read?, Option.map_eq_some_iff, Prod.mk.injEq] at h
  obtain ⟨found, hfound, rfl, rfl⟩ := h
  have lexemeLength := List.length_pos_iff.mpr (Terminal.ne_nil_of_lexeme? hfound)
  have restLength : 0 < c.skipBlanks.rest.length := by
    rw [List.length_pos_iff]
    intro hnil
    rw [hnil, Terminal.lexeme?_nil] at hfound
    exact absurd hfound (by simp)
  have tail := (c.skipBlanks.advance found).length_skipBlanks_le
  have head := c.length_skipBlanks_le
  simp only [advance, List.length_drop] at tail ⊢
  omega

end Cursor
end TerseMarkup
