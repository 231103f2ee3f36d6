import TerseMarkup.Text.Bytes

/-!
# Positions

A position names a place in a text three ways: by the bytes before it, by its line and by its
column. Lines and columns count from one, a column is a character wide, and only a line feed
starts a new line.
-/

namespace TerseMarkup

/-- A place in a text. -/
structure Position where
  offset : Nat
  line : Nat
  column : Nat
  deriving DecidableEq, Repr

namespace Position

/-- The position right after a text. -/
def after (text : List Char) : Position where
  offset := Text.byteLength text
  line := text.count '\n' + 1
  column := (text.reverse.takeWhile (· != '\n')).length + 1

/-- The position of the byte at an offset, as error messages and the cursor report it: past the
end it is the end of the text, and inside a character it is the start of that character. -/
def locate (source : List Char) (offset : Nat) : Position :=
  after (Text.takeBytes offset source)

/-- The place between two texts is right after the first. -/
theorem locate_append (before rest : List Char) :
    locate (before ++ rest) (Text.byteLength before) = after before := by
  rw [locate, Text.takeBytes_append]

end Position
end TerseMarkup
