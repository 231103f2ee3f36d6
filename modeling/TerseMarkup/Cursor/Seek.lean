import TerseMarkup.Cursor.Basic
import TerseMarkup.Text.Position

/-!
# Reading from any byte

A seeker reads tokens from a text at a place that may be set to any byte. A place inside a
character has no text after it, so reading there is refused and the place stays as it is.
-/

namespace TerseMarkup

/-- A text with a place in it, counted in bytes. -/
structure Seeker where
  source : List Char
  offset : Nat
  deriving DecidableEq, Repr

namespace Seeker

/-- What a seeker can be asked. -/
inductive Action where
  /-- Read the token of a terminal. -/
  | read (t : Terminal)
  /-- Skip blanks and tell whether the text ends there. -/
  | atEnd
  /-- Skip blanks. -/
  | skipBlanks
  /-- Tell where the next token starts. -/
  | tokenStart
  /-- Tell the line and the column. -/
  | position
  /-- Tell the whole text. -/
  | source
  /-- Go to a byte, at most to the end of the text. -/
  | seek (offset : Nat)
  deriving DecidableEq, Repr

/-- What a seeker answers. -/
inductive Answer where
  /-- The value of the token that was read, if there was one. -/
  | token (value : Option (List Char))
  /-- Whether the text ends. -/
  | atEnd (ended : Bool)
  /-- The action gives no value. -/
  | done
  /-- An offset in bytes. -/
  | offset (bytes : Nat)
  /-- A position. -/
  | position (place : Position)
  /-- The whole text. -/
  | source (text : List Char)
  /-- The place lies inside a character. -/
  | insideCharacter
  deriving DecidableEq, Repr

/-- A seeker at the start of a text. -/
def start (source : List Char) : Seeker := ⟨source, 0⟩

/-- The cursor at the place of a seeker, unless that is inside a character. -/
def cursor? (s : Seeker) : Option Cursor :=
  (Text.dropBytes? s.offset s.source).map fun rest ↦ ⟨s.offset, rest⟩

/-- Go to the place of a cursor. -/
def goTo (s : Seeker) (c : Cursor) : Seeker :=
  { s with offset := c.offset }

/-- Go to a byte, at most to the end of the text. -/
def seek (s : Seeker) (offset : Nat) : Seeker :=
  { s with offset := min offset (Text.byteLength s.source) }

/-- The position of a seeker. -/
def position (s : Seeker) : Position :=
  Position.locate s.source s.offset

/-- Answer from the text after the place, and go where the answer leaves the cursor. -/
def look (s : Seeker) (answer : Cursor → Answer × Cursor) : Answer × Seeker :=
  match s.cursor? with
  | none => (.insideCharacter, s)
  | some c => ((answer c).1, s.goTo (answer c).2)

/-- Read a token; without one the cursor stays. -/
def readToken (t : Terminal) (c : Cursor) : Answer × Cursor :=
  match c.read? t with
  | some (lexeme, next) => (.token (some (t.value lexeme)), next)
  | none => (.token none, c)

/-- Do what is asked. -/
def perform (s : Seeker) : Action → Answer × Seeker
  | .read t => s.look (readToken t)
  | .atEnd => s.look fun c ↦ (.atEnd c.skipBlanks.rest.isEmpty, c.skipBlanks)
  | .skipBlanks => s.look fun c ↦ (.done, c.skipBlanks)
  | .tokenStart => s.look fun c ↦ (.offset c.tokenStart, c)
  | .position => (.position s.position, s)
  | .source => (.source s.source, s)
  | .seek offset => (.done, s.seek offset)

/-- Do what is asked, one action after the other, and give each answer with the place after it. -/
def performAll (s : Seeker) : List Action → List (Answer × Nat)
  | [] => []
  | action :: rest =>
    let (answer, next) := s.perform action
    (answer, next.offset) :: next.performAll rest

end Seeker
end TerseMarkup
