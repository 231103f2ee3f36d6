import TerseMarkup.Grammar.Statement
import TerseMarkup.Text.Position

/-!
# Reading documents

A reader reads documents from a text, one after the other: each takes all statements that follow,
and the text has to end behind them. A reader that stopped at a syntax error tries again from
where it stopped, and one that met a block beyond the limit of nesting never gets further. A syntax
error says where the reading stopped, and what would have been accepted there.
-/

namespace TerseMarkup

/-- Why a text is not a document. -/
structure SyntaxError where
  position : Position
  /-- The names of what would have been accepted, in the order in which it was tried. -/
  expected : List String
  deriving DecidableEq, Repr

/-- The message that a user sees. -/
def SyntaxError.message (error : SyntaxError) : String :=
  "Syntax error@" ++ toString error.position.line ++ ":" ++ toString error.position.column ++
    ": expected " ++ ", ".intercalate error.expected

/-- The number of blocks that may be open at once. -/
def maxNesting : Nat := 128

/-- A text with the place up to which it is read. -/
structure Reader where
  source : List Char
  /-- The number of blocks that may be open at once. -/
  limit : Nat
  cursor : Cursor
  /-- The first block that was too deep. -/
  tooDeep : Option TooDeep
  deriving DecidableEq, Repr

namespace Reader

/-- A reader at the start of a text. -/
def start (limit : Nat) (source : List Char) : Reader :=
  ⟨source, limit, .start source, none⟩

/-- The syntax error that reports a failure. -/
def report (r : Reader) (failure : Failure) : SyntaxError :=
  ⟨Position.locate r.source failure.offset, failure.expected.map Expectation.label⟩

/-- The syntax error that reports a block beyond the limit. -/
def reportTooDeep (r : Reader) (mark : TooDeep) : SyntaxError :=
  r.report ⟨mark.opener, [.nestingAtMost mark.limit]⟩

/-- Read all statements that follow. -/
def attempt (ρ : Type) [Journal ρ] (r : Reader) : Attempt ρ (List Statement) :=
  Grammar.statements (Grammar.Inside.within r.limit 0) r.cursor

/-- End a document behind its statements: the text has to end there. -/
def finish (r : Reader) (statements : List Statement) (last : Cursor) (furthest : Furthest) :
    Except SyntaxError Document × Reader :=
  let stop := last.skipBlanks
  let result :=
    if stop.rest.isEmpty then .ok ⟨statements⟩
    else .error (r.report (furthest.miss stop.offset .endOfText))
  (result, { r with cursor := stop })

/-- Read a document. -/
def next (r : Reader) : Except SyntaxError Document × Reader :=
  match r.tooDeep with
  | some mark => (.error (r.reportTooDeep mark), r)
  | none =>
    match r.attempt Furthest with
    | ⟨.found statements last, furthest⟩ => r.finish statements last furthest
    | ⟨.nothing, furthest⟩ => r.finish [] r.cursor furthest
    | ⟨.tooDeep mark, _⟩ => (.error (r.reportTooDeep mark), { r with tooDeep := some mark })

/-- Read so many documents. -/
def take (r : Reader) : Nat → List (Except SyntaxError Document)
  | 0 => []
  | n + 1 =>
    let (result, later) := r.next
    result :: later.take n

end Reader

/-- Read a text that is one document, with blocks nested to a limit. -/
def Document.parseWithin (limit : Nat) (source : List Char) : Except SyntaxError Document :=
  (Reader.start limit source).next.1

/-- Read a text that is one document. -/
def Document.parse (source : String) : Except SyntaxError Document :=
  Document.parseWithin maxNesting source.toList

end TerseMarkup
