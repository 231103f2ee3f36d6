import TerseMarkup.Cursor.Seek
import TerseMarkup.Document.Reader

/-!
# Reading in place

A rule is a function of a cursor: it cannot lose its place, and what it has counted is gone with
it. A parser reads the same grammar in place. It moves one seeker, which may be refused, it counts
the blocks that are open, and it leaves a mark at a block that was too deep. A production that fails
has to go back by itself, the counter has to be lowered again, and the mark does not end a
production but only keeps blocks shut from then on.

A parser also keeps a log, to which it adds a note whenever a production starts or ends and whenever
something is missed. Notes are never taken back, and nothing depends on them.

Nothing in the parser bounds a loop or the recursion, so both are granted a number of rounds.
-/

namespace TerseMarkup

/-- What a parser notes in its log. -/
inductive Note where
  /-- A production starts. -/
  | entered (p : Production)
  /-- Something was expected at an offset and not there. -/
  | missed (offset : Nat) (what : Expectation)
  /-- A production ends, with success or without. -/
  | left (p : Production) (succeeded : Bool)
  deriving DecidableEq, Repr

/-- The state of a parser. -/
structure Parser where
  /-- The text and the place up to which it is read. -/
  scanner : Seeker
  /-- The furthest failure since the last error was reported. -/
  furthest : Furthest
  /-- The number of blocks that are open. -/
  depth : Nat
  /-- The offset of what would have opened the first block that was too deep. -/
  tooDeep : Option Nat
  /-- The numbers of open blocks whenever one more was opened. Nothing depends on them. -/
  raised : List Nat
  /-- All notes so far, in order. Nothing depends on them. -/
  log : List Note
  deriving DecidableEq, Repr

namespace Parser

/-- Start a production. It keeps its failures to itself while it runs. -/
def enter (p : Production) (s : Parser) : Parser :=
  { s with furthest := none, log := s.log ++ [.entered p] }

/-- End a production, with what was missed before it. -/
def leave (p : Production) (succeeded : Bool) (outer : Furthest) (s : Parser) : Parser :=
  { s with
    furthest := outer ++ s.furthest.enclose p succeeded
    log := s.log ++ [.left p succeeded] }

end Parser

/-- A step of a parser: it finds a value or none, and in both cases it changes the state. There is
no result if the text is cut inside a character or if the rounds granted do not suffice. -/
def Parsing (α : Type) : Type := Parser → Option (Option α × Parser)

namespace Parsing

variable {α β : Type}

/-! ### Composed steps -/

/-- Find a value and change nothing. -/
def succeed (value : α) : Parsing α := fun s ↦ some (some value, s)

/-- Go on with what the first step found. -/
def andThen (first : Parsing α) (second : α → Parsing β) : Parsing β := fun s ↦
  match first s with
  | some (some value, later) => second value later
  | some (none, later) => some (none, later)
  | none => none

instance : Monad Parsing where
  pure := succeed
  bind := andThen

/-- Find no result, for want of rounds. -/
def exhausted : Parsing α := fun _ ↦ none

/-- Try the second step in the state in which the first one fails. -/
def orElse (first second : Parsing α) : Parsing α := fun s ↦
  match first s with
  | some (none, later) => second later
  | result => result

/-- Take a step in some states, and go on without a value if it fails or in other states. -/
def optionalIf (test : Parser → Bool) (step : Parsing α) : Parsing (Option α) := fun s ↦
  if test s then (step s).map fun (result, later) ↦ (some result, later) else some (some none, s)

/-- Take a step, and go on without a value if it fails. -/
def optional (step : Parsing α) : Parsing (Option α) := optionalIf (fun _ ↦ true) step

/-- Take a step again and again, as long as it finds something and the state allows it. -/
def repeated (test : Parser → Bool) (step : Parsing α) : Nat → Parsing (List α)
  | 0 => exhausted
  | rounds + 1 => do
    match ← optionalIf test step with
    | some value => (value :: ·) <$> repeated test step rounds
    | none => return []

/-- Take a step, and go back to where it started if it fails. -/
def attempt (step : Parsing α) : Parsing α := fun s ↦
  match step s with
  | some (none, later) =>
    some (none, { later with scanner := later.scanner.seek s.scanner.offset })
  | result => result

/-- Attempt a named production. -/
def described (p : Production) (step : Parsing α) : Parsing α := fun s ↦
  (attempt step (s.enter p)).map fun (result, later) ↦
    (result, later.leave p result.isSome s.furthest)

/-- Take a step inside of a block. At the limit it is not taken, but the place is marked, and
behind a mark no block opens any more. -/
def nested (opener : Nat) (step : Parsing α) : Parsing α := fun s ↦
  if s.tooDeep.isSome then some (none, s)
  else if s.depth = maxNesting then some (none, { s with tooDeep := some opener })
  else
    (step { s with depth := s.depth + 1, raised := s.raised ++ [s.depth + 1] }).map
      fun (result, later) ↦ (result, { later with depth := later.depth - 1 })

/-! ### Tokens -/

/-- Tell where the next token starts. -/
def tokenStart : Parsing Nat := fun s ↦
  match s.scanner.perform .tokenStart with
  | (.offset start, scanner) => some (some start, { s with scanner })
  | _ => none

/-- Note that something was expected. -/
def expect (s : Parser) (offset : Nat) (what : Expectation) : Parser :=
  { s with
    furthest := some (s.furthest.miss offset what)
    log := s.log ++ [.missed offset what] }

/-- Read a token and give its value, or note that it was expected. -/
def terminal (t : Terminal) : Parsing (List Char) := do
  let start ← tokenStart
  fun s ↦
    match s.scanner.perform (.read t) with
    | (.token (some value), scanner) => some (some value, { s with scanner })
    | (.token none, scanner) => some (none, expect { s with scanner } start (.terminal t))
    | _ => none

/-- Read a character. -/
def char (expected : Char) : Parsing Unit := do
  let _ ← terminal (.char expected)

/-- A tag or attribute name. -/
def name : Parsing String := do
  return String.ofList (← terminal .name)

/-- The name of a class or an id. -/
def identifier : Parsing String := do
  return String.ofList (← terminal .identifier)

/-- A string literal, its escapes read. -/
def string : Parsing String := do
  return String.ofList (Escape.decode (← terminal .string))

/-! ### Productions -/

/-- A class. -/
def className : Parsing String := described .className do
  char '.'
  identifier

/-- An id. -/
def elementId : Parsing String := described .id do
  char '#'
  identifier

/-- The class and the id that are not known yet, as they come. -/
def selectors : Nat → Option String → Option String → Parsing (Option String × Option String)
  | 0, _, _ => exhausted
  | rounds + 1, known, id => do
    match ← optionalIf (fun _ ↦ known.isNone) className with
    | some found => selectors rounds (some found) id
    | none =>
      match ← optionalIf (fun _ ↦ id.isNone) elementId with
      | some found => selectors rounds known (some found)
      | none => return (known, id)

/-- An attribute. -/
def attributePair : Parsing Attribute := described .attributePair do
  let name ← name
  char ':'
  let value ← string
  return ⟨name, value⟩

/-- A comma and an attribute. -/
def nextAttribute : Parsing Attribute := attempt do
  char ','
  attributePair

/-- A list of attributes in brackets. -/
def attributeList (rounds : Nat) : Parsing (List Attribute) := described .attributeList do
  char '['
  let first ← attributePair
  let more ← repeated (fun _ ↦ true) nextAttribute rounds
  char ']'
  return first :: more

/-- The head of a tag. -/
def tagHead (rounds : Nat) : Parsing TagHead := do
  let name ← name
  let (known, id) ← selectors rounds none none
  let attributes ← optional (attributeList rounds)
  return ⟨name, known, id, attributes⟩

section

variable (rounds : Nat) (inner : Parsing Statement)

/-- Statements, until none can be read or a block was too deep. -/
def statements : Parsing (List Statement) := repeated (fun s ↦ s.tooDeep.isNone) inner rounds

/-- A statement after a colon. -/
def colonBlock : Parsing Statement := attempt do
  let opener ← tokenStart
  char ':'
  nested opener inner

/-- Statements in braces. -/
def bracedBlock : Parsing (List Statement) := described .bracedBlock do
  let opener ← tokenStart
  char '\x7b'
  let body ← nested opener (statements rounds inner)
  char '\x7d'
  return body

/-- The body of a tag. -/
def block : Parsing Body := described .block <|
  orElse (Body.single <$> colonBlock inner) (Body.block <$> bracedBlock rounds inner)

/-- A head with an optional body. -/
def tag : Parsing Statement := described .tag do
  let head ← tagHead rounds
  let body ← optional (block rounds inner)
  return .tag head (body.getD .absent)

/-- A tag or a text. -/
def statement : Parsing Statement := described .statement <|
  orElse (tag rounds inner) (Statement.text <$> string)

end

/-- A statement inside of a block, which has one round less than what is around it. -/
def inner : Nat → Parsing Statement
  | 0 => exhausted
  | rounds + 1 => statement rounds (inner rounds)

end Parsing

/-- What a production gives. -/
def Production.Value : Production → Type
  | statement => Statement
  | tag => Statement
  | className => String
  | id => String
  | attributeList => List Attribute
  | attributePair => Attribute
  | block => Body
  | bracedBlock => List Statement

/-- The rule of a production. -/
def Production.rule (inside : Grammar.Inside Furthest) : (p : Production) → Rule Furthest p.Value
  | statement => Grammar.statement inside
  | tag => Grammar.tag inside
  | className => Grammar.className
  | id => Grammar.elementId
  | attributeList => Grammar.attributeList
  | attributePair => Grammar.attributePair
  | block => Grammar.block inside
  | bracedBlock => Grammar.bracedBlock inside

/-- How a parser reads a production. -/
def Production.parsing (rounds : Nat) : (p : Production) → Parsing p.Value
  | statement => Parsing.statement rounds (Parsing.inner rounds)
  | tag => Parsing.tag rounds (Parsing.inner rounds)
  | className => Parsing.className
  | id => Parsing.elementId
  | attributeList => Parsing.attributeList rounds
  | attributePair => Parsing.attributePair
  | block => Parsing.block rounds (Parsing.inner rounds)
  | bracedBlock => Parsing.bracedBlock rounds (Parsing.inner rounds)

namespace Parser

/-! ### Documents -/

/-- A parser at the start of a text. -/
def start (source : List Char) : Parser := ⟨.start source, none, 0, none, [], []⟩

/-- Report the furthest failure and forget it. -/
def fail (s : Parser) : Except SyntaxError Document × Parser :=
  let failure := s.furthest.getD ⟨s.scanner.offset, [.endOfText]⟩
  (.error ⟨Position.locate s.scanner.source failure.offset,
    failure.expected.map Expectation.label⟩, { s with furthest := none })

/-- End a document behind its statements: no block was too deep, and the text ends there. -/
def finish (statements : List Statement) (s : Parser) :
    Option (Except SyntaxError Document × Parser) :=
  match s.tooDeep with
  | some opener =>
    some (fail { s with furthest := some ⟨opener, [.nestingAtMost maxNesting]⟩ })
  | none =>
    match s.scanner.perform .tokenStart, s.scanner.perform .atEnd with
    | (.offset _, _), (.atEnd true, scanner) => some (.ok ⟨statements⟩, { s with scanner })
    | (.offset start, _), (.atEnd false, scanner) =>
      some (fail (Parsing.expect { s with scanner } start .endOfText))
    | _, _ => none

/-- Read a document. -/
def next (rounds : Nat) (s : Parser) : Option (Except SyntaxError Document × Parser) := do
  let (found, later) ← Parsing.statements rounds (Parsing.inner rounds) s
  finish (found.getD []) later

/-- Read so many documents. -/
def documents (rounds : Nat) : Nat → Parser → Option (List (Except SyntaxError Document) × Parser)
  | 0, s => some ([], s)
  | n + 1, s => do
    let (result, later) ← s.next rounds
    let (results, last) ← documents rounds n later
    return (result :: results, last)

end Parser
end TerseMarkup
