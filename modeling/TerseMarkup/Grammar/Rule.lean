import TerseMarkup.Cursor.Basic
import TerseMarkup.Grammar.Journal

/-!
# Rules

A rule of the grammar tries to read something at a cursor. It finds a value and the cursor after
it, or it finds nothing, or it meets a block beyond the limit of nesting, which ends the whole
reading. In each case it has written a journal. A rule that finds nothing has moved no cursor, so
an alternative starts where it started.

Rules are composed in order: the first alternative that finds something counts, and a repetition
goes on as long as something is found.
-/

namespace TerseMarkup

/-- A block would have opened beyond the limit of nesting. -/
structure TooDeep where
  /-- The offset of what would have opened the block. -/
  opener : Nat
  /-- The number of blocks that may be open at once. -/
  limit : Nat
  deriving DecidableEq, Repr

/-- How a try to read something ends. -/
inductive Outcome (α : Type) where
  /-- A value was found before a cursor. -/
  | found (value : α) (next : Cursor)
  /-- There was nothing of the kind. -/
  | nothing
  /-- A block would have been too deep. -/
  | tooDeep (mark : TooDeep)

/-- Whether a value was found. -/
def Outcome.isFound {α : Type} : Outcome α → Bool
  | found .. => true
  | nothing => false
  | tooDeep _ => false

/-- How a try ended and what it wrote down. -/
structure Attempt (ρ α : Type) where
  outcome : Outcome α
  journal : ρ

/-- A way to read something at a cursor. -/
def Rule (ρ α : Type) : Type := Cursor → Attempt ρ α

namespace Rule

variable {ρ α β : Type} [Journal ρ]

/-- Find a value without reading. -/
def succeed (value : α) : Rule ρ α := fun c ↦ ⟨.found value c, ∅⟩

/-- Go on where the first rule ended, if it found something. -/
def andThen (first : Rule ρ α) (second : α → Rule ρ β) : Rule ρ β := fun c ↦
  match first c with
  | ⟨.found value next, journal⟩ =>
    let rest := second value next
    ⟨rest.outcome, journal ++ rest.journal⟩
  | ⟨.nothing, journal⟩ => ⟨.nothing, journal⟩
  | ⟨.tooDeep mark, journal⟩ => ⟨.tooDeep mark, journal⟩

instance : Monad (Rule ρ) where
  pure := succeed
  bind := andThen

/-- Try the second rule if the first one finds nothing. -/
def orElse (first second : Rule ρ α) : Rule ρ α := fun c ↦
  match first c with
  | ⟨.nothing, journal⟩ =>
    let other := second c
    ⟨other.outcome, journal ++ other.journal⟩
  | attempt => attempt

/-- Go on without a value if the rule finds nothing. -/
def optional (rule : Rule ρ α) : Rule ρ (Option α) := fun c ↦
  match rule c with
  | ⟨.found value next, journal⟩ => ⟨.found (some value) next, journal⟩
  | ⟨.nothing, journal⟩ => ⟨.found none c, journal⟩
  | ⟨.tooDeep mark, journal⟩ => ⟨.tooDeep mark, journal⟩

/-- Read as often as possible, but not more often than a text has characters and once more. -/
def manyUpTo : List Char → Rule ρ α → Rule ρ (List α)
  | [], rule => fun c ↦
    match rule c with
    | ⟨.found value next, journal⟩ => ⟨.found [value] next, journal⟩
    | ⟨.nothing, journal⟩ => ⟨.found [] c, journal⟩
    | ⟨.tooDeep mark, journal⟩ => ⟨.tooDeep mark, journal⟩
  | _ :: text, rule => fun c ↦
    match rule c with
    | ⟨.found value next, journal⟩ =>
      match manyUpTo text rule next with
      | ⟨.found values last, more⟩ => ⟨.found (value :: values) last, journal ++ more⟩
      | ⟨.nothing, more⟩ => ⟨.nothing, journal ++ more⟩
      | ⟨.tooDeep mark, more⟩ => ⟨.tooDeep mark, journal ++ more⟩
    | ⟨.nothing, journal⟩ => ⟨.found [] c, journal⟩
    | ⟨.tooDeep mark, journal⟩ => ⟨.tooDeep mark, journal⟩

/-- Read as often as possible. Each round of the grammar reads a character at least, so the text
ahead bounds the number of rounds. -/
def many (rule : Rule ρ α) : Rule ρ (List α) := fun c ↦ manyUpTo c.rest rule c

/-- Close the journal of a named production. -/
def named (p : Production) (rule : Rule ρ α) : Rule ρ α := fun c ↦
  let attempt := rule c
  ⟨attempt.outcome, Journal.enclose p attempt.outcome.isFound attempt.journal⟩

/-- Read a token and give its value. -/
def terminal (t : Terminal) : Rule ρ (List Char) := fun c ↦
  match c.read? t with
  | some (lexeme, next) => ⟨.found (t.value lexeme) next, ∅⟩
  | none => ⟨.nothing, Journal.missed c.tokenStart (.terminal t)⟩

/-- Read a character. -/
def char (expected : Char) : Rule ρ Unit := do
  let _ ← terminal (.char expected)

/-- Tell where the next token starts. -/
def tokenStart : Rule ρ Nat := fun c ↦ ⟨.found c.tokenStart c, ∅⟩

/-- Note that a block opened at an offset and that so many are open now. -/
def opened (opener depth : Nat) : Rule ρ Unit := fun c ↦
  ⟨.found () c, Journal.opened opener depth⟩

/-- End the whole reading at a block that is too deep. -/
def refuse (mark : TooDeep) : Rule ρ α := fun _ ↦ ⟨.tooDeep mark, ∅⟩

end Rule
end TerseMarkup
