import TerseMarkup.Grammar.TagHead

/-!
# Statements

The part of the grammar with nesting.

```text
statement := head block? | string
block     := ':' statement | '{' statement* '}'
```

A tag whose block cannot be read is a tag without a body. The productions are given how the
inside of a block is read, and `Inside.within` says so for a limit: a block is read by the same
productions with one level less to go, and with none left it is too deep.
-/

namespace TerseMarkup.Grammar

/-- How the inside of a block is read, once its opener is. -/
structure Inside (ρ : Type) where
  /-- The statement after a colon at an offset. -/
  single : (opener : Nat) → Rule ρ Statement
  /-- The statements after a brace at an offset. -/
  block : (opener : Nat) → Rule ρ (List Statement)

section

variable {ρ : Type} [Journal ρ] (inside : Inside ρ)

/-- The body with a colon: `':' statement`. -/
def colonBlock : Rule ρ Statement := do
  let opener ← Rule.tokenStart
  Rule.char ':'
  inside.single opener

/-- The body in braces: `'{' statement* '}'`. -/
def bracedBlock : Rule ρ (List Statement) := Rule.named .bracedBlock do
  let opener ← Rule.tokenStart
  Rule.char '\x7b'
  let statements ← inside.block opener
  Rule.char '\x7d'
  return statements

/-- The body of a tag: `':' statement | '{' statement* '}'`, the form with a colon tried first. -/
def block : Rule ρ Body := Rule.named .block <|
  Rule.orElse (Body.single <$> colonBlock inside) (Body.block <$> bracedBlock inside)

/-- A tag: `head block?`, and a head whose block cannot be read is a tag without a body. -/
def tag : Rule ρ Statement := Rule.named .tag do
  let head ← tagHead
  let body ← (block inside).optional
  return .tag head (body.getD .absent)

/-- A statement: `tag | string`, the tag tried first. -/
def statement : Rule ρ Statement := Rule.named .statement <|
  Rule.orElse (tag inside) (Statement.text <$> string)

/-- Statements: `statement*`, until none can be read. -/
def statements : Rule ρ (List Statement) :=
  (statement inside).many

end

/-- The inside of a block that is inside of `depth` others, if `room` more may open. -/
def Inside.within {ρ : Type} [Journal ρ] (room depth : Nat) : Inside ρ :=
  match room with
  | 0 => ⟨fun opener ↦ Rule.refuse ⟨opener, depth⟩, fun opener ↦ Rule.refuse ⟨opener, depth⟩⟩
  | room + 1 =>
    let deeper := Inside.within room (depth + 1)
    { single := fun opener ↦ do
        Rule.opened opener (depth + 1)
        statement deeper
      block := fun opener ↦ do
        Rule.opened opener (depth + 1)
        statements deeper }

end TerseMarkup.Grammar
