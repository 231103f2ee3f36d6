import TerseMarkup.Document.Basic
import TerseMarkup.Grammar.Rule
import TerseMarkup.Literal.Escape

/-!
# The head of a tag

The part of the grammar without nesting.

```text
head       := name ('.' identifier | '#' identifier)* attributes?
attributes := '[' attribute (',' attribute)* ']'
attribute  := name ':' string
```

A class and an id may come in either order, each at most once.
-/

namespace TerseMarkup.Grammar

variable {ρ : Type} [Journal ρ]

/-- A tag or attribute name: `[a-zA-Z0-9]+`. -/
def name : Rule ρ String := do
  return String.ofList (← Rule.terminal .name)

/-- The name of a class or an id: `-?[_a-zA-Z][_a-zA-Z0-9-]*`. -/
def identifier : Rule ρ String := do
  return String.ofList (← Rule.terminal .identifier)

/-- A string literal: `"(\\.|.)*?"`, with no line break in it and its escapes read. -/
def string : Rule ρ String := do
  return String.ofList (Escape.decode (← Rule.terminal .string))

/-- A class: `'.' identifier`. -/
def className : Rule ρ String := Rule.named .className do
  Rule.char '.'
  identifier

/-- An id: `'#' identifier`. -/
def elementId : Rule ρ String := Rule.named .id do
  Rule.char '#'
  identifier

/-- A class and an id in either order, both optional: `class? id?`, or `id class?` where no class
stands first. The class is tried first, and once more behind an id. -/
def selectors : Rule ρ (Option String × Option String) := do
  let first ← className.optional
  let id ← elementId.optional
  if first.isNone && id.isSome then
    let second ← className.optional
    return (second, id)
  else return (first, id)

/-- An attribute: `name ':' string`. -/
def attributePair : Rule ρ Attribute := Rule.named .attributePair do
  let name ← name
  Rule.char ':'
  let value ← string
  return ⟨name, value⟩

/-- A further attribute: `',' attribute`. -/
def nextAttribute : Rule ρ Attribute := do
  Rule.char ','
  attributePair

/-- A list of attributes, never empty: `'[' attribute (',' attribute)* ']'`. -/
def attributeList : Rule ρ (List Attribute) := Rule.named .attributeList do
  Rule.char '['
  let first ← attributePair
  let more ← nextAttribute.many
  Rule.char ']'
  return first :: more

/-- The head of a tag: `name selectors attributes?`. -/
def tagHead : Rule ρ TagHead := do
  let name ← name
  let (className, id) ← selectors
  let attributes ← attributeList.optional
  return ⟨name, className, id, attributes⟩

end TerseMarkup.Grammar
