import TerseMarkup.Document.Basic
import TerseMarkup.Json

/-!
# Documents as JSON

Each field of a tree is written, also an absent one, which is `null`. The body of a tag is
`null`, one statement, or an array of them.
-/

namespace TerseMarkup

/-- A text that may be absent. -/
def Json.ofOption (text : Option String) : Json :=
  match text with
  | none => .null
  | some value => .string value

/-- An attribute as JSON. -/
def Attribute.toJson (a : Attribute) : Json :=
  .object [("name", .string a.name), ("value", .string a.value)]

/-- The attributes of a tag as JSON. -/
def TagHead.attributesJson (head : TagHead) : Json :=
  match head.attributes with
  | none => .null
  | some attributes => .array (attributes.map Attribute.toJson)

mutual

/-- A statement as JSON. -/
def Statement.toJson : Statement → Json
  | .text value => .object [("type", .string "text"), ("value", .string value)]
  | .tag head body =>
    .object [("type", .string "tag"), ("value", .object [
      ("name", .string head.name),
      ("class", Json.ofOption head.className),
      ("id", Json.ofOption head.id),
      ("attributes", head.attributesJson),
      ("body", body.toJson)])]

/-- A body as JSON. -/
def Body.toJson : Body → Json
  | .absent => .null
  | .single statement => statement.toJson
  | .block statements => .array (Statement.toJsonList statements)

/-- Statements as JSON, one by one. -/
def Statement.toJsonList : List Statement → List Json
  | [] => []
  | statement :: rest => statement.toJson :: Statement.toJsonList rest

end

/-- A document as JSON. -/
def Document.toJson (document : Document) : Json :=
  .object [("statements", .array (Statement.toJsonList document.statements))]

end TerseMarkup
