import TerseMarkup.Document.Basic

/-!
# Documents as HTML

A document is written in rows, each at a depth of two spaces per level. A tag takes one row if
its body stays on the tag's own line: no body, a single text or an empty block. Otherwise the
rows of the body stand one level deeper between a row that opens the element and one that closes
it. Names and values are written as they are, so a row may hold line feeds of its own.
-/

namespace TerseMarkup

/-- A row of HTML and its depth. -/
structure Row where
  depth : Nat
  content : String
  deriving DecidableEq, Repr

/-- The spaces before a row. -/
def Row.indent (depth : Nat) : String :=
  String.ofList (List.replicate (2 * depth) ' ')

/-- A row behind its spaces. -/
def Row.toText (row : Row) : String :=
  Row.indent row.depth ++ row.content

/-- A named value in an opening marker. -/
def Attribute.toHtml (a : Attribute) : String :=
  " " ++ a.name ++ "=\"" ++ a.value ++ "\""

/-- The named values of an element in the order they are written: class, id, then the list. -/
def TagHead.allAttributes (head : TagHead) : List Attribute :=
  (head.className.map (Attribute.mk "class")).toList ++
    (head.id.map (Attribute.mk "id")).toList ++ head.attributes.getD []

/-- The marker that opens an element. -/
def TagHead.opening (head : TagHead) : String :=
  "<" ++ head.name ++ String.join (head.allAttributes.map Attribute.toHtml) ++ ">"

/-- The marker that closes an element. -/
def TagHead.closing (head : TagHead) : String :=
  "</" ++ head.name ++ ">"

/-- The text of a body that stays on the line of its tag. -/
def Body.inline? : Body → Option String
  | .absent => some ""
  | .single (.text value) => some value
  | .single (.tag ..) => none
  | .block [] => some ""
  | .block (_ :: _) => none

mutual

/-- The rows of a statement at a depth. -/
def Statement.rows (depth : Nat) : Statement → List Row
  | .text value => [⟨depth, value⟩]
  | .tag head body =>
    match body.inline? with
    | some text => [⟨depth, head.opening ++ text ++ head.closing⟩]
    | none => ⟨depth, head.opening⟩ :: (body.rows (depth + 1) ++ [⟨depth, head.closing⟩])

/-- The rows of a body at a depth. -/
def Body.rows (depth : Nat) : Body → List Row
  | .absent => []
  | .single statement => statement.rows depth
  | .block statements => Statement.rowsOfList depth statements

/-- The rows of statements at a depth, one after the other. -/
def Statement.rowsOfList (depth : Nat) : List Statement → List Row
  | [] => []
  | statement :: rest => statement.rows depth ++ Statement.rowsOfList depth rest

end

/-- Statements as HTML, their rows separated by line feeds. -/
def Statement.render (depth : Nat) (statements : List Statement) : String :=
  "\n".intercalate ((Statement.rowsOfList depth statements).map Row.toText)

/-- A document as HTML. -/
def Document.toHtml (document : Document) : String :=
  Statement.render 0 document.statements

end TerseMarkup
