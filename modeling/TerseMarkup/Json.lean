import TerseMarkup.Text.CharClass

/-!
# JSON texts

The JSON values that trees are written as, and how these are written. A layout says what stands
between the tokens; the tokens are the same in each. Objects keep their fields in order.
-/

namespace TerseMarkup

/-- A JSON value. -/
inductive Json where
  | null
  | string (value : String)
  | array (items : List Json)
  | object (fields : List (String × Json))

namespace Json

/-- A character as it is written inside a string: quotes, backslashes and control characters are
escaped, all others stand for themselves. -/
def escape (c : Char) : List Char :=
  if c = '"' then ['\\', '"']
  else if c = '\\' then ['\\', '\\']
  else if c = '\x08' then ['\\', 'b']
  else if c = '\x0c' then ['\\', 'f']
  else if c = '\n' then ['\\', 'n']
  else if c = '\r' then ['\\', 'r']
  else if c = '\t' then ['\\', 't']
  else if c < ' ' then '\\' :: 'u' :: '0' :: '0' :: Text.hexByte c.toNat
  else [c]

/-- A string in quotes. -/
def quote (value : String) : String :=
  String.ofList ('"' :: (value.toList.flatMap escape ++ ['"']))

/-- What stands between the tokens of a JSON text. -/
structure Layout where
  /-- What stands before an item at a depth, and before the bracket that closes it. -/
  lineBreak : Nat → String
  /-- What stands between a field's name and its value. -/
  colon : String

/-- The layout without any blanks. -/
def Layout.compact : Layout where
  lineBreak _ := ""
  colon := ":"

/-- The layout with an item on each line, two spaces further in for each depth. -/
def Layout.indented : Layout where
  lineBreak depth := String.ofList ('\n' :: List.replicate (2 * depth) ' ')
  colon := ": "

mutual

/-- The pieces of the text of a value whose line is at a depth. -/
def pieces (layout : Layout) (depth : Nat) : Json → List String
  | null => ["null"]
  | string value => [quote value]
  | array [] => ["[", "]"]
  | array (item :: items) =>
    "[" :: layout.lineBreak (depth + 1) :: (item.pieces layout (depth + 1) ++
      (itemPieces layout (depth + 1) items ++ [layout.lineBreak depth, "]"]))
  | object [] => ["\x7b", "\x7d"]
  | object ((name, value) :: fields) =>
    "\x7b" :: layout.lineBreak (depth + 1) :: quote name :: layout.colon ::
      (value.pieces layout (depth + 1) ++
        (fieldPieces layout (depth + 1) fields ++ [layout.lineBreak depth, "\x7d"]))

/-- The pieces of items that follow another item. -/
def itemPieces (layout : Layout) (depth : Nat) : List Json → List String
  | [] => []
  | item :: items =>
    "," :: layout.lineBreak depth ::
      (item.pieces layout depth ++ itemPieces layout depth items)

/-- The pieces of fields that follow another field. -/
def fieldPieces (layout : Layout) (depth : Nat) : List (String × Json) → List String
  | [] => []
  | (name, value) :: fields =>
    "," :: layout.lineBreak depth :: quote name :: layout.colon ::
      (value.pieces layout depth ++ fieldPieces layout depth fields)

end

/-- The text of a value in a layout. -/
def toText (layout : Layout) (value : Json) : String :=
  String.join (value.pieces layout 0)

end Json
end TerseMarkup
