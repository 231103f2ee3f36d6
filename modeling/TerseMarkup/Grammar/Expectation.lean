import TerseMarkup.Terminal

/-!
# Expectations

What a reader of a document may have expected where it stopped: a token, a named production of
the grammar, the end of the text, or less nesting. Each is named by a label in messages.
-/

namespace TerseMarkup

/-- The productions of the grammar that messages name. -/
inductive Production where
  | statement
  | tag
  | className
  | id
  | attributeList
  | attributePair
  | block
  | bracedBlock
  deriving DecidableEq, Repr

/-- The name of a production. -/
def Production.label : Production → String
  | statement => "statement"
  | tag => "tag"
  | className => "class"
  | id => "id"
  | attributeList => "attributes"
  | attributePair => "attribute"
  | block => "block"
  | bracedBlock => "braced block"

/-- The name of a token. -/
def Terminal.label : Terminal → String
  | name => "tag identifier"
  | identifier => "identifier"
  | string => "string"
  | char c => String.ofList ['\'', c, '\'']

/-- Something that would have been accepted at a place. -/
inductive Expectation where
  | terminal (t : Terminal)
  | production (p : Production)
  | endOfText
  | nestingAtMost (levels : Nat)
  deriving DecidableEq, Repr

/-- The name of an expectation. -/
def Expectation.label : Expectation → String
  | terminal t => t.label
  | production p => p.label
  | endOfText => "EOF"
  | nestingAtMost levels => "at most " ++ toString levels ++ " nested blocks"

end TerseMarkup
