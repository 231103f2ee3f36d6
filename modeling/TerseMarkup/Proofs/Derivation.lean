import TerseMarkup.Document.Basic
import TerseMarkup.Literal.Escape
import TerseMarkup.Proofs.Lexeme

/-!
# Derivations

The grammar of documents as relations between a text, what the start of that text is, and the
text behind it. Each production is a relation with one constructor for each of its forms, and
nothing in it says in which order forms are tried.

```text
document   := statement* blanks
statement  := head body | string
head       := name selectors attributes?
selectors  := ('.' identifier | '#' identifier)*      each at most once
attributes := '[' attribute (',' attribute)* ']'
attribute  := name ':' string
body       := nothing | ':' statement | '{' statement* '}'
```

A token is the longest text of its class, or what a closing quote ends, and any blanks may stand
before it.
-/

namespace TerseMarkup

/-- A token behind any number of blanks: the text, the value of the token and what follows. -/
def DerivesToken (t : Terminal) (text value rest : List Char) : Prop :=
  ∃ blanks lexeme, (∀ c ∈ blanks, Text.isBlank c = true) ∧ text = blanks ++ (lexeme ++ rest) ∧
    t.IsLexeme lexeme rest ∧ value = t.value lexeme

/-- A single character behind any number of blanks. -/
def DerivesChar (c : Char) (text rest : List Char) : Prop :=
  DerivesToken (.char c) text [c] rest

/-- An identifier behind a mark. -/
inductive DerivesSelector (mark : Char) : List Char → String → List Char → Prop
  | mk {text middle rest name : List Char} :
      DerivesChar mark text middle → DerivesToken .identifier middle name rest →
      DerivesSelector mark text (String.ofList name) rest

/-- A class and an id in either order, each at most once. -/
inductive DerivesSelectors : List Char → Option String → Option String → List Char → Prop
  | none {rest : List Char} : DerivesSelectors rest none none rest
  | className {text middle rest : List Char} {name : String} {id : Option String} :
      DerivesSelector '.' text name middle → DerivesSelectors middle none id rest →
      DerivesSelectors text (some name) id rest
  | id {text middle rest : List Char} {className : Option String} {name : String} :
      DerivesSelector '#' text name middle → DerivesSelectors middle className none rest →
      DerivesSelectors text className (some name) rest

/-- A string literal with its escapes read. -/
inductive DerivesString : List Char → String → List Char → Prop
  | mk {text raw rest : List Char} :
      DerivesToken .string text raw rest →
      DerivesString text (String.ofList (Escape.decode raw)) rest

/-- A name and a value. -/
inductive DerivesAttribute : List Char → Attribute → List Char → Prop
  | mk {text afterName afterColon rest name : List Char} {value : String} :
      DerivesToken .name text name afterName → DerivesChar ':' afterName afterColon →
      DerivesString afterColon value rest →
      DerivesAttribute text ⟨String.ofList name, value⟩ rest

/-- Attributes, each behind a comma. -/
inductive DerivesMoreAttributes : List Char → List Attribute → List Char → Prop
  | nil {rest : List Char} : DerivesMoreAttributes rest [] rest
  | cons {text afterComma middle rest : List Char} {first : Attribute} {more : List Attribute} :
      DerivesChar ',' text afterComma → DerivesAttribute afterComma first middle →
      DerivesMoreAttributes middle more rest → DerivesMoreAttributes text (first :: more) rest

/-- A list of attributes in brackets, never empty. -/
inductive DerivesAttributes : List Char → List Attribute → List Char → Prop
  | mk {text afterOpen middle beforeClose rest : List Char} {first : Attribute}
      {more : List Attribute} :
      DerivesChar '[' text afterOpen → DerivesAttribute afterOpen first middle →
      DerivesMoreAttributes middle more beforeClose → DerivesChar ']' beforeClose rest →
      DerivesAttributes text (first :: more) rest

/-- The head of a tag, with or without a list of attributes. -/
inductive DerivesHead : List Char → TagHead → List Char → Prop
  | plain {text middle rest name : List Char} {className id : Option String} :
      DerivesToken .name text name middle → DerivesSelectors middle className id rest →
      DerivesHead text ⟨String.ofList name, className, id, none⟩ rest
  | listed {text middle beforeList rest name : List Char} {className id : Option String}
      {attributes : List Attribute} :
      DerivesToken .name text name middle → DerivesSelectors middle className id beforeList →
      DerivesAttributes beforeList attributes rest →
      DerivesHead text ⟨String.ofList name, className, id, some attributes⟩ rest

mutual

/-- A statement. -/
inductive DerivesStatement : List Char → Statement → List Char → Prop
  | text {text rest : List Char} {value : String} :
      DerivesString text value rest → DerivesStatement text (.text value) rest
  | tag {text middle rest : List Char} {head : TagHead} {body : Body} :
      DerivesHead text head middle → DerivesBody middle body rest →
      DerivesStatement text (.tag head body) rest

/-- The body of a tag. -/
inductive DerivesBody : List Char → Body → List Char → Prop
  | absent {rest : List Char} : DerivesBody rest .absent rest
  | single {text middle rest : List Char} {statement : Statement} :
      DerivesChar ':' text middle → DerivesStatement middle statement rest →
      DerivesBody text (.single statement) rest
  | block {text middle beforeClose rest : List Char} {statements : List Statement} :
      DerivesChar '\x7b' text middle → DerivesStatements middle statements beforeClose →
      DerivesChar '\x7d' beforeClose rest → DerivesBody text (.block statements) rest

/-- Any number of statements. -/
inductive DerivesStatements : List Char → List Statement → List Char → Prop
  | nil {rest : List Char} : DerivesStatements rest [] rest
  | cons {text middle rest : List Char} {first : Statement} {more : List Statement} :
      DerivesStatement text first middle → DerivesStatements middle more rest →
      DerivesStatements text (first :: more) rest

end

/-- A whole text: statements, and nothing but blanks behind them. -/
def DerivesDocument (text : List Char) (document : Document) : Prop :=
  ∃ rest, DerivesStatements text document.statements rest ∧ ∀ c ∈ rest, Text.isBlank c = true

/-! ### Nesting -/

mutual

/-- The number of blocks around the deepest place of a statement. -/
def Statement.nesting : Statement → Nat
  | .text _ => 0
  | .tag _ body => body.nesting

/-- The number of blocks around the deepest place of a body. A body is a block itself, even an
empty one. -/
def Body.nesting : Body → Nat
  | .absent => 0
  | .single statement => statement.nesting + 1
  | .block statements => Statement.nestingOfList statements + 1

/-- The number of blocks around the deepest place of statements. -/
def Statement.nestingOfList : List Statement → Nat
  | [] => 0
  | statement :: rest => max statement.nesting (Statement.nestingOfList rest)

end

/-- The number of blocks around the deepest place of a document. -/
def Document.nesting (document : Document) : Nat := Statement.nestingOfList document.statements

end TerseMarkup
