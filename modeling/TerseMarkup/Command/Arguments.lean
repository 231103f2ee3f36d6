/-!
# Arguments of the command line

```text
elk build <path> [-o <file>]
elk check <path>
elk tree <path>
elk --version
```

Requests for help (`--help`, `-h` and the command `help`) are left out, with the text that they
would print. Here they are arguments that ask for nothing, like any wrong use of the program.
-/

namespace TerseMarkup

/-- What the program is asked to do with a file. -/
inductive Command where
  /-- Write the HTML of a document, to a file of its own or to the default one. -/
  | build (input : String) (output : Option String)
  /-- Say whether a text is a document. -/
  | check (input : String)
  /-- Print a document as JSON. -/
  | tree (input : String)
  deriving DecidableEq, Repr

/-- What the program is asked to do. -/
inductive Invocation where
  | version
  | command (command : Command)
  deriving DecidableEq, Repr

namespace Invocation

/-- How an argument is read before the options end. -/
inductive Argument where
  /-- All arguments behind this one are paths. -/
  | endOfOptions
  /-- The output option, with its value if that is attached. -/
  | output (attached : Option String)
  | path (text : String)
  /-- An option that there is not. -/
  | unknown
  deriving DecidableEq, Repr

/-- Read an argument. A lone hyphen is a path. -/
def Argument.ofText (text : String) : Argument :=
  match text.toList with
  | ['-', '-'] => .endOfOptions
  | ['-', 'o'] => .output none
  | '-' :: 'o' :: '=' :: value => .output (some (String.ofList value))
  | '-' :: 'o' :: value => .output (some (String.ofList value))
  | '-' :: '-' :: 'o' :: 'u' :: 't' :: 'p' :: 'u' :: 't' :: [] => .output none
  | '-' :: '-' :: 'o' :: 'u' :: 't' :: 'p' :: 'u' :: 't' :: '=' :: value =>
    .output (some (String.ofList value))
  | '-' :: _ :: _ => .unknown
  | _ => .path text

/-- The paths and the outputs that arguments name. -/
structure Gathered where
  paths : List String
  outputs : List String
  deriving DecidableEq, Repr

/-- Sort arguments into paths and outputs. The value of an output option may be the next
argument, if that is not an option. -/
def gather : List String → Option Gathered
  | [] => some ⟨[], []⟩
  | argument :: rest =>
    match Argument.ofText argument with
    | .endOfOptions => some ⟨rest, []⟩
    | .path text => (gather rest).map fun more ↦ { more with paths := text :: more.paths }
    | .output (some value) =>
      (gather rest).map fun more ↦ { more with outputs := value :: more.outputs }
    | .output none =>
      match rest with
      | [] => none
      | value :: rest =>
        match Argument.ofText value with
        | .path _ => (gather rest).map fun more ↦ { more with outputs := value :: more.outputs }
        | _ => none
    | .unknown => none

/-- The one path among arguments that name no output. -/
def onlyPath? (arguments : List String) : Option String :=
  match gather arguments with
  | some ⟨[path], []⟩ => if path = "" then none else some path
  | _ => none

/-- A build with at most one output. -/
def build? (arguments : List String) : Option Command :=
  match gather arguments with
  | some ⟨[path], []⟩ => if path = "" then none else some (.build path none)
  | some ⟨[path], [output]⟩ =>
    if path = "" ∨ output = "" then none else some (.build path (some output))
  | _ => none

/-- Whether an argument asks for the version, and then nothing behind it counts. -/
def asksVersion (argument : String) : Bool :=
  argument == "--version" || argument.toList.take 2 == ['-', 'V']

/-- What arguments ask for, if anything. A request for help is not told from a wrong use. -/
def ofArguments? : List String → Option Invocation
  | [] => none
  | first :: rest =>
    if asksVersion first then some .version
    else
      match first with
      | "build" => (build? rest).map .command
      | "check" => (onlyPath? rest).map (.command <| .check ·)
      | "tree" => (onlyPath? rest).map (.command <| .tree ·)
      | _ => none

end Invocation
end TerseMarkup
