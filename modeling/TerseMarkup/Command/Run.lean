import TerseMarkup.Command.Arguments
import TerseMarkup.Command.Report
import TerseMarkup.Compile
import TerseMarkup.Document.Json
import TerseMarkup.Files.Tree

/-!
# Running commands

A command reads its input, and then either ends or writes one file. What it does next depends
only on what reading gave, so it is a plan: a report, or a file to write and the report for each
way that can end. A plan is carried out on a workspace here, and on a real file system elsewhere.
-/

namespace TerseMarkup

/-- The version of the program. -/
def version : String := "0.1.0"

/-- What a command does once its input is read. -/
inductive Plan where
  /-- End. -/
  | finish (report : Report)
  /-- Write a file and end. -/
  | write (path : String) (contents : String) (report : Except Fault Unit → Report)

namespace Command

/-- The path of the input. -/
def input : Command → String
  | build input _ => input
  | check input => input
  | tree input => input

/-- A text that is no document: the message is what the command prints. -/
def rejected (path : String) (error : SyntaxError) : Report where
  status := 1
  stdout := error.message ++ "\n"
  notices := [.debug ("Syntax error in " ++ path ++ " at offset " ++
    toString error.position.offset)]

/-- The report once the HTML of so many statements is written, or is not. -/
def built (path output : String) (count : Nat) (written : Except Fault Unit) : Report :=
  Report.after (.debug ("Compiled " ++ toString count ++ " statements from " ++ path)) <|
    match written with
    | .ok _ => ⟨0, "", [.info ("Built: " ++ output)]⟩
    | .error fault => ⟨1, "", [.message ("Error writing " ++ output ++ ": " ++ fault.message)]⟩

/-- What a command does with the text of its input. `build` compiles it and writes the HTML to
the given or default output, `check` says whether it is a document, `tree` prints the document as
indented JSON, and each of them rejects a text that is no document. -/
def planFor (source : String) : Command → Plan
  | build path output =>
    match compile source with
    | .error error => .finish (rejected path error)
    | .ok compiled =>
      let output := output.getD (Path.ofText path).defaultOutput.toText
      .write output compiled.html (built path output compiled.document.statements.length)
  | check path =>
    match Document.parse source with
    | .error error => .finish (rejected path error)
    | .ok _ => .finish ⟨0, "", [.message ("OK: " ++ path)]⟩
  | tree path =>
    match Document.parse source with
    | .error error => .finish (rejected path error)
    | .ok document => .finish ⟨0, document.toJson.toText .indented ++ "\n", []⟩

/-- Say first that the input was read. -/
def announce (path : String) : Plan → Plan
  | .finish report => .finish (report.after (.debug ("Reading " ++ path)))
  | .write output contents report =>
    .write output contents fun written ↦ (report written).after (.debug ("Reading " ++ path))

/-- What a command does once its input is read. -/
def plan (command : Command) (source : Except Fault String) : Plan :=
  announce command.input <|
    match source with
    | .ok source => command.planFor source
    | .error fault =>
      .finish ⟨1, "", [.message ("Error reading " ++ command.input ++ ": " ++ fault.message)]⟩

end Command

/-- Print the version. -/
def versionReport : Report := ⟨0, "elk " ++ version ++ "\n", []⟩

/-- The exit status for arguments that ask for nothing the program does. -/
def usageStatus : Nat := 2

/-- What can be seen of a run of the program. -/
structure Execution where
  status : Nat
  stdout : String
  /-- The notices, unless the arguments were refused. -/
  stderr : Option String
  workspace : Workspace

namespace Workspace

/-- Carry out a plan. -/
def carryOut (w : Workspace) : Plan → Report × Workspace
  | .finish report => (report, w)
  | .write path contents report =>
    match w.write (.ofText path) contents.toUTF8 with
    | .ok later => (report (.ok ()), later)
    | .error fault => (report (.error fault), w)

/-- Run a command. -/
def run (w : Workspace) (command : Command) : Report × Workspace :=
  w.carryOut (command.plan (w.readText (.ofText command.input)))

/-- Run the program. -/
def execute (w : Workspace) (level : LogLevel) (arguments : List String) : Execution :=
  match Invocation.ofArguments? arguments with
  | none => ⟨usageStatus, "", none, w⟩
  | some .version => ⟨versionReport.status, versionReport.stdout, versionReport.stderr level, w⟩
  | some (.command command) =>
    let (report, later) := w.run command
    ⟨report.status, report.stdout, report.stderr level, later⟩

end Workspace
end TerseMarkup
