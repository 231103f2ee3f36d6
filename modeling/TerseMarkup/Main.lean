import TerseMarkup.Command.Run

/-!
# The command line

Carries out plans on the file system.
-/

namespace TerseMarkup

/-- The number of a system error, whose negative may be what is reported. -/
def systemNumber (code : UInt32) : UInt32 :=
  min code (0 - code)

/-- What an error of the file system means to a command. -/
def Fault.ofError (error : IO.Error) : Fault :=
  match error with
  | .noFileOrDirectory .. => .notFound
  | .inappropriateType _ code _ =>
    match systemNumber code with
    | 20 => .notDirectory
    | 21 => .isDirectory
    | _ => .other (toString error)
  | .invalidArgument _ code _ =>
    if systemNumber code = 36 then .nameTooLong else .other (toString error)
  | _ => .other (toString error)

/-- The text of a file. -/
def readText (path : String) : IO (Except Fault String) := do
  match ← (IO.FS.readBinFile path).toBaseIO with
  | .error error => return .error (Fault.ofError error)
  | .ok bytes =>
    match String.fromUTF8? bytes with
    | some text => return .ok text
    | none => return .error .notUtf8

/-- Carry out a plan. -/
def carryOut : Plan → IO Report
  | .finish report => return report
  | .write path contents report => do
    match ← (IO.FS.writeFile path contents).toBaseIO with
    | .ok _ => return report (.ok ())
    | .error error => return report (.error (Fault.ofError error))

/-- Print a report and give its status. -/
def present (level : LogLevel) (report : Report) : IO UInt32 := do
  IO.print report.stdout
  IO.eprint (report.stderr level)
  return UInt32.ofNat report.status

/-- What the program says to arguments that it refuses. -/
def usage : String :=
  "Usage: elk build <PATH> [-o <FILE>] | elk check <PATH> | elk tree <PATH> | elk --version\n"

end TerseMarkup

open TerseMarkup in
/-- Run the program. -/
def main (arguments : List String) : IO UInt32 := do
  let level := LogLevel.ofSetting (← IO.getEnv "ELK_LOG")
  match Invocation.ofArguments? arguments with
  | none =>
    IO.eprint usage
    return UInt32.ofNat usageStatus
  | some .version => present level versionReport
  | some (.command command) =>
    let source ← readText command.input
    present level (← carryOut (command.plan source))
