import TerseMarkup.Text.CharClass

/-!
# Reports

What a command says when it ends: its exit status, what it prints, and the notices beside it,
some of which are shown only at a level of detail. Lines of the log never hold a character that
could steer a terminal.
-/

namespace TerseMarkup

/-- How much detail the program logs. -/
inductive LogLevel where
  | off
  | error
  | warn
  | info
  | debug
  | trace
  deriving DecidableEq, Repr

/-- The level that a name stands for, in either case. -/
def LogLevel.ofName? (name : String) : Option LogLevel :=
  match name.toLower with
  | "off" => some .off
  | "error" => some .error
  | "warn" => some .warn
  | "info" => some .info
  | "debug" => some .debug
  | "trace" => some .trace
  | _ => none

/-- The level for a setting that may be absent; warnings are logged unless it says otherwise. -/
def LogLevel.ofSetting (setting : Option String) : LogLevel :=
  ((setting.bind LogLevel.ofName?).getD .warn)

/-- A line beside the output of a command. -/
inductive Notice where
  /-- A line of the log, for those who look for a fault. -/
  | debug (text : String)
  /-- A line of the log, for those who want to follow what happens. -/
  | info (text : String)
  /-- A line that is always shown. -/
  | message (text : String)
  deriving DecidableEq, Repr

/-- Whether a notice is shown at a level of detail. -/
def Notice.isShown (level : LogLevel) : Notice → Bool
  | debug _ => level = .debug ∨ level = .trace
  | info _ => level = .info ∨ level = .debug ∨ level = .trace
  | message _ => true

/-- The ASCII characters that sound a bell, move the cursor back, feed a form or delete, and the
one that starts an escape sequence. -/
def steeringChars : List Char :=
  ['\x07', '\x08', '\x0c', '\x1b', '\x7f']

/-- A character as the log shows it: one that could steer a terminal is written as an escape, with
its code in two digits if it is ASCII and in braces if it is among the controls behind that. -/
def logChar (c : Char) : List Char :=
  if c ∈ steeringChars then '\\' :: 'x' :: Text.hexByte c.toNat
  else if 0x80 ≤ c.toNat ∧ c.toNat ≤ 0x9f then
    '\\' :: 'u' :: '\x7b' :: (Text.hexByte c.toNat ++ ['\x7d'])
  else [c]

/-- A text as the log shows it. -/
def logText (text : String) : String :=
  String.ofList (text.toList.flatMap logChar)

/-- A notice as a line. -/
def Notice.toLine : Notice → String
  | debug text => "DEBUG " ++ logText text ++ "\n"
  | info text => "INFO " ++ logText text ++ "\n"
  | message text => text ++ "\n"

/-- What a command says when it ends. -/
structure Report where
  status : Nat
  stdout : String
  notices : List Notice
  deriving DecidableEq, Repr

/-- The notices that are shown at a level of detail. -/
def Report.stderr (level : LogLevel) (report : Report) : String :=
  String.join ((report.notices.filter (Notice.isShown level)).map Notice.toLine)

/-- Say something before all else. -/
def Report.after (notice : Notice) (report : Report) : Report :=
  { report with notices := notice :: report.notices }

end TerseMarkup
