import Lox.Command.Arguments
import Lox.Text.Quoted

/-!
# The beginning of a log file

A log file tells what the program does, one event a line. It is written while the program
runs, and starts before the program reads the file that it works on. So a command whose log
file is that file works on the beginning of the log: where it is kept, what was asked for, and
which file is about to be read.
-/

namespace Lox

/-- An action as the log shows it. -/
def Action.inspect : Action → String
  | .tokenize file json =>
    Quoted.record "Tokenize" [("filename", Quoted.quote file), ("json", Quoted.boolText json)]
  | .parse file => Quoted.record "Parse" [("filename", Quoted.quote file)]
  | .run file => Quoted.record "Run" [("filename", Quoted.quote file)]
  | .repl => "Repl"

/-- The file that an action works on. -/
def Action.file? : Action → Option String
  | .tokenize file _ | .parse file | .run file => some file
  | .repl => none

namespace Journal

/-- What the log tells before a file is read. -/
inductive Event where
  | started (logFile : String)
  | asked (action : Action) (logFile : String)
  | reading (file : String)
  deriving DecidableEq, Repr

namespace Event

/-- The number by which the log refers to a kind of event. -/
def number : Event → Nat
  | started _ => 94
  | asked _ _ => 199
  | reading _ => 55

def message : Event → String
  | started logFile => "Logger initialized, writing to " ++ Quoted.quote logFile
  | asked action logFile =>
    "CLI arguments: " ++ Quoted.record "Cli"
      [("commands", action.inspect), ("log", Quoted.boolText true),
        ("log_file", Quoted.quote logFile)]
  | reading file => "Reading file: " ++ Quoted.quote file

def line (e : Event) : String := "[rox:" ++ toString e.number ++ "] - " ++ e.message ++ "\n"

end Event

/-- The events up to the reading of a file. -/
def events (action : Action) (logFile : String) : List Event :=
  [.started logFile, .asked action logFile] ++ (action.file?.map Event.reading).toList

/-- The log up to the reading of a file. -/
def opening (action : Action) (logFile : String) : String :=
  String.join ((events action logFile).map Event.line)

end Journal
end Lox
