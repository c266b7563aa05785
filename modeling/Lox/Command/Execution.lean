import Lox.Command.Arguments
import Lox.Command.Directory
import Lox.Command.Journal
import Lox.Session
import Lox.Syntax.Printer
import Lox.Text.Quoted
import Lox.Text.Utf8
import Lox.Token.Json
import Lox.Token.Text

/-!
# Commands

What each action prints, and the status it exits with. Actions on a file are functions of its
bytes; the interactive prompt is a function of the lines that are typed. A command is then a
function of a directory, of what is typed, and of a command line.
-/

namespace Lox

/-- What a command prints, and the status it exits with. -/
structure Report where
  code : Nat := 0
  stdout : String := ""
  stderr : String := ""
  deriving DecidableEq, Repr

/-- Texts, each with a line end behind it. -/
def linesText (lines : List String) : String :=
  String.join (lines.map fun line => line ++ "\n")

/-- What gets in the way of an action, and its cause. -/
inductive Obstacle where
  | opening (file : String) (fault : FileFault)
  | reading (file : String) (fault : FileFault)
  | decoding (file : String) (fault : Utf8.Fault)
  | creating (file : String) (fault : FileFault)
  | listening
  deriving DecidableEq, Repr

namespace Obstacle

/-- What could not be done. -/
def context : Obstacle → String
  | opening file _ => "Failed to open file " ++ Quoted.quote file
  | reading file _ => "Failed to read file " ++ Quoted.quote file
  | decoding file _ => "File " ++ Quoted.quote file ++ " is not valid UTF-8"
  | creating file _ => "Failed to create " ++ Quoted.quote file
  | listening => "Failed to read from stdin"

/-- Why it could not be done. -/
def cause : Obstacle → String
  | opening _ fault | reading _ fault | creating _ fault => fault.message
  | decoding _ fault => fault.message
  | listening => "stream did not contain valid UTF-8"

/-- What a user reads. -/
def text (o : Obstacle) : String :=
  "Error: " ++ o.context ++ "\n\nCaused by:\n    " ++ o.cause ++ "\n"

/-- A directory opens but cannot be read; any other file fails when it is opened. -/
def ofFile (file : String) : FileFault → Obstacle
  | .isDirectory => reading file .isDirectory
  | fault => opening file fault

def report (o : Obstacle) : Report := { code := 1, stderr := o.text }

end Obstacle

def Log.text (log : Log) : String := linesText (log.diagnostics.map Diagnostic.text)

namespace Action

/-- Show the tokens of a source. -/
def tokenizeReport (json : Bool) (source : String) : Report :=
  let items := Lexer.scan source
  let tokens := Lexer.tokensOf items
  let faults := Lexer.faultsOf items
  { code := if faults.isEmpty then 0 else Outcome.staticError.exitCode
    stdout := if json then Token.listJson tokens ++ "\n" else linesText (tokens.map Token.text)
    stderr := linesText (faults.map Diagnostic.text) }

/-- Show the tree of a source, or its faults. -/
def parseReport (source : String) : Report :=
  let parsed := Session.read 0 source
  if parsed.faults.isEmpty then { stdout := programText parsed.statements ++ "\n" }
  else
    { code := Outcome.staticError.exitCode
      stderr := linesText (parsed.faults.map Diagnostic.text) }

/-- Run a source. -/
def runReport (fuel : Nat) (clock : Clock) (source : String) : Report :=
  let (outcome, session) := (Session.initial {} clock).run fuel source
  { code := outcome.exitCode
    stdout := session.machine.sink.text
    stderr := session.log.text }

/-- An action on the text of its file. The interactive prompt has none. -/
def report (fuel : Nat) (clock : Clock) (source : String) : Action → Report
  | tokenize _ json => tokenizeReport json source
  | parse _ => parseReport source
  | run _ => runReport fuel clock source
  | repl => {}

/-- An action on the bytes of its file, if they could be had. -/
def reportOf (fuel : Nat) (clock : Clock) (file : String) (contents : Except FileFault ByteArray)
    (action : Action) : Report :=
  match contents with
  | .error fault => (Obstacle.ofFile file fault).report
  | .ok bytes =>
    match Utf8.decode bytes with
    | .error fault => (Obstacle.decoding file fault).report
    | .ok source => action.report fuel clock source

end Action

namespace Prompt

/-- What the prompt writes before it waits for a line. -/
def sign : String := "> "

/-- Run a line, and show what it printed and its diagnostics. No line spoils the next one. -/
def answer (fuel : Nat) (s : Session) (line : String) : Report × Session :=
  let start := s.machine.sink.lines.size
  let (_, s) := s.run fuel line
  ({ stdout := s.machine.sink.textFrom start, stderr := s.log.text }, s.resetLog)

/-- Cut bytes behind each line end. Bytes behind the last one are a line too. -/
def splitLines (bytes : List UInt8) : List (List UInt8) :=
  bytes.foldr
    (fun b lines =>
      if b = 10 then [b] :: lines
      else match lines with
        | [] => [[b]]
        | line :: rest => (b :: line) :: rest)
    []

/-- Run lines one after the other, up to the first that is no text. -/
def answerAll (fuel : Nat) (s : Session) : List (List UInt8) → Report
  | [] => { stdout := sign ++ "\n" }
  | line :: rest =>
    match Utf8.decode ⟨line.toArray⟩ with
    | .error _ => { Obstacle.listening.report with stdout := sign }
    | .ok text =>
      let (shown, s) := answer fuel s text
      let others := answerAll fuel s rest
      { code := others.code
        stdout := sign ++ shown.stdout ++ others.stdout
        stderr := shown.stderr ++ others.stderr }

def report (fuel : Nat) (clock : Clock) (input : ByteArray) : Report :=
  answerAll fuel (Session.initial {} clock) (splitLines input.data.toList)

end Prompt

namespace Command

/-- The name and number that identify the program. -/
def versionText : String := "rox 0.1.0"

/-- What the program can be asked for. -/
def helpText : String :=
  linesText
    ["Lox language interpreter", "", "Usage: rox [OPTIONS] <COMMAND>", "", "Commands:",
      "  tokenize  Tokenizes input from a file, printing each token",
      "  parse     Parses a program and prints its syntax tree",
      "  run       Runs input from a file as a Lox program",
      "  repl      Starts an interactive prompt",
      "  help      Print this message or the help of the given subcommand(s)", "", "Options:",
      "      --log                  Enable logging to a file",
      "      --log-file <LOG_FILE>  Where `--log` writes [default: app.log]",
      "  -h, --help                 Print help", "  -V, --version              Print version"]

def misuse : Report :=
  { code := 2, stderr := "error: invalid usage\n\nFor more information, try '--help'.\n" }

/-- Do what a user asks for, in a directory that holds the log file already. -/
def perform (fuel : Nat) (clock : Clock) (d : Directory) (input : ByteArray) (action : Action) :
    Report :=
  match action.file? with
  | none => Prompt.report fuel clock input
  | some file => action.reportOf fuel clock file (d.read input file)

/-- A whole command: its report and the directory it leaves behind. A log file that is asked
for is made before anything else, and tells what was asked for before a file is read. -/
def execute (fuel : Nat) (clock : Clock) (d : Directory) (input : ByteArray)
    (args : List String) : Report × Directory :=
  match Arguments.parse? args with
  | none => (misuse, d)
  | some .help => ({ stdout := helpText }, d)
  | some .version => ({ stdout := versionText ++ "\n" }, d)
  | some (.act action none) => (perform fuel clock d input action, d)
  | some (.act action (some logFile)) =>
    match d.create logFile (Journal.opening action logFile).toUTF8 with
    | .error fault => ((Obstacle.creating logFile fault).report, d)
    | .ok d => (perform fuel clock d input action, d)

end Command
end Lox
