import Lox.Command.Execution

/-!
# The command line program

The outer layer of the program: it reads files and lines, hands them to the library, and
writes what the library answers.
-/

namespace Lox.Main

/-- The number of a system error, which may be given with its sign changed. -/
def errorNumber (code : UInt32) : UInt32 := if code < 0x80000000 then code else 0 - code

/-- Why the system could not give or make a file. -/
def fileFault : IO.Error → FileFault
  | .noFileOrDirectory .. => .notFound
  | .inappropriateType _ code _ => if errorNumber code = 20 then .notDirectory else .isDirectory
  | .invalidArgument _ code details =>
    if errorNumber code = 36 then .nameTooLong else .custom details
  | e => .custom (toString e)

/-- Write a report, and give its status. -/
def write (report : Report) : IO UInt32 := do
  let stdout ← IO.getStdout
  stdout.putStr report.stdout
  stdout.flush
  let stderr ← IO.getStderr
  stderr.putStr report.stderr
  pure report.code.toUInt32

/-- A clock that starts now and is taken to be read once in a microsecond. -/
def clock : IO Clock := do
  let start ← IO.monoNanosNow
  pure { nanos := fun n => start + 1000 * n }

/-- The bytes of a file. -/
def readFile (file : String) : IO (Except FileFault ByteArray) := do
  try
    pure (.ok (← IO.FS.readBinFile file))
  catch e =>
    pure (.error (fileFault e))

/-- Give a file the given text, whether or not it was there. -/
def createFile (file text : String) : IO (Except FileFault Unit) := do
  try
    IO.FS.writeFile file text
    pure (.ok ())
  catch e =>
    pure (.error (fileFault e))

/-- The bytes of the next line with its line end; none at the end of the input. -/
partial def readLine (input : IO.FS.Stream) (line : ByteArray) : IO ByteArray := do
  let byte ← input.read 1
  if byte.isEmpty then
    pure line
  else
    let line := line ++ byte
    if byte.data.contains 10 then pure line else readLine input line

/-- The interactive prompt, until nothing more is typed. -/
partial def prompt (session : Session) : IO UInt32 := do
  let _ ← write { stdout := Prompt.sign }
  let line ← readLine (← IO.getStdin) .empty
  if line.isEmpty then
    write { stdout := "\n" }
  else
    match Utf8.decode line with
    | .error _ => write Obstacle.listening.report
    | .ok text =>
      let (shown, session) := Prompt.answer ampleFuel session text
      let _ ← write shown
      prompt session

/-- Do what a user asks for. -/
def perform (action : Action) : IO UInt32 := do
  match action.file? with
  | none => prompt (.initial {} (← clock))
  | some file => write (action.reportOf ampleFuel (← clock) file (← readFile file))

/-- Do what a command line asks for. -/
def command (args : List String) : IO UInt32 := do
  match Arguments.parse? args with
  | none => write Command.misuse
  | some .help => write { stdout := Command.helpText }
  | some .version => write { stdout := Command.versionText ++ "\n" }
  | some (.act action none) => perform action
  | some (.act action (some logFile)) =>
    match ← createFile logFile (Journal.opening action logFile) with
    | .error fault => write (Obstacle.creating logFile fault).report
    | .ok _ => perform action

end Lox.Main

def main (args : List String) : IO UInt32 := Lox.Main.command args
