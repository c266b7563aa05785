/-!
# Command lines

What a user asks for on the command line: one of four actions, whether to keep a log file,
or the version. Options that any action takes may stand before or behind the action; there
they may be given again, and the later one counts. An option given twice in one place, a
missing or empty value, an unknown option and an extra argument are misuse.
-/

namespace Lox

/-- What to do with a program. -/
inductive Action where
  | tokenize (file : String) (json : Bool)
  | parse (file : String)
  | run (file : String)
  | repl
  deriving DecidableEq, Repr

/-- What a user asks for. -/
inductive Invocation where
  | help
  | version
  | act (action : Action) (logFile : Option String)
  deriving DecidableEq, Repr

namespace Arguments

/-- The log file that is kept if none is named. -/
def defaultLogFile : String := "app.log"

/-- What the options and arguments in one place say. -/
structure Given where
  log : Bool := false
  logFile : Option String := none
  json : Bool := false
  files : List String := []
  deriving DecidableEq, Repr

/-- An option that is known in some place. -/
inductive Flag where
  | log
  | json
  | help
  | version
  deriving DecidableEq, Repr

/-- What reading the arguments in one place comes to. -/
inductive Ending where
  /-- The end of the arguments. -/
  | done (given : Given)
  /-- An action with the arguments behind it. -/
  | action (given : Given) (name : String) (rest : List String)
  | help
  | version
  | misuse

/-- The place that arguments are read in: which flags are known, how many files are taken,
and which actions may follow. -/
structure Place where
  flags : List (String × Flag)
  fileCount : Nat
  actions : List String

def commonFlags : List (String × Flag) := [("--log", .log), ("--help", .help), ("-h", .help)]

def actionNames : List String := ["tokenize", "parse", "run", "repl", "help"]

/-- The place in front of the action. -/
def outerPlace : Place :=
  ⟨commonFlags ++ [("--version", .version), ("-V", .version)], 0, actionNames⟩

/-- The place behind the action. -/
def innerPlace (name : String) : Place :=
  let flags := if name = "tokenize" then commonFlags ++ [("--json", .json)] else commonFlags
  ⟨flags, if name = "repl" then 0 else 1, []⟩

/-- Whether an argument is written like an option. A single hyphen is not. -/
def looksLikeOption (arg : String) : Bool := arg.startsWith "-" && arg != "-"

def logFileOption : String := "--log-file"

/-- The value attached to the option that takes one, as in `--log-file=app.log`. -/
def attachedLogFile? (arg : String) : Option String :=
  match arg.toList.splitAt (logFileOption.length + 1) with
  | (front, value) =>
    if String.ofList front = logFileOption ++ "=" then some (String.ofList value) else none

/-- Note the name of the log file, once and not empty. -/
def Given.setLogFile? (g : Given) (value : String) : Option Given :=
  if g.logFile.isSome || value.isEmpty then none else some { g with logFile := some value }

/-- Note a file to work on, not empty and no more than there may be. -/
def Given.addFile? (g : Given) (count : Nat) (file : String) : Option Given :=
  if file.isEmpty || count ≤ g.files.length then none
  else some { g with files := g.files ++ [file] }

/-- Read the arguments behind `--`, all of which are files. -/
def readFiles (place : Place) (g : Given) : List String → Ending
  | [] => .done g
  | arg :: rest =>
    match g.addFile? place.fileCount arg with
    | some g => readFiles place g rest
    | none => .misuse

/-- The flag that an argument names, of those that are known in a place. Flags of one letter may
be written together, and then the first one counts: both end the reading. -/
def flag? (place : Place) (arg : String) : Option Flag :=
  match arg.toList with
  | '-' :: c :: _ =>
    if c = '-' then place.flags.lookup arg else place.flags.lookup (String.ofList ['-', c])
  | _ => none

/-- Read the arguments in a place up to an action. -/
def readPlace (place : Place) (g : Given) : List String → Ending
  | [] => .done g
  | arg :: rest =>
    if place.actions.contains arg then .action g arg rest
    else if arg = "--" then readFiles place g rest
    else if arg = logFileOption then
      match rest with
      | [] => .misuse
      | value :: rest =>
        if looksLikeOption value then .misuse
        else match g.setLogFile? value with
          | some g => readPlace place g rest
          | none => .misuse
    else match attachedLogFile? arg, flag? place arg with
      | some value, _ =>
        match g.setLogFile? value with
        | some g => readPlace place g rest
        | none => .misuse
      | none, some .help => .help
      | none, some .version => .version
      | none, some .log => if g.log then .misuse else readPlace place { g with log := true } rest
      | none, some .json => if g.json then .misuse else readPlace place { g with json := true } rest
      | none, none =>
        if looksLikeOption arg then .misuse
        else match g.addFile? place.fileCount arg with
          | some g => readPlace place g rest
          | none => .misuse

/-- The action with a name and what is given behind it. -/
def actionOf? (name : String) (g : Given) : Option Action :=
  match name, g.files with
  | "tokenize", [file] => some (.tokenize file g.json)
  | "parse", [file] => some (.parse file)
  | "run", [file] => some (.run file)
  | "repl", [] => some .repl
  | _, _ => none

/-- The log file that is asked for in front of and behind an action. -/
def logFileOf (outer inner : Given) : Option String :=
  if outer.log || inner.log then
    some ((inner.logFile.or outer.logFile).getD defaultLogFile)
  else none

/-- The meaning of what is behind an action. -/
def readAction? (outer : Given) (name : String) (rest : List String) : Option Invocation :=
  match readPlace (innerPlace name) {} rest with
  | .done inner => do
    let action ← actionOf? name inner
    some (.act action (logFileOf outer inner))
  | .help => some .help
  | _ => none

/-- The meaning of a request for help, which may name an action. -/
def readHelp? : List String → Option Invocation
  | [] => some .help
  | [name] => if actionNames.contains name then some .help else none
  | _ => none

/-- The meaning of a command line, unless it is misused. -/
def parse? (args : List String) : Option Invocation :=
  match readPlace outerPlace {} args with
  | .help => some .help
  | .version => some .version
  | .action outer name rest =>
    if name = "help" then readHelp? rest else readAction? outer name rest
  | _ => none

end Arguments
end Lox
