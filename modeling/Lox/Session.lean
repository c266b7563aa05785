import Lox.Diagnostic.Log
import Lox.Machine.Evaluation
import Lox.Scope.Resolution
import Lox.Syntax.Parser.Statement
import Lox.Token.Lexer

/-!
# Sessions

A session runs one source after another on one machine, so that a source sees what earlier
ones have defined, and keeps one log. A source runs only if nothing is wrong with its text,
and while the log remembers such a fault nothing runs. The nodes of every source that is read
take numbers of their own, and the distances of a source whose names were looked at stay
recorded, whether it then runs or not.
-/

namespace Lox

/-- How running a source ends. -/
inductive Outcome where
  | ok
  | staticError
  | runtimeError
  | outOfFuel
  deriving DecidableEq, Repr

namespace Outcome

/-- The status with which a process that ran the source exits. -/
def exitCode : Outcome → Nat
  | ok => 0
  | staticError => 65
  | runtimeError => 70
  | outOfFuel => 70

end Outcome

/-- A machine, a log, and the first number that no node has. -/
structure Session where
  machine : Machine
  log : Log
  fresh : NodeId

namespace Session

def initial (sink : Sink) (clock : Clock) : Session := ⟨.initial sink clock, {}, 0⟩

instance : Inhabited Session := ⟨initial {} {}⟩

/-- The program of a source, with its lexical faults before its other ones. -/
def read (fresh : NodeId) (source : String) : Parsed :=
  let items := Lexer.scan source
  let parsed := parse fresh (Lexer.tokensOf items)
  { parsed with faults := Lexer.faultsOf items ++ parsed.faults }

/-- Read a source without running it, and log its faults. -/
def parse (s : Session) (source : String) : List Stmt × Session :=
  let parsed := read s.fresh source
  (parsed.statements, { s with log := s.log.reportAll parsed.faults, fresh := parsed.fresh })

/-- Run a program whose names are bound. -/
def execute (fuel : Nat) (s : Session) (program : List Stmt) : Outcome × Session :=
  match interpret fuel program s.machine with
  | .ok _ machine => (.ok, { s with machine := machine })
  | .error halt machine =>
    match halt.diagnostic? with
    | some d => (.runtimeError, { s with machine := machine, log := s.log.stop d })
    | none => (.outOfFuel, { s with machine := machine })

/-- Run a program that was read: bind its names, and execute it if the log holds no fault of a text
then. -/
def runProgram (fuel : Nat) (s : Session) (program : List Stmt) : Outcome × Session :=
  let findings := resolve program
  let s := { s with
    machine := s.machine.noteAll findings.bindings, log := s.log.reportAll findings.faults }
  if s.log.hadError then (.staticError, s) else execute fuel s program

/-- Run a source: read it, bind its names, and execute it. The first of these steps after
which the log holds a fault of the text is the last one. -/
def run (fuel : Nat) (s : Session) (source : String) : Outcome × Session :=
  let (program, s) := s.parse source
  if s.log.hadError then (.staticError, s) else runProgram fuel s program

/-- The expression that a program consists of, if it is a single expression statement. -/
def expression? : List Stmt → Option Expr
  | [.expression e] => some e
  | _ => none

/-- Evaluate the text of an expression, apart from the log. The first thing that is wrong with
it is the answer if it has no value; a text that is no single expression has no answer. -/
def evaluate (fuel : Nat) (s : Session) (text : String) :
    Option (Except Diagnostic Value) × Session :=
  let parsed := read s.fresh (text ++ ";")
  let s := { s with fresh := parsed.fresh }
  match parsed.faults with
  | d :: _ => (some (.error d), s)
  | [] =>
    let findings := resolve parsed.statements
    let s := { s with machine := s.machine.noteAll findings.bindings }
    match findings.faults, expression? parsed.statements with
    | d :: _, _ => (some (.error d), s)
    | [], none => (none, s)
    | [], some e =>
      match Lox.evaluate fuel e s.machine with
      | .ok v machine => (some (.ok v), { s with machine := machine })
      | .error halt machine => (halt.diagnostic?.map .error, { s with machine := machine })

/-- Hand out the diagnostics of the log. -/
def takeDiagnostics (s : Session) : List Diagnostic × Session :=
  let (ds, log) := s.log.take
  (ds, { s with log := log })

def resetLog (s : Session) : Session := { s with log := s.log.reset }

end Session
end Lox
