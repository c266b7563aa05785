import Lox.Heap.Basic
import Lox.Scope.Basic
import Std.Data.TreeMap.Basic

/-!
# The machine that runs programs

A machine has a heap, the chain of frames that the running code sees, the number of calls
that are active, the distances that were recorded for nodes, a sink that takes the printed
lines, and a clock. What a running program does is a step from a machine to a machine that
gives a value or halts. When it halts the machine is still there, with all that has happened
to it.

The sink may refuse lines: it may close after a number of flushes, or fail to flush. What the
clock shows at each reading is given with it.
-/

namespace Lox

/-- The distances recorded for nodes. -/
abbrev Locals := Std.TreeMap NodeId Nat

namespace Locals

/-- Record the distance of a binding; a global name has none. -/
def note (locals : Locals) (b : Binding) : Locals :=
  match b.depth with
  | some depth => locals.insert b.id depth
  | none => locals

def noteAll (locals : Locals) (bs : List Binding) : Locals := bs.foldl note locals

end Locals

/-- What takes the printed lines. After `closeAfter` flushes it takes no more lines, and after
`failFlushAfter` flushes it cannot flush. -/
structure Sink where
  lines : Array String := #[]
  flushes : Nat := 0
  closeAfter : Option Nat := none
  failFlushAfter : Option Nat := none
  deriving DecidableEq, Repr, Inhabited

namespace Sink

def reached (s : Sink) (limit : Option Nat) : Bool := limit.any fun k => k ≤ s.flushes

/-- Take a line and flush. A line is kept even if the flush behind it fails. -/
def writeLine (s : Sink) (line : String) : Option OutputFault × Sink :=
  if s.reached s.closeAfter then (some .sinkClosed, s)
  else
    let s := { s with lines := s.lines.push line }
    if s.reached s.failFlushAfter then (some .flushFailed, s)
    else (none, { s with flushes := s.flushes + 1 })

/-- The text of the lines behind the first `start` of them. -/
def textFrom (s : Sink) (start : Nat) : String :=
  String.join ((s.lines.toList.drop start).map fun line => line ++ "\n")

def text (s : Sink) : String := s.textFrom 0

end Sink

/-- The nanoseconds of the current second at each reading, and the number of readings so far. In a
leap second there are up to twice as many nanoseconds. -/
structure Clock where
  nanos : Nat → Nat := fun _ => 0
  readings : Nat := 0
  deriving Inhabited

namespace Clock

/-- The part of a second that the clock shows, in full thousandths. -/
def reading (c : Clock) : Float := Float.ofNat (c.nanos c.readings / 1000000 % 1000) / 1000.0

def tick (c : Clock) : Clock := { c with readings := c.readings + 1 }

end Clock

/-- A machine that runs programs. -/
structure Machine where
  heap : Heap
  chain : Chain
  depth : Nat
  locals : Locals
  sink : Sink
  clock : Clock

def maxCallDepth : Nat := 8192

def globalFrame : FrameId := 0

/-- The chain that sees the global frame only. -/
def globalChain : Chain := [globalFrame]

namespace Machine

/-- The global frame of a new machine: it names the functions that the language provides. -/
def initialGlobals : Frame :=
  ((∅ : Frame).insert Native.clock.name (.native .clock)).insert
    Native.printNative.name (.native .printNative)

/-- A machine that has run nothing yet. -/
def initial (sink : Sink) (clock : Clock) : Machine where
  heap := { frames := ({} : Frames).push initialGlobals }
  chain := globalChain
  depth := 0
  locals := ∅
  sink := sink
  clock := clock

instance : Inhabited Machine := ⟨initial {} {}⟩

def noteAll (m : Machine) (bs : List Binding) : Machine :=
  { m with locals := m.locals.noteAll bs }

end Machine

/-- Why a program stops before its end. -/
inductive Halt where
  | fault (line : Nat) (fault : RuntimeFault)
  | output (fault : OutputFault)
  | outOfFuel
  deriving DecidableEq, Repr

namespace Halt

/-- The diagnostic for a halt. Running out of fuel is no fault of the program. -/
def diagnostic? : Halt → Option Diagnostic
  | fault line f => some (.runtime line f)
  | output f => some (.output f)
  | outOfFuel => none

end Halt

/-- What a running program does with a machine. -/
abbrev Exec := EStateM Halt Machine

/-- How a statement ends: by reaching its end, or by a `return`. -/
inductive Completion where
  | normal
  | returned (v : Value)
  deriving Repr, Inhabited

namespace Exec

variable {α : Type}

/-- Stop with a fault on the line of a token. -/
def fail (t : Token) (fault : RuntimeFault) : Exec α := throw (.fault t.line fault)

/-- Take a result, or stop with its fault on the line of a token. -/
def ofExcept (t : Token) : Except RuntimeFault α → Exec α
  | .ok a => pure a
  | .error fault => fail t fault

/-- Run with another chain, and have the old one back however the run ends. -/
def inChain (chain : Chain) (p : Exec α) : Exec α := fun m =>
  let saved := m.chain
  match p { m with chain := chain } with
  | .ok a m => .ok a { m with chain := saved }
  | .error h m => .error h { m with chain := saved }

/-- Run one call deeper, and be back however the run ends. -/
def nested (p : Exec α) : Exec α := fun m =>
  match p { m with depth := m.depth + 1 } with
  | .ok a m => .ok a { m with depth := m.depth - 1 }
  | .error h m => .error h { m with depth := m.depth - 1 }

/-- Change the heap and take a result out of it. -/
def withHeap (f : Heap → α × Heap) : Exec α :=
  modifyGet fun m =>
    let (a, heap) := f m.heap
    (a, { m with heap := heap })

def defineIn (id : FrameId) (name : String) (v : Value) : Exec Unit :=
  modify fun m => { m with heap := { m.heap with frames := m.heap.frames.define id name v } }

/-- Give a name a value in the innermost frame. -/
def define (name : String) (v : Value) : Exec Unit := do
  let m ← get
  match m.chain with
  | [] => pure ()
  | id :: _ => defineIn id name v

/-- Overwrite a name in the innermost frame of a chain that has it. -/
def assign (chain : Chain) (name : Token) (v : Value) : Exec Unit := do
  let m ← get
  let id ← ofExcept name (m.heap.frames.holder name.lexeme chain)
  defineIn id name.lexeme v

/-- Give a name a value in the frame that is `distance` steps out. -/
def assignAt (distance : Nat) (name : Token) (v : Value) : Exec Unit := do
  let m ← get
  let id ← ofExcept name (Frames.frameAt name.lexeme m.chain distance)
  defineIn id name.lexeme v

/-- Print a value on a line of its own. -/
def writeLine (v : Value) : Exec Unit := fun m =>
  match m.sink.writeLine (m.heap.text v) with
  | (none, sink) => .ok () { m with sink := sink }
  | (some fault, sink) => .error (.output fault) { m with sink := sink }

def readClock : Exec Value :=
  modifyGet fun m => (.number m.clock.reading, { m with clock := m.clock.tick })

end Exec
end Lox
