import Lox.Machine.Evaluation
import Lox.Proofs.Scope.Visits

/-!
# What happens while a program runs

While a program runs, frames are made for its blocks, calls, receivers and superclasses, and
nodes that refer to a variable are evaluated in the chain of frames that is current then. Classes
are declared, instances are made, and properties of both are written and read. A trace has a label
for each of these things that it tells of, in the order in which they happen. For each part of the
machine its trace is given here, from the machine it starts on, whatever the labels are. The events
of a run are its trace with labels for what happens to frames.
-/

namespace Lox

/-- What has properties: an instance or a class. -/
inductive Owner where
  | instance_ (i : InstanceId)
  | class_ (c : ClassId)
  deriving DecidableEq

/-- The value that refers to an owner. -/
def Owner.value : Owner → Value
  | instance_ i => .instance_ i
  | class_ c => .class_ c

/-- The owner that a value refers to. -/
def Value.owner? : Value → Option Owner
  | instance_ i => some (.instance_ i)
  | class_ c => some (.class_ c)
  | _ => none

/-- A class as it is declared: with the superclass that its clause gives, the chain that its methods
see, and the place of the function of its first static method. The functions of the others follow
in order. -/
structure Declaration where
  decl : ClassDecl
  superclass : Option ClassId
  chain : Chain
  first : FunctionId

/-- What happens from a machine on. -/
abbrev Trace (ε : Type) := Machine → List ε

variable {α ε : Type}

namespace Trace

def nothing : Trace ε := fun _ => []

/-- The trace of a step, and of what follows it unless it halts. -/
def andThen (p : Exec α) (trace : Trace ε) (next : α → Trace ε) : Trace ε := fun m =>
  trace m ++
    match p m with
    | .ok a m' => next a m'
    | .error _ _ => []

theorem andThen_nothing (p : Exec α) (trace : Trace ε) :
    andThen p trace (fun _ => nothing) = trace := by
  funext m
  unfold andThen
  split <;> exact List.append_nil _

theorem andThen_of_ok {p : Exec α} {a : α} {m m' : Machine} (trace : Trace ε) (next : α → Trace ε)
    (h : p m = .ok a m') : andThen p trace next m = trace m ++ next a m' := by rw [andThen, h]

end Trace

/-- The labels of the things that happen. A thing need not have one. -/
structure Labels (ε : Type) where
  /-- A frame is made for a scope of the program, in front of a chain. -/
  opened : Region → Chain → Trace ε := fun _ _ _ => []
  /-- A node is evaluated that refers to a variable. -/
  referred : NodeId → Token → Trace ε := fun _ _ _ => []
  /-- A class is declared, which takes the next place of a class. -/
  declared : Declaration → Trace ε := fun _ _ => []
  /-- An instance of a class is made, which takes the next place of an instance. -/
  made : ClassId → Trace ε := fun _ _ => []
  /-- A value is stored in a property. The machine is the one before. -/
  wrote : Owner → Token → Value → Trace ε := fun _ _ _ _ => []
  /-- A property is read. -/
  read : Owner → Token → Trace ε := fun _ _ _ => []

open Trace Exec

section

variable (labels : Labels ε)

/-- Reading a method makes a frame for its receiver. -/
def getMemberTrace (start : ClassId) (i : InstanceId) (name : Token) : Trace ε := fun m =>
  match m.heap.member? start i name.lexeme with
  | some (.method c) => labels.opened (.receiver c.decl) c.chain m
  | _ => []

def getPropertyTrace (object : Value) (name : Token) : Trace ε := fun m =>
  match object with
  | .instance_ i =>
    labels.read (.instance_ i) name m ++ getMemberTrace labels (m.heap.inst i).cls i name m
  | .class_ c => labels.read (.class_ c) name m
  | _ => []

/-- The trace of storing in a property the value whose trace is given. -/
def setPropertyTrace (object : Value) (name : Token) (value : Exec Value) (trace : Trace ε) :
    Trace ε :=
  match object.owner? with
  | some owner => andThen value trace fun v => labels.wrote owner name v
  | none => nothing

/-- The trace of reading a member from the superclass on, behind the reference itself. -/
def superMemberTrace (id : NodeId) (keyword method : Token) : Trace ε := fun m =>
  match m.locals[id]? with
  | some (distance + 1) =>
    match m.heap.frames.getAt m.chain (distance + 1) keyword.lexeme,
      m.heap.frames.getAt m.chain distance "this" with
    | .ok (.class_ c), .ok (.instance_ i) => getMemberTrace labels c i method m
    | _, _ => []
  | _ => []

def executeAllTrace (exec : Stmt → Exec Completion) (trace : Stmt → Trace ε) :
    List Stmt → Trace ε
  | [] => nothing
  | s :: rest => andThen (exec s) (trace s) fun
    | .normal => executeAllTrace exec trace rest
    | .returned _ => nothing

def evaluateAllTrace (eval : Expr → Exec Value) (trace : Expr → Trace ε) : List Expr → Trace ε
  | [] => nothing
  | e :: rest => andThen (eval e) (trace e) fun _ => evaluateAllTrace eval trace rest

/-- A frame is made for a scope, and then statements are executed in it. -/
def executeInFrameTrace (exec : Stmt → Exec Completion) (trace : Stmt → Trace ε)
    (region : Region) (frame : Frame) (chain : Chain) (body : List Stmt) : Trace ε :=
  andThen (withHeap fun h => h.newFrame frame) (labels.opened region chain) fun id m =>
    executeAllTrace exec trace body { m with chain := id :: chain }

def runClosureTrace (exec : Stmt → Exec Completion) (trace : Stmt → Trace ε) (c : Closure)
    (arguments : List Value) : Trace ε :=
  executeInFrameTrace labels exec trace (.call c.decl) (callFrame c.decl.params arguments) c.chain
    c.decl.body

/-- The trace of making an instance: the instance, a frame for the receiver of the initializer, and
the trace of the initializer. -/
def constructTrace (exec : Stmt → Exec Completion) (trace : Stmt → Trace ε) (c : ClassId)
    (arguments : List Value) : Trace ε :=
  andThen (withHeap fun h => h.newInstance c) (labels.made c) fun i m =>
    match m.heap.initializer? c with
    | none => []
    | some init =>
      andThen (withHeap fun h => h.bindReceiver init (.instance_ i))
        (labels.opened (.receiver init.decl) init.chain)
        (fun bound => runClosureTrace labels exec trace bound arguments) m

def invokeTrace (exec : Stmt → Exec Completion) (trace : Stmt → Trace ε)
    (arguments : List Value) : Callable → Trace ε
  | .closure c => runClosureTrace labels exec trace c arguments
  | .native _ => nothing
  | .constructor c => constructTrace labels exec trace c arguments

/-- The trace of a call, which is empty if the call is not made. -/
def callValueTrace (exec : Stmt → Exec Completion) (trace : Stmt → Trace ε) (callee : Value)
    (arguments : List Value) : Trace ε := fun m =>
  match m.heap.callable? callee with
  | none => []
  | some f =>
    if arguments.length ≠ m.heap.arity f then []
    else if maxCallDepth ≤ m.depth then []
    else invokeTrace labels exec trace arguments f { m with depth := m.depth + 1 }

/-- The trace of a superclass clause. -/
def superclassTrace (trace : Expr → Trace ε) : Option Expr → Trace ε
  | none => nothing
  | some e => trace e

/-- A class with a superclass makes a frame for it. -/
def methodChainTrace (decl : ClassDecl) (superclass : Option ClassId) : Trace ε := fun m =>
  match superclass with
  | none => []
  | some _ => labels.opened (.superclass decl) m.chain m

/-- The trace of a class declaration: those of its superclass clause and of its chain, and the
class. -/
def declareClassTrace (eval : Expr → Exec Value) (trace : Expr → Trace ε) (decl : ClassDecl) :
    Trace ε :=
  andThen (superclassOf eval decl.name decl.superclass) (superclassTrace trace decl.superclass)
    fun superclass =>
      andThen (define decl.name.lexeme .nil) nothing fun _ =>
        andThen (methodChain superclass) (methodChainTrace labels decl superclass) fun chain m =>
          andThen (staticTable chain decl.statics ∅) nothing
            (fun _ => labels.declared ⟨decl, superclass, chain, m.heap.functions.size⟩) m

mutual

def evaluateTrace : Nat → Expr → Trace ε
  | 0, _ => nothing
  | fuel + 1, e =>
    match e with
    | .literal _ => nothing
    | .grouping inner => evaluateTrace fuel inner
    | .unary _ operand => evaluateTrace fuel operand
    | .binary left _ right =>
      andThen (evaluate fuel left) (evaluateTrace fuel left) fun _ => evaluateTrace fuel right
    | .logical left op right =>
      andThen (evaluate fuel left) (evaluateTrace fuel left) fun a =>
        if shortCircuits op a then nothing else evaluateTrace fuel right
    | .conditional c a b =>
      andThen (evaluate fuel c) (evaluateTrace fuel c) fun v =>
        if v.isTruthy then evaluateTrace fuel a else evaluateTrace fuel b
    | .var id name => labels.referred id name
    | .assign id name value =>
      andThen (evaluate fuel value) (evaluateTrace fuel value) fun _ =>
        labels.referred id name
    | .call callee _ arguments =>
      andThen (evaluate fuel callee) (evaluateTrace fuel callee) fun f =>
        andThen (evaluateAll (evaluate fuel) arguments)
          (evaluateAllTrace (evaluate fuel) (evaluateTrace fuel) arguments) fun vs =>
            callValueTrace labels (execute fuel) (executeTrace fuel) f vs
    | .get object name =>
      andThen (evaluate fuel object) (evaluateTrace fuel object) fun v =>
        getPropertyTrace labels v name
    | .set object name value =>
      andThen (evaluate fuel object) (evaluateTrace fuel object) fun v =>
        setPropertyTrace labels v name (evaluate fuel value) (evaluateTrace fuel value)
    | .thisRef id keyword => labels.referred id keyword
    | .superRef id keyword method => fun m =>
      labels.referred id keyword m ++ superMemberTrace labels id keyword method m

def executeTrace : Nat → Stmt → Trace ε
  | 0, _ => nothing
  | fuel + 1, s =>
    match s with
    | .expression e => evaluateTrace fuel e
    | .print e => evaluateTrace fuel e
    | .varDecl _ none => nothing
    | .varDecl _ (some e) => evaluateTrace fuel e
    | .block body => fun m =>
      executeInFrameTrace labels (execute fuel) (executeTrace fuel) (.block body) ∅ m.chain body m
    | .ifThen c a =>
      andThen (evaluate fuel c) (evaluateTrace fuel c) fun v =>
        if v.isTruthy then executeTrace fuel a else nothing
    | .ifElse c a b =>
      andThen (evaluate fuel c) (evaluateTrace fuel c) fun v =>
        if v.isTruthy then executeTrace fuel a else executeTrace fuel b
    | .whileLoop c body =>
      andThen (evaluate fuel c) (evaluateTrace fuel c) fun v =>
        if v.isTruthy then
          andThen (execute fuel body) (executeTrace fuel body) fun
            | .returned _ => nothing
            | .normal => executeTrace fuel (.whileLoop c body)
        else nothing
    | .funDecl _ => nothing
    | .returnWith _ none => nothing
    | .returnWith _ (some e) => evaluateTrace fuel e
    | .classDecl decl => declareClassTrace labels (evaluate fuel) (evaluateTrace fuel) decl

end

/-- The trace of a program. -/
def interpretTrace (fuel : Nat) : List Stmt → Trace ε
  | [] => nothing
  | s :: rest =>
    andThen (execute fuel s) (executeTrace labels fuel s) fun _ => interpretTrace fuel rest

end

/-- A thing that happens to frames. -/
inductive Event where
  | opened (frame : FrameId) (region : Region) (outer : Chain)
  /-- The chain is the current one, and the distance is the one that is recorded for the node. -/
  | referred (id : NodeId) (name : Token) (chain : Chain) (distance : Option Nat)

abbrev Events := Trace Event

/-- The labels of what happens to frames. -/
def Labels.frames : Labels Event where
  opened region outer m := [.opened m.heap.frames.next region outer]
  referred id name m := [.referred id name m.chain m.locals[id]?]

end Lox
