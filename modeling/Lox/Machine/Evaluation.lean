import Lox.Machine.Basic

/-!
# Running programs

Expressions are evaluated and statements executed by recursion on an amount of fuel, which
bounds how deep the recursion goes. A program that needs more halts for want of fuel, and
every answer with some amount of fuel is also the answer with more.

A node whose distance was recorded refers to the frame that many steps out; a node without
one refers to the global frame.
-/

namespace Lox

/-- The value that a constant denotes. -/
def Literal.value : Literal → Value
  | number x => .number x
  | string text => .string text
  | bool b => .bool b
  | nil => .nil

/-- Two numbers, or the fault of an operator that needs them. -/
def numericOperands (op : Token) : Value → Value → Except RuntimeFault (Float × Float)
  | .number x, .number y => .ok (x, y)
  | a, b => .error (.numericOperands op.lexeme a.type b.type)

/-- The sum of two numbers, or two strings one after the other. -/
def addition : Value → Value → Except RuntimeFault Value
  | .number x, .number y => .ok (.number (x + y))
  | .string s, .string t => .ok (.string (s ++ t))
  | a, b => .error (.additionOperands a.type b.type)

/-- What a sign makes of its operand. -/
def applyUnary (op : Token) (v : Value) : Except RuntimeFault Value :=
  match op.kind, v with
  | .symbol .minus, .number x => .ok (.number (-x))
  | .symbol .minus, v => .error (.negationOperand v.type)
  | .symbol .bang, v => .ok (.bool (!v.isTruthy))
  | _, _ => .error .invalidUnaryOperator

/-- What an operator makes of two operands. -/
def applyBinary (op : Token) (a b : Value) : Except RuntimeFault Value :=
  let arithmetic (f : Float → Float → Float) := do
    let (x, y) ← numericOperands op a b
    .ok (.number (f x y))
  let comparison (f : Float → Float → Bool) := do
    let (x, y) ← numericOperands op a b
    .ok (.bool (f x y))
  match op.kind with
  | .symbol .plus => addition a b
  | .symbol .minus => arithmetic (· - ·)
  | .symbol .star => arithmetic (· * ·)
  | .symbol .slash => arithmetic (· / ·)
  | .symbol .greater => comparison fun x y => x > y
  | .symbol .greaterEqual => comparison fun x y => x ≥ y
  | .symbol .less => comparison fun x y => x < y
  | .symbol .lessEqual => comparison fun x y => x ≤ y
  | .symbol .equalEqual => .ok (.bool (a.equals b))
  | .symbol .bangEqual => .ok (.bool (!a.equals b))
  | _ => .error .invalidBinaryOperator

/-- Whether the left operand of a logical operator is the result already. -/
def shortCircuits (op : Token) (left : Value) : Bool :=
  if op.is .kwOr then left.isTruthy else !left.isTruthy

open Exec

/-- The value of the variable that a node refers to. -/
def lookUp (id : NodeId) (name : Token) : Exec Value := do
  let m ← get
  match m.locals[id]? with
  | some distance => ofExcept name (m.heap.frames.getAt m.chain distance name.lexeme)
  | none => ofExcept name (m.heap.frames.get name.lexeme globalChain)

/-- Overwrite the variable that a node refers to. -/
def overwrite (id : NodeId) (name : Token) (v : Value) : Exec Unit := do
  let m ← get
  match m.locals[id]? with
  | some distance => assignAt distance name v
  | none => assign globalChain name v

/-- The value of a member of an instance. Reading a method binds it. -/
def readMember (i : InstanceId) : Member → Exec Value
  | .field v => pure v
  | .method c => .function <$> withHeap fun h => h.bindMethod c (.instance_ i)

/-- A member of an instance, looked for from the class `start` on. -/
def getMember (start : ClassId) (i : InstanceId) (name : Token) : Exec Value := do
  let m ← get
  match m.heap.member? start i name.lexeme with
  | some member => readMember i member
  | none => fail name (.undefinedProperty name.lexeme)

/-- A property of a value: a member of an instance, or a field of a class. -/
def getProperty (object : Value) (name : Token) : Exec Value := do
  let m ← get
  match object with
  | .instance_ i => getMember (m.heap.inst i).cls i name
  | .class_ c =>
    match m.heap.classField? c name.lexeme with
    | some v => pure v
    | none => fail name (.undefinedProperty name.lexeme)
  | v => fail name (.noProperties v.type)

/-- Store the value that `value` gives in a property of an object. Only instances and classes
have fields, and `value` is run only for these. -/
def setProperty (object : Value) (name : Token) (value : Exec Value) : Exec Value :=
  match object with
  | .instance_ i => do
    let v ← value
    modify fun m => { m with heap := m.heap.setField i name.lexeme v }
    pure v
  | .class_ c => do
    let v ← value
    modify fun m => { m with heap := m.heap.setClassField c name.lexeme v }
    pure v
  | v => fail name (.noFields v.type)

/-- A member of the receiver, looked for from the superclass on. The frame of the superclass is
at the recorded distance and that of the receiver one step nearer. -/
def superMember (id : NodeId) (keyword method : Token) : Exec Value := do
  let m ← get
  match m.locals[id]? with
  | some (distance + 1) => do
    let superclass ← ofExcept keyword (m.heap.frames.getAt m.chain (distance + 1) keyword.lexeme)
    let receiver ← ofExcept keyword (m.heap.frames.getAt m.chain distance "this")
    match superclass, receiver with
    | .class_ c, .instance_ i => getMember c i method
    | _, _ => fail keyword .superUnavailable
  | _ => fail keyword .superUnavailable

/-- What a call may run. -/
inductive Callable where
  | closure (c : Closure)
  | native (f : Native)
  | constructor (c : ClassId)

namespace Heap

/-- What a call of a value runs, if it can be called. -/
def callable? (h : Heap) : Value → Option Callable
  | .function f => some (.closure (h.function f))
  | .native f => some (.native f)
  | .class_ c => some (.constructor c)
  | _ => none

/-- How many arguments a call passes. A class takes those of its initializer. -/
def arity (h : Heap) : Callable → Nat
  | .closure c => c.decl.arity
  | .native f => f.arity
  | .constructor c => ((h.initializer? c).map fun init => init.decl.arity).getD 0

end Heap

/-- Execute statements in order up to the first that returns. -/
def executeAll (exec : Stmt → Exec Completion) : List Stmt → Exec Completion
  | [] => pure .normal
  | s :: rest => do
    match ← exec s with
    | .normal => executeAll exec rest
    | .returned v => pure (.returned v)

/-- Evaluate expressions in order. -/
def evaluateAll (eval : Expr → Exec Value) : List Expr → Exec (List Value)
  | [] => pure []
  | e :: rest => do
    let v ← eval e
    let vs ← evaluateAll eval rest
    pure (v :: vs)

/-- Execute statements in a new frame in front of a chain. -/
def executeInFrame (exec : Stmt → Exec Completion) (frame : Frame) (chain : Chain)
    (body : List Stmt) : Exec Completion := do
  let id ← withHeap fun h => h.newFrame frame
  inChain (id :: chain) (executeAll exec body)

/-- The frame of a call: each parameter has its argument. -/
def callFrame (params : List Token) (arguments : List Value) : Frame :=
  (params.zip arguments).foldl (fun frame p => frame.insert p.1.lexeme p.2) ∅

/-- Run the body of a closure. An initializer gives its receiver whatever it returns. -/
def runClosure (exec : Stmt → Exec Completion) (c : Closure) (arguments : List Value) :
    Exec Value := do
  let completion ←
    executeInFrame exec (callFrame c.decl.params arguments) c.chain c.decl.body
  if c.isInitializer then
    let m ← get
    ofExcept c.decl.name (m.heap.frames.getAt c.chain 0 "this")
  else
    match completion with
    | .returned v => pure v
    | .normal => pure .nil

/-- Make an instance of a class and run its initializer, if it has one. -/
def construct (exec : Stmt → Exec Completion) (c : ClassId) (arguments : List Value) :
    Exec Value := do
  let i ← withHeap fun h => h.newInstance c
  let m ← get
  match m.heap.initializer? c with
  | none => pure (.instance_ i)
  | some init => do
    let bound ← withHeap fun h => h.bindReceiver init (.instance_ i)
    let _ ← runClosure exec bound arguments
    pure (.instance_ i)

/-- Run what a call calls. -/
def invoke (exec : Stmt → Exec Completion) (arguments : List Value) : Callable → Exec Value
  | .closure c => runClosure exec c arguments
  | .native .clock => readClock
  | .native .printNative => do
    writeLine (arguments.headD .nil)
    pure .nil
  | .constructor c => construct exec c arguments

/-- Call a value. It has to be callable with this many arguments, and there have to be fewer
active calls than may be. -/
def callValue (exec : Stmt → Exec Completion) (callee : Value) (paren : Token)
    (arguments : List Value) : Exec Value := do
  let m ← get
  match m.heap.callable? callee with
  | none => fail paren (.notCallable callee.type)
  | some f =>
    if arguments.length ≠ m.heap.arity f then
      fail paren (.wrongArity (m.heap.arity f) arguments.length)
    else if maxCallDepth ≤ m.depth then
      fail paren .stackOverflow
    else
      nested (invoke exec arguments f)

/-- The methods of a class, which see the given chain. Of two with one name the later counts. -/
def methodTable (chain : Chain) (decls : List FunctionDecl) : Table Closure :=
  decls.foldl (fun t d => t.insert d.name.lexeme ⟨d, chain, d.isInitializer⟩) ∅

/-- The static methods of a class, which see the given chain, as fields of the class. Of two
with one name the later counts. -/
def staticTable (chain : Chain) : List FunctionDecl → Table Value → Exec (Table Value)
  | [], fields => pure fields
  | d :: rest, fields => do
    let f ← withHeap fun h => h.newFunction ⟨d, chain, false⟩
    staticTable chain rest (fields.insert d.name.lexeme (.function f))

/-- The value of a superclass clause, which has to be a class. -/
def superclassOf (eval : Expr → Exec Value) (name : Token) : Option Expr → Exec (Option ClassId)
  | none => pure none
  | some e => do
    match ← eval e with
    | .class_ c => pure (some c)
    | _ => fail (superclassToken name (some e)) .superclassNotClass

/-- The chain that the methods of a class see: with a superclass, one more frame, which holds
the superclass. -/
def methodChain (superclass : Option ClassId) : Exec Chain := do
  let m ← get
  match superclass with
  | none => pure m.chain
  | some c => do
    let id ← withHeap fun h => h.newFrame ((∅ : Frame).insert "super" (.class_ c))
    pure (id :: m.chain)

/-- Execute a class declaration. Its name is nil until the class is complete. -/
def declareClass (eval : Expr → Exec Value) (decl : ClassDecl) : Exec Unit := do
  let superclass ← superclassOf eval decl.name decl.superclass
  define decl.name.lexeme .nil
  let chain ← methodChain superclass
  let fields ← staticTable chain decl.statics ∅
  let c ← withHeap fun h => h.newClass
    { name := decl.name.lexeme
      ancestors := (superclass.map h.lineage).getD []
      methods := methodTable chain decl.methods
      fields := fields }
  let m ← get
  assign m.chain decl.name (.class_ c)

mutual

/-- Evaluate an expression. -/
def evaluate : Nat → Expr → Exec Value
  | 0, _ => throw .outOfFuel
  | fuel + 1, e =>
    match e with
    | .literal l => pure l.value
    | .grouping inner => evaluate fuel inner
    | .unary op operand => do
      let v ← evaluate fuel operand
      ofExcept op (applyUnary op v)
    | .binary left op right => do
      let a ← evaluate fuel left
      let b ← evaluate fuel right
      ofExcept op (applyBinary op a b)
    | .logical left op right => do
      let a ← evaluate fuel left
      if shortCircuits op a then pure a else evaluate fuel right
    | .conditional c a b => do
      let v ← evaluate fuel c
      if v.isTruthy then evaluate fuel a else evaluate fuel b
    | .var id name => lookUp id name
    | .assign id name value => do
      let v ← evaluate fuel value
      overwrite id name v
      pure v
    | .call callee paren arguments => do
      let f ← evaluate fuel callee
      let vs ← evaluateAll (evaluate fuel) arguments
      callValue (execute fuel) f paren vs
    | .get object name => do
      let v ← evaluate fuel object
      getProperty v name
    | .set object name value => do
      let v ← evaluate fuel object
      setProperty v name (evaluate fuel value)
    | .thisRef id keyword => lookUp id keyword
    | .superRef id keyword method => superMember id keyword method

def execute : Nat → Stmt → Exec Completion
  | 0, _ => throw .outOfFuel
  | fuel + 1, s =>
    match s with
    | .expression e => do
      let _ ← evaluate fuel e
      pure .normal
    | .print e => do
      let v ← evaluate fuel e
      writeLine v
      pure .normal
    | .varDecl name none => do
      define name.lexeme .nil
      pure .normal
    | .varDecl name (some e) => do
      let v ← evaluate fuel e
      define name.lexeme v
      pure .normal
    | .block body => do
      let m ← get
      executeInFrame (execute fuel) ∅ m.chain body
    | .ifThen c a => do
      let v ← evaluate fuel c
      if v.isTruthy then execute fuel a else pure .normal
    | .ifElse c a b => do
      let v ← evaluate fuel c
      if v.isTruthy then execute fuel a else execute fuel b
    | .whileLoop c body => do
      let v ← evaluate fuel c
      if v.isTruthy then
        match ← execute fuel body with
        | .returned v => pure (.returned v)
        | .normal => execute fuel (.whileLoop c body)
      else pure .normal
    | .funDecl decl => do
      let m ← get
      let f ← withHeap fun h => h.newFunction ⟨decl, m.chain, false⟩
      define decl.name.lexeme (.function f)
      pure .normal
    | .returnWith _ none => pure (.returned .nil)
    | .returnWith _ (some e) => do
      let v ← evaluate fuel e
      pure (.returned v)
    | .classDecl decl => do
      declareClass (evaluate fuel) decl
      pure .normal

end

/-- More fuel than any run on a real computer uses up. -/
def ampleFuel : Nat := Nat.pow 2 60

/-- Run a program. A `return` at the top level only ends its statement. -/
def interpret (fuel : Nat) : List Stmt → Exec Unit
  | [] => pure ()
  | s :: rest => do
    let _ ← execute fuel s
    interpret fuel rest

end Lox
