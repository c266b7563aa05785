import Lox.Heap.Frame
import Lox.Number.Text
import Lox.Syntax.Basic

/-!
# The heap

Frames, functions, classes and instances live in a heap, which only grows. A function is a
declaration together with the frames it sees. A class knows all the classes it inherits from,
the nearest one first; methods are looked for there in this order, and so are the fields of
classes, which are the static methods and whatever a program stores in them.

A method is not a value by itself: reading it from an instance binds it, which makes a new
function that sees the instance as its receiver.
-/

namespace Lox

/-- A function: its declaration and the frames it sees. -/
structure Closure where
  decl : FunctionDecl
  chain : Chain
  isInitializer : Bool
  deriving Inhabited

/-- A class: the classes it inherits from, nearest first, its methods, and its fields. -/
structure ClassObject where
  name : String
  ancestors : List ClassId
  methods : Table Closure
  fields : Table Value
  deriving Inhabited

/-- An instance: its class and its fields. -/
structure Instance where
  cls : ClassId
  fields : Table Value
  deriving Inhabited

/-- What a name finds on an instance. -/
inductive Member where
  | field (v : Value)
  | method (c : Closure)

/-- All objects there are, each kind by its place. -/
structure Heap where
  frames : Frames := {}
  functions : Array Closure := #[]
  classes : Array ClassObject := #[]
  instances : Array Instance := #[]
  deriving Inhabited

namespace Heap

def function (h : Heap) (id : FunctionId) : Closure := h.functions.getD id default

def cls (h : Heap) (id : ClassId) : ClassObject := h.classes.getD id default

def inst (h : Heap) (id : InstanceId) : Instance := h.instances.getD id default

/-- A class and the classes it inherits from, nearest first. -/
def lineage (h : Heap) (c : ClassId) : List ClassId := c :: (h.cls c).ancestors

def newFrame (h : Heap) (frame : Frame) : FrameId × Heap :=
  (h.frames.next, { h with frames := h.frames.push frame })

def newFunction (h : Heap) (closure : Closure) : FunctionId × Heap :=
  (h.functions.size, { h with functions := h.functions.push closure })

def newClass (h : Heap) (c : ClassObject) : ClassId × Heap :=
  (h.classes.size, { h with classes := h.classes.push c })

/-- Add an instance without fields and give it a place. -/
def newInstance (h : Heap) (c : ClassId) : InstanceId × Heap :=
  (h.instances.size, { h with instances := h.instances.push ⟨c, ∅⟩ })

def setField (h : Heap) (i : InstanceId) (name : String) (v : Value) : Heap :=
  { h with instances := h.instances.modify i fun o => { o with fields := o.fields.insert name v } }

def setClassField (h : Heap) (c : ClassId) (name : String) (v : Value) : Heap :=
  { h with classes := h.classes.modify c fun o => { o with fields := o.fields.insert name v } }

/-- The method of the first of several classes that has one of the given name. -/
def findMethod? (h : Heap) (classes : List ClassId) (name : String) : Option Closure :=
  classes.findSome? fun c => (h.cls c).methods.get? name

/-- The field of a class, or of the nearest class it inherits from that has one. -/
def classField? (h : Heap) (c : ClassId) (name : String) : Option Value :=
  (h.lineage c).findSome? fun d => (h.cls d).fields.get? name

/-- A closure whose receiver is given: it sees one more frame, which holds the receiver. -/
def bindReceiver (h : Heap) (closure : Closure) (receiver : Value) : Closure × Heap :=
  let (frame, h) := h.newFrame ((∅ : Frame).insert "this" receiver)
  ({ closure with chain := frame :: closure.chain }, h)

/-- A member of an instance, looked for from the class `start` on: its own field, or else the
first method of the name. -/
def member? (h : Heap) (start : ClassId) (i : InstanceId) (name : String) : Option Member :=
  match (h.inst i).fields.get? name with
  | some v => some (.field v)
  | none => (h.findMethod? (h.lineage start) name).map .method

/-- A new function that is a method bound to its receiver. -/
def bindMethod (h : Heap) (method : Closure) (receiver : Value) : FunctionId × Heap :=
  let (bound, h) := h.bindReceiver method receiver
  h.newFunction bound

/-- The method that makes an instance of a class ready for use. -/
def initializer? (h : Heap) (c : ClassId) : Option Closure :=
  h.findMethod? (h.lineage c) initializerName

/-- The text that printing a value writes. -/
def text (h : Heap) : Value → String
  | .number x => Number.printedText x
  | .string text => text
  | .bool true => "true"
  | .bool false => "false"
  | .nil => "nil"
  | .function f => "<fn " ++ (h.function f).decl.name.lexeme ++ ">"
  | .native _ => "<native fn>"
  | .class_ c => (h.cls c).name
  | .instance_ i => (h.cls (h.inst i).cls).name ++ " instance"

end Heap
end Lox
