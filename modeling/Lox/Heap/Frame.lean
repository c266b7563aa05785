import Lox.Diagnostic.Basic
import Lox.Table

/-!
# Frames

Variables live in frames. A frame is a table of names, and frames are shared: every chain
that goes through a frame sees what is written to it. A chain lists the frames from the
innermost one outward, so a frame that is made inside a chain goes in front of it.

A name is either looked for outward along a chain, or found in the frame that is a known
number of steps out.
-/

namespace Lox

/-- The variables of one block, call, or class. -/
abbrev Frame := Table Value

/-- Frames from the innermost one outward. -/
abbrev Chain := List FrameId

/-- All frames there are, by their place. -/
structure Frames where
  cells : Array Frame := #[]
  deriving Repr, Inhabited

namespace Frames

def size (fs : Frames) : Nat := fs.cells.size

/-- The frame at a place. A place without a frame counts as an empty one. -/
def frame (fs : Frames) (id : FrameId) : Frame := fs.cells.getD id ∅

def next (fs : Frames) : FrameId := fs.cells.size

def push (fs : Frames) (frame : Frame) : Frames := ⟨fs.cells.push frame⟩

/-- Give a name a value in a frame, whether or not the frame had the name. -/
def define (fs : Frames) (id : FrameId) (name : String) (v : Value) : Frames :=
  ⟨fs.cells.modify id fun frame => frame.insert name v⟩

/-- The value of a name in the innermost frame of a chain that has it. -/
def get (fs : Frames) (name : String) : Chain → Except RuntimeFault Value
  | [] => .error (.undefinedVariable name)
  | id :: outer =>
    match (fs.frame id).get? name with
    | some v => .ok v
    | none => fs.get name outer

/-- The innermost frame of a chain that has a name. -/
def holder (fs : Frames) (name : String) : Chain → Except RuntimeFault FrameId
  | [] => .error (.undefinedVariable name)
  | id :: outer =>
    if (fs.frame id).contains name then .ok id else fs.holder name outer

/-- Overwrite the value of a name in the innermost frame of a chain that has it. -/
def assign (fs : Frames) (name : String) (v : Value) (chain : Chain) :
    Except RuntimeFault Frames := do
  let id ← fs.holder name chain
  .ok (fs.define id name v)

/-- The frame that is `distance` steps out, for the sake of a name. -/
def frameAt (name : String) : Chain → Nat → Except RuntimeFault FrameId
  | [], _ => .error (.unresolvableDepth name)
  | id :: _, 0 => .ok id
  | _ :: outer, distance + 1 => frameAt name outer distance

/-- The value of a name in the frame that is `distance` steps out. -/
def getAt (fs : Frames) (chain : Chain) (distance : Nat) (name : String) :
    Except RuntimeFault Value := do
  let id ← frameAt name chain distance
  match (fs.frame id).get? name with
  | some v => .ok v
  | none => .error (.undefinedAtDistance name)

/-- Give a name a value in the frame that is `distance` steps out. -/
def assignAt (fs : Frames) (chain : Chain) (distance : Nat) (name : String) (v : Value) :
    Except RuntimeFault Frames := do
  let id ← frameAt name chain distance
  .ok (fs.define id name v)

@[simp] theorem size_push (fs : Frames) (f : Frame) : (fs.push f).size = fs.size + 1 := by
  simp [size, push]

@[simp] theorem size_define (fs : Frames) (id : FrameId) (name : String) (v : Value) :
    (fs.define id name v).size = fs.size := by
  simp [size, define]

@[simp] theorem frame_push_next (fs : Frames) (f : Frame) : (fs.push f).frame fs.next = f := by
  simp [frame, push, next, Array.getD]

theorem frame_push_of_lt {fs : Frames} {id : FrameId} (f : Frame) (h : id < fs.size) :
    (fs.push f).frame id = fs.frame id := by
  have h' : id < fs.cells.size := h
  simp [frame, push, Array.getD, h', Nat.lt_succ_of_lt h', Array.getElem_push_lt]

theorem frame_define_self {fs : Frames} {id : FrameId} (name : String) (v : Value)
    (h : id < fs.size) : (fs.define id name v).frame id = (fs.frame id).insert name v := by
  have h' : id < fs.cells.size := h
  simp [frame, define, Array.getD, h', Array.getElem_modify]

theorem frame_define_of_ne {fs : Frames} {id other : FrameId} (name : String) (v : Value)
    (h : other ≠ id) : (fs.define id name v).frame other = fs.frame other := by
  by_cases ho : other < fs.cells.size
  · simp [frame, define, Array.getD, ho, Array.getElem_modify, Ne.symm h]
  · simp [frame, define, Array.getD, ho]

end Frames
end Lox
