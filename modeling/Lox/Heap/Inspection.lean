import Lox.Heap.Basic
import Lox.Text.Quoted

/-!
# Inspecting heap objects

A text for the developer that says what kind of object a value refers to and what is known of
it. Values that stand for themselves have none.
-/

namespace Lox.Heap

/-- What is known of the object that a value refers to. -/
def inspect? (h : Heap) : Value → Option String
  | .function f =>
    let closure := h.function f
    some (Quoted.record "LoxFunction"
      [("name", Quoted.quote closure.decl.name.lexeme), ("arity", toString closure.decl.arity),
        ("is_initializer", Quoted.boolText closure.isInitializer)])
  | .native f => some ("NativeFunction(" ++ f.name ++ "/" ++ toString f.arity ++ ")")
  | .class_ c =>
    let superclass := match (h.cls c).ancestors.head? with
      | some s => "Some(" ++ Quoted.quote (h.cls s).name ++ ")"
      | none => "None"
    some (Quoted.record "LoxClass"
      [("name", Quoted.quote (h.cls c).name), ("superclass", superclass)])
  | .instance_ i => some ("LoxInstance(" ++ (h.cls (h.inst i).cls).name ++ ")")
  | _ => none

end Lox.Heap
