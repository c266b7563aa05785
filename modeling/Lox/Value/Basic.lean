/-!
# Values

The values a program computes with. Numbers, strings, truth values and nil stand for
themselves. Functions, classes and instances are places in a heap, and their identity is
their place: two of them are equal only if they are the same one.
-/

namespace Lox

/-- The types of values as error messages name them. -/
inductive ValueType where
  | number | string | boolean | nil | function | class_ | instance_
  deriving DecidableEq, Repr

namespace ValueType

def name : ValueType → String
  | number => "number"
  | string => "string"
  | boolean => "boolean"
  | nil => "nil"
  | function => "function"
  | class_ => "class"
  | instance_ => "instance"

end ValueType

abbrev FrameId := Nat

abbrev FunctionId := Nat

abbrev ClassId := Nat

abbrev InstanceId := Nat

/-- A function that the language provides. -/
inductive Native where
  | clock
  | printNative
  deriving DecidableEq, Repr

namespace Native

def name : Native → String
  | clock => "clock"
  | printNative => "printNative"

def arity : Native → Nat
  | clock => 0
  | printNative => 1

end Native

/-- A value of the language. -/
inductive Value where
  | number (x : Float)
  | string (text : String)
  | bool (b : Bool)
  | nil
  | function (id : FunctionId)
  | native (f : Native)
  | class_ (id : ClassId)
  | instance_ (id : InstanceId)
  deriving Repr, Inhabited

namespace Value

/-- Only nil and false count as false. -/
def isTruthy : Value → Bool
  | nil => false
  | bool b => b
  | _ => true

/-- The type a message names for the value. -/
def type : Value → ValueType
  | number _ => .number
  | string _ => .string
  | bool _ => .boolean
  | nil => .nil
  | function _ => .function
  | native _ => .function
  | class_ _ => .class_
  | instance_ _ => .instance_

/-- Equality as programs see it: no value equals one of another type, a number that is not
a number differs from itself, and heap objects are equal only to themselves. -/
def equals : Value → Value → Bool
  | number x, number y => x == y
  | string a, string b => a == b
  | bool a, bool b => a == b
  | nil, nil => true
  | function f, function g => f == g
  | native f, native g => f == g
  | class_ c, class_ d => c == d
  | instance_ i, instance_ j => i == j
  | _, _ => false

theorem equals_nil (v : Value) : v.equals nil = true ↔ v = nil := by
  cases v <;> simp [equals]

end Value
end Lox
