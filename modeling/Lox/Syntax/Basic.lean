import Lox.Token.Basic

/-!
# Programs as trees

A program is a list of statements. Trees keep the tokens that messages point at. Each node
that may refer to a variable has a number, by which its binding is looked up when it is
evaluated; the parser numbers the nodes of a program apart, except that the two copies of
the left operand of `??` share their numbers.

Loops written with `for` and the operator `??` have no nodes of their own: they are read as
the loops, blocks and conditionals that they stand for.
-/

namespace Lox

/-- The number of a node that may refer to a variable. -/
abbrev NodeId := Nat

/-- A constant that is written in a program. -/
inductive Literal where
  | number (x : Float)
  | string (text : String)
  | bool (b : Bool)
  | nil
  deriving Repr, Inhabited

/-- An expression. -/
inductive Expr where
  | literal (value : Literal)
  | grouping (inner : Expr)
  | unary (operator : Token) (operand : Expr)
  | binary (left : Expr) (operator : Token) (right : Expr)
  | logical (left : Expr) (operator : Token) (right : Expr)
  | conditional (condition thenBranch elseBranch : Expr)
  | var (id : NodeId) (name : Token)
  | assign (id : NodeId) (name : Token) (value : Expr)
  | call (callee : Expr) (paren : Token) (arguments : List Expr)
  | get (object : Expr) (name : Token)
  | set (object : Expr) (name : Token) (value : Expr)
  | thisRef (id : NodeId) (keyword : Token)
  | superRef (id : NodeId) (keyword method : Token)
  deriving Repr, Inhabited

namespace Expr

/-- The tree of `left ?? fallback`: the left operand stands in it twice, once to be compared
with nil and once for its value. The comparison is on the line of the operator. -/
def coalesce (left : Expr) (line : Nat) (fallback : Expr) : Expr :=
  conditional (binary left (Token.ofSymbol .bangEqual "!=" line) (literal .nil)) left fallback

end Expr

mutual

/-- A statement. -/
inductive Stmt where
  | expression (e : Expr)
  | print (e : Expr)
  | varDecl (name : Token) (initializer : Option Expr)
  | block (body : List Stmt)
  | ifThen (condition : Expr) (thenBranch : Stmt)
  | ifElse (condition : Expr) (thenBranch elseBranch : Stmt)
  | whileLoop (condition : Expr) (body : Stmt)
  | funDecl (decl : FunctionDecl)
  | returnWith (keyword : Token) (value : Option Expr)
  | classDecl (decl : ClassDecl)

/-- A function or method: its name, its parameters and its body. -/
structure FunctionDecl where
  name : Token
  params : List Token
  body : List Stmt

/-- A class: its name, the expression for its superclass, its methods and its static
methods. -/
structure ClassDecl where
  name : Token
  superclass : Option Expr
  methods : List FunctionDecl
  statics : List FunctionDecl

end

instance : Inhabited Stmt := ⟨.block []⟩

instance : Inhabited FunctionDecl := ⟨⟨default, [], []⟩⟩

namespace Stmt

/-- The tree of a `for` loop, any clause of which may be missing: the initializer and the
loop share a block, and so do the body and the increment. -/
def forLoop (initializer : Option Stmt) (condition increment : Option Expr) (body : Stmt) :
    Stmt :=
  let round := match increment with
    | some e => block [body, expression e]
    | none => body
  let loop := whileLoop (condition.getD (.literal (.bool true))) round
  match initializer with
  | some s => block [s, loop]
  | none => loop

end Stmt

/-- The name under which a method makes an instance ready for use. -/
def initializerName : String := "init"

namespace FunctionDecl

def arity (f : FunctionDecl) : Nat := f.params.length

def isInitializer (f : FunctionDecl) : Bool := f.name.lexeme == initializerName

end FunctionDecl

/-- The token that stands for a superclass in messages: its name if it is written as a name,
and the name of the class otherwise. -/
def superclassToken (className : Token) : Option Expr → Token
  | some (.var _ name) => name
  | _ => className

end Lox
