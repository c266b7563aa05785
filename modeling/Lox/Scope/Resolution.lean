import Lox.Scope.Basic

/-!
# Binding names to declarations

The walk through a program that binds its names and enforces the rules of scope. A name is
bound to the innermost open scope that has declared it so far. The walk knows what kind of
function and what kind of class it is in, and reports what is not allowed there.
-/

namespace Lox

/-- The kind of function that a statement is in. -/
inductive FunctionRole where
  | topLevel
  | function
  | initializer
  | method
  deriving DecidableEq, Repr

/-- The kind of class body that an expression is in. -/
inductive ClassRole where
  | outside
  | plain
  | subclass
  | static
  deriving DecidableEq, Repr

/-- What is around a part of a program. -/
structure Context where
  function : FunctionRole := .topLevel
  cls : ClassRole := .outside
  deriving DecidableEq, Repr

namespace Resolution

open Walk

def methodRole (decl : FunctionDecl) : FunctionRole :=
  if decl.isInitializer then .initializer else .method

/-- A name that is read: not while the innermost scope is still at its initializer. -/
def read (id : NodeId) (name : Token) : Walk Unit := do
  if ← inInitializer name.lexeme then
    report name .readInOwnInitializer
  bindRead id name

/-- The receiver: only in a method that is not static. -/
def receiver (ctx : Context) (id : NodeId) (keyword : Token) : Walk Unit :=
  match ctx.cls with
  | .outside => report keyword .thisOutsideClass
  | .static => report keyword .thisInStaticMethod
  | .plain | .subclass => bindRead id keyword

/-- The superclass: only in a method that is not static, of a class that has one. -/
def superclass (ctx : Context) (id : NodeId) (keyword : Token) : Walk Unit :=
  match ctx.cls with
  | .outside => report keyword .superOutsideClass
  | .plain => report keyword .superWithoutSuperclass
  | .static => report keyword .superInStaticMethod
  | .subclass => bindRead id keyword

mutual

/-- The walk through an expression. The value of an assignment comes before its target. -/
def expr (ctx : Context) : Expr → Walk Unit
  | .literal _ => pure ()
  | .grouping inner => expr ctx inner
  | .unary _ operand => expr ctx operand
  | .binary left _ right => do
    expr ctx left
    expr ctx right
  | .logical left _ right => do
    expr ctx left
    expr ctx right
  | .conditional c a b => do
    expr ctx c
    expr ctx a
    expr ctx b
  | .var id name => read id name
  | .assign id name value => do
    expr ctx value
    bindNode id name
  | .call callee _ arguments => do
    expr ctx callee
    exprs ctx arguments
  | .get object _ => expr ctx object
  | .set object _ value => do
    expr ctx value
    expr ctx object
  | .thisRef id keyword => receiver ctx id keyword
  | .superRef id keyword _ => superclass ctx id keyword

def exprs (ctx : Context) : List Expr → Walk Unit
  | [] => pure ()
  | e :: es => do
    expr ctx e
    exprs ctx es

end

/-- The walk through an expression that may be missing. -/
def optional (ctx : Context) : Option Expr → Walk Unit
  | none => pure ()
  | some e => expr ctx e

/-- The parameters of a function, declared in the scope of its body. -/
def params : List Token → Walk Unit
  | [] => pure ()
  | p :: ps => do
    declare p
    define p
    params ps

/-- The superclass clause of a class: the class is not its own superclass. -/
def superclassClause (ctx : Context) (name : Token) : Option Expr → Walk Unit
  | none => pure ()
  | some e => do
    match e with
    | .var _ superName =>
      if superName.lexeme == name.lexeme then report superName .inheritsFromItself
    | _ => pure ()
    expr { ctx with cls := .subclass } e

/-- A walk in the scope that names the superclass, if there is one. -/
def withSuper (token : Token) (superclass : Option Expr) (body : Walk Unit) : Walk Unit :=
  match superclass with
  | none => body
  | some _ => inScope do
    provide "super" token
    body

/-- A walk in the scope that names the receiver. -/
def withThis (token : Token) (body : Walk Unit) : Walk Unit :=
  inScope do
    provide "this" token
    body

/-- A `return` is in some function, and returns no value from an initializer. -/
def returnRules (ctx : Context) (keyword : Token) (value : Option Expr) : Walk Unit := do
  if ctx.function = .topLevel then
    report keyword .returnAtTopLevel
  if value.isSome && ctx.function = .initializer then
    report keyword .returnValueFromInitializer

mutual

/-- The walk through a statement. -/
def stmt (ctx : Context) : Stmt → Walk Unit
  | .expression e => expr ctx e
  | .print e => expr ctx e
  | .varDecl name value => do
    declare name
    optional ctx value
    define name
  | .block body => inScope (stmts ctx body)
  | .ifThen c a => do
    expr ctx c
    stmt ctx a
  | .ifElse c a b => do
    expr ctx c
    stmt ctx a
    stmt ctx b
  | .whileLoop c body => do
    expr ctx c
    stmt ctx body
  | .funDecl decl => do
    declare decl.name
    define decl.name
    functionBody { ctx with function := .function } decl
  | .returnWith keyword value => do
    returnRules ctx keyword value
    optional ctx value
  | .classDecl ⟨name, superclass, methodDecls, staticDecls⟩ => do
    declare name
    superclassClause ctx name superclass
    define name
    let cls := if superclass.isSome then .subclass else .plain
    withSuper (superclassToken name superclass) superclass do
      statics { ctx with cls := .static } staticDecls
      withThis name (methods { ctx with cls := cls } methodDecls)

def stmts (ctx : Context) : List Stmt → Walk Unit
  | [] => pure ()
  | s :: ss => do
    stmt ctx s
    stmts ctx ss

/-- The walk through the parameters and the body of a function, which share a scope. -/
def functionBody (ctx : Context) : FunctionDecl → Walk Unit
  | ⟨_, ps, body⟩ => inScope do
    params ps
    stmts ctx body

def methods (ctx : Context) : List FunctionDecl → Walk Unit
  | [] => pure ()
  | m :: ms => do
    functionBody { ctx with function := methodRole m } m
    methods ctx ms

def statics (ctx : Context) : List FunctionDecl → Walk Unit
  | [] => pure ()
  | m :: ms => do
    functionBody { ctx with function := .function } m
    statics ctx ms

end

end Resolution

/-- What the walk through a program finds, from the top level on. -/
def resolve (program : List Stmt) : Findings := (Resolution.stmts {} program []).findings

end Lox
