import Lox.Syntax.Parser.Expression

/-!
# Reading statements and programs

Declarations, statements and whole programs. A declaration with a fault is reported and left
out of the program, and reading goes on where a statement seems to start.

As for expressions, each rule is made from the parsers of the statements and declarations
inside it, which are needed only behind a token that the rule has read.
-/

namespace Lox

namespace Parser

/-- A value and the semicolon behind it. -/
def terminated {α : Type} (value : Parser α) (what : String) : Parser α := do
  let a ← value
  let _ ← expect .semicolon what
  pure a

def expressionUnless (s : Symbol) : Parser (Option Expr) := do
  if ← check s then pure none else some <$> expression

def expressionStatement : Parser Stmt :=
  .expression <$> terminated expression "';' after expression"

/-- The initializer of a variable, if there is one. -/
def initializer : Parser (Option Expr) := do
  match ← accept .equal with
  | some _ => some <$> expression
  | none => pure none

/-- A variable declaration behind its keyword. -/
def varDecl : Parser Stmt := do
  let name ← expect .identifier "variable name"
  let value ← terminated initializer "';' after variable declaration"
  pure (.varDecl name value)

/-- Declarations up to a closing brace, and the brace. -/
def block (decl : Parser (Option Stmt)) : Parser (List Stmt) := do
  let stmts ← many fun _ => do
    if (← check .rightBrace) || (← atEnd) then pure none else some <$> decl
  let _ ← expect .rightBrace "'\x7d' after block"
  pure stmts.reduceOption

/-- A function or method, as `kind` says, behind its keyword. -/
def function (kind : String) (decl : Parser (Option Stmt)) : Parser FunctionDecl := do
  let name ← expect .identifier (kind ++ " name")
  let _ ← expect .leftParen ("'(' after " ++ kind ++ " name")
  let param := expect .identifier "parameter name"
  let params ← commaList (limited (.tooManyParameters maxArity) param)
  let _ ← expect .rightParen "')' after parameters"
  let _ ← expect .leftBrace ("'\x7b' before " ++ kind ++ " body")
  let body ← block decl
  pure ⟨name, params, body⟩

/-- The superclass of a class, if it has one. -/
def superclass : Parser (Option Expr) := do
  match ← accept .less with
  | none => pure none
  | some _ =>
    let name ← expect .identifier "superclass name"
    pure (some (.var (← freshId) name))

/-- A method of a class, and whether it is static; none at the end of the class. -/
def member (decl : Parser (Option Stmt)) : Parser (Option (Bool × FunctionDecl)) := do
  if (← check .rightBrace) || (← atEnd) then
    pure none
  else
    let isStatic := (← accept .kwStatic).isSome
    let method ← function "method" decl
    pure (some (isStatic, method))

/-- A class declaration behind its keyword. -/
def classDecl (decl : Parser (Option Stmt)) : Parser Stmt := do
  let name ← expect .identifier "class name"
  let superclass ← superclass
  let _ ← expect .leftBrace "'\x7b' before class body"
  let members ← many fun _ => member decl
  let _ ← expect .rightBrace "'\x7d' after class body"
  let methods := (members.filter fun m => !m.1).map Prod.snd
  let statics := (members.filter fun m => m.1).map Prod.snd
  pure (.classDecl ⟨name, superclass, methods, statics⟩)

/-- The first clause of a `for` loop and its semicolon. -/
def forInitializer : Parser (Option Stmt) := do
  match ← accept .semicolon with
  | some _ => pure none
  | none =>
    match ← accept .kwVar with
    | some _ => some <$> varDecl
    | none => some <$> expressionStatement

/-- A `for` loop behind its keyword. -/
def forLoop (stmt : Parser Stmt) : Parser Stmt := do
  let _ ← expect .leftParen "'(' after 'for'"
  let init ← forInitializer
  let condition ← terminated (expressionUnless .semicolon) "';' after loop condition"
  let increment ← expressionUnless .rightParen
  let _ ← expect .rightParen "')' after for clauses"
  let body ← stmt
  pure (.forLoop init condition increment body)

/-- A conditional statement behind its keyword. An `else` belongs to the nearest `if`. -/
def ifStatement (stmt : Parser Stmt) : Parser Stmt := do
  let _ ← expect .leftParen "'(' after 'if'"
  let condition ← expression
  let _ ← expect .rightParen "')' after if condition"
  let thenBranch ← stmt
  match ← accept .kwElse with
  | none => pure (.ifThen condition thenBranch)
  | some _ =>
    let elseBranch ← stmt
    pure (.ifElse condition thenBranch elseBranch)

/-- A `while` loop behind its keyword. -/
def whileLoop (stmt : Parser Stmt) : Parser Stmt := do
  let _ ← expect .leftParen "'(' after 'while'"
  let condition ← expression
  let _ ← expect .rightParen "')' after condition"
  let body ← stmt
  pure (.whileLoop condition body)

/-- A statement, from the parsers of the statements and declarations inside it. -/
def statement (stmt : Parser Stmt) (decl : Parser (Option Stmt)) : Parser Stmt := do
  match ← acceptAny [.kwFor, .kwIf, .kwPrint, .kwReturn, .kwWhile, .leftBrace] with
  | none => expressionStatement
  | some t =>
    match t.kind with
    | .symbol .kwFor => forLoop stmt
    | .symbol .kwIf => ifStatement stmt
    | .symbol .kwPrint => .print <$> terminated expression "';' after value"
    | .symbol .kwReturn =>
      .returnWith t <$> terminated (expressionUnless .semicolon) "';' after return value"
    | .symbol .kwWhile => whileLoop stmt
    | _ => .block <$> block decl

/-- A declaration or statement, from the parsers of those inside it. -/
def declarationRule (stmt : Parser Stmt) (decl : Parser (Option Stmt)) : Parser Stmt := do
  match ← acceptAny [.kwClass, .kwFun, .kwVar] with
  | none => statement stmt decl
  | some t =>
    match t.kind with
    | .symbol .kwClass => classDecl decl
    | .symbol .kwFun => .funDecl <$> function "function" decl
    | _ => varDecl

mutual

/-- A statement that needs no more rounds of the rules than one, and one more for each token in
the first argument. -/
def statementUpTo : List Token → Cursor → Reply Stmt
  | [], c => statement giveUp giveUp c
  | _ :: budget, c => statement (statementUpTo budget) (declarationUpTo budget) c

/-- A declaration that needs no more rounds of the rules than one, and one more for each token
in the first argument. One with a fault is left out. -/
def declarationUpTo : List Token → Cursor → Reply (Option Stmt)
  | [], c => recover (declarationRule giveUp giveUp) c
  | _ :: budget, c => recover (declarationRule (statementUpTo budget) (declarationUpTo budget)) c

end

/-- A declaration or statement. One with a fault is left out. -/
def declaration : Parser (Option Stmt) := fun c => declarationUpTo c.rest c

/-- The declarations up to the end. -/
def program : Parser (List Stmt) := do
  let stmts ← many fun _ => do
    if ← atEnd then pure none else some <$> declaration
  pure stmts.reduceOption

end Parser

/-- A program as it was read: its statements without those that have a fault, the faults, and
the first number that no node has. -/
structure Parsed where
  statements : List Stmt
  faults : List Diagnostic
  fresh : NodeId

/-- Read a program from tokens, numbering its nodes from `fresh` on. -/
def parse (fresh : NodeId) (tokens : List Token) : Parsed :=
  let reply := Parser.program ⟨tokens, fresh⟩
  ⟨reply.result.getD [], reply.faults, reply.cursor.fresh⟩

end Lox
