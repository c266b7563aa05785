import Lox.Syntax.Parser.Basic

/-!
# Reading expressions

The grammar of expressions, loosest first: assignment, `??`, the conditional `? :`, six
levels of operators that group to the left, the signs, and calls and properties. The right
operand of `??` and the branches of a conditional are whole expressions again.

Each rule is a parser made from the parser of whole expressions, which is needed only behind
a token that the rule has read. So as many rounds of the rules as there are tokens, and one
more, read any expression.
-/

namespace Lox.Parser

/-- The most parameters a function has, and the most arguments a call passes. More are
reported and read all the same. -/
def maxArity : Nat := 8

/-- The item with the given number in a list that has no more than `maxArity` of them. -/
def limited {α : Type} (fault : SyntaxFault) (item : Parser α) (index : Nat) : Parser α := do
  if maxArity ≤ index then
    report (← look) fault
  item

/-- What stands behind an operand: arguments in parentheses, or the name of a property. -/
inductive Suffix where
  | arguments (paren : Token) (arguments : List Expr)
  | property (name : Token)

/-- The expression made of an operand and what stands behind it. -/
def Suffix.apply (operand : Expr) : Suffix → Expr
  | arguments paren args => .call operand paren args
  | property name => .get operand name

/-- The names and parentheses that expressions are made of. -/
def primary (expr : Parser Expr) : Parser Expr := do
  let t ← look
  match t.kind with
  | .number x => do
    let _ ← acceptIf fun _ => true
    pure (.literal (.number x.toFloat))
  | .string text => do
    let _ ← acceptIf fun _ => true
    pure (.literal (.string text))
  | .symbol .kwFalse => do
    let _ ← accept .kwFalse
    pure (.literal (.bool false))
  | .symbol .kwTrue => do
    let _ ← accept .kwTrue
    pure (.literal (.bool true))
  | .symbol .kwNil => do
    let _ ← accept .kwNil
    pure (.literal .nil)
  | .symbol .kwSuper => do
    let keyword ← expect .kwSuper "'super'"
    let _ ← expect .dot "'.' after 'super'"
    let method ← expect .identifier "superclass method name"
    pure (.superRef (← freshId) keyword method)
  | .symbol .kwThis => do
    let keyword ← expect .kwThis "'this'"
    pure (.thisRef (← freshId) keyword)
  | .symbol .identifier => do
    let name ← expect .identifier "name"
    pure (.var (← freshId) name)
  | .symbol .leftParen => do
    let _ ← accept .leftParen
    let inner ← expr
    let _ ← expect .rightParen "')' after expression"
    pure (.grouping inner)
  | _ => reject (.expected "expression")

/-- The arguments of a call behind the opening parenthesis, and the closing one. -/
def arguments (expr : Parser Expr) : Parser Suffix := do
  let args ← commaList (limited (.tooManyArguments maxArity) expr)
  let paren ← expect .rightParen "')' after arguments"
  pure (.arguments paren args)

/-- What stands behind an operand, if anything does. -/
def suffix (expr : Parser Expr) : Parser (Option Suffix) := do
  match ← accept .leftParen with
  | some _ => some <$> arguments expr
  | none =>
    match ← accept .dot with
    | some _ => some <$> Suffix.property <$> expect .identifier "property name after '.'"
    | none => pure none

/-- Calls and properties. -/
def call (expr : Parser Expr) : Parser Expr := do
  let operand ← primary expr
  let suffixes ← many fun _ => suffix expr
  pure (suffixes.foldl Suffix.apply operand)

/-- Signs in front of an operand. -/
def unary (expr : Parser Expr) : Parser Expr := do
  let signs ← many fun _ => acceptAny [.bang, .minus]
  let operand ← call expr
  pure (signs.foldr Expr.unary operand)

/-- A level of operators that group to the left, and the node they make. -/
structure Level where
  operators : List Symbol
  node : Expr → Token → Expr → Expr

/-- The levels of operators that group to the left, loosest first. -/
def levels : List Level :=
  [⟨[.kwOr], .logical⟩, ⟨[.kwAnd], .logical⟩, ⟨[.bangEqual, .equalEqual], .binary⟩,
    ⟨[.greater, .greaterEqual, .less, .lessEqual], .binary⟩, ⟨[.minus, .plus], .binary⟩,
    ⟨[.star, .slash], .binary⟩]

/-- An operator and its right operand, if an operator of the level comes next. -/
def rightOperand (level : Level) (operand : Parser Expr) : Parser (Option (Token × Expr)) := do
  match ← acceptAny level.operators with
  | none => pure none
  | some op =>
    let right ← operand
    pure (some (op, right))

/-- Operands with operators of one level between them. -/
def chain (level : Level) (operand : Parser Expr) : Parser Expr := do
  let first ← operand
  let others ← many fun _ => rightOperand level operand
  pure (others.foldl (fun left other => level.node left other.1 other.2) first)

def operations (expr : Parser Expr) : Parser Expr := levels.foldr chain (unary expr)

/-- A conditional `c ? a : b`. -/
def conditional (expr : Parser Expr) : Parser Expr := do
  let condition ← operations expr
  match ← accept .question with
  | none => pure condition
  | some _ =>
    let thenBranch ← expr
    let _ ← expect .colon "':' after then branch of conditional expression"
    let elseBranch ← expr
    pure (.conditional condition thenBranch elseBranch)

/-- An operand with a fallback, `a ?? b`. -/
def coalescing (expr : Parser Expr) : Parser Expr := do
  let left ← conditional expr
  match ← accept .questionQuestion with
  | none => pure left
  | some op =>
    let fallback ← expr
    pure (.coalesce left op.line fallback)

/-- The expression that stores `value` in what `target` denotes. Only a name and a property
denote a place; anything else is reported at the equals sign and stays what it is. -/
def store (target : Expr) (equals : Token) (value : Expr) : Parser Expr :=
  match target with
  | .var _ name => do pure (.assign (← freshId) name value)
  | .get object name => pure (.set object name value)
  | _ => do
    report equals .invalidAssignmentTarget
    pure target

/-- One round of the rules: an assignment, or anything that binds tighter. -/
def assignment (expr : Parser Expr) : Parser Expr := do
  let target ← coalescing expr
  match ← accept .equal with
  | none => pure target
  | some equals =>
    let value ← expr
    store target equals value

/-- An expression that needs no more rounds of the rules than one, and one more for each token
in the first argument. -/
def expressionUpTo : List Token → Cursor → Reply Expr
  | [], c => assignment giveUp c
  | _ :: budget, c => assignment (expressionUpTo budget) c

def expression : Parser Expr := fun c => expressionUpTo c.rest c

end Lox.Parser
