import Lox.Number.Text
import Lox.Syntax.Basic

/-!
# The text of a tree

Trees are shown with every node between parentheses and its operator first. A class shows
the names of its methods only. Statements that follow each other are set apart by blanks
inside a statement and by line ends at the top level.
-/

namespace Lox

/-- A number in a tree: whole numbers exactly and with `.0`, all others as short as
possible. -/
def Number.treeText (x : Float) : String :=
  match exactText? x with
  | some text => text ++ ".0"
  | none => shortestText x

def spaced (parts : List String) : String := String.intercalate " " parts

/-- Texts between parentheses, with a blank between each two. -/
def parenthesized (parts : List String) : String := "(" ++ spaced parts ++ ")"

namespace Literal

/-- A constant as a tree shows it. Strings have no quotes. -/
def text : Literal → String
  | number x => Number.treeText x
  | string text => text
  | bool true => "true"
  | bool false => "false"
  | nil => "nil"

end Literal

mutual

/-- The text of an expression. -/
def Expr.text : Expr → String
  | .literal value => value.text
  | .grouping inner => parenthesized ["group", inner.text]
  | .unary op operand => parenthesized [op.lexeme, operand.text]
  | .binary left op right => parenthesized [op.lexeme, left.text, right.text]
  | .logical left op right => parenthesized [op.lexeme, left.text, right.text]
  | .conditional c a b => parenthesized ["?:", c.text, a.text, b.text]
  | .var _ name => name.lexeme
  | .assign _ name value => parenthesized ["=", name.lexeme, value.text]
  | .call callee _ arguments => parenthesized ("call" :: callee.text :: exprTexts arguments)
  | .get object name => parenthesized [".", object.text, name.lexeme]
  | .set object name value => parenthesized [".=", object.text, name.lexeme, value.text]
  | .thisRef _ _ => "this"
  | .superRef _ _ method => parenthesized ["super", method.lexeme]

def exprTexts : List Expr → List String
  | [] => []
  | e :: es => e.text :: exprTexts es

end

namespace ClassDecl

/-- The text of a class declaration. -/
def text (c : ClassDecl) : String :=
  let heading := match c.superclass with
    | some superclass => ["<", superclass.text]
    | none => []
  let methods := c.methods.map fun m => m.name.lexeme
  let statics := c.statics.flatMap fun m => ["static", m.name.lexeme]
  parenthesized ("class" :: c.name.lexeme :: (heading ++ methods ++ statics))

end ClassDecl

mutual

/-- The text of a statement. -/
def Stmt.text : Stmt → String
  | .expression e => parenthesized [";", e.text]
  | .print e => parenthesized ["print", e.text]
  | .varDecl name (some e) => parenthesized ["var", name.lexeme, e.text]
  | .varDecl name none => parenthesized ["var", name.lexeme]
  | .block body => parenthesized ["block", spaced (stmtTexts body)]
  | .ifThen c a => parenthesized ["if", c.text, a.text]
  | .ifElse c a b => parenthesized ["if", c.text, a.text, b.text]
  | .whileLoop c body => parenthesized ["while", c.text, body.text]
  | .funDecl decl => decl.text
  | .returnWith _ (some e) => parenthesized ["return", e.text]
  | .returnWith _ none => parenthesized ["return"]
  | .classDecl decl => decl.text

def FunctionDecl.text : FunctionDecl → String
  | ⟨name, params, body⟩ =>
    let heading := name.lexeme ++ parenthesized (params.map Token.lexeme)
    parenthesized ["fun", heading, spaced (stmtTexts body)]

def stmtTexts : List Stmt → List String
  | [] => []
  | s :: ss => s.text :: stmtTexts ss

end

def programText (program : List Stmt) : String := String.intercalate "\n" (stmtTexts program)

end Lox
