import Lox.Number.Binary

/-!
# Tokens

A token is a piece of source text together with its kind and the line it ends on. Most
kinds are plain symbols; a string and a number also carry the value they spell.
-/

namespace Lox

/-- A kind of token that carries no value. -/
inductive Symbol where
  | leftParen | rightParen | leftBrace | rightBrace
  | comma | dot | minus | plus | semicolon | slash | star | colon
  | bang | bangEqual | equal | equalEqual | greater | greaterEqual | less | lessEqual
  | question | questionQuestion
  | identifier
  | kwAnd | kwClass | kwElse | kwFalse | kwFun | kwFor | kwIf | kwNil | kwOr | kwPrint
  | kwReturn | kwSuper | kwStatic | kwThis | kwTrue | kwVar | kwWhile
  | eof
  deriving DecidableEq, Repr, Inhabited

namespace Symbol

/-- The name a token listing gives to a symbol. -/
def name : Symbol → String
  | leftParen => "LEFT_PAREN"
  | rightParen => "RIGHT_PAREN"
  | leftBrace => "LEFT_BRACE"
  | rightBrace => "RIGHT_BRACE"
  | comma => "COMMA"
  | dot => "DOT"
  | minus => "MINUS"
  | plus => "PLUS"
  | semicolon => "SEMICOLON"
  | slash => "SLASH"
  | star => "STAR"
  | colon => "COLON"
  | bang => "BANG"
  | bangEqual => "BANG_EQUAL"
  | equal => "EQUAL"
  | equalEqual => "EQUAL_EQUAL"
  | greater => "GREATER"
  | greaterEqual => "GREATER_EQUAL"
  | less => "LESS"
  | lessEqual => "LESS_EQUAL"
  | question => "QUESTION"
  | questionQuestion => "QUESTION_QUESTION"
  | identifier => "IDENTIFIER"
  | kwAnd => "AND"
  | kwClass => "CLASS"
  | kwElse => "ELSE"
  | kwFalse => "FALSE"
  | kwFun => "FUN"
  | kwFor => "FOR"
  | kwIf => "IF"
  | kwNil => "NIL"
  | kwOr => "OR"
  | kwPrint => "PRINT"
  | kwReturn => "RETURN"
  | kwSuper => "SUPER"
  | kwStatic => "STATIC"
  | kwThis => "THIS"
  | kwTrue => "TRUE"
  | kwVar => "VAR"
  | kwWhile => "WHILE"
  | eof => "EOF"

/-- Every symbol, in the order of declaration. -/
def all : List Symbol :=
  [leftParen, rightParen, leftBrace, rightBrace, comma, dot, minus, plus, semicolon, slash,
    star, colon, bang, bangEqual, equal, equalEqual, greater, greaterEqual, less, lessEqual,
    question, questionQuestion, identifier, kwAnd, kwClass, kwElse, kwFalse, kwFun, kwFor,
    kwIf, kwNil, kwOr, kwPrint, kwReturn, kwSuper, kwStatic, kwThis, kwTrue, kwVar, kwWhile,
    eof]

def ofName? (text : String) : Option Symbol := all.find? fun s => s.name == text

theorem mem_all (s : Symbol) : s ∈ all := by cases s <;> decide

end Symbol

/-- What a token is. -/
inductive Token.Kind where
  | symbol (s : Symbol)
  | string (text : String)
  | number (value : Double)
  deriving DecidableEq, Repr, Inhabited

namespace Token.Kind

/-- The name a token listing gives to a kind. -/
def name : Kind → String
  | symbol s => s.name
  | string _ => "STRING"
  | number _ => "NUMBER"

/-- Whether two kinds agree, whatever values they carry. -/
def same : Kind → Kind → Bool
  | symbol s, symbol t => s == t
  | string _, string _ => true
  | number _, number _ => true
  | _, _ => false

@[simp] theorem same_self (k : Kind) : k.same k = true := by cases k <;> simp [same]

theorem same_comm (k l : Kind) : k.same l = l.same k := by
  cases k <;> cases l <;> simp [same, Bool.beq_comm]

def is (k : Kind) (s : Symbol) : Bool :=
  match k with
  | symbol t => t == s
  | _ => false

@[simp] theorem is_symbol (s t : Symbol) : (symbol t).is s = (t == s) := rfl
@[simp] theorem is_string (s : Symbol) (text : String) : (string text).is s = false := rfl
@[simp] theorem is_number (s : Symbol) (value : Double) : (number value).is s = false := rfl

theorem is_iff {k : Kind} {s : Symbol} : k.is s = true ↔ k = symbol s := by
  cases k <;> simp

end Token.Kind

/-- A kind, the source text of the token, and the line on which that text ends. -/
structure Token where
  kind : Token.Kind
  lexeme : String
  line : Nat
  deriving DecidableEq, Repr, Inhabited

namespace Token

def is (t : Token) (s : Symbol) : Bool := t.kind.is s

def isEnd (t : Token) : Bool := t.is .eof

/-- Whether two tokens agree in kind, text and line. Values are not looked at. -/
def equal (t u : Token) : Bool :=
  t.kind.same u.kind && t.lexeme == u.lexeme && t.line == u.line

def ofSymbol (s : Symbol) (lexeme : String) (line : Nat) : Token := ⟨.symbol s, lexeme, line⟩

/-- The mark at the end of a source. -/
def endMark (line : Nat) : Token := ofSymbol .eof "" line

@[simp] theorem is_ofSymbol (s t : Symbol) (lexeme : String) (line : Nat) :
    (ofSymbol t lexeme line).is s = (t == s) := rfl

@[simp] theorem isEnd_endMark (line : Nat) : (endMark line).isEnd = true := rfl

end Token
end Lox
