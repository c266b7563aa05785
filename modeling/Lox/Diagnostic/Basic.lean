import Lox.Token.Basic
import Lox.Value.Basic

/-!
# Diagnostics

Every phase describes a failure by its cause; the wording of a message is a function of the
cause and is found only here. A diagnostic is a cause together with the place it points at.
-/

namespace Lox

/-- What a diagnostic about a token quotes: the token's text, or the end of the source. -/
inductive Landmark where
  | atEnd
  | lexeme (text : String)
  deriving DecidableEq, Repr

/-- A place in a source that a diagnostic points at. -/
structure Site where
  line : Nat
  landmark : Landmark
  deriving DecidableEq, Repr

/-- The place of a token. -/
def Token.site (t : Token) : Site :=
  ⟨t.line, if t.isEnd then .atEnd else .lexeme t.lexeme⟩

@[simp] theorem Token.line_site (t : Token) : t.site.line = t.line := rfl

/-- Causes found while a source is split into tokens. -/
inductive LexicalFault where
  | unexpectedCharacter (c : Char)
  | unterminatedString
  | custom (message : String)
  deriving DecidableEq, Repr

/-- Causes found while tokens are read as a program. -/
inductive SyntaxFault where
  /-- Something the grammar asks for is missing; `what` names it. -/
  | expected (what : String)
  | tooManyParameters (limit : Nat)
  | tooManyArguments (limit : Nat)
  | invalidAssignmentTarget
  | custom (message : String)
  deriving DecidableEq, Repr

/-- Causes found while names are bound to their declarations. -/
inductive ScopeFault where
  | alreadyDeclared
  | readInOwnInitializer
  | neverUsed
  | returnAtTopLevel
  | returnValueFromInitializer
  | inheritsFromItself
  | thisOutsideClass
  | thisInStaticMethod
  | superOutsideClass
  | superWithoutSuperclass
  | superInStaticMethod
  | custom (message : String)
  deriving DecidableEq, Repr

/-- Causes that stop a running program. -/
inductive RuntimeFault where
  /-- No frame that was looked through has the name. -/
  | undefinedVariable (name : String)
  /-- The frame at a recorded distance does not have the name. -/
  | undefinedAtDistance (name : String)
  /-- There is no frame at a recorded distance. -/
  | unresolvableDepth (name : String)
  | undefinedProperty (name : String)
  | negationOperand (got : ValueType)
  | additionOperands (left right : ValueType)
  | numericOperands (operator : String) (left right : ValueType)
  | invalidUnaryOperator
  | invalidBinaryOperator
  | notCallable (got : ValueType)
  | wrongArity (expected got : Nat)
  | stackOverflow
  | noProperties (got : ValueType)
  | noFields (got : ValueType)
  | superclassNotClass
  | superUnavailable
  | custom (message : String)
  deriving DecidableEq, Repr

/-- Causes found while printed text is handed on. -/
inductive OutputFault where
  | sinkClosed
  | flushFailed
  | custom (message : String)
  deriving DecidableEq, Repr

namespace LexicalFault

def message : LexicalFault → String
  | unexpectedCharacter c => "Unexpected character: " ++ c.toString
  | unterminatedString => "Unterminated string."
  | custom text => text

end LexicalFault

namespace SyntaxFault

def message : SyntaxFault → String
  | expected what => "Expected " ++ what ++ "."
  | tooManyParameters limit => "Can't have more than " ++ toString limit ++ " parameters."
  | tooManyArguments limit => "Can't have more than " ++ toString limit ++ " arguments."
  | invalidAssignmentTarget => "Invalid assignment target."
  | custom text => text

end SyntaxFault

namespace ScopeFault

def message : ScopeFault → String
  | alreadyDeclared => "Already a variable with this name in this scope."
  | readInOwnInitializer => "Can't read local variable in its own initializer."
  | neverUsed => "Local variable is never used."
  | returnAtTopLevel => "Can't return from top-level code."
  | returnValueFromInitializer => "Can't return a value from an initializer."
  | inheritsFromItself => "A class can't inherit from itself."
  | thisOutsideClass => "Can't use 'this' outside of a class."
  | thisInStaticMethod => "Can't use 'this' in a static method."
  | superOutsideClass => "Can't use 'super' outside of a class."
  | superWithoutSuperclass => "Can't use 'super' in a class with no superclass."
  | superInStaticMethod => "Can't use 'super' in a static method."
  | custom text => text

end ScopeFault

namespace RuntimeFault

def message : RuntimeFault → String
  | undefinedVariable name | undefinedAtDistance name => "Undefined variable '" ++ name ++ "'."
  | unresolvableDepth name => "Unresolvable scope depth for '" ++ name ++ "'."
  | undefinedProperty name => "Undefined property '" ++ name ++ "'."
  | negationOperand got => "Operand of '-' must be a number; got " ++ got.name ++ "."
  | additionOperands left right =>
    "Operands of '+' must be two numbers or two strings; got " ++ left.name ++ " and " ++
      right.name ++ "."
  | numericOperands operator left right =>
    "Operands of '" ++ operator ++ "' must be numbers; got " ++ left.name ++ " and " ++
      right.name ++ "."
  | invalidUnaryOperator => "Invalid unary operator."
  | invalidBinaryOperator => "Invalid binary operator."
  | notCallable got => "Can only call functions and classes; got " ++ got.name ++ "."
  | wrongArity expected got =>
    "Expected " ++ toString expected ++ " arguments but got " ++ toString got ++ "."
  | stackOverflow => "Stack overflow."
  | noProperties got => "Only instances have properties; got " ++ got.name ++ "."
  | noFields got => "Only instances have fields; got " ++ got.name ++ "."
  | superclassNotClass => "Superclass must be a class."
  | superUnavailable => "Can't use 'super' here."
  | custom text => text

end RuntimeFault

namespace OutputFault

def message : OutputFault → String
  | sinkClosed => "sink closed"
  | flushFailed => "flush failed"
  | custom text => text

end OutputFault

/-- A cause at the place it was found. Output failures have no place. -/
inductive Diagnostic where
  | lexical (line : Nat) (fault : LexicalFault)
  | syntactic (site : Site) (fault : SyntaxFault)
  | scoping (site : Site) (fault : ScopeFault)
  | runtime (line : Nat) (fault : RuntimeFault)
  | output (fault : OutputFault)
  deriving DecidableEq, Repr

namespace Diagnostic

/-- Whether the diagnostic is about the program text, so that the program does not start. -/
def isStatic : Diagnostic → Bool
  | lexical .. | syntactic .. | scoping .. => true
  | runtime .. | output .. => false

/-- How a message names the place it is about. -/
def landmarkText : Landmark → String
  | .atEnd => " at end"
  | .lexeme text => " at '" ++ text ++ "'"

/-- A message about program text, headed by its line. -/
def staticText (line : Nat) (place message : String) : String :=
  "[line " ++ toString line ++ "] Error" ++ place ++ ": " ++ message

/-- What a user reads. -/
def text : Diagnostic → String
  | lexical line fault => staticText line "" fault.message
  | syntactic site fault => staticText site.line (landmarkText site.landmark) fault.message
  | scoping site fault => staticText site.line (landmarkText site.landmark) fault.message
  | runtime line fault => fault.message ++ "\n[line " ++ toString line ++ "]"
  | output fault => fault.message

end Diagnostic
end Lox
