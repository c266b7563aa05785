import Lox.Diagnostic.Basic
import Lox.Syntax.Basic
import Lox.Table

/-!
# Scopes

Names of a program are bound while the program is walked through once, in the order in which
it is written. Open scopes are kept in a list, the innermost one first. A scope says of each
name that it declares where the declaration is, whether its initializer is complete, and
whether something has read it. At the top level no scope is open, and names that no open
scope declares are global.
-/

namespace Lox

/-- What is known of a declared name. -/
structure Variable where
  token : Token
  initialized : Bool
  used : Bool
  deriving Repr

/-- The names declared in a scope so far. -/
abbrev Scope := Table Variable

namespace Scope

/-- Whether one token comes before another or at the same place: by line, and on the same
line by text. -/
def comesFirst (t u : Token) : Bool :=
  t.line < u.line || t.line == u.line && (t.lexeme < u.lexeme || t.lexeme == u.lexeme)

/-- Put a token into a sorted list. -/
def insertSorted (t : Token) : List Token → List Token
  | [] => [t]
  | u :: rest => if comesFirst t u then t :: u :: rest else u :: insertSorted t rest

/-- The declarations of the names that nothing has read, by line and text. -/
def unused (scope : Scope) : List Token :=
  ((scope.values.filter fun v => !v.used).map Variable.token).foldr insertSorted []

end Scope

/-- How many scopes out a name is declared, if an open scope declares it. -/
def Scopes.depth? (scopes : List Scope) (name : String) : Option Nat :=
  scopes.findIdx? fun scope => scope.contains name

/-- Note in the innermost scope that declares a name that the name is read. -/
def Scopes.markUsed (name : String) : List Scope → List Scope
  | [] => []
  | scope :: outer =>
    if scope.contains name then
      scope.modify name (fun v => { v with used := true }) :: outer
    else scope :: markUsed name outer

/-- A node that refers to a variable, and how many scopes out its name is declared. A global
name has no depth. -/
structure Binding where
  id : NodeId
  name : String
  depth : Option Nat
  deriving DecidableEq, Repr

/-- What a walk has found, in the order in which it was found. -/
structure Findings where
  bindings : List Binding := []
  faults : List Diagnostic := []

namespace Findings

instance : Append Findings where
  append f g := ⟨f.bindings ++ g.bindings, f.faults ++ g.faults⟩

@[simp] theorem bindings_append (f g : Findings) :
    (f ++ g).bindings = f.bindings ++ g.bindings := rfl

@[simp] theorem faults_append (f g : Findings) : (f ++ g).faults = f.faults ++ g.faults := rfl

end Findings

/-- What a walk leaves behind: a value, the open scopes, and what it has found. -/
structure Walked (α : Type) where
  value : α
  scopes : List Scope
  findings : Findings := {}

/-- A walk through a part of a program, from the scopes that are open before it. -/
def Walk (α : Type) := List Scope → Walked α

namespace Walk

variable {α β : Type}

protected def pure (a : α) : Walk α := fun scopes => ⟨a, scopes, {}⟩

/-- One walk and then another. -/
protected def bind (w : Walk α) (f : α → Walk β) : Walk β := fun scopes =>
  let first := w scopes
  let second := f first.value first.scopes
  { second with findings := first.findings ++ second.findings }

instance : Monad Walk where
  pure := Walk.pure
  bind := Walk.bind

@[simp] theorem pure_apply (a : α) (scopes : List Scope) :
    (pure a : Walk α) scopes = ⟨a, scopes, {}⟩ := rfl

theorem bind_apply (w : Walk α) (f : α → Walk β) (scopes : List Scope) :
    (w >>= f) scopes =
      { f (w scopes).value (w scopes).scopes with
        findings := (w scopes).findings ++ (f (w scopes).value (w scopes).scopes).findings } :=
  rfl

def report (t : Token) (fault : ScopeFault) : Walk Unit := fun scopes =>
  ⟨(), scopes, { faults := [.scoping t.site fault] }⟩

def openScope : Walk Unit := fun scopes => ⟨(), ∅ :: scopes, {}⟩

/-- Close the innermost scope and report the names in it that nothing has read. -/
def closeScope : Walk Unit := fun scopes =>
  match scopes with
  | [] => ⟨(), [], {}⟩
  | scope :: outer =>
    ⟨(), outer, { faults := scope.unused.map fun t => .scoping t.site .neverUsed }⟩

/-- Walk in a scope of its own. -/
def inScope (w : Walk Unit) : Walk Unit := do
  openScope
  w
  closeScope

/-- Declare a name in the innermost scope. A second declaration of a name is reported and
leaves the first one in force. At the top level nothing is declared. -/
def declare (name : Token) : Walk Unit := fun scopes =>
  match scopes with
  | [] => ⟨(), [], {}⟩
  | scope :: outer =>
    if scope.contains name.lexeme then report name .alreadyDeclared scopes
    else ⟨(), scope.insert name.lexeme ⟨name, false, false⟩ :: outer, {}⟩

/-- Note that the initializer of a name is complete. -/
def define (name : Token) : Walk Unit := fun scopes =>
  match scopes with
  | [] => ⟨(), [], {}⟩
  | scope :: outer =>
    ⟨(), scope.modify name.lexeme (fun v => { v with initialized := true }) :: outer, {}⟩

/-- Declare a name that the language provides. It counts as read. -/
def provide (name : String) (token : Token) : Walk Unit := fun scopes =>
  match scopes with
  | [] => ⟨(), [], {}⟩
  | scope :: outer => ⟨(), scope.insert name ⟨token, true, true⟩ :: outer, {}⟩

/-- Whether the innermost scope declares a name whose initializer is not complete. -/
def inInitializer (name : String) : Walk Bool := fun scopes =>
  let pending := (scopes.head?.bind fun scope => scope.get? name).any fun v => !v.initialized
  ⟨pending, scopes, {}⟩

/-- Bind a node to the innermost declaration of its name. -/
def bindNode (id : NodeId) (name : Token) : Walk Unit := fun scopes =>
  ⟨(), scopes, { bindings := [⟨id, name.lexeme, Scopes.depth? scopes name.lexeme⟩] }⟩

def markUsed (name : Token) : Walk Unit := fun scopes =>
  ⟨(), Scopes.markUsed name.lexeme scopes, {}⟩

/-- Bind a node that reads its name. -/
def bindRead (id : NodeId) (name : Token) : Walk Unit := do
  bindNode id name
  markUsed name

end Walk
end Lox
