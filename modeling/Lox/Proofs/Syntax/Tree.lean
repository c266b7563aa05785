import Lox.Syntax.Basic

/-!
# The trees that programs are read as

Trees of programs that are read from text are more special than trees are in general. Names
are spelled like names and operators are operators of their node, the branches of conditional
statements and loops declare nothing, and a superclass is a name. Nodes are numbered in the
order in which they are read, which is the order in the tree with two exceptions: the left
operand of `??` stands in the tree twice with the same numbers, and the increment of a `for`
loop is read before the body that it stands behind.
-/

namespace Lox

namespace Token

/-- A name that a program may declare: neither of the two that the language provides. -/
def IsName (t : Token) : Prop := t.lexeme ≠ "this" ∧ t.lexeme ≠ "super"

/-- The text of a token fits its kind, as far as names go. -/
structure Spelled (t : Token) : Prop where
  name : t.is .identifier = true → t.IsName
  this : t.is .kwThis = true → t.lexeme = "this"
  super : t.is .kwSuper = true → t.lexeme = "super"

/-- The operators of nodes with two operands that are both evaluated. -/
def IsBinaryOperator (t : Token) : Prop :=
  [Symbol.bangEqual, .equalEqual, .greater, .greaterEqual, .less, .lessEqual, .minus, .plus,
    .star, .slash].any t.is = true

end Token

/-- The name that a statement declares in the scope around it. -/
def Stmt.declared? : Stmt → Option Token
  | .varDecl name _ => some name
  | .funDecl decl => some decl.name
  | .classDecl decl => some decl.name
  | _ => none

/-! ## Shape -/

mutual

/-- An expression as it is read. -/
def Expr.WellFormed : Expr → Prop
  | .literal _ => True
  | .grouping e => e.WellFormed
  | .unary op e => (op.is .bang = true ∨ op.is .minus = true) ∧ e.WellFormed
  | .binary l op r => op.IsBinaryOperator ∧ l.WellFormed ∧ r.WellFormed
  | .logical l _ r => l.WellFormed ∧ r.WellFormed
  | .conditional c a b => c.WellFormed ∧ a.WellFormed ∧ b.WellFormed
  | .var _ name => name.IsName
  | .assign _ name e => name.IsName ∧ e.WellFormed
  | .call f _ es => f.WellFormed ∧ Exprs.WellFormed es
  | .get e _ => e.WellFormed
  | .set e _ v => e.WellFormed ∧ v.WellFormed
  | .thisRef _ keyword => keyword.lexeme = "this"
  | .superRef _ keyword _ => keyword.lexeme = "super"

def Exprs.WellFormed : List Expr → Prop
  | [] => True
  | e :: es => e.WellFormed ∧ Exprs.WellFormed es

end

/-- An expression that may be missing, as it is read. -/
def Expr.OptionWellFormed : Option Expr → Prop
  | none => True
  | some e => e.WellFormed

/-- A superclass as it is read: a name. -/
def Expr.SuperclassWellFormed : Option Expr → Prop
  | none => True
  | some (.var _ name) => name.IsName
  | some _ => False

mutual

/-- A statement as it is read. -/
def Stmt.WellFormed : Stmt → Prop
  | .expression e => e.WellFormed
  | .print e => e.WellFormed
  | .varDecl name init => name.IsName ∧ Expr.OptionWellFormed init
  | .block body => Stmts.WellFormed body
  | .ifThen c a => c.WellFormed ∧ a.declared? = none ∧ a.WellFormed
  | .ifElse c a b =>
    c.WellFormed ∧ (a.declared? = none ∧ a.WellFormed) ∧ b.declared? = none ∧ b.WellFormed
  | .whileLoop c body => c.WellFormed ∧ body.declared? = none ∧ body.WellFormed
  | .funDecl decl => decl.WellFormed
  | .returnWith _ value => Expr.OptionWellFormed value
  | .classDecl ⟨name, superclass, methods, statics⟩ =>
    name.IsName ∧ Expr.SuperclassWellFormed superclass ∧ FunctionDecls.WellFormed methods ∧
      FunctionDecls.WellFormed statics

def Stmts.WellFormed : List Stmt → Prop
  | [] => True
  | s :: ss => s.WellFormed ∧ Stmts.WellFormed ss

def FunctionDecl.WellFormed : FunctionDecl → Prop
  | ⟨name, params, body⟩ => name.IsName ∧ (∀ p ∈ params, p.IsName) ∧ Stmts.WellFormed body

def FunctionDecls.WellFormed : List FunctionDecl → Prop
  | [] => True
  | f :: fs => f.WellFormed ∧ FunctionDecls.WellFormed fs

end

theorem Exprs.wellFormed_iff {es : List Expr} :
    Exprs.WellFormed es ↔ ∀ e ∈ es, e.WellFormed := by
  induction es with
  | nil => simp [Exprs.WellFormed]
  | cons e es ih => simp [Exprs.WellFormed, ih]

theorem Stmts.wellFormed_iff {ss : List Stmt} :
    Stmts.WellFormed ss ↔ ∀ s ∈ ss, s.WellFormed := by
  induction ss with
  | nil => simp [Stmts.WellFormed]
  | cons s ss ih => simp [Stmts.WellFormed, ih]

theorem FunctionDecls.wellFormed_iff {fs : List FunctionDecl} :
    FunctionDecls.WellFormed fs ↔ ∀ f ∈ fs, f.WellFormed := by
  induction fs with
  | nil => simp [FunctionDecls.WellFormed]
  | cons f fs ih => simp [FunctionDecls.WellFormed, ih]

theorem FunctionDecl.WellFormed.isName {f : FunctionDecl} (h : f.WellFormed) : f.name.IsName := by
  obtain ⟨name, params, body⟩ := f
  exact h.1

theorem Stmt.WellFormed.isName_declared {s : Stmt} {name : Token} (h : s.WellFormed)
    (hname : s.declared? = some name) : name.IsName := by
  cases s with
  | varDecl name' value =>
    obtain rfl := Option.some.inj hname
    exact h.1
  | funDecl decl =>
    obtain rfl := Option.some.inj hname
    exact FunctionDecl.WellFormed.isName h
  | classDecl decl =>
    obtain rfl := Option.some.inj hname
    obtain ⟨name, superclass, methods, statics⟩ := decl
    exact h.1
  | _ => cases hname

/-! ## Numbers -/

mutual

/-- The nodes of an expression have the numbers from one number on up to another. The last
case is a left operand that stands in the tree twice. -/
inductive Expr.Numbered : NodeId → Expr → NodeId → Prop
  | literal {n : NodeId} {l : Literal} : Expr.Numbered n (.literal l) n
  | grouping {n k : NodeId} {e : Expr} : Expr.Numbered n e k → Expr.Numbered n (.grouping e) k
  | unary {n k : NodeId} {op : Token} {e : Expr} :
      Expr.Numbered n e k → Expr.Numbered n (.unary op e) k
  | binary {n j k : NodeId} {l : Expr} {op : Token} {r : Expr} :
      Expr.Numbered n l j → Expr.Numbered j r k → Expr.Numbered n (.binary l op r) k
  | logical {n j k : NodeId} {l : Expr} {op : Token} {r : Expr} :
      Expr.Numbered n l j → Expr.Numbered j r k → Expr.Numbered n (.logical l op r) k
  | conditional {n i j k : NodeId} {c a b : Expr} :
      Expr.Numbered n c i → Expr.Numbered i a j → Expr.Numbered j b k →
        Expr.Numbered n (.conditional c a b) k
  | var {n : NodeId} {name : Token} : Expr.Numbered n (.var n name) (n + 1)
  | assign {n k : NodeId} {name : Token} {e : Expr} :
      Expr.Numbered (n + 1) e k → Expr.Numbered n (.assign k name e) (k + 1)
  | call {n j k : NodeId} {f : Expr} {paren : Token} {es : List Expr} :
      Expr.Numbered n f j → Exprs.Numbered j es k → Expr.Numbered n (.call f paren es) k
  | get {n k : NodeId} {e : Expr} {name : Token} :
      Expr.Numbered n e k → Expr.Numbered n (.get e name) k
  | set {n j k : NodeId} {e : Expr} {name : Token} {v : Expr} :
      Expr.Numbered n e j → Expr.Numbered j v k → Expr.Numbered n (.set e name v) k
  | thisRef {n : NodeId} {keyword : Token} : Expr.Numbered n (.thisRef n keyword) (n + 1)
  | superRef {n : NodeId} {keyword method : Token} :
      Expr.Numbered n (.superRef n keyword method) (n + 1)
  | coalesce {n j k : NodeId} {l : Expr} {op : Token} {b : Expr} :
      Expr.Numbered n l j → Expr.Numbered j b k →
        Expr.Numbered n (.conditional (.binary l op (.literal .nil)) l b) k

inductive Exprs.Numbered : NodeId → List Expr → NodeId → Prop
  | nil {n : NodeId} : Exprs.Numbered n [] n
  | cons {n j k : NodeId} {e : Expr} {es : List Expr} :
      Expr.Numbered n e j → Exprs.Numbered j es k → Exprs.Numbered n (e :: es) k

end

/-- The nodes of an expression that may be missing have the numbers from one number on up to
another. -/
inductive Expr.OptionNumbered : NodeId → Option Expr → NodeId → Prop
  | none {n : NodeId} : Expr.OptionNumbered n none n
  | some {n k : NodeId} {e : Expr} : Expr.Numbered n e k → Expr.OptionNumbered n (some e) k

/-- The members of a class that are static, or those that are not. -/
def selectMembers (isStatic : Bool) (members : List (Bool × FunctionDecl)) : List FunctionDecl :=
  (members.filter fun m => m.1 == isStatic).map Prod.snd

mutual

/-- The nodes of a statement have the numbers from one number on up to another. Members of a
class are numbered as they are written, whether or not they are static. The last case is the
body of a loop, behind which stands an increment that is read before it. -/
inductive Stmt.Numbered : NodeId → Stmt → NodeId → Prop
  | expression {n k : NodeId} {e : Expr} :
      Expr.Numbered n e k → Stmt.Numbered n (.expression e) k
  | print {n k : NodeId} {e : Expr} : Expr.Numbered n e k → Stmt.Numbered n (.print e) k
  | varDecl {n k : NodeId} {name : Token} {init : Option Expr} :
      Expr.OptionNumbered n init k → Stmt.Numbered n (.varDecl name init) k
  | block {n k : NodeId} {body : List Stmt} :
      Stmts.Numbered n body k → Stmt.Numbered n (.block body) k
  | ifThen {n j k : NodeId} {c : Expr} {a : Stmt} :
      Expr.Numbered n c j → Stmt.Numbered j a k → Stmt.Numbered n (.ifThen c a) k
  | ifElse {n i j k : NodeId} {c : Expr} {a b : Stmt} :
      Expr.Numbered n c i → Stmt.Numbered i a j → Stmt.Numbered j b k →
        Stmt.Numbered n (.ifElse c a b) k
  | whileLoop {n j k : NodeId} {c : Expr} {body : Stmt} :
      Expr.Numbered n c j → Stmt.Numbered j body k → Stmt.Numbered n (.whileLoop c body) k
  | funDecl {n k : NodeId} {decl : FunctionDecl} :
      FunctionDecl.Numbered n decl k → Stmt.Numbered n (.funDecl decl) k
  | returnWith {n k : NodeId} {keyword : Token} {value : Option Expr} :
      Expr.OptionNumbered n value k → Stmt.Numbered n (.returnWith keyword value) k
  | classDecl {n j k : NodeId} {name : Token} {superclass : Option Expr}
      {members : List (Bool × FunctionDecl)} :
      Expr.OptionNumbered n superclass j → Members.Numbered j members k →
        Stmt.Numbered n
          (.classDecl ⟨name, superclass, selectMembers false members, selectMembers true members⟩) k
  | round {n j k : NodeId} {body : Stmt} {increment : Expr} :
      Expr.Numbered n increment j → Stmt.Numbered j body k →
        Stmt.Numbered n (.block [body, .expression increment]) k

inductive Stmts.Numbered : NodeId → List Stmt → NodeId → Prop
  | nil {n : NodeId} : Stmts.Numbered n [] n
  | cons {n j k : NodeId} {s : Stmt} {ss : List Stmt} :
      Stmt.Numbered n s j → Stmts.Numbered j ss k → Stmts.Numbered n (s :: ss) k

inductive FunctionDecl.Numbered : NodeId → FunctionDecl → NodeId → Prop
  | body {n k : NodeId} {name : Token} {params : List Token} {body : List Stmt} :
      Stmts.Numbered n body k → FunctionDecl.Numbered n ⟨name, params, body⟩ k

inductive Members.Numbered : NodeId → List (Bool × FunctionDecl) → NodeId → Prop
  | nil {n : NodeId} : Members.Numbered n [] n
  | cons {n j k : NodeId} {isStatic : Bool} {f : FunctionDecl}
      {ms : List (Bool × FunctionDecl)} :
      FunctionDecl.Numbered n f j → Members.Numbered j ms k →
        Members.Numbered n ((isStatic, f) :: ms) k

end

end Lox
