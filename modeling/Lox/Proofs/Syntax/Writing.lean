import Lox.Proofs.Syntax.Tree
import Lox.Syntax.Parser.Statement

/-!
# How trees are written

A tree is written by the grammar: the tokens that it keeps stand where they belong, and the other
tokens are of the kinds that belong there. No parentheses are added, so only a tree that needs none
is written. Expressions have levels, loosest first: assignments, conditionals, six levels of
operators, the signs, calls and properties, and the rest. The left operand of an operator is on its
level or a tighter one, and the right operand is on a tighter one. Statements have levels as well:
declarations, statements, and statements that an `else` behind them would not become part of.

Loops with `for` and fallbacks are other ways to write what they stand for.

## Main definitions

* `Expr.Written`, `Stmt.Written` — how trees are written.
* `Expr.unnumbered`, `Stmts.unnumbered` — trees without the numbers of their nodes.
-/

namespace Lox

/-- The token stands for a constant. -/
def Token.Denotes (t : Token) : Literal → Prop
  | .number x => ∃ d : Double, t.kind = .number d ∧ d.toFloat = x
  | .string text => t.kind = .string text
  | .bool b => t.is (if b then .kwTrue else .kwFalse) = true
  | .nil => t.is .kwNil = true

/-- A name on its own. -/
def Token.Named (name : Token) (w : List Token) : Prop := name.is .identifier = true ∧ w = [name]

section

variable {α : Type} (R : α → List Token → Prop)

/-- What is written one after the other. -/
inductive InTurn : List α → List Token → Prop
  | nil : InTurn [] []
  | cons {a as u v} : R a u → InTurn as v → InTurn (a :: as) (u ++ v)

/-- What may be missing. -/
inductive Perhaps : Option α → List Token → Prop
  | none : Perhaps none []
  | some {a w} : R a w → Perhaps (some a) w

/-- What is written behind a symbol. -/
inductive Behind (s : Symbol) : α → List Token → Prop
  | mk {a t w} : t.is s = true → R a w → Behind s a (t :: w)

/-- What is written one after the other, each behind a comma. -/
inductive Continued : List α → List Token → Prop
  | nil : Continued [] []
  | cons {a as t u v} : t.is .comma = true → R a u → Continued as v →
      Continued (a :: as) (t :: u ++ v)

/-- No more than `maxArity` entries with commas between them. -/
inductive Separated : List α → List Token → Prop
  | nil : Separated [] []
  | cons {a as u v} : as.length < Parser.maxArity → R a u → Continued R as v →
      Separated (a :: as) (u ++ v)

end

/-! ## How trees are written -/

/-- How an expression is written where one of the level `j`, or of a tighter level, is needed. -/
inductive Expr.Written : Nat → Expr → List Token → Prop
  | literal {j t value} : j ≤ 10 → t.Denotes value → Written j (.literal value) [t]
  | var {j id name} : j ≤ 10 → name.is .identifier = true → Written j (.var id name) [name]
  | thisRef {j id t} : j ≤ 10 → t.is .kwThis = true → Written j (.thisRef id t) [t]
  | superRef {j id t t₁ name} : j ≤ 10 → t.is .kwSuper = true → t₁.is .dot = true →
      name.is .identifier = true → Written j (.superRef id t name) [t, t₁, name]
  | grouping {j e t w t₁} : j ≤ 10 → t.is .leftParen = true → Written 0 e w →
      t₁.is .rightParen = true → Written j (.grouping e) (t :: (w ++ [t₁]))
  | call {j e es u t v t₁} : j ≤ 9 → Written 9 e u → t.is .leftParen = true →
      Separated (Written 0) es v → t₁.is .rightParen = true →
        Written j (.call e t₁ es) (u ++ t :: (v ++ [t₁]))
  | get {j e u t name} : j ≤ 9 → Written 9 e u → t.is .dot = true →
      name.is .identifier = true → Written j (.get e name) (u ++ [t, name])
  | unary {j op e w} : j ≤ 8 → [Symbol.bang, .minus].any op.is = true → Written 8 e w →
      Written j (.unary op e) (op :: w)
  | operation {j i level l op r u v} : j ≤ i + 2 → i < 6 → Parser.levels[i]? = some level →
      Written (i + 2) l u → level.operators.any op.is = true → Written (i + 3) r v →
        Written j (level.node l op r) (u ++ op :: v)
  | conditional {j c a b u t v t₁ w} : j ≤ 1 → Written 2 c u → t.is .question = true →
      Written 0 a v → t₁.is .colon = true → Written 0 b w →
        Written j (.conditional c a b) (u ++ t :: (v ++ t₁ :: w))
  | coalesce {j l r u op v} : j ≤ 1 → Written 2 l u →
      op.is .questionQuestion = true → Written 0 r v →
        Written j (.coalesce l op.line r) (u ++ op :: v)
  | assign {j id name e t w} : j ≤ 0 → name.is .identifier = true → t.is .equal = true →
      Written 0 e w → Written j (.assign id name e) (name :: t :: w)
  | set {j e name e₁ u t t₁ v} : j ≤ 0 → Written 9 e u → t.is .dot = true →
      name.is .identifier = true → t₁.is .equal = true → Written 0 e₁ v →
        Written j (.set e name e₁) (u ++ t :: name :: t₁ :: v)

/-- How the first clause of a `for` loop is written. -/
inductive Stmt.BeforeLoop : Option Stmt → List Token → Prop
  | none {t} : t.is .semicolon = true → BeforeLoop none [t]
  | varDecl {t name o w t₁} : t.is .kwVar = true → name.is .identifier = true →
      Perhaps (Behind (Expr.Written 0) .equal) o w → t₁.is .semicolon = true →
        BeforeLoop (some (.varDecl name o)) (t :: name :: (w ++ [t₁]))
  | expression {e w t} : Expr.Written 0 e w → t.is .semicolon = true →
      BeforeLoop (some (.expression e)) (w ++ [t])

/-- How a superclass is written. -/
def Expr.Named (e : Expr) (w : List Token) : Prop := ∃ id name, e = .var id name ∧ name.Named w

mutual

/-- How a statement is written where one of the level `j` is needed: a declaration, a statement, or
one that an `else` behind it would not become part of. -/
inductive Stmt.Written : Nat → Stmt → List Token → Prop
  | expression {j e w t} : j ≤ 2 → Expr.Written 0 e w → t.is .semicolon = true →
      Stmt.Written j (.expression e) (w ++ [t])
  | print {j t e w t₁} : j ≤ 2 → t.is .kwPrint = true → Expr.Written 0 e w →
      t₁.is .semicolon = true → Stmt.Written j (.print e) (t :: (w ++ [t₁]))
  | returnWith {j t o w t₁} : j ≤ 2 → t.is .kwReturn = true → Perhaps (Expr.Written 0) o w →
      t₁.is .semicolon = true → Stmt.Written j (.returnWith t o) (t :: (w ++ [t₁]))
  | block {j t ss w t₁} : j ≤ 2 → t.is .leftBrace = true → InTurn (Stmt.Written 0) ss w →
      t₁.is .rightBrace = true → Stmt.Written j (.block ss) (t :: (w ++ [t₁]))
  | ifThen {j t t₁ c u t₂ s v} : j ≤ 1 → t.is .kwIf = true → t₁.is .leftParen = true →
      Expr.Written 0 c u → t₂.is .rightParen = true → Stmt.Written 1 s v →
        Stmt.Written j (.ifThen c s) (t :: t₁ :: (u ++ t₂ :: v))
  | ifElse {j k t t₁ c u t₂ s v t₃ s₁ w} : j ≤ k → 1 ≤ k → t.is .kwIf = true →
      t₁.is .leftParen = true → Expr.Written 0 c u → t₂.is .rightParen = true →
        Stmt.Written 2 s v → t₃.is .kwElse = true → Stmt.Written k s₁ w →
          Stmt.Written j (.ifElse c s s₁) (t :: t₁ :: (u ++ t₂ :: (v ++ t₃ :: w)))
  | whileLoop {j k t t₁ c u t₂ s v} : j ≤ k → 1 ≤ k → t.is .kwWhile = true →
      t₁.is .leftParen = true → Expr.Written 0 c u → t₂.is .rightParen = true →
        Stmt.Written k s v →
          Stmt.Written j (.whileLoop c s) (t :: t₁ :: (u ++ t₂ :: v))
  | forLoop {j k t t₁ o u c v t₂ c₁ w t₃ s x} : j ≤ k → 1 ≤ k → t.is .kwFor = true →
      t₁.is .leftParen = true → Stmt.BeforeLoop o u → Perhaps (Expr.Written 0) c v →
        t₂.is .semicolon = true → Perhaps (Expr.Written 0) c₁ w → t₃.is .rightParen = true →
          Stmt.Written k s x → Stmt.Written j (.forLoop o c c₁ s)
            (t :: t₁ :: (u ++ (v ++ [t₂] ++ (w ++ t₃ :: x))))
  | varDecl {t name o w t₁} : t.is .kwVar = true → name.is .identifier = true →
      Perhaps (Behind (Expr.Written 0) .equal) o w → t₁.is .semicolon = true →
        Stmt.Written 0 (.varDecl name o) (t :: name :: (w ++ [t₁]))
  | funDecl {t f w} : t.is .kwFun = true → FunctionDecl.Written f w →
      Stmt.Written 0 (.funDecl f) (t :: w)
  | classDecl {t name o u t₁ ms w t₂} : t.is .kwClass = true → name.is .identifier = true →
      Perhaps (Behind Expr.Named .less) o u → t₁.is .leftBrace = true →
        InTurn (Member.Written) ms w → t₂.is .rightBrace = true →
          Stmt.Written 0 (.classDecl ⟨name, o, (ms.filter fun m => !m.1).map Prod.snd,
            (ms.filter fun m => m.1).map Prod.snd⟩) (t :: name :: (u ++ t₁ :: (w ++ [t₂])))

/-- How a function is written behind its keyword. -/
inductive FunctionDecl.Written : FunctionDecl → List Token → Prop
  | mk {name ps ss t u t₁ t₂ v t₃} : name.is .identifier = true → t.is .leftParen = true →
      Separated Token.Named ps u → t₁.is .rightParen = true → t₂.is .leftBrace = true →
        InTurn (Stmt.Written 0) ss v → t₃.is .rightBrace = true →
          FunctionDecl.Written ⟨name, ps, ss⟩ (name :: t :: (u ++ t₁ :: t₂ :: (v ++ [t₃])))

/-- How a method is written, which may be static. -/
inductive Member.Written : Bool × FunctionDecl → List Token → Prop
  | method {f w} : FunctionDecl.Written f w → Member.Written (false, f) w
  | static {t f w} : t.is .kwStatic = true → FunctionDecl.Written f w →
      Member.Written (true, f) (t :: w)

end

/-! ## Trees without numbers -/

mutual

/-- An expression without the numbers of its nodes. -/
def Expr.unnumbered : Expr → Expr
  | .literal value => .literal value
  | .grouping e => .grouping e.unnumbered
  | .unary op e => .unary op e.unnumbered
  | .binary l op r => .binary l.unnumbered op r.unnumbered
  | .logical l op r => .logical l.unnumbered op r.unnumbered
  | .conditional c a b => .conditional c.unnumbered a.unnumbered b.unnumbered
  | .var _ name => .var 0 name
  | .assign _ name e => .assign 0 name e.unnumbered
  | .call e paren es => .call e.unnumbered paren (Exprs.unnumbered es)
  | .get e name => .get e.unnumbered name
  | .set e name e₁ => .set e.unnumbered name e₁.unnumbered
  | .thisRef _ keyword => .thisRef 0 keyword
  | .superRef _ keyword method => .superRef 0 keyword method

def Exprs.unnumbered : List Expr → List Expr
  | [] => []
  | e :: es => e.unnumbered :: Exprs.unnumbered es

end

mutual

/-- A statement without the numbers of its nodes. -/
def Stmt.unnumbered : Stmt → Stmt
  | .expression e => .expression e.unnumbered
  | .print e => .print e.unnumbered
  | .varDecl name o => .varDecl name (o.map Expr.unnumbered)
  | .block ss => .block (Stmts.unnumbered ss)
  | .ifThen c s => .ifThen c.unnumbered s.unnumbered
  | .ifElse c s s₁ => .ifElse c.unnumbered s.unnumbered s₁.unnumbered
  | .whileLoop c s => .whileLoop c.unnumbered s.unnumbered
  | .funDecl f => .funDecl f.unnumbered
  | .returnWith keyword o => .returnWith keyword (o.map Expr.unnumbered)
  | .classDecl ⟨name, o, methods, statics⟩ =>
    .classDecl ⟨name, o.map Expr.unnumbered, FunctionDecls.unnumbered methods,
      FunctionDecls.unnumbered statics⟩

def Stmts.unnumbered : List Stmt → List Stmt
  | [] => []
  | s :: ss => s.unnumbered :: Stmts.unnumbered ss

def FunctionDecl.unnumbered : FunctionDecl → FunctionDecl
  | ⟨name, params, body⟩ => ⟨name, params, Stmts.unnumbered body⟩

def FunctionDecls.unnumbered : List FunctionDecl → List FunctionDecl
  | [] => []
  | f :: fs => f.unnumbered :: FunctionDecls.unnumbered fs

end

theorem Stmt.unnumbered_forLoop (o : Option Stmt) (c c₁ : Option Expr) (s : Stmt) :
    (forLoop o c c₁ s).unnumbered = forLoop (o.map Stmt.unnumbered) (c.map Expr.unnumbered)
      (c₁.map Expr.unnumbered) s.unnumbered := by
  cases o <;> cases c <;> cases c₁ <;> rfl

end Lox
