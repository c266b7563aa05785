import Lox.Syntax.Basic

/-!
# Programs on other lines and with other numbers

The same text may stand further down in a source, and the nodes that it is read as may be
numbered from another number on. Trees that differ in this way only are relabelings of each
other. A relabeling keeps all that a program does but the lines that its faults are on.
-/

namespace Lox

/-- Other lines for tokens, and how much is added to the numbers of nodes. -/
structure Relabeling where
  line : Nat → Nat
  shift : Nat

namespace Relabeling

def move (lines numbers : Nat) : Relabeling := ⟨(· + lines), numbers⟩

def erase : Relabeling := ⟨fun _ => 0, 0⟩

@[simp] theorem line_move (lines numbers line : Nat) :
    (move lines numbers).line line = line + lines := rfl

@[simp] theorem shift_move (lines numbers : Nat) : (move lines numbers).shift = numbers := rfl

end Relabeling

variable (r : Relabeling)

def Token.relabel (t : Token) : Token := { t with line := r.line t.line }

namespace Token

@[simp] theorem kind_relabel (t : Token) : (t.relabel r).kind = t.kind := rfl

@[simp] theorem lexeme_relabel (t : Token) : (t.relabel r).lexeme = t.lexeme := rfl

@[simp] theorem line_relabel (t : Token) : (t.relabel r).line = r.line t.line := rfl

@[simp] theorem is_relabel (t : Token) (s : Symbol) : (t.relabel r).is s = t.is s := rfl

@[simp] theorem isEnd_relabel (t : Token) : (t.relabel r).isEnd = t.isEnd := rfl

@[simp] theorem relabel_endMark (line : Nat) :
    (endMark line).relabel r = endMark (r.line line) := rfl

end Token

/-! ## Expressions -/

mutual

/-- An expression on other lines and with other numbers. -/
def Expr.relabel : Expr → Expr
  | .literal value => .literal value
  | .grouping inner => .grouping inner.relabel
  | .unary op operand => .unary (op.relabel r) operand.relabel
  | .binary left op right => .binary left.relabel (op.relabel r) right.relabel
  | .logical left op right => .logical left.relabel (op.relabel r) right.relabel
  | .conditional c a b => .conditional c.relabel a.relabel b.relabel
  | .var id name => .var (id + r.shift) (name.relabel r)
  | .assign id name value => .assign (id + r.shift) (name.relabel r) value.relabel
  | .call callee paren arguments =>
    .call callee.relabel (paren.relabel r) (Exprs.relabel arguments)
  | .get object name => .get object.relabel (name.relabel r)
  | .set object name value => .set object.relabel (name.relabel r) value.relabel
  | .thisRef id keyword => .thisRef (id + r.shift) (keyword.relabel r)
  | .superRef id keyword method =>
    .superRef (id + r.shift) (keyword.relabel r) (method.relabel r)

def Exprs.relabel : List Expr → List Expr
  | [] => []
  | e :: es => e.relabel :: Exprs.relabel es

end

theorem Exprs.relabel_eq_map (es : List Expr) : Exprs.relabel r es = es.map (Expr.relabel r) := by
  induction es with
  | nil => rfl
  | cons e es ih => rw [Exprs.relabel, ih, List.map_cons]

theorem Expr.relabel_coalesce (left : Expr) (line : Nat) (fallback : Expr) :
    (coalesce left line fallback).relabel r =
      coalesce (left.relabel r) (r.line line) (fallback.relabel r) := rfl

/-! ## Statements -/

mutual

/-- A statement on other lines and with other numbers. -/
def Stmt.relabel : Stmt → Stmt
  | .expression e => .expression (e.relabel r)
  | .print e => .print (e.relabel r)
  | .varDecl name value => .varDecl (name.relabel r) (value.map (Expr.relabel r))
  | .block body => .block (Stmts.relabel body)
  | .ifThen c a => .ifThen (c.relabel r) a.relabel
  | .ifElse c a b => .ifElse (c.relabel r) a.relabel b.relabel
  | .whileLoop c body => .whileLoop (c.relabel r) body.relabel
  | .funDecl decl => .funDecl decl.relabel
  | .returnWith keyword value => .returnWith (keyword.relabel r) (value.map (Expr.relabel r))
  | .classDecl ⟨name, superclass, methods, statics⟩ =>
    .classDecl ⟨name.relabel r, superclass.map (Expr.relabel r), FunctionDecls.relabel methods,
      FunctionDecls.relabel statics⟩

def Stmts.relabel : List Stmt → List Stmt
  | [] => []
  | s :: ss => s.relabel :: Stmts.relabel ss

def FunctionDecl.relabel : FunctionDecl → FunctionDecl
  | ⟨name, params, body⟩ => ⟨name.relabel r, params.map (Token.relabel r), Stmts.relabel body⟩

def FunctionDecls.relabel : List FunctionDecl → List FunctionDecl
  | [] => []
  | f :: fs => f.relabel :: FunctionDecls.relabel fs

end

theorem Stmts.relabel_eq_map (ss : List Stmt) : Stmts.relabel r ss = ss.map (Stmt.relabel r) := by
  induction ss with
  | nil => rfl
  | cons s ss ih => rw [Stmts.relabel, ih, List.map_cons]

theorem FunctionDecls.relabel_eq_map (fs : List FunctionDecl) :
    FunctionDecls.relabel r fs = fs.map (FunctionDecl.relabel r) := by
  induction fs with
  | nil => rfl
  | cons f fs ih => rw [FunctionDecls.relabel, ih, List.map_cons]

namespace FunctionDecl

@[simp] theorem name_relabel (f : FunctionDecl) : (f.relabel r).name = f.name.relabel r := by
  obtain ⟨name, params, body⟩ := f
  rfl

end FunctionDecl

theorem Stmt.relabel_forLoop (initializer : Option Stmt) (condition increment : Option Expr)
    (body : Stmt) :
    (forLoop initializer condition increment body).relabel r =
      forLoop (initializer.map (Stmt.relabel r)) (condition.map (Expr.relabel r))
        (increment.map (Expr.relabel r)) (body.relabel r) := by
  cases initializer <;> cases condition <;> cases increment <;> rfl

theorem relabel_superclassToken (name : Token) (superclass : Option Expr) :
    (superclassToken name superclass).relabel r =
      superclassToken (name.relabel r) (superclass.map (Expr.relabel r)) := by
  rcases superclass with _ | e
  · rfl
  · cases e <;> rfl

/-! ## Programs as they were -/

theorem Token.relabel_move_zero (t : Token) (k : Nat) : t.relabel (.move 0 k) = t := rfl

mutual

theorem Expr.relabel_zero (e : Expr) : e.relabel (.move 0 0) = e := by
  cases e with
  | literal value => rfl
  | grouping inner => simp only [Expr.relabel, inner.relabel_zero]
  | unary op operand => simp only [Expr.relabel, operand.relabel_zero, Token.relabel_move_zero]
  | binary left op right =>
    simp only [Expr.relabel, left.relabel_zero, right.relabel_zero, Token.relabel_move_zero]
  | logical left op right =>
    simp only [Expr.relabel, left.relabel_zero, right.relabel_zero, Token.relabel_move_zero]
  | conditional c a b => simp only [Expr.relabel, c.relabel_zero, a.relabel_zero, b.relabel_zero]
  | var id name => rfl
  | assign id name value => simp only [Expr.relabel, value.relabel_zero]; rfl
  | call callee paren arguments =>
    simp only [Expr.relabel, callee.relabel_zero, Exprs.relabel_zero arguments,
      Token.relabel_move_zero]
  | get object name => simp only [Expr.relabel, object.relabel_zero, Token.relabel_move_zero]
  | set object name value =>
    simp only [Expr.relabel, object.relabel_zero, value.relabel_zero, Token.relabel_move_zero]
  | thisRef id keyword => rfl
  | superRef id keyword method => rfl

theorem Exprs.relabel_zero (es : List Expr) : Exprs.relabel (.move 0 0) es = es := by
  cases es with
  | nil => rfl
  | cons e es => simp only [Exprs.relabel, e.relabel_zero, Exprs.relabel_zero es]

end

theorem Expr.map_relabel_zero (o : Option Expr) : o.map (Expr.relabel (.move 0 0)) = o := by
  cases o with
  | none => rfl
  | some e => rw [Option.map_some, e.relabel_zero]

mutual

theorem Stmt.relabel_zero (s : Stmt) : s.relabel (.move 0 0) = s := by
  cases s with
  | expression e => simp only [Stmt.relabel, e.relabel_zero]
  | print e => simp only [Stmt.relabel, e.relabel_zero]
  | varDecl name value => simp only [Stmt.relabel, Expr.map_relabel_zero, Token.relabel_move_zero]
  | block body => simp only [Stmt.relabel, Stmts.relabel_zero body]
  | ifThen c a => simp only [Stmt.relabel, c.relabel_zero, a.relabel_zero]
  | ifElse c a b => simp only [Stmt.relabel, c.relabel_zero, a.relabel_zero, b.relabel_zero]
  | whileLoop c body => simp only [Stmt.relabel, c.relabel_zero, body.relabel_zero]
  | funDecl decl => simp only [Stmt.relabel, decl.relabel_zero]
  | returnWith keyword value =>
    simp only [Stmt.relabel, Expr.map_relabel_zero, Token.relabel_move_zero]
  | classDecl decl =>
    obtain ⟨name, superclass, methods, statics⟩ := decl
    simp only [Stmt.relabel, Expr.map_relabel_zero, Token.relabel_move_zero,
      FunctionDecls.relabel_zero methods, FunctionDecls.relabel_zero statics]

theorem Stmts.relabel_zero (ss : List Stmt) : Stmts.relabel (.move 0 0) ss = ss := by
  cases ss with
  | nil => rfl
  | cons s ss => simp only [Stmts.relabel, s.relabel_zero, Stmts.relabel_zero ss]

theorem FunctionDecl.relabel_zero (f : FunctionDecl) : f.relabel (.move 0 0) = f := by
  obtain ⟨name, params, body⟩ := f
  have hparams : params.map (Token.relabel (.move 0 0)) = params := List.map_id _
  rw [FunctionDecl.relabel, Stmts.relabel_zero body, hparams, Token.relabel_move_zero]

theorem FunctionDecls.relabel_zero (fs : List FunctionDecl) :
    FunctionDecls.relabel (.move 0 0) fs = fs := by
  cases fs with
  | nil => rfl
  | cons f fs => simp only [FunctionDecls.relabel, f.relabel_zero, FunctionDecls.relabel_zero fs]

end

end Lox
