import Lox.Syntax.Basic

/-!
# Comparing programs

Whether two programs are the same can be computed: their trees are walked through together, and the
tokens, numbers and constants in them are compared.
-/

namespace Lox

deriving instance DecidableEq for Literal

mutual

def Expr.same : Expr → Expr → Bool
  | .literal a, .literal b => a = b
  | .grouping a, .grouping b => a.same b
  | .unary s a, .unary t b => s = t && a.same b
  | .binary a s c, .binary b t d | .logical a s c, .logical b t d => s = t && a.same b && c.same d
  | .conditional a c e, .conditional b d f => a.same b && c.same d && e.same f
  | .var i s, .var j t | .thisRef i s, .thisRef j t => i = j && s = t
  | .assign i s a, .assign j t b => i = j && s = t && a.same b
  | .call a s as, .call b t bs => s = t && a.same b && Exprs.same as bs
  | .get a s, .get b t => s = t && a.same b
  | .set a s c, .set b t d => s = t && a.same b && c.same d
  | .superRef i s u, .superRef j t v => i = j && s = t && u = v
  | _, _ => false

def Exprs.same : List Expr → List Expr → Bool
  | [], [] => true
  | a :: as, b :: bs => a.same b && Exprs.same as bs
  | _, _ => false

end

theorem Expr.same_iff :
    (∀ a b : Expr, a.same b = true ↔ a = b) ∧
      ∀ as bs : List Expr, Exprs.same as bs = true ↔ as = bs := by
  apply Expr.same.mutual_induct
  all_goals grind [Expr.same, Exprs.same, cases Expr, cases List]

instance : DecidableEq Expr := fun a b => decidable_of_iff _ (Expr.same_iff.1 a b)

mutual

def Stmt.same : Stmt → Stmt → Bool
  | .expression a, .expression b | .print a, .print b => a = b
  | .varDecl s a, .varDecl t b | .returnWith s a, .returnWith t b => s = t && a = b
  | .block as, .block bs => Stmts.same as bs
  | .ifThen a c, .ifThen b d | .whileLoop a c, .whileLoop b d => a = b && c.same d
  | .ifElse a c e, .ifElse b d f => a = b && c.same d && e.same f
  | .funDecl f, .funDecl g => f.same g
  | .classDecl c, .classDecl d => c.same d
  | _, _ => false

def Stmts.same : List Stmt → List Stmt → Bool
  | [], [] => true
  | a :: as, b :: bs => a.same b && Stmts.same as bs
  | _, _ => false

def FunctionDecl.same : FunctionDecl → FunctionDecl → Bool
  | ⟨s, ps, as⟩, ⟨t, qs, bs⟩ => s = t && ps = qs && Stmts.same as bs

def ClassDecl.same : ClassDecl → ClassDecl → Bool
  | ⟨s, a, ms, fs⟩, ⟨t, b, ns, gs⟩ =>
    s = t && a = b && FunctionDecls.same ms ns && FunctionDecls.same fs gs

def FunctionDecls.same : List FunctionDecl → List FunctionDecl → Bool
  | [], [] => true
  | f :: fs, g :: gs => f.same g && FunctionDecls.same fs gs
  | _, _ => false

end

theorem Stmt.same_iff :
    (∀ a b : Stmt, a.same b = true ↔ a = b) ∧
      (∀ c d : ClassDecl, c.same d = true ↔ c = d) ∧
      (∀ fs gs : List FunctionDecl, FunctionDecls.same fs gs = true ↔ fs = gs) ∧
      (∀ f g : FunctionDecl, f.same g = true ↔ f = g) ∧
      ∀ as bs : List Stmt, Stmts.same as bs = true ↔ as = bs := by
  apply Stmt.same.mutual_induct
  all_goals
    grind [Stmt.same, Stmts.same, FunctionDecl.same, ClassDecl.same,
      FunctionDecls.same, cases Stmt, cases List]

instance : DecidableEq Stmt := fun a b => decidable_of_iff _ (Stmt.same_iff.1 a b)

end Lox
