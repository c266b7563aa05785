import Lox.Scope.Resolution

/-!
# Where programs return

A `return` is allowed in functions only, and one with a value not in the initializer of a class.
Which function a `return` is in is decided by the nearest declaration around it, so blocks,
conditionals and loops hand on the kind of the function, and declarations of functions and classes
set it anew. A walk through a program that reports nothing has found each `return` to be allowed.
-/

namespace Lox

/-- Whether a function of the given kind may have a `return`, with a value or without. -/
def FunctionRole.AllowsReturn (role : FunctionRole) (value : Option Expr) : Prop :=
  role ≠ .topLevel ∧ (value.isSome → role ≠ .initializer)

mutual

/-- The returns in a statement are allowed in a function of the given kind. -/
def Stmt.ReturnsIn (role : FunctionRole) : Stmt → Prop
  | .expression _ | .print _ | .varDecl _ _ => True
  | .block body => Stmts.ReturnsIn role body
  | .ifThen _ a => a.ReturnsIn role
  | .ifElse _ a b => a.ReturnsIn role ∧ b.ReturnsIn role
  | .whileLoop _ body => body.ReturnsIn role
  | .funDecl decl => decl.ReturnsIn .function
  | .returnWith _ value => role.AllowsReturn value
  | .classDecl ⟨_, _, methods, statics⟩ =>
    FunctionDecls.ReturnsIn Resolution.methodRole methods ∧
      FunctionDecls.ReturnsIn (fun _ => .function) statics

def Stmts.ReturnsIn (role : FunctionRole) : List Stmt → Prop
  | [] => True
  | s :: ss => s.ReturnsIn role ∧ Stmts.ReturnsIn role ss

def FunctionDecl.ReturnsIn (role : FunctionRole) : FunctionDecl → Prop
  | ⟨_, _, body⟩ => Stmts.ReturnsIn role body

/-- The returns of functions are allowed if each is of the kind that `role` says. -/
def FunctionDecls.ReturnsIn (role : FunctionDecl → FunctionRole) : List FunctionDecl → Prop
  | [] => True
  | f :: fs => f.ReturnsIn (role f) ∧ FunctionDecls.ReturnsIn role fs

end

theorem Stmts.returnsIn_iff {role : FunctionRole} {ss : List Stmt} :
    Stmts.ReturnsIn role ss ↔ ∀ s ∈ ss, s.ReturnsIn role := by
  induction ss with
  | nil => simp [Stmts.ReturnsIn]
  | cons s ss ih => rw [Stmts.ReturnsIn, ih, List.forall_mem_cons]

theorem FunctionDecl.returnsIn_iff {role : FunctionRole} {f : FunctionDecl} :
    f.ReturnsIn role ↔ Stmts.ReturnsIn role f.body := by
  obtain ⟨name, params, body⟩ := f
  rfl

theorem FunctionDecls.returnsIn_iff {role : FunctionDecl → FunctionRole}
    {fs : List FunctionDecl} :
    FunctionDecls.ReturnsIn role fs ↔ ∀ f ∈ fs, f.ReturnsIn (role f) := by
  induction fs with
  | nil => simp [FunctionDecls.ReturnsIn]
  | cons f fs ih => rw [FunctionDecls.ReturnsIn, ih, List.forall_mem_cons]

/-! ## Walks that report nothing -/

namespace Walk

variable {α β : Type}

/-- There are scopes from which a walk reports nothing. -/
def Quiet (w : Walk α) : Prop := ∃ scopes, (w scopes).findings.faults = []

theorem not_quiet_report (t : Token) (fault : ScopeFault) : ¬ (report t fault).Quiet := by
  rintro ⟨scopes, h⟩
  cases h

/-- Two walks one after the other report nothing if neither does. -/
theorem Quiet.of_bind {w : Walk α} {f : α → Walk β} (h : (w >>= f).Quiet) :
    w.Quiet ∧ ∃ a, (f a).Quiet := by
  obtain ⟨scopes, h⟩ := h
  obtain ⟨hw, hf⟩ := List.append_eq_nil_iff.1 h
  exact ⟨⟨scopes, hw⟩, _, _, hf⟩

theorem Quiet.then {w : Walk α} {w' : Walk β} (h : (w >>= fun _ => w').Quiet) : w'.Quiet :=
  h.of_bind.2.elim fun _ h => h

theorem Quiet.of_inScope {w : Walk Unit} (h : (inScope w).Quiet) : w.Quiet := h.then.of_bind.1

end Walk

namespace Resolution

open Walk

variable {ctx : Context}

theorem allowsReturn_of_quiet {keyword : Token} {value : Option Expr}
    (h : (returnRules ctx keyword value).Quiet) : ctx.function.AllowsReturn value := by
  unfold returnRules at h
  simp only at h
  split at h
  case isTrue htop => exact absurd h.of_bind.1 (not_quiet_report _ _)
  case isFalse htop =>
    refine ⟨htop, fun hvalue hinit => ?_⟩
    rw [hvalue, hinit] at h
    exact not_quiet_report _ _ h

theorem Quiet.of_withSuper {token : Token} {superclass : Option Expr} {w : Walk Unit}
    (h : (withSuper token superclass w).Quiet) : w.Quiet := by
  cases superclass with
  | none => exact h
  | some e => exact (Quiet.of_inScope h).then

mutual

/-- Each return that is not allowed is reported. -/
theorem returnsIn_of_quiet_stmt (ctx : Context) (s : Stmt) (h : (stmt ctx s).Quiet) :
    s.ReturnsIn ctx.function := by
  cases s with
  | expression e => trivial
  | print e => trivial
  | varDecl name value => trivial
  | block body => exact returnsIn_of_quiet_stmts ctx body h.of_inScope
  | ifThen c a => exact returnsIn_of_quiet_stmt ctx a h.then
  | ifElse c a b =>
    exact ⟨returnsIn_of_quiet_stmt ctx a h.then.of_bind.1,
      returnsIn_of_quiet_stmt ctx b h.then.then⟩
  | whileLoop c body => exact returnsIn_of_quiet_stmt ctx body h.then
  | funDecl decl =>
    exact returnsIn_of_quiet_functionBody { ctx with function := .function } decl h.then.then
  | returnWith keyword value => exact allowsReturn_of_quiet h.of_bind.1
  | classDecl decl =>
    obtain ⟨name, superclass, ms, ss⟩ := decl
    have hbody := Quiet.of_withSuper h.then.then.then
    exact ⟨returnsIn_of_quiet_methods _ ms hbody.then.of_inScope.then,
      returnsIn_of_quiet_statics _ ss hbody.of_bind.1⟩

theorem returnsIn_of_quiet_stmts (ctx : Context) (ss : List Stmt) (h : (stmts ctx ss).Quiet) :
    Stmts.ReturnsIn ctx.function ss := by
  cases ss with
  | nil => trivial
  | cons s ss =>
    exact ⟨returnsIn_of_quiet_stmt ctx s h.of_bind.1, returnsIn_of_quiet_stmts ctx ss h.then⟩

theorem returnsIn_of_quiet_functionBody (ctx : Context) (f : FunctionDecl)
    (h : (functionBody ctx f).Quiet) : f.ReturnsIn ctx.function := by
  obtain ⟨name, ps, body⟩ := f
  exact returnsIn_of_quiet_stmts ctx body (Quiet.of_inScope h).then

theorem returnsIn_of_quiet_methods (ctx : Context) (ms : List FunctionDecl)
    (h : (methods ctx ms).Quiet) : FunctionDecls.ReturnsIn methodRole ms := by
  cases ms with
  | nil => trivial
  | cons m ms =>
    exact ⟨returnsIn_of_quiet_functionBody { ctx with function := methodRole m } m h.of_bind.1,
      returnsIn_of_quiet_methods ctx ms h.then⟩

theorem returnsIn_of_quiet_statics (ctx : Context) (ms : List FunctionDecl)
    (h : (statics ctx ms).Quiet) : FunctionDecls.ReturnsIn (fun _ => .function) ms := by
  cases ms with
  | nil => trivial
  | cons m ms =>
    exact ⟨returnsIn_of_quiet_functionBody { ctx with function := .function } m h.of_bind.1,
      returnsIn_of_quiet_statics ctx ms h.then⟩

end

end Resolution

/-- The returns of a program are allowed if the walk through it reports nothing. -/
theorem returnsIn_of_resolve {program : List Stmt} (h : (resolve program).faults = []) :
    Stmts.ReturnsIn .topLevel program :=
  Resolution.returnsIn_of_quiet_stmts {} program ⟨[], h⟩

end Lox
