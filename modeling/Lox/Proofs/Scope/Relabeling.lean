import Lox.Proofs.Scope.Binding
import Lox.Proofs.Syntax.Relabeling

/-!
# Binding the names of programs elsewhere

Lines and numbers of nodes play no part in the walk that binds names: the walk through a program
with other lines and numbers reports something if and only if the walk through the program
does, and binds the same nodes at the same depths. The order of what it reports may differ,
since that goes by lines; if the lines are the same, so is what it reports.

At the top level no scope is open, before a program and behind it. So the names of two programs
one behind the other are bound as the names of each of them.
-/

namespace Lox

variable {r : Relabeling}

def Variable.relabel (r : Relabeling) (v : Variable) : Variable :=
  { v with token := v.token.relabel r }

def Scope.relabel (r : Relabeling) (scope : Scope) : Scope := scope.map (Variable.relabel r)

def Binding.relabel (r : Relabeling) (b : Binding) : Binding := { b with id := b.id + r.shift }

theorem Findings.append_assoc (f g h : Findings) : f ++ g ++ h = f ++ (g ++ h) := by
  change Findings.mk (f.bindings ++ g.bindings ++ h.bindings) (f.faults ++ g.faults ++ h.faults) =
    Findings.mk (f.bindings ++ (g.bindings ++ h.bindings)) (f.faults ++ (g.faults ++ h.faults))
  rw [List.append_assoc, List.append_assoc]

def Relabeling.KeepsLines (r : Relabeling) : Prop := ∀ line, r.line line = line

theorem Relabeling.keepsLines_move (numbers : Nat) : (move 0 numbers).KeepsLines := fun _ => rfl

theorem Relabeling.KeepsLines.token (h : r.KeepsLines) (t : Token) : t.relabel r = t := by
  rw [Token.relabel, h]

namespace Scope

theorem relabel_of_keepsLines (h : r.KeepsLines) (scope : Scope) : scope.relabel r = scope := by
  have hid : ∀ v : Variable, v.relabel r = v := fun v => by rw [Variable.relabel, h.token]
  simp only [relabel, Table.map, hid]
  exact congrArg Table.mk (List.map_id' _)

theorem insertSorted_ne_nil (t : Token) (ts : List Token) : insertSorted t ts ≠ [] := by
  cases ts with
  | nil => exact List.cons_ne_nil _ _
  | cons u ts =>
    unfold insertSorted
    split <;> exact List.cons_ne_nil _ _

/-- A name is left without a report if and only if it has been read. -/
theorem unused_eq_nil_iff (scope : Scope) :
    scope.unused = [] ↔ ∀ v ∈ scope.values, v.used = true := by
  have hsort : ∀ ts : List Token, ts.foldr insertSorted [] = [] ↔ ts = [] := by
    intro ts
    cases ts with
    | nil => simp
    | cons t ts => simp [insertSorted_ne_nil]
  rw [unused, hsort]
  simp [List.filter_eq_nil_iff]

@[simp] theorem unused_relabel_eq_nil_iff (scope : Scope) :
    (scope.relabel r).unused = [] ↔ scope.unused = [] := by
  simp [unused_eq_nil_iff, relabel, Table.values_map, Variable.relabel]

@[simp] theorem contains_relabel (scope : Scope) (name : String) :
    (scope.relabel r).contains name = scope.contains name := Table.contains_map scope name

theorem relabel_insert (scope : Scope) (name : String) (v : Variable) :
    Scope.relabel r (scope.insert name v) = (scope.relabel r).insert name (v.relabel r) :=
  Table.map_insert scope name v

theorem relabel_modify (scope : Scope) (name : String) {g : Variable → Variable}
    (h : ∀ v, (g v).relabel r = g (v.relabel r)) :
    Scope.relabel r (scope.modify name g) = (scope.relabel r).modify name g :=
  Table.map_modify scope name h

end Scope

theorem Scopes.depth?_relabel (scopes : List Scope) (name : String) :
    Scopes.depth? (scopes.map (Scope.relabel r)) name = Scopes.depth? scopes name := by
  simp [Scopes.depth?, List.findIdx?_map, Function.comp_def]

theorem Scopes.markUsed_relabel (scopes : List Scope) (name : String) :
    Scopes.markUsed name (scopes.map (Scope.relabel r)) =
      (Scopes.markUsed name scopes).map (Scope.relabel r) := by
  induction scopes with
  | nil => rfl
  | cons scope scopes ih =>
    simp only [List.map_cons, Scopes.markUsed, Scope.contains_relabel]
    split
    · rw [List.map_cons, Scope.relabel_modify scope name]
      exact fun _ => rfl
    · rw [List.map_cons, ih]

namespace Walk

variable {α β : Type}

/-- From scopes with their declarations on other lines, `w'` gives what `w` gives, binds the same
nodes with other numbers, and reports something if and only if `w` does. If the lines are the same,
it reports what `w` reports. -/
structure Relabels (r : Relabeling) (w w' : Walk α) : Prop where
  value : ∀ scopes, (w' (scopes.map (Scope.relabel r))).value = (w scopes).value
  scopes : ∀ scopes,
    (w' (scopes.map (Scope.relabel r))).scopes = (w scopes).scopes.map (Scope.relabel r)
  bindings : ∀ scopes, (w' (scopes.map (Scope.relabel r))).findings.bindings =
    (w scopes).findings.bindings.map (Binding.relabel r)
  faults : ∀ scopes, (w' (scopes.map (Scope.relabel r))).findings.faults = [] ↔
    (w scopes).findings.faults = []
  reports : r.KeepsLines → ∀ scopes,
    (w' (scopes.map (Scope.relabel r))).findings.faults = (w scopes).findings.faults

theorem relabels_pure (a : α) : Relabels r (pure a) (pure a) :=
  ⟨fun _ => rfl, fun _ => rfl, fun _ => rfl, fun _ => Iff.rfl, fun _ _ => rfl⟩

theorem Relabels.bind {w w' : Walk α} {f f' : α → Walk β} (hw : w.Relabels r w')
    (hf : ∀ a, (f a).Relabels r (f' a)) : (w >>= f).Relabels r (w' >>= f') where
  value scopes := by
    rw [bind_apply, bind_apply, hw.value, hw.scopes]
    exact (hf _).value _
  scopes scopes := by
    rw [bind_apply, bind_apply, hw.value, hw.scopes]
    exact (hf _).scopes _
  bindings scopes := by
    simp only [bind_apply, hw.value, hw.scopes, Findings.bindings_append, hw.bindings,
      (hf _).bindings, List.map_append]
  faults scopes := by
    simp only [bind_apply, hw.value, hw.scopes, Findings.faults_append, List.append_eq_nil_iff,
      hw.faults, (hf _).faults]
  reports hr scopes := by
    simp only [bind_apply, hw.value, hw.scopes, Findings.faults_append, hw.reports hr,
      (hf _).reports hr]

theorem relabels_report {t : Token} {fault : ScopeFault} :
    Relabels r (report t fault) (report (t.relabel r) fault) where
  value _ := rfl
  scopes _ := rfl
  bindings _ := rfl
  faults _ :=
    ⟨fun h => absurd h (List.cons_ne_nil _ _), fun h => absurd h (List.cons_ne_nil _ _)⟩
  reports hr _ := by rw [hr.token]; rfl

/-- A walk that finds nothing. -/
theorem relabels_of_silent {w w' : Walk α} (hsilent : ∀ scopes, (w scopes).findings = {})
    (h : ∀ scopes, w' (scopes.map (Scope.relabel r)) =
      ⟨(w scopes).value, (w scopes).scopes.map (Scope.relabel r), {}⟩) : w.Relabels r w' where
  value scopes := by rw [h]
  scopes scopes := by rw [h]
  bindings scopes := by rw [h, hsilent]; rfl
  faults scopes := by rw [h, hsilent]
  reports _ scopes := by rw [h, hsilent]

theorem relabels_openScope : Relabels r openScope openScope :=
  relabels_of_silent (fun _ => rfl) fun _ => rfl

theorem relabels_closeScope : Relabels r closeScope closeScope where
  value scopes := by cases scopes <;> rfl
  scopes scopes := by cases scopes <;> rfl
  bindings scopes := by cases scopes <;> rfl
  faults scopes := by
    cases scopes with
    | nil => exact Iff.rfl
    | cons scope scopes => simp [closeScope]
  reports hr scopes := by
    cases scopes with
    | nil => rfl
    | cons scope scopes => simp only [List.map_cons, closeScope, Scope.relabel_of_keepsLines hr]

theorem Relabels.inScope {w w' : Walk Unit} (h : w.Relabels r w') :
    (inScope w).Relabels r (inScope w') :=
  relabels_openScope.bind fun _ => h.bind fun _ => relabels_closeScope

theorem relabels_define (name : Token) : (define name).Relabels r (define (name.relabel r)) := by
  refine relabels_of_silent (fun scopes => ?_) fun scopes => ?_
  · cases scopes <;> rfl
  · cases scopes with
    | nil => rfl
    | cons scope outer =>
      simp only [define, List.map_cons, Token.lexeme_relabel]
      rw [Scope.relabel_modify scope name.lexeme]
      exact fun _ => rfl

theorem relabels_provide (name : String) (t : Token) :
    (provide name t).Relabels r (provide name (t.relabel r)) := by
  refine relabels_of_silent (fun scopes => ?_) fun scopes => ?_
  · cases scopes <;> rfl
  · cases scopes with
    | nil => rfl
    | cons scope outer =>
      simp only [provide, List.map_cons, Scope.relabel_insert]
      rfl

theorem relabels_inInitializer (name : String) :
    (inInitializer name).Relabels r (inInitializer name) := by
  refine relabels_of_silent (fun _ => rfl) fun scopes => ?_
  cases scopes with
  | nil => rfl
  | cons scope outer =>
    simp only [inInitializer, List.map_cons, List.head?_cons, Option.bind_some, Scope.relabel,
      Table.get?_map, Option.any_map]
    rfl

theorem relabels_bindNode (id : NodeId) (name : Token) :
    (bindNode id name).Relabels r (bindNode (id + r.shift) (name.relabel r)) where
  value _ := rfl
  scopes _ := rfl
  bindings scopes := by
    simp only [bindNode, Token.lexeme_relabel, Scopes.depth?_relabel]
    rfl
  faults _ := Iff.rfl
  reports _ _ := rfl

theorem relabels_bindRead (id : NodeId) (name : Token) :
    (bindRead id name).Relabels r (bindRead (id + r.shift) (name.relabel r)) := by
  refine (relabels_bindNode id name).bind fun _ => ?_
  refine relabels_of_silent (fun _ => rfl) fun scopes => ?_
  simp only [markUsed, Token.lexeme_relabel, Scopes.markUsed_relabel]

/-- Whether a name may be declared depends on its text, and not on its line. -/
theorem relabels_declare (name : Token) : (declare name).Relabels r (declare (name.relabel r)) := by
  have hdeclare : ∀ scope : Scope, ∀ outer,
      declare (name.relabel r) ((scope :: outer).map (Scope.relabel r)) =
        if scope.contains name.lexeme then
          report (name.relabel r) .alreadyDeclared ((scope :: outer).map (Scope.relabel r))
        else ⟨(), (scope.insert name.lexeme ⟨name, false, false⟩ :: outer).map
            (Scope.relabel r), {}⟩ := by
    intro scope outer
    simp only [declare, List.map_cons, Token.lexeme_relabel, Scope.contains_relabel,
      Scope.relabel_insert]
    rfl
  constructor
  · intro scopes
    rfl
  · intro scopes
    cases scopes with
    | nil => rfl
    | cons scope outer =>
      rw [hdeclare, declare]
      split <;> rfl
  · intro scopes
    cases scopes with
    | nil => rfl
    | cons scope outer =>
      rw [hdeclare, declare]
      split <;> rfl
  · intro scopes
    cases scopes with
    | nil => exact Iff.rfl
    | cons scope outer =>
      rw [hdeclare, declare]
      split
      · exact relabels_report.faults (scope :: outer)
      · exact Iff.rfl
  · intro hr scopes
    cases scopes with
    | nil => rfl
    | cons scope outer =>
      rw [hdeclare, declare]
      split
      · exact relabels_report.reports hr (scope :: outer)
      · rfl

end Walk

namespace Resolution

open Walk

mutual

theorem relabels_expr (ctx : Context) (e : Expr) :
    (expr ctx e).Relabels r (expr ctx (e.relabel r)) := by
  cases e with
  | literal => exact relabels_pure ()
  | grouping inner => exact relabels_expr ctx inner
  | unary op operand => exact relabels_expr ctx operand
  | binary left op right => exact (relabels_expr ctx left).bind fun _ => relabels_expr ctx right
  | logical left op right => exact (relabels_expr ctx left).bind fun _ => relabels_expr ctx right
  | conditional c a b =>
    exact (relabels_expr ctx c).bind fun _ => (relabels_expr ctx a).bind fun _ => relabels_expr ctx b
  | var id name =>
    refine (relabels_inInitializer name.lexeme).bind fun pending => ?_
    cases pending with
    | true => exact relabels_report.bind fun _ => relabels_bindRead id name
    | false => exact relabels_bindRead id name
  | assign id name value =>
    exact (relabels_expr ctx value).bind fun _ => relabels_bindNode id name
  | call callee paren arguments =>
    exact (relabels_expr ctx callee).bind fun _ => relabels_exprs ctx arguments
  | get object name => exact relabels_expr ctx object
  | set object name value =>
    exact (relabels_expr ctx value).bind fun _ => relabels_expr ctx object
  | thisRef id keyword =>
    rw [Expr.relabel, expr, expr, receiver, receiver]
    split
    · exact relabels_report
    · exact relabels_report
    · exact relabels_bindRead id keyword
    · exact relabels_bindRead id keyword
  | superRef id keyword method =>
    rw [Expr.relabel, expr, expr, superclass, superclass]
    split
    · exact relabels_report
    · exact relabels_report
    · exact relabels_report
    · exact relabels_bindRead id keyword

theorem relabels_exprs (ctx : Context) (es : List Expr) :
    (exprs ctx es).Relabels r (exprs ctx (Exprs.relabel r es)) := by
  cases es with
  | nil => exact relabels_pure ()
  | cons e es => exact (relabels_expr ctx e).bind fun _ => relabels_exprs ctx es

end

theorem relabels_optional (ctx : Context) (o : Option Expr) :
    (optional ctx o).Relabels r (optional ctx (o.map (Expr.relabel r))) := by
  cases o with
  | none => exact relabels_pure ()
  | some e => exact relabels_expr ctx e

theorem relabels_params (ps : List Token) :
    (params ps).Relabels r (params (ps.map (Token.relabel r))) := by
  induction ps with
  | nil => exact relabels_pure ()
  | cons p ps ih => exact (relabels_declare p).bind fun _ => (relabels_define p).bind fun _ => ih

theorem relabels_superclassClause (ctx : Context) (name : Token) (o : Option Expr) :
    (superclassClause ctx name o).Relabels r
      (superclassClause ctx (name.relabel r) (o.map (Expr.relabel r))) := by
  cases o with
  | none => exact relabels_pure ()
  | some e =>
    have hexpr := relabels_expr (r := r) { ctx with cls := .subclass } e
    cases e with
    | var id superName =>
      cases hself : superName.lexeme == name.lexeme with
      | true =>
        simp only [superclassClause, Option.map_some, Expr.relabel, Token.lexeme_relabel, hself]
        exact relabels_report.bind fun _ => hexpr
      | false =>
        simp only [superclassClause, Option.map_some, Expr.relabel, Token.lexeme_relabel, hself]
        exact hexpr
    | _ => exact hexpr

theorem relabels_returnRules (ctx : Context) (keyword : Token) (value : Option Expr) :
    (returnRules ctx keyword value).Relabels r
      (returnRules ctx (keyword.relabel r) (value.map (Expr.relabel r))) := by
  have hvalue : Walk.Relabels r
      (if value.isSome && ctx.function = .initializer then
        report keyword .returnValueFromInitializer else pure ())
      (if value.isSome && ctx.function = .initializer then
        report (keyword.relabel r) .returnValueFromInitializer else pure ()) := by
    split
    · exact relabels_report
    · exact relabels_pure ()
  simp only [returnRules, Option.isSome_map]
  split
  · exact relabels_report.bind fun _ => hvalue
  · exact hvalue

theorem methodRole_relabel (f : FunctionDecl) : methodRole (f.relabel r) = methodRole f := by
  simp [methodRole, FunctionDecl.isInitializer]

mutual

theorem relabels_stmt (ctx : Context) (s : Stmt) :
    (stmt ctx s).Relabels r (stmt ctx (s.relabel r)) := by
  cases s with
  | expression e => exact relabels_expr ctx e
  | print e => exact relabels_expr ctx e
  | varDecl name value =>
    exact (relabels_declare name).bind fun _ => (relabels_optional ctx value).bind fun _ =>
      relabels_define name
  | block body => exact (relabels_stmts ctx body).inScope
  | ifThen c a => exact (relabels_expr ctx c).bind fun _ => relabels_stmt ctx a
  | ifElse c a b =>
    exact (relabels_expr ctx c).bind fun _ => (relabels_stmt ctx a).bind fun _ => relabels_stmt ctx b
  | whileLoop c body => exact (relabels_expr ctx c).bind fun _ => relabels_stmt ctx body
  | funDecl decl =>
    have hbody := relabels_functionBody { ctx with function := .function } decl
    have hname := FunctionDecl.name_relabel r decl
    simp only [Stmt.relabel, stmt, hname]
    exact (relabels_declare decl.name).bind fun _ => (relabels_define decl.name).bind fun _ => hbody
  | returnWith keyword value =>
    exact (relabels_returnRules ctx keyword value).bind fun _ => relabels_optional ctx value
  | classDecl decl =>
    obtain ⟨name, superclass, ms, ss⟩ := decl
    have hmembers : ∀ cls : ClassRole, Walk.Relabels r
        (do
          statics { ctx with cls := .static } ss
          withThis name (methods { ctx with cls := cls } ms))
        (do
          statics { ctx with cls := .static } (FunctionDecls.relabel r ss)
          withThis (name.relabel r)
            (methods { ctx with cls := cls } (FunctionDecls.relabel r ms))) := fun cls =>
      (relabels_statics _ ss).bind fun _ =>
        Relabels.inScope ((relabels_provide "this" name).bind fun _ => relabels_methods _ ms)
    refine (relabels_declare name).bind fun _ =>
      (relabels_superclassClause ctx name superclass).bind fun _ =>
        (relabels_define name).bind fun _ => ?_
    cases superclass with
    | none => exact hmembers _
    | some e =>
      have htoken := relabel_superclassToken r name (some e)
      simp only [Option.map_some] at htoken
      simp only [withSuper, Option.map_some, ← htoken]
      exact Relabels.inScope ((relabels_provide "super" _).bind fun _ => hmembers _)

theorem relabels_stmts (ctx : Context) (ss : List Stmt) :
    (stmts ctx ss).Relabels r (stmts ctx (Stmts.relabel r ss)) := by
  cases ss with
  | nil => exact relabels_pure ()
  | cons s ss => exact (relabels_stmt ctx s).bind fun _ => relabels_stmts ctx ss

theorem relabels_functionBody (ctx : Context) (f : FunctionDecl) :
    (functionBody ctx f).Relabels r (functionBody ctx (f.relabel r)) := by
  obtain ⟨name, ps, body⟩ := f
  exact Relabels.inScope ((relabels_params ps).bind fun _ => relabels_stmts ctx body)

theorem relabels_methods (ctx : Context) (ms : List FunctionDecl) :
    (methods ctx ms).Relabels r (methods ctx (FunctionDecls.relabel r ms)) := by
  cases ms with
  | nil => exact relabels_pure ()
  | cons m ms =>
    have hrole := methodRole_relabel (r := r) m
    simp only [FunctionDecls.relabel, methods, hrole]
    exact (relabels_functionBody _ m).bind fun _ => relabels_methods ctx ms

theorem relabels_statics (ctx : Context) (ms : List FunctionDecl) :
    (statics ctx ms).Relabels r (statics ctx (FunctionDecls.relabel r ms)) := by
  cases ms with
  | nil => exact relabels_pure ()
  | cons m ms => exact (relabels_functionBody _ m).bind fun _ => relabels_statics ctx ms

end

theorem stmts_append (ctx : Context) (ss ss' : List Stmt) (scopes : List Scope) :
    stmts ctx (ss ++ ss') scopes = (do stmts ctx ss; stmts ctx ss' : Walk Unit) scopes := by
  induction ss generalizing scopes with
  | nil => rfl
  | cons s ss ih =>
    simp only [List.cons_append, stmts, bind_apply, ih, Findings.append_assoc]

end Resolution

/-- The names of a program with other lines and numbers. -/
theorem resolve_relabel (program : List Stmt) :
    (resolve (Stmts.relabel r program)).bindings =
        (resolve program).bindings.map (Binding.relabel r) ∧
      ((resolve (Stmts.relabel r program)).faults = [] ↔ (resolve program).faults = []) :=
  ⟨(Resolution.relabels_stmts {} program).bindings [],
    (Resolution.relabels_stmts {} program).faults []⟩

/-- A program with other numbers has the same faults. -/
theorem faults_resolve_move (program : List Stmt) (k : Nat) :
    (resolve (Stmts.relabel (.move 0 k) program)).faults = (resolve program).faults :=
  (Resolution.relabels_stmts {} program).reports (Relabeling.keepsLines_move k) []

/-- Behind a program no scope is open, so the names of two programs are bound one by one. -/
theorem resolve_append {program : List Stmt} (hwf : Stmts.WellFormed program)
    (h : (resolve program).faults = []) (other : List Stmt) :
    resolve (program ++ other) = resolve program ++ resolve other := by
  have hlayers : ∀ ss : List Stmt, ss.foldl Layers.after [] = [] := by
    intro ss
    induction ss with
    | nil => rfl
    | cons s ss ih =>
      have hs : Layers.after [] s = [] := by
        unfold Layers.after
        split <;> rfl
      rw [List.foldl_cons, hs, ih]
  have hmirrors := (Resolution.follows_stmts program hwf (by simp [Walk.Settled]) [] .nil h).1
  rw [hlayers] at hmirrors
  have hscopes : (Resolution.stmts {} program []).scopes = [] := by
    generalize (Resolution.stmts {} program []).scopes = scopes at hmirrors
    cases hmirrors
    rfl
  simp only [resolve, Resolution.stmts_append, Walk.bind_apply, hscopes]

end Lox
