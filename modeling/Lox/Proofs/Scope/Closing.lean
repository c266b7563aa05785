import Lox.Proofs.Scope.Rules
import Lox.Proofs.Table
import Mathlib.Data.List.Sort
import Mathlib.Data.String.Basic

/-!
# Closing scopes

A walk through a program closes the scopes of its blocks and functions, each behind those inside it,
and the scopes that name receivers and superclasses. When a scope is closed, the declarations in it
that nothing has read are reported, by line and text. Since no two of them agree in both, they are
reported in the same order however the names of the scope are listed.
-/

namespace Lox

/-! ## Order -/

/-- One token stands before another: on a line further up, or on the same line with a smaller
text. -/
def Token.Before (t u : Token) : Prop := t.line < u.line ∨ t.line = u.line ∧ t.lexeme < u.lexeme

namespace Scope

theorem comesFirst_iff (t u : Token) :
    comesFirst t u = true ↔ t.Before u ∨ t.line = u.line ∧ t.lexeme = u.lexeme := by
  simp only [comesFirst, Token.Before, Bool.or_eq_true, Bool.and_eq_true, decide_eq_true_eq,
    beq_iff_eq]
  tauto

instance : Std.Total fun t u => comesFirst t u = true where
  total t u := by
    simp only [comesFirst_iff, Token.Before]
    rcases Nat.lt_trichotomy t.line u.line with h | h | h
    · exact .inl (.inl (.inl h))
    · rcases lt_trichotomy t.lexeme u.lexeme with h' | h' | h'
      · exact .inl (.inl (.inr ⟨h, h'⟩))
      · exact .inl (.inr ⟨h, h'⟩)
      · exact .inr (.inl (.inr ⟨h.symm, h'⟩))
    · exact .inr (.inl (.inl h))

instance : IsTrans Token fun t u => comesFirst t u = true where
  trans t u v := by
    simp only [comesFirst_iff, Token.Before]
    rintro ((h | ⟨h, h'⟩) | ⟨h, h'⟩) ((k | ⟨k, k'⟩) | ⟨k, k'⟩)
    · exact .inl (.inl (h.trans k))
    · exact .inl (.inl (k ▸ h))
    · exact .inl (.inl (k ▸ h))
    · exact .inl (.inl (h ▸ k))
    · exact .inl (.inr ⟨h.trans k, h'.trans k'⟩)
    · exact .inl (.inr ⟨h.trans k, k' ▸ h'⟩)
    · exact .inl (.inl (h ▸ k))
    · exact .inl (.inr ⟨h.trans k, h' ▸ k'⟩)
    · exact .inr ⟨h.trans k, h'.trans k'⟩

theorem foldr_insertSorted (ts : List Token) :
    ts.foldr insertSorted [] = ts.insertionSort fun t u => comesFirst t u = true := by
  have hinsert : ∀ (t : Token) (us : List Token),
      insertSorted t us = us.orderedInsert (fun t u => comesFirst t u = true) t := by
    intro t us
    induction us with
    | nil => rfl
    | cons u us ih => rw [insertSorted, List.orderedInsert_cons, ih]
  induction ts with
  | nil => rfl
  | cons t ts ih => rw [List.foldr_cons, ih, hinsert, List.insertionSort_cons]

theorem mem_unused_iff {scope : Scope} {t : Token} :
    t ∈ scope.unused ↔ ∃ v ∈ scope.values, v.used = false ∧ v.token = t := by
  rw [unused, foldr_insertSorted, List.mem_insertionSort]
  simp [and_assoc]

/-- Each name that nothing has read is the text of its declaration. -/
def Labeled (scope : Scope) : Prop :=
  ∀ e ∈ scope.entries, e.2.used = false → e.2.token.lexeme = e.1

/-- The declarations are reported in the order in which they stand, each one once. -/
theorem pairwise_unused {scope : Scope} (hdistinct : scope.Distinct) (hlabeled : scope.Labeled) :
    scope.unused.Pairwise Token.Before := by
  have hsorted : scope.unused.Pairwise fun t u => comesFirst t u = true := by
    rw [unused, foldr_insertSorted]
    exact List.pairwise_insertionSort _ _
  have hlexemes : (scope.unused.map Token.lexeme).Nodup := by
    have hperm : scope.unused.Perm ((scope.values.filter fun v => !v.used).map Variable.token) := by
      rw [unused, foldr_insertSorted]
      exact List.perm_insertionSort _ _
    rw [(hperm.map Token.lexeme).nodup_iff, Table.values, List.filter_map, List.map_map, List.map_map]
    have hnames : (scope.entries.filter ((fun v : Variable => !v.used) ∘ Prod.snd)).map
        ((Token.lexeme ∘ Variable.token) ∘ Prod.snd) =
          (scope.entries.filter ((fun v : Variable => !v.used) ∘ Prod.snd)).map Prod.fst := by
      refine List.map_congr_left fun e he => ?_
      obtain ⟨he, hused⟩ := List.mem_filter.1 he
      exact hlabeled e he (by simpa using hused)
    rw [hnames]
    exact hdistinct.sublist (List.filter_sublist.map _)
  refine (hsorted.and (List.pairwise_map.1 hlexemes)).imp ?_
  rintro t u ⟨hle, hne⟩
  exact ((comesFirst_iff t u).1 hle).resolve_right fun heq => hne heq.2

/-- How the names of a scope are listed does not matter. -/
theorem unused_perm {scope : Scope} (hdistinct : scope.Distinct) (hlabeled : scope.Labeled)
    {entries : List (String × Variable)} (hperm : entries.Perm scope.entries) :
    unused ⟨entries⟩ = scope.unused := by
  have hdistinct' : Table.Distinct ⟨entries⟩ := (hperm.map Prod.fst).nodup_iff.2 hdistinct
  have hlabeled' : Labeled ⟨entries⟩ := fun e he => hlabeled e (hperm.mem_iff.1 he)
  have hreported : (unused ⟨entries⟩).Perm scope.unused := by
    rw [unused, unused, foldr_insertSorted, foldr_insertSorted]
    refine (List.perm_insertionSort _ _).trans (.trans ?_ (List.perm_insertionSort _ _).symm)
    exact ((hperm.map Prod.snd).filter _).map _
  refine hreported.eq_of_pairwise (fun t u _ _ htu hut => ?_) (pairwise_unused hdistinct' hlabeled')
    (pairwise_unused hdistinct hlabeled)
  exfalso
  simp only [Token.Before] at htu hut
  rcases htu with h | ⟨h, h'⟩ <;> rcases hut with k | ⟨k, k'⟩
  · omega
  · omega
  · omega
  · exact lt_asymm h' k'

end Scope

/-! ## The scopes that a walk closes -/

/-- A scope at its end: what it belongs to, and what is known of its names. The scopes that name a
receiver or a superclass declare no name of the program, and belong to nothing here. -/
structure Closing where
  region : Option Region
  scope : Scope

/-- What is reported at the end of a scope. -/
def Closing.reports (c : Closing) : List Diagnostic :=
  c.scope.unused.map fun t => .scoping t.site .neverUsed

/-- A report of a name that nothing reads. -/
def Diagnostic.isNeverUsed : Diagnostic → Bool
  | scoping _ .neverUsed => true
  | _ => false

namespace Resolution

open Walk

/-- The scopes that are closed by a walk in a scope of its own, which is the last one of them. -/
def closingsIn (region : Option Region) (w : Walk Unit) (inner : List Scope → List Closing)
    (scopes : List Scope) : List Closing :=
  inner (∅ :: scopes) ++ [⟨region, (w (∅ :: scopes)).scopes.headD ∅⟩]

mutual

/-- The scopes that are closed by the walk through a statement, from the scopes that are open before
it. -/
def stmtClosings (ctx : Context) : Stmt → List Scope → List Closing
  | .block body, scopes =>
    closingsIn (some (.block body)) (stmts ctx body) (stmtsClosings ctx body) scopes
  | .ifThen c a, scopes => stmtClosings ctx a (expr ctx c scopes).scopes
  | .ifElse c a b, scopes =>
    stmtClosings ctx a (expr ctx c scopes).scopes ++
      stmtClosings ctx b (stmt ctx a (expr ctx c scopes).scopes).scopes
  | .whileLoop c body, scopes => stmtClosings ctx body (expr ctx c scopes).scopes
  | .funDecl decl, scopes =>
    functionClosings { ctx with function := .function } decl
      ((do declare decl.name; define decl.name : Walk Unit) scopes).scopes
  | .classDecl ⟨name, superclass, methodDecls, staticDecls⟩, scopes =>
    let cls := if superclass.isSome then .subclass else .plain
    let clause : Walk Unit := do
      declare name
      superclassClause ctx name superclass
      define name
    let body : Walk Unit := do
      statics { ctx with cls := .static } staticDecls
      withThis name (methods { ctx with cls := cls } methodDecls)
    let inBody (scopes : List Scope) : List Closing :=
      staticsClosings { ctx with cls := .static } staticDecls scopes ++
        closingsIn none (do provide "this" name; methods { ctx with cls := cls } methodDecls)
          (fun scopes =>
            methodsClosings { ctx with cls := cls } methodDecls (provide "this" name scopes).scopes)
          (statics { ctx with cls := .static } staticDecls scopes).scopes
    match superclass with
    | none => inBody (clause scopes).scopes
    | some _ =>
      let token := superclassToken name superclass
      closingsIn none (do provide "super" token; body)
        (fun scopes => inBody (provide "super" token scopes).scopes) (clause scopes).scopes
  | _, _ => []

def stmtsClosings (ctx : Context) : List Stmt → List Scope → List Closing
  | [], _ => []
  | s :: ss, scopes =>
    stmtClosings ctx s scopes ++ stmtsClosings ctx ss (stmt ctx s scopes).scopes

def functionClosings (ctx : Context) : FunctionDecl → List Scope → List Closing
  | ⟨name, ps, body⟩, scopes =>
    closingsIn (some (.call ⟨name, ps, body⟩)) (do params ps; stmts ctx body)
      (fun scopes => stmtsClosings ctx body (params ps scopes).scopes) scopes

def methodsClosings (ctx : Context) : List FunctionDecl → List Scope → List Closing
  | [], _ => []
  | m :: ms, scopes =>
    functionClosings { ctx with function := methodRole m } m scopes ++
      methodsClosings ctx ms (functionBody { ctx with function := methodRole m } m scopes).scopes

def staticsClosings (ctx : Context) : List FunctionDecl → List Scope → List Closing
  | [], _ => []
  | m :: ms, scopes =>
    functionClosings { ctx with function := .function } m scopes ++
      staticsClosings ctx ms (functionBody { ctx with function := .function } m scopes).scopes

end

/-! ## Which scopes are closed -/

def closed (closings : List Closing) : List Region := closings.filterMap Closing.region

theorem closed_append (cs cs' : List Closing) : closed (cs ++ cs') = closed cs ++ closed cs' :=
  List.filterMap_append

theorem closed_closingsIn (region : Option Region) (w : Walk Unit)
    (inner : List Scope → List Closing) (scopes : List Scope) :
    closed (closingsIn region w inner scopes) = closed (inner (∅ :: scopes)) ++ region.toList := by
  rw [closingsIn, closed_append]
  cases region <;> rfl

mutual

/-- The walk through a statement closes the scopes that the statement and those inside it open. -/
theorem mem_closed_stmt (ctx : Context) (path : Path) (s : Stmt) (scopes : List Scope) (r : Region) :
    r ∈ closed (stmtClosings ctx s scopes) ↔ ∃ p ∈ s.parts path, r ∈ p.2.regions := by
  cases s with
  | expression | print | varDecl | returnWith =>
    simp [stmtClosings, closed, Stmt.parts, Stmt.regions]
  | block body =>
    simp only [stmtClosings, closed_closingsIn, List.mem_append, Stmt.parts, List.exists_mem_cons_iff,
      mem_closed_stmts ctx (.block :: path) body, Option.toList_some, Stmt.regions]
    exact or_comm
  | ifThen c a =>
    simp only [stmtClosings, Stmt.parts, List.exists_mem_cons_iff, mem_closed_stmt ctx path a,
      Stmt.regions, List.not_mem_nil, false_or]
  | ifElse c a b =>
    simp only [stmtClosings, closed_append, List.mem_append, Stmt.parts, List.exists_mem_cons_iff,
      mem_closed_stmt ctx path a, mem_closed_stmt ctx path b, Stmt.regions, List.not_mem_nil,
      false_or, or_and_right, exists_or]
  | whileLoop c body =>
    simp only [stmtClosings, Stmt.parts, List.exists_mem_cons_iff, mem_closed_stmt ctx path body,
      Stmt.regions, List.not_mem_nil, false_or]
  | funDecl decl =>
    simp only [stmtClosings, Stmt.parts, List.exists_mem_cons_iff, Stmt.regions, List.mem_singleton,
      mem_closed_function _ (.function decl :: path) decl]
  | classDecl decl =>
    obtain ⟨name, superclass, ms, ss⟩ := decl
    have hstatics (ctx : Context) (scopes : List Scope) :=
      mem_closed_statics ctx (fun f => .staticMethod ⟨name, superclass, ms, ss⟩ f :: path) ss scopes r
    have hmethods (ctx : Context) (scopes : List Scope) :=
      mem_closed_methods ctx (fun f => .method ⟨name, superclass, ms, ss⟩ f :: path) ms scopes r
    have hregions : r ∈ (Stmt.classDecl ⟨name, superclass, ms, ss⟩).regions ↔
        r ∈ ss.map .call ∨ r ∈ ms.map .call := by
      rw [Stmt.regions, List.map_append, List.mem_append]
    simp only [Stmt.parts, List.exists_mem_cons_iff, hregions, List.mem_append, or_and_right,
      exists_or]
    cases superclass with
    | none =>
      simp only [stmtClosings, closed_append, closed_closingsIn, List.mem_append, hstatics, hmethods,
        Option.toList_none, List.not_mem_nil, or_false]
      exact or_or_or_comm
    | some e =>
      simp only [stmtClosings, closed_append, closed_closingsIn, List.mem_append, hstatics, hmethods,
        Option.toList_none, List.not_mem_nil, or_false]
      exact or_or_or_comm

theorem mem_closed_stmts (ctx : Context) (path : Path) (ss : List Stmt) (scopes : List Scope)
    (r : Region) :
    r ∈ closed (stmtsClosings ctx ss scopes) ↔ ∃ p ∈ Stmts.parts path ss, r ∈ p.2.regions := by
  cases ss with
  | nil => simp [stmtsClosings, closed, Stmts.parts]
  | cons s ss =>
    simp only [stmtsClosings, closed_append, List.mem_append, Stmts.parts, mem_closed_stmt ctx path s,
      mem_closed_stmts ctx path ss, or_and_right, exists_or]

theorem mem_closed_function (ctx : Context) (path : Path) (f : FunctionDecl) (scopes : List Scope)
    (r : Region) :
    r ∈ closed (functionClosings ctx f scopes) ↔
      r = .call f ∨ ∃ p ∈ f.parts path, r ∈ p.2.regions := by
  obtain ⟨name, ps, body⟩ := f
  simp only [functionClosings, closed_closingsIn, List.mem_append, FunctionDecl.parts,
    mem_closed_stmts ctx path body, Option.toList_some, List.mem_singleton]
  exact or_comm

theorem mem_closed_methods (ctx : Context) (place : FunctionDecl → Path) (ms : List FunctionDecl)
    (scopes : List Scope) (r : Region) :
    r ∈ closed (methodsClosings ctx ms scopes) ↔
      r ∈ ms.map .call ∨ ∃ p ∈ FunctionDecls.parts place ms, r ∈ p.2.regions := by
  cases ms with
  | nil => simp [methodsClosings, closed, FunctionDecls.parts]
  | cons m ms =>
    simp only [methodsClosings, closed_append, List.mem_append, FunctionDecls.parts, List.map_cons,
      List.mem_cons, mem_closed_function _ (place m) m, mem_closed_methods ctx place ms,
      or_and_right, exists_or]
    exact or_or_or_comm

theorem mem_closed_statics (ctx : Context) (place : FunctionDecl → Path) (ms : List FunctionDecl)
    (scopes : List Scope) (r : Region) :
    r ∈ closed (staticsClosings ctx ms scopes) ↔
      r ∈ ms.map .call ∨ ∃ p ∈ FunctionDecls.parts place ms, r ∈ p.2.regions := by
  cases ms with
  | nil => simp [staticsClosings, closed, FunctionDecls.parts]
  | cons m ms =>
    simp only [staticsClosings, closed_append, List.mem_append, FunctionDecls.parts, List.map_cons,
      List.mem_cons, mem_closed_function _ (place m) m, mem_closed_statics ctx place ms,
      or_and_right, exists_or]
    exact or_or_or_comm

end

end Resolution

end Lox
