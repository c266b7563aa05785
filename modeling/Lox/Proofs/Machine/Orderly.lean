import Lox.Proofs.Machine.Runs
import Lox.Proofs.Machine.Soundness
import Lox.Proofs.Scope.Enforcement

/-!
# Orderly code

Code is orderly if it is as it is read and no scope in it declares a name twice. The parts of
orderly code are orderly, and so are programs whose names are bound without a report. On an orderly
heap all functions have such code.
-/

namespace Lox

variable {s : Stmt} {ss : List Stmt} {h : Heap} {c : Closure}

/-! ## Statements and functions -/

/-- In no statement among these parts of a program is a scope opened that declares a name twice. It
does not matter what the parts stand in. -/
def Distinct (parts : Path → List (Path × Stmt)) : Prop :=
  ∃ path, ∀ part ∈ parts path, ∀ region ∈ part.2.regions, region.declares.Nodup

/-- A statement as it is read, without a scope that declares a name twice. -/
def Stmt.Orderly (s : Stmt) : Prop := s.WellFormed ∧ Distinct s.parts

def Stmts.Orderly (ss : List Stmt) : Prop := Stmts.WellFormed ss ∧ Distinct (Stmts.parts · ss)

def FunctionDecl.Orderly (f : FunctionDecl) : Prop :=
  f.WellFormed ∧ (Region.call f).declares.Nodup ∧ Distinct (FunctionDecl.parts · f)

theorem Distinct.of_subset {parts parts' : Path → List (Path × Stmt)} (h : Distinct parts)
    (hsub : ∀ path, ∃ path', parts' path' ⊆ parts path) : Distinct parts' := by
  obtain ⟨path, h⟩ := h
  obtain ⟨path', hsub⟩ := hsub path
  exact ⟨path', fun part hpart => h part (hsub hpart)⟩

theorem Stmts.Orderly.head (h : Stmts.Orderly (s :: ss)) :
    s.Orderly := ⟨h.1.1, h.2.of_subset fun path => ⟨path, List.subset_append_left _ _⟩⟩

theorem Stmts.Orderly.tail (h : Stmts.Orderly (s :: ss)) :
    Stmts.Orderly ss := ⟨h.1.2, h.2.of_subset fun path => ⟨path, List.subset_append_right _ _⟩⟩

theorem Stmts.Orderly.of_mem (h : Stmts.Orderly ss) : ∀ s ∈ ss, s.Orderly := by
  induction ss with
  | nil => nofun
  | cons s ss ih => exact List.forall_mem_cons.2 ⟨h.head, ih h.tail⟩

theorem FunctionDecl.Orderly.body {f : FunctionDecl} (h : f.Orderly) : Stmts.Orderly f.body := by
  obtain ⟨name, params, body⟩ := f
  exact ⟨h.1.2.2, h.2.2⟩

theorem Stmt.Orderly.block {body : List Stmt} (h : (Stmt.block body).Orderly) :
    Stmts.Orderly body :=
  ⟨h.1, h.2.of_subset fun path => ⟨.block :: path, List.subset_cons_self _ _⟩⟩

/-- A branch of a statement is as it is read, and so is a loop behind a round of it. -/
theorem Stmt.Orderly.branch {a : Stmt} (h : s.Orderly) (ha : a ∈ s.branches) : a.Orderly := by
  cases s with
  | ifThen c b =>
    obtain rfl := List.mem_singleton.1 ha
    exact ⟨h.1.2.2, h.2.of_subset fun path => ⟨path, List.subset_cons_self _ _⟩⟩
  | ifElse c b b' =>
    rcases List.mem_cons.1 ha with rfl | ha
    · refine ⟨h.1.2.1.2, h.2.of_subset fun path => ⟨path, ?_⟩⟩
      exact List.Subset.trans (List.subset_append_left _ _) (List.subset_cons_self _ _)
    · obtain rfl := List.mem_singleton.1 ha
      refine ⟨h.1.2.2.2, h.2.of_subset fun path => ⟨path, ?_⟩⟩
      exact List.Subset.trans (List.subset_append_right _ _) (List.subset_cons_self _ _)
  | whileLoop c body =>
    rcases List.mem_cons.1 ha with rfl | ha
    · exact ⟨h.1.2.2, h.2.of_subset fun path => ⟨path, List.subset_cons_self _ _⟩⟩
    · obtain rfl := List.mem_singleton.1 ha
      exact h
  | _ => cases ha

theorem Stmt.Orderly.funDecl {decl : FunctionDecl} (h : (Stmt.funDecl decl).Orderly) :
    decl.Orderly := by
  refine ⟨h.1, ?_, h.2.of_subset fun path => ⟨.function decl :: path, List.subset_cons_self _ _⟩⟩
  obtain ⟨path, h⟩ := h.2
  exact h _ List.mem_cons_self _ List.mem_cons_self

/-- The members of a class are as they are read. -/
theorem Stmt.Orderly.members {decl : ClassDecl} (h : (Stmt.classDecl decl).Orderly) :
    ∀ f ∈ decl.statics ++ decl.methods, f.Orderly := by
  obtain ⟨name, superclass, methods, statics⟩ := decl
  obtain ⟨⟨-, -, hmethods, hstatics⟩, path, h⟩ := h
  obtain ⟨hself, hparts⟩ := List.forall_mem_cons.1 h
  obtain ⟨hstatic, hmethod⟩ := List.forall_mem_append.1 hparts
  rw [FunctionDecls.forall_parts] at hstatic hmethod
  intro f hf
  have hdistinct := hself (.call f) (List.mem_map_of_mem hf)
  rcases List.mem_append.1 hf with hf | hf
  · exact ⟨FunctionDecls.wellFormed_iff.1 hstatics f hf, hdistinct, _, hstatic f hf⟩
  · exact ⟨FunctionDecls.wellFormed_iff.1 hmethods f hf, hdistinct, _, hmethod f hf⟩

/-- A program that is read and whose names are bound without a report is orderly. -/
theorem orderly_of_resolve {program : List Stmt} (hwf : Stmts.WellFormed program)
    (h : (resolve program).faults = []) : Stmts.Orderly program :=
  ⟨hwf, [], fun part hpart => ((silent_resolve_iff hwf).1 h part hpart).distinct⟩

/-! ## Expressions -/

/-- The part of an expression that is evaluated first is as it is read. -/
theorem Expr.WellFormed.first {e e' : Expr} (he : e.WellFormed) (h : e.first? = some e') :
    e'.WellFormed := by
  cases e with
  | literal | var | thisRef | superRef => cases h
  | grouping | get =>
    cases h
    exact he
  | unary | assign =>
    cases h
    exact he.2
  | binary =>
    cases h
    exact he.2.1
  | logical | conditional | call | set =>
    cases h
    exact he.1

/-- A superclass is an expression as it is read. -/
theorem Expr.SuperclassWellFormed.wellFormed {o : Option Expr} (h : Expr.SuperclassWellFormed o) :
    ∀ e ∈ o, e.WellFormed := by
  rintro e rfl
  cases e with
  | var id name => exact h
  | _ => exact h.elim

/-- The expressions of a statement are as they are read. -/
theorem Stmt.WellFormed.expressions (h : s.WellFormed) : ∀ e ∈ s.expressions, e.WellFormed := by
  have hoption : ∀ {o : Option Expr}, Expr.OptionWellFormed o → ∀ e ∈ o.toList, e.WellFormed := by
    intro o ho e he
    cases o with
    | none => cases he
    | some e' =>
      obtain rfl := List.mem_singleton.1 he
      exact ho
  cases s with
  | expression e => exact List.forall_mem_singleton.2 h
  | print e => exact List.forall_mem_singleton.2 h
  | varDecl name value => exact hoption h.2
  | block body => nofun
  | ifThen c a => exact List.forall_mem_singleton.2 h.1
  | ifElse c a b => exact List.forall_mem_singleton.2 h.1
  | whileLoop c body => exact List.forall_mem_singleton.2 h.1
  | funDecl decl => nofun
  | returnWith keyword value => exact hoption h
  | classDecl decl =>
    obtain ⟨name, superclass, methods, statics⟩ := decl
    exact fun e he => h.2.1.wellFormed e (Option.mem_toList.1 he)

/-! ## Heaps -/

/-- All functions on a heap have orderly code, and the methods of classes that are initializers are
known to be. -/
abbrev Heap.Orderly : Heap → Prop :=
  Heap.All (·.decl.Orderly) fun m => m.decl.Orderly ∧ m.isInitializer = m.decl.isInitializer

theorem Heap.Orderly.member? (hh : h.Orderly) {start : ClassId} {i : InstanceId} {name : String}
    (hc : h.member? start i name = some (.method c)) :
    c.decl.Orderly ∧ c.isInitializer = c.decl.isInitializer := by
  obtain ⟨id, hid⟩ := Heap.exists_of_member? hc
  exact hh.methods id name c hid

/-- A function that may be called is on the heap. -/
theorem Heap.Orderly.callable? (hh : h.Orderly) {callee : Value} {f : Callable}
    (hf : h.callable? callee = some f) : ∀ c, f = .closure c → c.decl.Orderly := by
  rintro c rfl
  cases callee with
  | function id =>
    cases hf
    exact hh.functions id
  | _ => cases hf

/-! ## Runs -/

/-- A task has to do with orderly code. -/
def Task.Orderly : Task → Prop
  | .evaluate e => e.WellFormed
  | .evaluateAll es => Exprs.WellFormed es
  | .execute s => s.Orderly
  | .executeAll ss | .block _ ss | .program ss => Stmts.Orderly ss
  | .call _ _ _ => True
  | .invoke f _ => ∀ c, f = .closure c → c.decl.Orderly
  | .closure c _ => c.decl.Orderly

def Run.Orderly (r : Run) : Prop := r.machine.heap.Orderly ∧ r.task.Orderly

end Lox
